import ScopeMachine.Proofs.Calls.Binding
import ScopeMachine.Proofs.Calls.Nesting
import ScopeMachine.Proofs.Construction.Making
import ScopeMachine.Proofs.Storage.HeldOnHeap

namespace ScopeMachine

open ScopeMachine.Action

variable {Code : Type}

namespace Heap

variable {heap : Heap Code} {object : ScopeId} {name : String}

/-- The value of the member that a scope has under a name. -/
def method? (heap : Heap Code) (id : ScopeId) (name : String) : Option Value :=
  (heap.ownMember id name).1.map heap.memory.value

theorem ownMember_object {owner : Option FunctionId}
    (kind : (heap.scope object).kind = .object owner) (name : String) :
    heap.ownMember object name = (heap.declared? object name, heap) :=
  ownMember_eq (by simp [Scope.variant, ScopeKind.variant, kind]) (by rw [kind]; rfl) name

private theorem method?_object {owner : Option FunctionId}
    (kind : (heap.scope object).kind = .object owner) (name : String) :
    heap.method? object name = (heap.declared? object name).map heap.memory.value := by
  rw [method?, ownMember_object kind]

private theorem named?_createMember {id : ScopeId} {permission : Permission}
    (old : (heap.landing permission id).index < heap.scopes.size) (name : String) :
    (heap.createMember id name permission).2.named? (heap.landing permission id) name =
      some (heap.createMember id name permission).1 := by
  unfold createMember
  generalize heap.landing permission id = target at old ⊢
  dsimp only
  rw [named?_modifyCell]
  have known := Index.slot?_insert_self (heap.scope target).index name permission
  generalize (heap.scope target).index.insert name permission = inserted at known ⊢
  have here := scope_modifyScope_self old fun scope => { scope with index := inserted.2 }
  have still := Nat.lt_of_lt_of_eq old
    (size_modifyScope heap target fun scope => { scope with index := inserted.2 }).symm
  generalize (heap.modifyScope target fun scope => { scope with index := inserted.2 }) = renamed
    at here still ⊢
  unfold slotCell named?
  dsimp only
  rw [scope_modifyScope_self (by exact still)]
  change (((renamed.scope target).index.slot? name).bind fun slot => _) = _
  rw [here]
  dsimp only
  rw [known]
  exact Table.cell?_cellAt ..

private theorem assign_eq_ok {cell : CellId} {value : Value} {after : Heap Code}
    (assigned : heap.assign cell name value = (.ok (), after)) :
    ∃ written : Cell, after = heap.modifyCell cell (fun _ => written) ∧ written.value = value ∧
      written.isVisible = (heap.cell cell).isVisible := by
  unfold Heap.assign Memory.assign at assigned
  cases wrote : (heap.memory.cell cell).assign name value with
  | error fault =>
      rw [wrote] at assigned
      cases assigned
  | ok written =>
      rw [wrote] at assigned
      cases assigned
      refine ⟨written, rfl, ?_⟩
      unfold Cell.assign at wrote
      split at wrote
      next => cases wrote
      next =>
        cases wrote
        exact ⟨rfl, rfl⟩

private theorem method?_of_assigned {owner : Option FunctionId} {permission : Permission}
    {value : Value}
    {after : Heap Code} (kind : (heap.scope object).kind = .object owner)
    (assigned : (heap.createMember object name permission).2.assign
      (heap.createMember object name permission).1 name value = (.ok (), after))
    (seen : (after.ownMember object name).1.isSome = true) :
    after.method? object name = some value := by
  have landed : heap.landing permission object = object := landingWithin_object kind ..
  have old : object.index < heap.scopes.size := by
    refine Nat.lt_of_not_le fun absent => ?_
    rw [scope_of_size_le absent] at kind
    cases kind
  have aligned := createMember_aligned heap object name permission
  have there := named?_createMember (landed.symm ▸ old) name
  rw [landed] at there
  generalize heap.createMember object name permission = made at assigned aligned there
  obtain ⟨written, rfl, content, -⟩ := assign_eq_ok assigned
  have there := (named?_modifyCell made.2 made.1 (fun _ => written) object name).trans there
  have kind : ((made.2.modifyCell made.1 fun _ => written).scope object).kind = .object owner :=
    (aligned.kind object).trans kind
  rw [method?_object kind, declared?, there]
  rw [ownMember_object kind, declared?, there] at seen
  obtain ⟨_, found⟩ := Option.isSome_iff_exists.mp seen
  dsimp only at found
  obtain ⟨same, visible⟩ := Option.filter_eq_some_iff.mp found
  cases Option.some.inj same
  rw [Option.filter_some, if_pos visible]
  have present : made.1.index < made.2.memory.cells.size := by
    refine Nat.lt_of_not_le fun absent => ?_
    have blank : (made.2.modifyCell made.1 fun _ => written).cell made.1 = .blank := by
      simp [Heap.cell, Memory.cell, modifyCell, Memory.modifyCell, absent]
    rw [blank] at visible
    cases visible
  exact congrArg some ((congrArg Cell.value (Memory.cell_modifyCell_self present _)).trans content)

private theorem createMember_aloof (aloof : (heap.scope object).members.Aloof heap.memory)
    (sound : heap.memory.Sound) (old : object.index < heap.scopes.size) {permission : Permission}
    (landed : heap.landing permission object = object) (name : String) :
    ((heap.createMember object name permission).2.scope object).members.Aloof
      (heap.createMember object name permission).2.memory := by
  unfold Heap.createMember
  rw [landed]
  dsimp only
  generalize (heap.scope object).index.insert name permission = inserted
  have here := scope_modifyScope_self old fun scope => { scope with index := inserted.2 }
  have old : object.index <
      (heap.modifyScope object fun scope => { scope with index := inserted.2 }).scopes.size :=
    Nat.lt_of_lt_of_eq old (size_modifyScope ..).symm
  have memory : (heap.modifyScope object fun scope =>
    { scope with index := inserted.2 }).memory = heap.memory := rfl
  generalize (heap.modifyScope object fun scope => { scope with index := inserted.2 }) = renamed
    at here old memory ⊢
  have table : ((renamed.slotCell object inserted.1).2.scope object).members =
      ((renamed.scope object).members.cellAt inserted.1 renamed.memory).2.1 :=
    congrArg Scope.members (scope_modifyScope_self (by exact old) _)
  refine Table.Aloof.continues ?_ (Memory.modifyCell_confined ..).continues
  change ((renamed.slotCell object inserted.1).2.scope object).members.Aloof _
  rw [table]
  refine (Table.cellAt_staysDetached ..).aloof (memory ▸ sound) ?_
  rw [here, memory]
  exact aloof

/-- The object keeps its members on the heap, in cells that no slot names, and what it has under the
name is not struck out. -/
structure Exhibits (heap : Heap Code) (object : ScopeId) (name : String) : Prop where
  furnishes : heap.Furnishes (· = object)
  aloof : (heap.scope object).members.Aloof heap.memory
  shown : ∀ {cell : CellId}, heap.named? object name = some cell →
    (heap.cell cell).isVisible = true

private theorem named?_of_empty (bare : (heap.scope object).members = .empty) (name : String) :
    heap.named? object name = none := by
  unfold named?
  rw [bare]
  exact Option.bind_eq_none_iff.mpr fun slot _ => rfl

theorem method?_of_empty {owner : Option FunctionId}
    (kind : (heap.scope object).kind = .object owner)
    (bare : (heap.scope object).members = .empty) (name : String) :
    heap.method? object name = none := by
  rw [method?_object kind, declared?, named?_of_empty bare]
  rfl

theorem exhibits_of_empty (old : object.index < heap.scopes.size)
    (bare : (heap.scope object).members = .empty) (name : String) :
    heap.Exhibits object name := by
  refine ⟨furnishes_of_empty old bare, bare ▸ Table.aloof_empty _, fun found => ?_⟩
  cases (named?_of_empty bare name).symm.trans found

namespace Exhibits

variable {heap' : Heap Code} {owner : Option FunctionId} {permission : Permission}
  (exhibits : heap.Exhibits object name)

include exhibits

private theorem declared?_eq : heap.declared? object name = heap.named? object name := by
  unfold declared?
  cases found : heap.named? object name with
  | none => rfl
  | some cell => rw [Option.filter_some, exhibits.shown found, if_pos rfl]

private theorem stay (shared : CellId → Bool) (kind : (heap.scope object).kind = .object owner)
    (size : heap.scopes.size ≤ heap'.scopes.size) (same : heap'.scope object = heap.scope object)
    (keeps : heap.memory.KeepsHeld shared (fun _ => False) heap'.memory) :
    heap'.Exhibits object name ∧ heap'.method? object name = heap.method? object name := by
  have furnishes : heap'.Furnishes (· = object) := by
    refine ⟨?_, ?_, ?_, ?_, ?_⟩
    · rintro _ rfl
      exact Nat.lt_of_lt_of_le (exhibits.furnishes.old rfl) size
    · rintro _ rfl
      exact same ▸ exhibits.furnishes.onHeap rfl
    · rintro _ rfl
      exact same ▸ exhibits.furnishes.listed rfl
    · rintro _ rfl
      rw [same]
      exact fun cell listed =>
        Nat.lt_of_lt_of_le (exhibits.furnishes.present rfl cell listed) keeps.size
    · rintro _ _ slot slot' cell rfl rfl
      rw [same]
      exact exhibits.furnishes.unique rfl rfl
  have names : heap'.named? object name = heap.named? object name := by
    rw [furnishes.named?_eq rfl, exhibits.furnishes.named?_eq rfl, same]
  have cell {cell : CellId} (found : heap.named? object name = some cell) :
      heap'.cell cell = heap.cell cell := by
    have listed := exhibits.furnishes.mem_of_named? rfl found
    exact keeps.cell (exhibits.aloof.old listed) (.inr (exhibits.aloof.unnamed listed)) id
  have stays : heap'.Exhibits object name := by
    refine ⟨furnishes, same ▸ exhibits.aloof.continues keeps.continues, fun found => ?_⟩
    rw [names] at found
    exact cell found ▸ exhibits.shown found
  refine ⟨stays, ?_⟩
  rw [method?_object kind, method?_object (same ▸ kind), stays.declared?_eq,
    exhibits.declared?_eq, names]
  cases found : heap.named? object name with
  | none => rfl
  | some found' => exact congrArg some (congrArg Cell.value (cell found))

private theorem newFunction (kind : (heap.scope object).kind = .object owner)
    (function : Function Code) :
    (heap.newFunction function).2.Exhibits object name :=
  And.left (exhibits.stay (fun _ => false) kind (Nat.le_refl _) rfl (.refl ..))

private theorem redeclare (sound : heap.memory.Sound)
    (kind : (heap.scope object).kind = .object owner)
    (valid : permission.isInvalid = false) {value : Value}
    (assigned : (heap.createMember object name permission).2.assign
      (heap.createMember object name permission).1 name value = (.ok (), heap')) :
    heap'.Exhibits object name ∧ (heap'.ownMember object name).1.isSome = true := by
  have landed : heap.landing permission object = object := landingWithin_object kind ..
  have created := exhibits.furnishes.createMember landed name
  obtain ⟨furnishes, reached, content, -⟩ := created
  have aloof := createMember_aloof exhibits.aloof sound (exhibits.furnishes.old rfl) landed name
  have stays := (createMember_aligned heap object name permission).kind object
  rw [landed] at reached content
  generalize heap.createMember object name permission = made at *
  obtain ⟨written, rfl, -, visible⟩ := assign_eq_ok assigned
  have seen : (made.2.cell made.1).isVisible = true := by
    rw [← named_of_named? reached, content]
    cases found : heap.named? object name with
    | none =>
        rw [named_of_none found]
        simp [Cell.isVisible, (Cell.blank_welcomes valid).seen]
    | some cell =>
        have shown := exhibits.shown found
        rw [named_of_named? found, Cell.declare_of_declared ((Bool.and_eq_true_iff.mp shown).1)]
        exact shown
  have old := furnishes.old_of_named? rfl reached
  have exhibits' : (made.2.modifyCell made.1 fun _ => written).Exhibits object name := by
    refine ⟨(furnishes.modifyCell rfl reached _).1,
      aloof.continues (Memory.modifyCell_confined ..).continues, fun {cell} found => ?_⟩
    rw [named?_modifyCell, reached] at found
    cases found
    rw [← seen, ← visible]
    exact congrArg Cell.isVisible (Memory.cell_modifyCell_self old _)
  refine ⟨exhibits', ?_⟩
  have kind : ((made.2.modifyCell made.1 fun _ => written).scope object).kind = .object owner :=
    stays.trans kind
  rw [ownMember_object kind, exhibits'.declared?_eq, named?_modifyCell, reached]
  rfl

end Exhibits

end Heap

structure Machine.Quiet (object : ScopeId) (name : String) (before after : Machine Code) :
    Prop where
  sustains : before.Sustains after
  shown : after.heap.method? object name = before.heap.method? object name

private theorem Machine.scope_closeFrame {machine : Machine Code} {id : ScopeId}
    (lasting : machine.Lasting id) (held : List Handle) :
    (machine.closeFrame held).heap.scope id = machine.heap.scope id := by
  unfold closeFrame
  cases popped : machine.frames.pop? with
  | none => rfl
  | some frames =>
      obtain ⟨top, outer⟩ := frames
      have listed : top ∈ machine.frames.toList :=
        FrameStack.toList_of_pop? popped ▸ List.mem_cons_self
      exact scope_releaseBlocks (fun block => lasting.unlisted ⟨top, listed, block⟩) _

namespace Action

variable {run : Runner Code} {held : List Handle} {machine before after : Machine Code}
  {scope object enclosing : ScopeId} {maker : FunctionId} {name : String}
  {definition : Definition Code}

private theorem replacing_eq (targets : machine.heap.Targets scope object enclosing maker)
    (spoken : name ≠ "anon") :
    replacing scope name held machine = .ok (machine.heap.method? object name) machine := by
  obtain ⟨owner, kind⟩ := targets.owned
  have constructs : ((machine.heap.scope scope).variant == .constructor) = true := by
    rw [Scope.variant, targets.kind]
    rfl
  unfold replacing replacedMember
  simp only [run_bind, run_get, andThen_ok, constructs, bne_iff_ne.mpr spoken, Bool.and_self,
    if_true, targets.this?_eq, run_onHeap, run_pure]
  rw [Heap.method?, Heap.ownMember_object kind]

private theorem runNode_eq_ok {node : Node Code} {value : Value}
    (ran : runNode run node scope held machine = .ok value after) :
    ∃ last, run node.code scope (.scope scope :: held)
        (machine.openFrame node.id node.file scope) = .ok value last ∧
      after = last.closeFrame (value.handles ++ .scope scope :: held) := by
  unfold runNode inFrame at ran
  split at ran
  next => cases ran
  next =>
    dsimp only at ran
    split at ran
    next result last ended =>
      cases ran
      exact ⟨last, ended, rfl⟩
    next => cases ran
    next => cases ran

private theorem declareMember_eq_ok {permission : Permission} {value : Value}
    (declares : declareMember scope name permission value held machine = .ok () after) :
    ∃ heap, (machine.heap.createMember scope name permission).2.assign
      (machine.heap.createMember scope name permission).1 name value = (.ok (), heap) ∧
      after = machine.withHeap heap := by
  unfold declareMember at declares
  rw [run_bind, run_onHeap, andThen_ok, run_tryHeap] at declares
  generalize machine.heap.createMember scope name permission = made at declares ⊢
  dsimp only at declares
  generalize made.2.assign made.1 name value = outcome at declares ⊢
  obtain ⟨result, heap⟩ := outcome
  cases result with
  | error fault => cases declares
  | ok =>
      cases declares
      exact ⟨heap, rfl, rfl⟩

private theorem framed_body {node : Node Code} {value : Value}
    (obeys : ∀ code scope, Obeys Machine.Sustains (run code scope))
    (ran : runNode run node scope held before = .ok value after) (sane : before.Sane)
    (targets : before.Targets scope object enclosing maker)
    (exhibits : before.heap.Exhibits object name) :
    ∃ ready last, run node.code scope (.scope scope :: held) ready = .ok value last ∧
      ready.Sane ∧ ready.Targets scope object enclosing maker ∧
      ready.heap.Exhibits object name ∧ before.Quiet object name ready ∧
      (last.heap.Exhibits object name →
        after.heap.Exhibits object name ∧ last.Quiet object name after) := by
  obtain ⟨last, ended, rfl⟩ := runNode_eq_ok ran
  obtain ⟨owner, kind⟩ := targets.targets.owned
  have opened := sustains_regime.openFrame before node.id node.file scope
  have ready := opened sane
  have there := targets.stay fun lasting => ⟨ready.lasting lasting, ready.scope lasting⟩
  obtain ⟨exhibits, shown⟩ := exhibits.stay (fun _ => false) kind ready.size rfl
    (.of_bookkeeping rfl rfl)
  have running := (obeys _ _).of_ok ended
  have carries := running ready.sane
  have still := there.stay fun lasting => ⟨carries.lasting lasting, carries.scope lasting⟩
  refine ⟨_, last, ended, ready.sane, there, exhibits, ⟨opened, shown⟩, fun exhibits => ?_⟩
  obtain ⟨owner, kind⟩ := still.targets.owned
  have closed := sustains_regime.closeFrame last (value.handles ++ .scope scope :: held)
  obtain ⟨exhibits, shown⟩ := exhibits.stay last.host.shares kind (closed carries.sane).size
    (Machine.scope_closeFrame still.objectLasting _) (last.closeFrame_keepsHeld ..).toKeepsHeld
  exact ⟨exhibits, closed, shown⟩

inductive Redeclares (scope object : ScopeId) (name : String) (definition : Definition Code)
    (before after : Machine Code) : Prop where
  | intro {ready made stored : Machine Code} {run : Runner Code} {parent : Option Value}
      {permission : Permission} {held : List Handle} {id : FunctionId}
      (comes : before.Quiet object name ready)
      (obeys : ∀ code scope, Obeys Machine.Sustains (run code scope))
      (makes : makeFunction run scope parent definition held ready = .ok id made)
      (shared : permission.declared.isPrivate = false)
      (declares : declareMember scope name permission (.function id) held made = .ok () stored)
      (seen : (stored.heap.ownMember object name).1.isSome = true)
      (goes : stored.Quiet object name after)

theorem Redeclares.replaces (redeclares : Redeclares scope object name definition before after)
    (sane : before.Sane) (targets : before.Targets scope object enclosing maker)
    (named : definition.name = name) (spoken : name ≠ "anon") :
    before.Sustains after ∧ ∃ id function, after.heap.function? id = some function ∧
      function.definition = definition ∧ function.overridden = before.heap.method? object name ∧
      after.heap.method? object name = some (.function id) := by
  obtain ⟨comes, obeys, makes, shared, declares, seen, goes⟩ := redeclares
  have making := (sustains_regime.rules.makeFunction obeys _ _ _).of_ok makes
  have storing :=
    (sustains_regime.rules.declareMember _ _ _ _).of_ok declares
  have ready := comes.sustains sane
  have made := making ready.sane
  have stored := (storing.trans goes.sustains) made.sane
  refine ⟨comes.sustains.trans (making.trans (storing.trans goes.sustains)), ?_⟩
  have there := targets.stay fun lasting => ⟨ready.lasting lasting, ready.scope lasting⟩
  obtain ⟨overridden, _, static, last, replaced, -, rfl, rfl⟩ := makeFunction_eq_ok makes
  rw [named, replacing_eq there.targets spoken] at replaced
  cases replaced
  refine ⟨_, _, stored.function? (Action.function?_newFunction ..), rfl, comes.shown, ?_⟩
  have still := there.stay fun lasting => ⟨made.lasting lasting, made.scope lasting⟩
  obtain ⟨owner, kind⟩ := still.targets.owned
  rw [goes.shown]
  obtain ⟨heap, assigned, rfl⟩ := declareMember_eq_ok declares
  rw [still.targets.createMember_eq shared] at assigned
  exact Heap.method?_of_assigned kind assigned seen

end Action

namespace Expr

variable {Op : Type} [Operations Op] {run : Runner (Expr Op)} {held : List Handle}
  {before after : Machine (Expr Op)} {scope object : ScopeId} {name : String}
  {definition : Definition (Expr Op)} {permission : Permission} {former latter : List (Expr Op)}

private theorem eval_declareMethod {machine : Machine (Expr Op)} {value : Value}
    (ran : (Expr.declare name permission (.define definition none)).eval run scope held machine =
      .ok value after) :
    ∃ id made, makeFunction run scope none definition held machine = .ok id made ∧
      declareMember scope name permission (.function id) held made = .ok () after := by
  rw [eval, eval, run_bind, run_bind] at ran
  obtain ⟨method, made, making, ran⟩ := andThen_eq_ok ran
  obtain ⟨id, _, makes, same⟩ := andThen_eq_ok making
  cases same
  rw [run_bind] at ran
  obtain ⟨_, _, declares, same⟩ := andThen_eq_ok ran
  cases same
  exact ⟨id, _, makes, declares⟩

def methodOf (name : String) : Expr Op → Option (Definition (Expr Op))
  | .seq [.declare declared permission (.define definition none)] =>
      if declared = name ∧ permission = .publicTier ∧ definition.name = name then some definition
      else none
  | _ => none

omit [Operations Op] in
theorem methodOf_eq_some {code : Expr Op} (declares : methodOf name code = some definition) :
    definition.name = name ∧ code = .seq [.declare name .publicTier (.define definition none)] := by
  unfold methodOf at declares
  split at declares
  next declared permission method =>
    split at declares
    next all =>
      obtain ⟨rfl, rfl, named⟩ := all
      cases declares
      exact ⟨named, rfl⟩
    next => cases declares
  next => cases declares

/-- A body that declares a method without a static part, or does nothing. -/
def isMethodBody (name : String) : Expr Op → Bool
  | .seq [] => true
  | code => (methodOf name code).any (·.statics.isNone)

omit [Operations Op] in
private theorem isMethodBody_cases {code : Expr Op} (form : code.isMethodBody name = true) :
    methodOf name code = none ∧ code = .seq [] ∨
      ∃ definition, methodOf name code = some definition ∧ definition.statics = none := by
  unfold isMethodBody at form
  split at form
  next => exact .inl ⟨rfl, rfl⟩
  next =>
    cases declares : methodOf name code with
    | none => rw [declares] at form; cases form
    | some definition =>
        rw [declares] at form
        exact .inr ⟨definition, rfl, Option.isNone_iff_eq_none.mp form⟩

theorem methodBody (closed : Operations.Composed Op) (spoken : name ≠ "anon") {depth : Nat}
    {node : Node (Expr Op)} {value : Value}
    (ran : runNode (runnerAt (depth + 1)) node scope held before = .ok value after)
    (sane : before.Sane) (targets : before.Targets scope object enclosing maker)
    (exhibits : before.heap.Exhibits object name) (form : node.code.isMethodBody name = true) :
    after.heap.Exhibits object name ∧
      (methodOf name node.code = none →
        after.heap.method? object name = before.heap.method? object name) ∧
      ∀ definition, methodOf name node.code = some definition →
        Redeclares scope object name definition before after := by
  have composed := runnerAt_composed closed depth
  have obeys (code : Expr Op) (scope : ScopeId) := sustains_regime.composed (composed code scope)
  have whole (code : Expr Op) (scope : ScopeId) :=
    sustains_regime.composed (runnerAt_composed closed (depth + 1) code scope)
  obtain ⟨ready, last, ended, sound, there, ready_exhibits, comes, goes⟩ :=
    framed_body whole ran sane targets exhibits
  change node.code.eval (runnerAt depth) scope _ ready = _ at ended
  rcases isMethodBody_cases form with ⟨nothing, idle⟩ | ⟨definition, given, plain⟩
  · rw [idle, eval, evalSeq] at ended
    cases ended
    obtain ⟨exhibits, left⟩ := goes ready_exhibits
    refine ⟨exhibits, fun _ => left.shown.trans comes.shown, fun _ given => ?_⟩
    cases nothing.symm.trans given
  · obtain ⟨named, code⟩ := methodOf_eq_some given
    rw [code, eval, evalSeq, run_bind] at ended
    obtain ⟨_, stored, declared, ended⟩ := andThen_eq_ok ended
    cases ended
    rw [run_holding] at declared
    obtain ⟨id, made, makes, declares⟩ := eval_declareMethod declared
    have making := (sustains_regime.rules.makeFunction obeys _ _ _).of_ok makes
    have readied := making sound
    have still := there.stay fun lasting => ⟨readied.lasting lasting, readied.scope lasting⟩
    obtain ⟨owner, kind⟩ := there.targets.owned
    obtain ⟨owner', kind'⟩ := still.targets.owned
    have made_exhibits : made.heap.Exhibits object name := by
      obtain ⟨_, _, _, _, replaced, static, rfl, rfl⟩ := makeFunction_eq_ok makes
      rw [named, replacing_eq there.targets spoken] at replaced
      cases replaced
      unfold staticPart at static
      rw [plain] at static
      cases static
      exact ready_exhibits.newFunction kind _
    obtain ⟨heap, assigned, rfl⟩ := declareMember_eq_ok declares
    rw [still.targets.createMember_eq (by decide)] at assigned
    obtain ⟨exhibits, seen⟩ :=
      made_exhibits.redeclare readied.sane.sound kind' (by decide) assigned
    obtain ⟨exhibits, left⟩ := goes exhibits
    refine ⟨exhibits, fun nothing => ?_, fun _ same => ?_⟩
    · cases nothing.symm.trans given
    · cases same.symm.trans given
      exact .intro comes obeys makes (by decide) declares seen left

end Expr

end ScopeMachine
