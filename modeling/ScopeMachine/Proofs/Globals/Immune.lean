import ScopeMachine.Proofs.Evaluation.Sealing
import ScopeMachine.Proofs.Liveness.Heaps
import ScopeMachine.Proofs.Liveness.Leading
import ScopeMachine.Proofs.Storage.Drawing
import ScopeMachine.Proofs.Storage.HeldCells

namespace ScopeMachine

open Memory

variable {Code : Type}

namespace Heap

def Global (heap : Heap Code) (id : ScopeId) : Prop := (heap.scope id).variant = .global

def GlobalCell (heap : Heap Code) (id : CellId) : Prop :=
  ∃ scope, heap.Global scope ∧ id ∈ (heap.scope scope).members.heapCells

/-- Anything but a global scope. -/
def Inner (heap : Heap Code) (handle : Handle) : Prop :=
  ∀ id, handle = .scope id → ¬ heap.Global id

/-- Members of global scopes are constants on the heap that have had their one write. -/
structure Sealed (heap : Heap Code) : Prop where
  unpooled : ∀ {id : ScopeId}, heap.Global id → (heap.scope id).pooled = false
  heaped : ∀ {id : ScopeId}, heap.Global id → (heap.scope id).members.isArena = false
  spent : ∀ {id : CellId}, heap.GlobalCell id → (heap.cell id).Spent

end Heap

/-- What a scope leads to in its own kind is no global scope. -/
structure Scope.Inward (origin : Heap Code) (scope : Scope) : Prop where
  kind : ∀ handle, scope.kind.holds handle = true → origin.Inner handle
  previous : ∀ {maker : FunctionId} {id : ScopeId}, scope.kind = .constructor maker →
    scope.previous = some id → ¬ origin.Global id

/-- A heap later on. The global scopes of before are as they were, values and functions lead to none
of them, and functions run nothing but trusted code. -/
structure Heap.Shields (trusted : Code → Prop) (origin heap : Heap Code) : Prop where
  sound : heap.memory.Sound
  scope : ∀ {id : ScopeId}, origin.Global id → heap.scope id = origin.scope id
  cell : ∀ {id : CellId}, origin.GlobalCell id → heap.cell id = origin.cell id
  old : ∀ {id : CellId}, origin.GlobalCell id → id.index < heap.memory.cells.size
  unnamed : ∀ {id : CellId}, origin.GlobalCell id →
    ∀ position, heap.memory.arena.peek position ≠ some id
  values : ∀ id : CellId, (heap.memory.value id).Kept origin.Inner
  arrays : ∀ {id : ArrayId} {value : Value}, value ∈ heap.elements id → value.Kept origin.Inner
  exceptions : ∀ {id : ExceptionId} {value : Value}, (heap.exception id).cause = some value →
    value.Kept origin.Inner
  functions : ∀ {id : FunctionId} {function : Function Code}, heap.function? id = some function →
    function.Kept origin.Inner ∧ ∀ node ∈ function.definition.nodes, trusted node.code
  inward : ∀ id : ScopeId, (heap.scope id).Inward origin

namespace Heap

variable {trusted : Code → Prop} {origin heap : Heap Code}

theorem inner_cell (id : CellId) : origin.Inner (.cell id) := nofun

theorem inner_scope {id : ScopeId} (inner : ¬ origin.Global id) : origin.Inner (.scope id) := by
  rintro _ ⟨⟩
  exact inner

theorem serves_inner (memory : Memory) : memory.Serves origin.Inner :=
  ⟨fun id _ => inner_cell id, fun {_ id} _ => inner_cell id⟩

/-- Values that are no objects lead to no scope. -/
theorem kept_of_no_object {value : Value} (other : ∀ scope, value ≠ .object scope) :
    value.Kept origin.Inner := by
  rintro handle holds id rfl
  cases value with
  | object scope => exact absurd rfl (other scope)
  | _ => cases holds

theorem kept_object {id : ScopeId} (inner : ¬ origin.Global id) :
    (Value.object id).Kept origin.Inner := by
  rintro handle holds other rfl
  have same : other = id := by simpa [Value.holds] using holds
  exact same ▸ inner

theorem not_global_of_kept {id : ScopeId} (kept : (Value.object id).Kept origin.Inner) :
    ¬ origin.Global id :=
  kept (.scope id) (by simp [Value.holds]) id rfl

theorem good_of_walkWithin {α : Type} {step : ScopeId → Scope → Step α} {good : α → Prop}
    (stops : ∀ {id : ScopeId} {result : α}, step id (heap.scope id) = .stop (some result) →
      good result) (budget : Nat) (id : ScopeId) {result : α}
    (found : heap.walkWithin step budget id = some result) : good result := by
  induction budget generalizing id with
  | zero => cases found
  | succ budget induction =>
      unfold Heap.walkWithin at found
      dsimp only at found
      split at found
      next stopped =>
        subst found
        exact stops stopped
      next => exact induction _ found
      next =>
        split at found
        next => cases found
        next => exact induction _ found

theorem kept_callee? {id : ScopeId} {value : Value} (found : heap.callee? id = some value) :
    value.Kept origin.Inner := by
  refine good_of_walkWithin (fun {id value} stopped => ?_) _ id found
  split at stopped
  next => cases stopped; exact kept_of_no_object nofun
  next => cases stopped; exact kept_of_no_object nofun
  next => cases stopped
  next => cases stopped

namespace Shields

section

variable (shields : origin.Shields trusted heap)

include shields

private theorem lt_of_global {id : ScopeId} (global : origin.Global id) :
    id.index < heap.scopes.size := by
  refine Nat.lt_of_not_le fun absent => ?_
  have variant : (heap.scope id).variant = .global := by
    rw [shields.scope global]
    exact global
  rw [scope_of_size_le absent] at variant
  cases variant

private theorem inner_of_variant {id : ScopeId} (variant : (heap.scope id).variant ≠ .global) :
    ¬ origin.Global id := by
  intro global
  rw [shields.scope global] at variant
  exact variant global

/-! Cells and slots. -/

/-- Work on memory that writes no cell that is held outside of the slots. -/
theorem onMemory {memory : Memory} {shared : CellId → Bool}
    (keeps : heap.memory.KeepsHeld shared (fun _ => False) memory)
    (grows : heap.memory.Grows origin.Inner memory) :
    origin.Shields trusted { heap with memory } :=
  { shields with
    sound := keeps.continues.sound shields.sound
    cell := fun global => (keeps.cell (shields.old global) (.inr (shields.unnamed global))
      not_false).trans (shields.cell global)
    old := fun global => Nat.lt_of_lt_of_le (shields.old global) keeps.size
    unnamed := fun global => keeps.continues.unnamed (shields.old global) (shields.unnamed global)
    values := fun id handle holds =>
      (grows.value holds).elim (shields.values id handle) fun inner => inner }

theorem bookkeeping {memory : Memory} (cells : memory.cells = heap.memory.cells)
    (slots : memory.arena.slots = heap.memory.arena.slots) :
    origin.Shields trusted { heap with memory } := by
  have keeps : heap.memory.KeepsHeld (fun _ => false) (fun _ => False) memory :=
    .of_bookkeeping cells slots
  exact shields.onMemory keeps (.of_slots cells slots)

/-- A write that leaves the members of global scopes as they are. -/
theorem modifyCell {id : CellId} {change : Cell → Cell}
    (idle : origin.GlobalCell id → change (origin.cell id) = origin.cell id)
    (kept : ∀ cell handle, (change cell).value.holds handle = true →
      cell.value.holds handle = true ∨ origin.Inner handle) :
    origin.Shields trusted (heap.modifyCell id change) := by
  have grows := modifyCell_grows heap.memory id kept
  have continues := (modifyCell_confined heap.memory id change).continues
  refine { shields with
    sound := continues.sound shields.sound
    cell := fun {other} global => ?_
    old := fun global => Nat.lt_of_lt_of_le (shields.old global) grows.size
    unnamed := shields.unnamed
    values := fun id handle holds =>
      (grows.value holds).elim (shields.values id handle) fun inner => inner }
  by_cases same : other = id
  · subst same
    refine (cell_modifyCell_self (shields.old global) change).trans ?_
    change change (heap.cell other) = _
    rw [shields.cell global]
    exact idle global
  · exact (cell_modifyCell_ne same ..).trans (shields.cell global)

/-! Scopes. -/

theorem modifyScope {id : ScopeId} (inner : ¬ origin.Global id) {change : Scope → Scope}
    (inward : (change (heap.scope id)).Inward origin) :
    origin.Shields trusted (heap.modifyScope id change) :=
  { shields with
    scope := fun {other} global => by
      have apart : other ≠ id := fun same => inner (same ▸ global)
      rw [scope_modifyScope_ne apart]
      exact shields.scope global
    inward := fun other => by
      rcases scope_modifyScope_or heap id other change with same | ⟨rfl, changed⟩
      · rw [same]
        exact shields.inward other
      · rw [changed]
        exact inward }

/-- Work on the members of a scope. -/
theorem workScope {id : ScopeId} (inner : ¬ origin.Global id) {memory : Memory}
    {shared : CellId → Bool} (keeps : heap.memory.KeepsHeld shared (fun _ => False) memory)
    (grows : heap.memory.Grows origin.Inner memory) {change : Scope → Scope}
    (kind : (change (heap.scope id)).kind = (heap.scope id).kind)
    (previous : (change (heap.scope id)).previous = (heap.scope id).previous) :
    origin.Shields trusted ({ heap with memory }.modifyScope id change) := by
  refine (shields.onMemory keeps grows).modifyScope inner ?_
  obtain ⟨kinds, outer⟩ := shields.inward id
  constructor
  · intro handle holds
    exact kinds handle (kind ▸ holds)
  · intro maker id constructor linked
    exact outer (kind ▸ constructor) (previous ▸ linked)

theorem newScope {scope : Scope} (inward : scope.Inward origin) :
    origin.Shields trusted (heap.newScope scope).2 ∧
      ¬ origin.Global (heap.newScope scope).1 := by
  refine ⟨{ shields with
    scope := fun {other} global => ?_
    inward := fun other => ?_ }, fun global => Nat.lt_irrefl _ (shields.lt_of_global global)⟩
  · have apart : other ≠ (heap.newScope scope).1 := by
      rintro rfl
      exact Nat.lt_irrefl _ (shields.lt_of_global global)
    rw [scope_newScope_ne apart]
    exact shields.scope global
  · by_cases same : other = (heap.newScope scope).1
    · rw [same, scope_newScope_self]
      exact inward
    · rw [scope_newScope_ne same]
      exact shields.inward other

/-! Values. -/

theorem newArray {elements : List Value} (frozen : Bool)
    (kept : ∀ value ∈ elements, value.Kept origin.Inner) :
    origin.Shields trusted (heap.newArray elements frozen).2 :=
  { shields with
    arrays := fun {id value} member => by
      unfold Heap.elements array Heap.newArray at member
      rw [Array.getD_eq_getD_getElem?, Array.getElem?_push] at member
      split at member
      next => exact kept value (by simpa using member)
      next =>
        have earlier : value ∈ heap.elements id := by
          unfold Heap.elements array
          rwa [Array.getD_eq_getD_getElem?]
        exact shields.arrays earlier }

theorem newException {exception : ExceptionObject}
    (kept : ∀ value, exception.cause = some value → value.Kept origin.Inner) :
    origin.Shields trusted (heap.newException exception).2 :=
  { shields with
    exceptions := fun {id value} given => by
      unfold Heap.exception Heap.newException at given
      rw [Array.getD_eq_getD_getElem?, Array.getElem?_push] at given
      split at given
      next => exact kept value (by simpa using given)
      next =>
        have earlier : (heap.exception id).cause = some value := by
          unfold Heap.exception
          rwa [Array.getD_eq_getD_getElem?]
        exact shields.exceptions earlier }

theorem newFunction {function : Function Code} (kept : function.Kept origin.Inner)
    (trusting : ∀ node ∈ function.definition.nodes, trusted node.code) :
    origin.Shields trusted (heap.newFunction function).2 :=
  { shields with
    functions := fun {id other} found => by
      unfold function? Heap.newFunction at found
      rw [Array.getElem?_push] at found
      split at found
      next =>
        cases found
        exact ⟨kept, trusting⟩
      next => exact shields.functions found }

theorem preserveBacktrace (id : ExceptionId) (backtrace : Backtrace) :
    origin.Shields trusted (heap.preserveBacktrace id backtrace) :=
  { shields with
    exceptions := fun {other value} given => by
      have earlier : (heap.exception other).cause = some value := by
        unfold Heap.preserveBacktrace modifyException Heap.exception at given
        unfold Heap.exception
        rw [Array.getD_eq_getD_getElem?, Array.getElem?_modify] at given
        rw [Array.getD_eq_getD_getElem?]
        split at given
        next => cases found : heap.exceptions[other.index]? <;> simpa [found] using given
        next => exact given
      exact shields.exceptions earlier }

private theorem newCell {cell : Cell} (kept : cell.value.Kept origin.Inner) :
    origin.Shields trusted (heap.newCell cell).2 :=
  shields.onMemory (new_keepsHeld (fun _ => false) ..) (new_grows _ kept)

private theorem newConstant {value : Value} (kept : value.Kept origin.Inner) :
    origin.Shields trusted (heap.newCell (.constant value)).2 :=
  shields.newCell kept

end

/-! Members. -/

section

variable (shields : origin.Shields trusted heap)

include shields

private theorem slotCell {id : ScopeId} (inner : ¬ origin.Global id) (slot : Nat) :
    origin.Shields trusted (heap.slotCell id slot).2 :=
  shields.workScope inner (Table.cellAt_keepsHeld _ (fun _ => false) ..)
    (Table.cellAt_grows (serves_inner _) slot).memory rfl rfl

private theorem trailingCell {id : ScopeId} {invocation : Invocation}
    (kind : (heap.scope id).kind = .function invocation) :
    origin.Shields trusted (heap.trailingCell id invocation).2 := by
  have inner : ¬ origin.Global id :=
    shields.inner_of_variant (by simp [Scope.variant, kind, ScopeKind.variant])
  have kinds := (shields.inward id).kind
  rw [kind] at kinds
  unfold Heap.trailingCell
  split
  next => exact shields
  next =>
    have trailing : ∀ value ∈ invocation.trailing, value.Kept origin.Inner := by
      intro value member handle holds
      refine kinds handle ?_
      simp only [ScopeKind.holds, Bool.or_eq_true]
      exact .inl (.inr (List.any_eq_true.mpr ⟨value, member, holds⟩))
    have array : (Value.array (heap.newArray invocation.trailing true).1).Kept origin.Inner :=
      kept_of_no_object fun id same => by cases same
    have bound := (shields.newArray true trailing).newConstant array
    refine bound.modifyScope inner ⟨fun handle holds => ?_, fun builtin => by cases builtin⟩
    simp only [ScopeKind.holds, Bool.or_eq_true] at holds
    rcases holds with earlier | cell
    · refine kinds handle ?_
      simp only [ScopeKind.holds, Bool.or_eq_true]
      exact .inl earlier
    · cases handle with
      | scope => cases cell
      | _ => intro scope same; cases same

theorem ownMember (id : ScopeId) (name : String) :
    origin.Shields trusted (heap.ownMember id name).2 := by
  unfold Heap.ownMember storedMember
  generalize heap.forked id = target
  dsimp only
  split
  next invocation slot kind _ =>
    exact shields.slotCell
      (shields.inner_of_variant (by simp [Scope.variant, kind, ScopeKind.variant])) _
  next kind _ =>
    split
    next => exact shields.trailingCell kind
    next => exact shields
  next => exact shields
  next => exact shields

theorem lookupAlong (name : String) (chain : List ScopeId) :
    origin.Shields trusted (heap.lookupAlong name chain).2 :=
  firstFound_keeps (fun before after => origin.Shields trusted before →
    origin.Shields trusted after)
    (fun _ => id) (fun first second => second ∘ first) (fun id _ shields =>
      shields.ownMember id name)
    chain heap shields

private theorem staticMember (id : FunctionId) (name : String) :
    origin.Shields trusted (heap.staticMember id name).2 := by
  unfold Heap.staticMember
  split
  next => exact shields
  next => exact shields.ownMember ..

private theorem firstStatic (name : String) (functions : List FunctionId) :
    origin.Shields trusted (heap.firstStatic name functions).2 :=
  firstFound_keeps (fun before after => origin.Shields trusted before →
    origin.Shields trusted after)
    (fun _ => id) (fun first second => second ∘ first)
    (fun id _ shields => shields.staticMember id name) functions heap shields

private theorem scopeMember (id : ScopeId) (name : String) :
    origin.Shields trusted (heap.scopeMember id name).2 := by
  refine orElse_keeps (fun before after => origin.Shields trusted before →
      origin.Shields trusted after) (fun first second => second ∘ first)
    (fun shields => shields.ownMember id name) (fun middle shields => ?_) shields
  unfold sharedMember
  split
  next => exact shields.firstStatic ..
  next => exact shields

theorem member (value : Value) (name : String) :
    origin.Shields trusted (heap.member value name).2 := by
  unfold Heap.member
  cases value with
  | object scope => exact shields.scopeMember ..
  | function function => exact shields.staticMember ..
  | exception id =>
      dsimp only
      split
      next => exact shields.newConstant (kept_of_no_object nofun)
      next =>
        split
        next =>
          refine shields.newConstant ?_
          cases given : (heap.exception id).cause with
          | none => exact kept_of_no_object nofun
          | some cause => exact shields.exceptions given
        next => exact shields
  | array id =>
      dsimp only
      split
      next => exact shields.newConstant (kept_of_no_object nofun)
      next => exact shields
  | text text =>
      dsimp only
      split
      next => exact shields.newConstant (kept_of_no_object nofun)
      next => exact shields
  | _ => exact shields

private theorem landing {id : ScopeId} (inner : ¬ origin.Global id) (permission : Permission) :
    ¬ origin.Global (heap.landing permission id) := by
  have within : ∀ (budget : Nat) {id : ScopeId}, ¬ origin.Global id →
      ¬ origin.Global (heap.landingWithin permission budget id) := by
    intro budget
    induction budget with
    | zero => exact fun inner => inner
    | succ budget induction =>
        intro id inner
        have inward := shields.inward id
        unfold landingWithin
        dsimp only
        split
        next kind previous =>
          split
          next => exact inner
          next => exact induction (inward.previous kind previous)
        next object kind =>
          refine induction (inward.kind (.scope object) ?_ object rfl)
          simp [kind, ScopeKind.holds, Handle.isScope]
        next => exact inner
  exact within _ inner

private theorem declareCell (shut : origin.Sealed) (id : CellId) (permission : Permission) :
    origin.Shields trusted (heap.modifyCell id (·.declare permission)) := by
  refine shields.modifyCell (fun global => Cell.declare_of_declared
    (shut.spent global).declared _) ?_
  intro cell handle holds
  unfold Cell.declare at holds
  split at holds <;> exact .inl holds

theorem createMember (shut : origin.Sealed) {id : ScopeId} (inner : ¬ origin.Global id)
    (name : String) (permission : Permission) :
    origin.Shields trusted (heap.createMember id name permission).2 := by
  have landed := shields.landing inner permission
  unfold Heap.createMember
  generalize heap.landing permission id = target at landed ⊢
  dsimp only
  generalize (heap.scope target).index.insert name permission = inserted
  obtain ⟨kinds, previous⟩ := shields.inward target
  have renamed : origin.Shields trusted (heap.modifyScope target fun scope =>
      { scope with index := inserted.2 }) :=
    shields.modifyScope landed ⟨kinds, previous⟩
  exact (renamed.slotCell landed inserted.1).declareCell shut _ permission

theorem apart_of_createMember {id : ScopeId} {permission : Permission}
    (bare : (heap.scope (heap.landing permission id)).members = .empty) (name : String) :
    ¬ origin.GlobalCell (heap.createMember id name permission).1 := by
  intro global
  unfold Heap.createMember at global
  generalize heap.landing permission id = target at bare global
  dsimp only at global
  generalize (heap.scope target).index.insert name permission = inserted at global
  unfold Heap.slotCell at global
  have members : ((heap.modifyScope target fun scope =>
      { scope with index := inserted.2 }).scope target).members = .empty := by
    rcases scope_modifyScope_or heap target target fun scope =>
        { scope with index := inserted.2 } with same | ⟨-, changed⟩
    · rw [same, bare]
    · rw [changed]
      exact bare
  dsimp only at global
  rw [members] at global
  have offers := Table.cellAt_offers_beyond shields.sound .empty (Nat.zero_le inserted.1)
  exact Nat.not_lt_of_le (offers.not_old (shields.unnamed global)) (shields.old global)

theorem assign (shut : origin.Sealed) (id : CellId) (name : String) {value : Value}
    (kept : value.Kept origin.Inner) : origin.Shields trusted (heap.assign id name value).2 := by
  unfold Heap.assign Memory.assign
  cases assigned : (heap.memory.cell id).assign name value with
  | error fault => exact shields
  | ok cell =>
      unfold Cell.assign at assigned
      split at assigned
      next => cases assigned
      next open_ =>
        cases assigned
        refine shields.modifyCell (fun global => absurd ?_ open_) fun _ handle holds =>
          .inr (kept handle holds)
        have same : heap.memory.cell id = origin.cell id := shields.cell global
        rw [same, (shut.spent global).written, (shut.spent global).constant]
        rfl

/-- Appended values are written to cells of slots, or to new ones. -/
theorem push (table : Table) {value : Value} (kept : value.Kept origin.Inner) :
    origin.Shields trusted { heap with memory := (table.push value heap.memory).2 } := by
  have touched := shields.onMemory
    (Table.cellAt_keepsHeld table (fun _ => false) heap.memory (fun _ => False) table.length)
    (Table.cellAt_grows (serves_inner _) table.length).memory
  refine touched.modifyCell (fun global => ?_) fun _ handle holds => .inr (kept handle holds)
  have offers := Table.cellAt_offers_beyond shields.sound table (Nat.le_refl _)
  exact absurd (shields.old global) (Nat.not_lt_of_le (offers.not_old (shields.unnamed global)))

theorem pushEach (table : Table) {values : List Value}
    (kept : ∀ value ∈ values, value.Kept origin.Inner) :
    origin.Shields trusted { heap with memory := (table.pushEach values heap.memory).2 } := by
  induction values generalizing heap table with
  | nil => exact shields
  | cons value rest induction =>
      have pushed := shields.push table (kept value List.mem_cons_self)
      exact induction pushed (table.push value heap.memory).1 fun other listed =>
        kept other (List.mem_cons_of_mem _ listed)

theorem caught {failure : Failure}
    (kept : ∀ handle ∈ failure.handles, origin.Inner handle) :
    origin.Shields trusted (heap.caught failure).2 ∧
      ∀ value, (heap.caught failure).1 = some value → value.Kept origin.Inner := by
  unfold Heap.caught
  split
  next thrown given =>
    refine ⟨shields, ?_⟩
    rintro _ ⟨⟩ handle holds
    refine kept handle ?_
    unfold Failure.handles
    rw [given]
    exact Value.mem_handles.mpr holds
  next =>
    split
    next => exact ⟨shields, nofun⟩
    next =>
      refine ⟨shields.newException nofun, ?_⟩
      rintro _ ⟨⟩
      exact kept_of_no_object nofun

/-! What names and walks lead to. -/

theorem this? {id : ScopeId} {value : Value} (found : heap.this? id = some value) :
    value.Kept origin.Inner := by
  refine good_of_walkWithin (fun {id value} stopped => ?_) _ id found
  have inward := shields.inward id
  split at stopped
  next receiver _ _ _ kind =>
    cases stopped
    intro handle holds
    refine inward.kind handle ?_
    rw [kind]
    simp [ScopeKind.holds, holds]
  next kind =>
    cases stopped
    exact kept_object (shields.inner_of_variant (by simp [Scope.variant, kind, ScopeKind.variant]))
  next object kind =>
    cases stopped
    refine kept_object (inward.kind (.scope object) ?_ object rfl)
    simp [kind, ScopeKind.holds, Handle.isScope]
  next => cases stopped
  next => cases stopped

theorem super? {id : ScopeId} {value : Value} (found : heap.super? id = some value) :
    value.Kept origin.Inner := by
  refine good_of_walkWithin (fun {id value} stopped => ?_) _ id found
  have ofFunction {id : FunctionId} {function : Function Code}
      (known : heap.function? id = some function) :
      function.parent.Kept origin.Inner ∧
        ∀ value, function.overridden = some value → value.Kept origin.Inner := by
    have kept := (shields.functions known).1
    refine ⟨fun handle holds => kept handle ?_, fun value given handle holds => kept handle ?_⟩
    · simp [Function.holds, holds]
    · simp [Function.holds, given, holds]
  have ofParent {id : FunctionId} (given : (heap.function? id).map (·.parent) = some value) :
      value.Kept origin.Inner := by
    obtain ⟨function, known, rfl⟩ := Option.map_eq_some_iff.mp given
    exact (ofFunction known).1
  split at stopped
  next =>
    split at stopped
    next overridden given =>
      cases stopped
      obtain ⟨function, known, given⟩ := Option.bind_eq_some_iff.mp given
      exact (ofFunction known).2 _ given
    next => cases stopped
  next => exact ofParent (by simpa using stopped)
  next => exact ofParent (by simpa using stopped)
  next => cases stopped
  next => cases stopped
  next => cases stopped
  next => cases stopped

end

end Shields

end Heap

end ScopeMachine
