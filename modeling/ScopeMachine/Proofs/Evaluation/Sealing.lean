import ScopeMachine.Proofs.Evaluation.Composed
import ScopeMachine.Proofs.Frames.Held
import ScopeMachine.Proofs.Storage.Drawing
import ScopeMachine.Proofs.Storage.Retaining

namespace ScopeMachine

/-- A declared constant that has had its one write. -/
structure Cell.Spent (cell : Cell) : Prop where
  declared : cell.declared = true
  written : cell.written = true
  constant : cell.permission.isConst = true

namespace Cell.Spent

variable {cell : Cell} (spent : cell.Spent)

include spent

theorem install (value : Value) : (cell.install value).Spent :=
  ⟨spent.declared, rfl, spent.constant⟩

private theorem assign (name : String) (value : Value) :
    cell.assign name value = .error (.constReassignment name) := by
  unfold Cell.assign
  rw [spent.written, spent.constant]
  rfl

end Cell.Spent

namespace Memory

/-- A cell that no slot of the arena names, with a constant that has had its write. -/
structure Spent (memory : Memory) (id : CellId) : Prop where
  old : id.index < memory.cells.size
  unnamed : ∀ position, memory.arena.peek position ≠ some id
  cell : (memory.cell id).Spent

structure Seals (before after : Memory) : Prop where
  sound : before.Sound → after.Sound
  spent : before.Sound → ∀ {id : CellId}, before.Spent id →
    after.Spent id ∧ after.cell id = before.cell id

variable {before middle after memory : Memory}

namespace Seals

theorem refl (memory : Memory) : Seals memory memory := ⟨id, fun _ _ spent => ⟨spent, rfl⟩⟩

theorem trans (left : Seals before middle) (right : Seals middle after) : Seals before after := by
  refine ⟨right.sound ∘ left.sound, fun sound id spent => ?_⟩
  obtain ⟨former, same⟩ := left.spent sound spent
  obtain ⟨latter, same'⟩ := right.spent (left.sound sound) former
  exact ⟨latter, same'.trans same⟩

theorem of_eq (same : after = before) : Seals before after := same ▸ refl before

private theorem of_keepsHeld {shared : CellId → Bool} {written : CellId → Prop}
    (keepsHeld : KeepsHeld shared written before after)
    (harmless : before.Sound → ∀ id, written id → ¬ before.Spent id) : Seals before after := by
  refine ⟨keepsHeld.continues.sound, fun sound id spent => ?_⟩
  have same := keepsHeld.cell spent.old (.inr spent.unnamed) fun wrote =>
    harmless sound id wrote spent
  refine ⟨⟨Nat.lt_of_lt_of_le spent.old keepsHeld.size,
    keepsHeld.continues.unnamed spent.old spent.unnamed, ?_⟩, same⟩
  rw [same]
  exact spent.cell

private theorem of_unwritten {shared : CellId → Bool}
    (keepsHeld : KeepsHeld shared (fun _ => False) before after) :
    Seals before after :=
  of_keepsHeld keepsHeld fun _ _ => False.elim

private theorem modifyCell (memory : Memory) (id : CellId) {change : Cell → Cell}
    (keeps : memory.Spent id → change (memory.cell id) = memory.cell id) :
    Seals memory (memory.modifyCell id change) := by
  have keepsHeld := @modifyCell_keepsHeld (fun _ => false) memory (· = id) id rfl change
  refine ⟨keepsHeld.continues.sound, fun _ other spent => ?_⟩
  have same : (memory.modifyCell id change).cell other = memory.cell other := by
    by_cases here : other = id
    · subst here
      exact (cell_modifyCell_self spent.old _).trans (keeps spent)
    · exact cell_modifyCell_ne here ..
  refine ⟨⟨Nat.lt_of_lt_of_le spent.old keepsHeld.size,
    keepsHeld.continues.unnamed spent.old spent.unnamed, ?_⟩, same⟩
  rw [same]
  exact spent.cell

private theorem assign (memory : Memory) (id : CellId) (name : String) (value : Value) :
    Seals memory (memory.assign id name value).2 := by
  unfold Memory.assign
  cases assigned : (memory.cell id).assign name value with
  | error fault => exact .refl memory
  | ok cell =>
      refine .modifyCell memory id fun spent => ?_
      cases (spent.cell.assign name value).symm.trans assigned

end Seals

end Memory

namespace Table

open Memory

variable (table : Table) (memory : Memory)

theorem push_seals (value : Value) : memory.Seals (table.push value memory).2 := by
  refine .of_keepsHeld (@write_keepsHeld table (fun _ => false) memory
    (· = (table.cellAt table.length memory).1) table.length rfl _) ?_
  rintro sound _ rfl spent
  have offers := cellAt_offers_beyond sound table (Nat.le_refl table.length)
  exact Nat.not_le_of_lt spent.old (offers.not_old spent.unnamed)

theorem pushEach_seals (values : List Value) :
    memory.Seals (table.pushEach values memory).2 := by
  induction values generalizing table memory with
  | nil => exact .refl memory
  | cons value values induction => exact (push_seals table memory value).trans (induction ..)

theorem free_seals (shared : CellId → Bool) : memory.Seals (table.free shared memory) :=
  .of_unwritten (free_keepsHeld table shared memory _)

end Table

namespace Heap

open Memory

variable {Code : Type} {heap before middle after : Heap Code} {scope : ScopeId}

structure Shows (heap : Heap Code) (cell : CellId) (array : ArrayId) (elements : List Value) :
    Prop where
  spent : heap.memory.Spent cell
  value : heap.memory.value cell = .array array
  frozen : heap.array array = ⟨elements.toArray, true⟩

def Trails (heap : Heap Code) (scope : ScopeId) (trailing : List Value) (bound : Option CellId) :
    Prop :=
  ∃ invocation, (heap.scope scope).kind = .function invocation ∧ invocation.trailing = trailing ∧
    (∀ cell ∈ bound, invocation.trailingCell = some cell) ∧
    ∀ cell ∈ invocation.trailingCell, ∃ array, heap.Shows cell array trailing

theorem Trails.old {trailing : List Value} {bound : Option CellId}
    (trails : heap.Trails scope trailing bound) : scope.index < heap.scopes.size := by
  obtain ⟨invocation, kind, -⟩ := trails
  refine Nat.lt_of_not_le fun absent => ?_
  rw [scope_of_size_le absent] at kind
  cases kind

/-- A step that leaves frozen arrays as they are, and the scope of the kind that it is. -/
structure Leaves (scope : ScopeId) (before after : Heap Code) : Prop where
  size : before.scopes.size ≤ after.scopes.size
  kind : scope.index < before.scopes.size → (after.scope scope).kind = (before.scope scope).kind
  arrays : ∀ {array}, (before.array array).frozen = true → after.array array = before.array array

namespace Leaves

theorem refl (heap : Heap Code) :
    Leaves scope heap heap := ⟨Nat.le_refl _, fun _ => rfl, fun _ => rfl⟩

theorem trans (left : Leaves scope before middle) (right : Leaves scope middle after) :
    Leaves scope before after := by
  refine ⟨Nat.le_trans left.size right.size, fun old => ?_, fun frozen => ?_⟩
  · exact (right.kind (Nat.lt_of_lt_of_le old left.size)).trans (left.kind old)
  · have same := left.arrays frozen
    exact (right.arrays (same ▸ frozen)).trans same

/-- Only things that are neither arrays nor scopes have changed. -/
theorem of_eq (arrays : after.arrays = before.arrays) (scopes : after.scopes = before.scopes) :
    Leaves scope before after := by
  refine ⟨Nat.le_of_eq (congrArg Array.size scopes.symm), fun _ => ?_, fun _ => ?_⟩
  · unfold Heap.scope
    rw [scopes]
  · unfold Heap.array
    rw [arrays]

theorem newScope (heap : Heap Code) (new : Scope) : Leaves scope heap (heap.newScope new).2 := by
  refine ⟨by simp [Heap.newScope], fun old => congrArg Scope.kind (scope_newScope_ne ?_),
    fun _ => rfl⟩
  rintro rfl
  exact Nat.lt_irrefl _ old

/-- Work on one scope, whose kind stays if it is the one that counts. -/
theorem modifyScope (heap : Heap Code) (memory : Memory) (id : ScopeId) {change : Scope → Scope}
    (kind : scope = id → (change (heap.scope id)).kind = (heap.scope id).kind) :
    Leaves scope heap ({ heap with memory }.modifyScope id change) := by
  refine ⟨Nat.le_of_eq (size_modifyScope ..).symm, fun _ => ?_, fun _ => rfl⟩
  rcases scope_modifyScope_or { heap with memory } id scope change with same | ⟨rfl, changed⟩
  · rw [same]
    rfl
  · rw [changed]
    exact kind rfl

theorem detach (heap : Heap Code) (id : ScopeId) : Leaves scope heap (heap.detach id) := by
  unfold Heap.detach
  dsimp only
  split <;> exact .modifyScope heap _ id fun _ => rfl

theorem newArray (heap : Heap Code) (elements : List Value) (frozen : Bool) :
    Leaves scope heap (heap.newArray elements frozen).2 := by
  refine ⟨Nat.le_refl _, fun _ => rfl, fun {array} was => ?_⟩
  have old : array.index < heap.arrays.size := by
    refine Nat.lt_of_not_le fun absent => ?_
    have bare : heap.array array = default := by simp [Heap.array, absent]
    rw [bare] at was
    cases was
  simp [Heap.newArray, Heap.array, Array.getElem?_push, Nat.ne_of_lt old]

theorem modifyArray (heap : Heap Code) (id : ArrayId) (change : Array Value → Array Value) :
    Leaves scope heap (heap.modifyArray id change).2 := by
  unfold Heap.modifyArray
  split
  next => exact .refl heap
  next unfrozen =>
    refine ⟨Nat.le_refl _, fun _ => rfl, fun {array} was => ?_⟩
    have apart : id.index ≠ array.index := fun same => by
      obtain rfl : id = array := congrArg ArrayId.mk same
      exact unfrozen was
    simp [Heap.array, Array.getElem?_modify, apart]

end Leaves

/-- A step that leaves constants and frozen arrays as they are, and `in` bound as it is in the
scope. -/
structure Seals (scope : ScopeId) (before after : Heap Code) : Prop
    extends before.memory.Seals after.memory where
  arrays : ∀ {array}, (before.array array).frozen = true → after.array array = before.array array
  trails : before.memory.Sound → ∀ {trailing bound}, before.Trails scope trailing bound →
    after.Trails scope trailing bound

/-- What a constant shows, it shows from then on. -/
theorem Shows.kept {cell : CellId} {array : ArrayId} {elements : List Value}
    (shows : before.Shows cell array elements) (sound : before.memory.Sound)
    (memory : before.memory.Seals after.memory)
    (arrays : ∀ {array}, (before.array array).frozen = true →
      after.array array = before.array array) : after.Shows cell array elements := by
  obtain ⟨spent, same⟩ := memory.spent sound shows.spent
  refine ⟨spent, (congrArg Cell.value same).trans shows.value, ?_⟩
  rw [arrays (by rw [shows.frozen]), shows.frozen]

namespace Seals

theorem refl (heap : Heap Code) : Seals scope heap heap := ⟨.refl _, fun _ => rfl, fun _ => id⟩

theorem trans (left : Seals scope before middle) (right : Seals scope middle after) :
    Seals scope before after := by
  refine ⟨left.toSeals.trans right.toSeals, fun frozen => ?_, fun sound => ?_⟩
  · have same := left.arrays frozen
    exact (right.arrays (same ▸ frozen)).trans same
  · exact right.trails (left.sound sound) ∘ left.trails sound

theorem of_leaves (memory : before.memory.Seals after.memory) (leaves : Leaves scope before after) :
    Seals scope before after := by
  refine ⟨memory, leaves.arrays, fun sound trailing bound trails => ?_⟩
  have same := leaves.kind trails.old
  obtain ⟨invocation, kind, rest, binds, shows⟩ := trails
  refine ⟨invocation, same.trans kind, rest, binds, fun cell bound => ?_⟩
  obtain ⟨array, shows⟩ := shows cell bound
  exact ⟨array, shows.kept sound memory leaves.arrays⟩

theorem of_memory (heap : Heap Code) {memory : Memory} (seals : heap.memory.Seals memory) :
    Seals scope heap { heap with memory } :=
  of_leaves seals (.of_eq rfl rfl)

end Seals

private theorem shows_new (sound : heap.memory.Sound) (elements : List Value) :
    ((heap.newArray elements true).2.newCell (.constant (.array ⟨heap.arrays.size⟩))).2.Shows
      (heap.memory.new (.constant (.array ⟨heap.arrays.size⟩))).1 ⟨heap.arrays.size⟩ elements := by
  have content := cell_new_self heap.memory (.constant (.array ⟨heap.arrays.size⟩))
  have constant : (Permission.publicTier.union .const).declared.isConst = true := by decide
  refine ⟨⟨?_, fun position named => Nat.lt_irrefl _ (sound.old named), ?_⟩,
    congrArg Cell.value content, ?_⟩
  · exact Nat.lt_of_lt_of_eq (Nat.lt_succ_self _) (Array.size_push _).symm
  · change ((heap.memory.new _).2.cell _).Spent
    rw [content]
    exact ⟨rfl, rfl, constant⟩
  · simp [newArray, newCell, Heap.array]

/-- The binding of `in` is made as a constant with its write, over a frozen array. -/
theorem trailingCell_seals {id : ScopeId} {invocation : Invocation}
    (kind : (heap.scope id).kind = .function invocation) :
    Seals scope heap (heap.trailingCell id invocation).2 := by
  unfold trailingCell
  split
  next => exact .refl heap
  next unbound =>
    let heap' := (heap.newArray invocation.trailing true).2
    let made := heap'.newCell (.constant (.array ⟨heap.arrays.size⟩))
    have arrayed : Seals scope heap heap' := .of_leaves (.refl _) (.newArray ..)
    have celled : heap'.memory.Seals made.2.memory :=
      .of_unwritten (new_keepsHeld (fun _ => false) ..)
    have bound : Seals scope heap' (made.2.modifyScope id fun scope =>
        { scope with kind := .function { invocation with trailingCell := some made.1 } }) := by
      by_cases same : scope = id
      · subst same
        refine ⟨celled, fun _ => rfl, fun sound trailing bound trails => ?_⟩
        have old := trails.old
        obtain ⟨former, kind', rfl, binds, -⟩ := trails
        cases kind.symm.trans kind'
        refine ⟨_, congrArg Scope.kind (scope_modifyScope_self old _), rfl, fun cell given => ?_,
          fun cell given => ?_⟩
        · cases unbound.symm.trans (binds cell given)
        · cases given
          have shows := @shows_new _ heap sound invocation.trailing
          exact ⟨_, shows.spent, shows.value, shows.frozen⟩
      · exact .of_leaves celled (.modifyScope heap' _ id fun here => (same here).elim)
    exact arrayed.trans bound

private theorem seals_law (scope : ScopeId) :
    SearchLaw (Seals scope : Heap Code → Heap Code → Prop) where
  refl := .refl
  trans := .trans
  slotCell heap id slot :=
    .of_leaves (.of_unwritten (slotCell_keepsHeld (fun _ => false) _ heap id slot).toKeepsHeld)
      (.modifyScope heap _ id fun _ => rfl)
  trailingCell := trailingCell_seals
  newCell heap _ := .of_memory heap (.of_unwritten (new_keepsHeld (fun _ => false) ..))

private theorem createMember_seals (heap : Heap Code) (id : ScopeId) (name : String)
    (permission : Permission) : Seals scope heap (heap.createMember id name permission).2 := by
  unfold Heap.createMember
  generalize heap.landing permission id = target
  dsimp only
  generalize (heap.scope target).index.insert name permission = inserted
  have renamed : Seals scope heap (heap.modifyScope target fun scope =>
      { scope with index := inserted.2 }) :=
    .of_leaves (.refl _) (.modifyScope heap heap.memory target fun _ => rfl)
  refine renamed.trans (((seals_law scope).slotCell _ target inserted.1).trans (.of_memory _ ?_))
  exact .modifyCell _ _ fun spent => Cell.declare_of_declared spent.cell.declared permission

private theorem modifyArray_seals (heap : Heap Code) (id : ArrayId)
    (change : Array Value → Array Value) :
    Seals scope heap (heap.modifyArray id change).2 := by
  refine .of_leaves (.of_eq ?_) (.modifyArray ..)
  unfold Heap.modifyArray
  split <;> rfl

private theorem caught_seals (heap : Heap Code) (failure : Failure) :
    Seals scope heap (heap.caught failure).2 := by
  unfold Heap.caught
  split
  next => exact .refl heap
  next =>
    split
    next => exact .refl heap
    next => exact .of_leaves (.refl _) (.of_eq rfl rfl)

/-- What scripts do to a heap, one thing at a time. The host's write, by which a caught value is
bound, is to no constant that has had its own. -/
inductive Acts (heap : Heap Code) : Heap Code → Prop where
  | lookup (scope : ScopeId) (name : String) : Acts heap (heap.lookup scope name).2
  | ownMember (scope : ScopeId) (name : String) : Acts heap (heap.ownMember scope name).2
  | member (value : Value) (name : String) : Acts heap (heap.member value name).2
  | createMember (scope : ScopeId) (name : String) (permission : Permission) :
      Acts heap (heap.createMember scope name permission).2
  | assign (cell : CellId) (name : String) (value : Value) :
      Acts heap (heap.assign cell name value).2
  | install (cell : CellId) (value : Value) (free : ¬ (heap.memory.cell cell).Spent) :
      Acts heap (heap.modifyCell cell (·.install value))
  | newArray (elements : List Value) (frozen : Bool) : Acts heap (heap.newArray elements frozen).2
  | changeArray (id : ArrayId) (change : Array Value → Array Value) :
      Acts heap (heap.modifyArray id change).2
  | newException (exception : ExceptionObject) : Acts heap (heap.newException exception).2
  | newFunction (function : Function Code) : Acts heap (heap.newFunction function).2
  | newScope (scope : Scope) : Acts heap (heap.newScope scope).2
  | caught (failure : Failure) : Acts heap (heap.caught failure).2
  | ofValues (values : List Value) :
      Acts heap { heap with memory := (Table.ofValues values heap.memory).2 }

theorem Acts.seals (acts : heap.Acts after) : Seals scope heap after := by
  have law := @seals_law Code scope
  cases acts with
  | lookup id name => exact law.lookup heap id name
  | ownMember id name => exact law.ownMember heap id name
  | member value name => exact law.member heap value name
  | createMember id name permission => exact createMember_seals heap id name permission
  | assign cell name value => exact .of_memory heap (.assign heap.memory cell name value)
  | install cell value free =>
      exact .of_memory heap (.modifyCell heap.memory cell fun spent => (free spent.cell).elim)
  | newArray elements frozen => exact .of_leaves (.refl _) (.newArray ..)
  | changeArray id change => exact modifyArray_seals heap id change
  | newException exception => exact .of_leaves (.refl _) (.of_eq rfl rfl)
  | newFunction function => exact .of_leaves (.refl _) (.of_eq rfl rfl)
  | newScope scope => exact .of_leaves (.refl _) (.newScope ..)
  | caught failure => exact caught_seals heap failure
  | ofValues values =>
      exact .of_memory heap
        (.of_unwritten (newAll_keepsHeld (fun _ => false) heap.memory _ (values.map .holding)))

def Overwrites (before after : Heap Code) : Prop :=
  ∃ cell value, (before.memory.cell cell).Spent ∧ after = before.modifyCell cell (·.install value)

theorem Deed.acts {α : Type} {step : Heap Code → α × Heap Code} (deed : Deed step)
    (heap : Heap Code) : heap.Acts (step heap).2 ∨ heap.Overwrites (step heap).2 := by
  cases deed with
  | install cell value =>
      by_cases spent : (heap.memory.cell cell).Spent
      · exact .inr ⟨cell, value, spent, rfl⟩
      · exact .inl (.install cell value spent)
  | lookup => exact .inl (.lookup ..)
  | ownMember => exact .inl (.ownMember ..)
  | member => exact .inl (.member ..)
  | createMember => exact .inl (.createMember ..)
  | assign => exact .inl (.assign ..)
  | newArray => exact .inl (.newArray ..)
  | newException => exact .inl (.newException ..)
  | newFunction => exact .inl (.newFunction ..)
  | newScope => exact .inl (.newScope ..)
  | caught => exact .inl (.caught ..)
  | ofValues => exact .inl (.ofValues ..)

end Heap

open Memory Action

namespace Machine

variable {Code : Type} (machine : Machine Code)

theorem memory_annotate (failure : Failure) :
    (machine.annotate failure).2.heap.memory = machine.heap.memory := by
  unfold annotate
  split
  next => rfl
  next =>
    dsimp only
    split <;> rfl

theorem openFrame_seals (id file : String) (scope : ScopeId) :
    machine.heap.memory.Seals (machine.openFrame id file scope).heap.memory := by
  have marked : KeepsHeld (fun _ => false) (fun _ => False) machine.heap.memory
      (machine.openFrame id file scope).heap.memory := .of_bookkeeping rfl rfl
  exact .of_unwritten marked

theorem allocateTable_seals (held : List Handle) (size : Nat) :
    machine.heap.memory.Seals (machineLeft (Action.allocateTable size held machine)).heap.memory :=
  .of_unwritten (allocateTable_keepsHeld (fun _ => false) _ machine held size).toKeepsHeld

theorem allocateBlock_seals (held : List Handle) (previous : ScopeId) (index : Index) :
    machine.heap.memory.Seals
      (machineLeft (Action.allocateBlock previous index held machine)).heap.memory :=
  .of_unwritten (allocateBlock_keepsHeld (fun _ => false) _ machine held previous index).toKeepsHeld

theorem closeFrame_seals (held : List Handle) :
    machine.heap.memory.Seals (machine.closeFrame held).heap.memory :=
  .of_unwritten (closeFrame_keepsHeld _ machine held).toKeepsHeld

theorem releaseScope_seals (held : List Handle) (id : ScopeId) :
    machine.heap.memory.Seals (machine.releaseScope held id).heap.memory :=
  .of_unwritten (releaseScope_keepsHeld _ machine held id).toKeepsHeld

end Machine

namespace Action

variable {Code : Type} {α : Type} {machine : Machine Code}

private theorem andThen_seals {β : Type} {before : Memory} {ending : Ending Code α}
    {next : α → Machine Code → Ending Code β}
    (first : before.Seals (machineLeft ending).heap.memory)
    (second : ∀ result after, ending = .ok result after →
      after.heap.memory.Seals (machineLeft (next result after)).heap.memory) :
    before.Seals (machineLeft (andThen ending next)).heap.memory := by
  cases ending with
  | ok result after => exact first.trans (second result after rfl)
  | error abort after => exact first

private theorem mapArguments_seals (definition : Definition Code) (arguments : Table)
    (held : List Handle) (machine : Machine Code) :
    machine.heap.memory.Seals
      (machineLeft (mapArguments definition arguments held machine)).heap.memory := by
  have settled : machine.heap.memory.Seals (arguments.settled definition machine.heap.memory).2 :=
    .of_unwritten (Workspace.settled_keepsHeld arguments definition (fun _ => false) _ _)
  rw [run_mapArguments]
  generalize arguments.settled definition machine.heap.memory = result at settled ⊢
  obtain ⟨table, memory⟩ := result
  dsimp only
  split
  next =>
    split
    next =>
      refine settled.trans (Seals.trans ?_ (Table.push_seals ..))
      exact .of_unwritten (Table.truncate_keepsHeld table machine.host.shares memory _
        definition.arity)
    next => exact settled
  next => exact settled.trans (Table.free_seals ..)

theorem enterCall_seals (function : Function Code) (id : FunctionId) (arguments : Table)
    (receiver : Option Value) (held : List Handle) (machine : Machine Code) :
    machine.heap.memory.Seals
      (machineLeft (enterCall function id arguments receiver held machine)).heap.memory := by
  unfold enterCall
  rw [run_bind]
  refine andThen_seals (mapArguments_seals ..) fun mapped middle _ => ?_
  exact .of_unwritten (Machine.allocateCallScope_keepsHeld (fun _ => false) _ middle held _ _ _
    rfl).toKeepsHeld

end Action

end ScopeMachine
