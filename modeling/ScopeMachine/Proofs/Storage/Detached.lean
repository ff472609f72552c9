import ScopeMachine.Machine.Calls
import ScopeMachine.Proofs.Frames.Routine
import ScopeMachine.Proofs.Running
import ScopeMachine.Proofs.Storage.Aloof
import ScopeMachine.Proofs.Storage.ScopesById

namespace ScopeMachine

open Memory Table Action

namespace Heap

variable {Code : Type}

/-- Slots name different cells, and none that a scope keeps on the heap. -/
structure Detached (heap : Heap Code) : Prop where
  sound : heap.memory.Sound
  aloof : ∀ id : ScopeId, (heap.scope id).members.Aloof heap.memory

/-- A step that keeps slots and cells on the heap apart. -/
structure StaysDetached (before after : Heap Code) : Prop where
  continues : before.Detached → before.memory.Continues after.memory
  detached : before.Detached → after.Detached

namespace StaysDetached

theorem refl (heap : Heap Code) : heap.StaysDetached heap := ⟨fun _ => .refl .., id⟩

theorem trans {first second third : Heap Code} (left : first.StaysDetached second)
    (right : second.StaysDetached third) : first.StaysDetached third :=
  ⟨fun before => (left.continues before).trans (right.continues (left.detached before)),
    right.detached ∘ left.detached⟩

theorem of_memory (heap : Heap Code) {memory : Memory}
    (continues : heap.memory.Sound → heap.memory.Continues memory) :
    heap.StaysDetached { heap with memory } :=
  ⟨fun before => continues before.sound, fun before =>
    ⟨(continues before.sound).sound before.sound, fun id =>
      (before.aloof id).continues (continues before.sound)⟩⟩

/-- Nothing but things that are no cells, slots or members has changed. -/
theorem of_members {before after : Heap Code} (memory : after.memory = before.memory)
    (members : ∀ id, (after.scope id).members = (before.scope id).members ∨
      (after.scope id).members.heapCells = #[]) : before.StaysDetached after := by
  refine ⟨fun _ => memory ▸ .refl .., fun detached => ⟨memory ▸ detached.sound, fun id => ?_⟩⟩
  rw [memory]
  rcases members id with same | bare
  · exact same ▸ detached.aloof id
  · exact aloof_of_bare bare _

end StaysDetached

theorem modifyScope_staysDetached (heap : Heap Code) (id : ScopeId) {change : Scope → Scope}
    (members : ∀ scope, (change scope).members = scope.members ∨
      (change scope).members.heapCells = #[]) :
        heap.StaysDetached (heap.modifyScope id change) := by
  refine .of_members rfl fun other => ?_
  rcases scope_modifyScope_or heap id other change with same | ⟨-, changed⟩
  · exact .inl (congrArg Scope.members same)
  · rw [changed]
    exact members _

/-- Work on the members of a scope. -/
theorem work_staysDetached (heap : Heap Code) {id : ScopeId} {table : Table} {memory : Memory}
    (stays : (heap.scope id).members.StaysDetached heap.memory table memory)
    {change : Scope → Scope}
    (members : ∀ scope, (change scope).members = table) :
    heap.StaysDetached ({ heap with memory }.modifyScope id change) := by
  refine ⟨fun before => stays.continues before.sound, fun before => ?_⟩
  have continues := stays.continues before.sound
  refine ⟨continues.sound before.sound, fun other => ?_⟩
  rcases scope_modifyScope_or { heap with memory } id other change with same | ⟨rfl, changed⟩
  · rw [same]
    exact (before.aloof other).continues continues
  · rw [changed, members]
    exact stays.aloof before.sound (before.aloof other)

theorem addScope_staysDetached (heap : Heap Code) {scope : Scope}
    (aloof : heap.Detached → scope.members.Aloof heap.memory) :
    heap.StaysDetached (heap.newScope scope).2 := by
  refine ⟨fun _ => .refl .., fun detached => ⟨detached.sound, fun id => ?_⟩⟩
  by_cases same : id = (heap.newScope scope).1
  · rw [same, scope_newScope_self]
    exact aloof detached
  · rw [scope_newScope_ne same]
    exact detached.aloof id

theorem setScope_staysDetached (heap : Heap Code) (id : ScopeId) {scope : Scope}
    (aloof : heap.Detached → scope.members.Aloof heap.memory) :
    heap.StaysDetached (heap.setScope id scope) := by
  refine ⟨fun _ => .refl .., fun detached => ⟨detached.sound, fun other => ?_⟩⟩
  rcases scope_modifyScope_or heap id other (fun _ => scope) with same | ⟨-, changed⟩
  · unfold setScope
    rw [same]
    exact detached.aloof other
  · unfold setScope
    rw [changed]
    exact aloof detached

theorem newScope_staysDetached (heap : Heap Code) {scope : Scope}
    (bare : scope.members.heapCells = #[]) :
    heap.StaysDetached (heap.newScope scope).2 :=
  addScope_staysDetached heap fun _ => aloof_of_bare bare _

theorem slotCell_staysDetached (heap : Heap Code) (id : ScopeId) (slot : Nat) :
    heap.StaysDetached (heap.slotCell id slot).2 :=
  work_staysDetached heap (cellAt_staysDetached (heap.scope id).members heap.memory slot) fun _ =>
    rfl

theorem newCell_staysDetached (heap : Heap Code) (cell : Cell) :
    heap.StaysDetached (heap.newCell cell).2 :=
  .of_memory heap fun _ => (new_confined ..).continues

theorem modifyCell_staysDetached (heap : Heap Code) (id : CellId) (change : Cell → Cell) :
    heap.StaysDetached (heap.modifyCell id change) :=
  .of_memory heap fun _ => (modifyCell_confined ..).continues

theorem newArray_staysDetached (heap : Heap Code) (elements : List Value) (frozen : Bool) :
    heap.StaysDetached (heap.newArray elements frozen).2 :=
  .of_members rfl fun _ => .inl rfl

theorem trailingCell_staysDetached (heap : Heap Code) (id : ScopeId) (invocation : Invocation) :
    heap.StaysDetached (heap.trailingCell id invocation).2 := by
  unfold trailingCell
  split
  next => exact .refl heap
  next =>
    exact (newArray_staysDetached ..).trans ((newCell_staysDetached ..).trans
      (modifyScope_staysDetached _ _ fun _ => .inl rfl))

theorem staysDetached_law : Law (StaysDetached : Heap Code → Heap Code → Prop) where
  refl := .refl
  trans := .trans
  slotCell := slotCell_staysDetached
  trailingCell _ := trailingCell_staysDetached ..
  newCell := newCell_staysDetached
  insertName _ _ _ _ := modifyScope_staysDetached _ _ fun _ => .inl rfl
  modifyCell := modifyCell_staysDetached

theorem newEmptyGlobal_staysDetached (heap : Heap Code) :
    heap.StaysDetached heap.newEmptyGlobal.2 :=
  newScope_staysDetached heap rfl

theorem newGlobal_staysDetached (heap : Heap Code) : heap.StaysDetached heap.newGlobal.2 := by
  have bare := newEmptyGlobal_staysDetached heap
  unfold newGlobal
  generalize heap.newEmptyGlobal = made at bare ⊢
  obtain ⟨scope, after⟩ := made
  exact bare.trans (staysDetached_law.installBuiltins after scope)

theorem detach_staysDetached (heap : Heap Code) (id : ScopeId) :
    heap.StaysDetached (heap.detach id) := by
  unfold detach
  dsimp only
  split
  next =>
    exact work_staysDetached heap (safeCopy_staysDetached (heap.scope id).members heap.memory).1
      fun _ => rfl
  next => exact work_staysDetached heap (.refl ..) fun _ => rfl

theorem ofCapacity_detached (capacity : Nat) : (ofCapacity capacity : Heap Code).Detached := by
  refine ⟨⟨nofun, nofun⟩, fun id => aloof_of_bare ?_ _⟩
  rw [scope_of_size_le (Nat.zero_le _)]
  rfl

end Heap

namespace Machine

variable {Code : Type}

abbrev Detached (machine : Machine Code) : Prop := machine.heap.Detached

abbrev StaysDetached (before after : Machine Code) : Prop := before.heap.StaysDetached after.heap

theorem new_detached (limits : Limits) (choice : GlobalChoice) :
    (new limits choice : Machine Code).Detached := by
  have shared : (Heap.ofCapacity limits.arenaCapacity : Heap Code).newGlobal.2.Detached :=
    (Heap.newGlobal_staysDetached _).detached (Heap.ofCapacity_detached _)
  cases choice with
  | fresh => exact (Heap.newGlobal_staysDetached _).detached shared
  | empty => exact (Heap.newEmptyGlobal_staysDetached _).detached shared
  | shared => exact shared

theorem recycle_staysDetached (machine : Machine Code) (id : ScopeId) :
    machine.StaysDetached (machine.recycle id) :=
  Heap.modifyScope_staysDetached _ _ fun _ => .inr rfl

theorem releaseBlocks_staysDetached (held : List Handle) (blocks : List ScopeId)
    (machine : Machine Code) : machine.StaysDetached (releaseBlocks held blocks machine) := by
  induction blocks generalizing machine with
  | nil => exact .refl _
  | cons id rest induction =>
      unfold releaseBlocks
      dsimp only
      split
      next => exact (Heap.detach_staysDetached ..).trans (induction (machine.promote id))
      next => exact (recycle_staysDetached machine id).trans (induction _)

theorem closeFrame_staysDetached (machine : Machine Code) (held : List Handle) :
    machine.StaysDetached (machine.closeFrame held) := by
  unfold closeFrame
  cases machine.frames.pop? with
  | none => exact .refl _
  | some popped =>
      exact (releaseBlocks_staysDetached held popped.1.blocks
        { machine with frames := popped.2 }).trans
        (.of_memory _ fun _ => closeFrame_continues ..)

theorem openFrame_staysDetached (machine : Machine Code) (id file : String) (scope : ScopeId) :
    machine.StaysDetached (machine.openFrame id file scope) :=
  .of_memory machine.heap fun _ => .of_bookkeeping rfl rfl

theorem releaseScope_staysDetached (machine : Machine Code) (held : List Handle) (id : ScopeId) :
    machine.StaysDetached (machine.releaseScope held id) := by
  unfold releaseScope
  dsimp only
  split
  next => exact .refl _
  next =>
    split
    next => exact Heap.detach_staysDetached ..
    next =>
      exact (recycle_staysDetached machine id).trans (.of_memory _ fun _ => free_continues ..)

theorem andThen_staysDetached {α β : Type} {before : Machine Code} {ending : Ending Code α}
    {next : α → Machine Code → Ending Code β} (first : before.StaysDetached (machineLeft ending))
    (second : ∀ (result : α) (machine : Machine Code), ending = .ok result machine →
      machine.StaysDetached (machineLeft (next result machine))) :
    before.StaysDetached (machineLeft (andThen ending next)) := by
  cases ending with
  | ok result machine => exact Heap.StaysDetached.trans first (second result machine rfl)
  | error abort machine => exact first

theorem allocateTable_staysDetached (machine : Machine Code) (held : List Handle) (size : Nat) :
    machine.StaysDetached (machineLeft (Action.allocateTable size held machine)) := by
  rw [run_allocateTable, run_ofExcept]
  split
  next => exact .refl _
  next =>
    cases allocated : machine.heap.memory.arena.allocate size with
    | error fault => exact .refl _
    | ok result =>
        obtain ⟨offset, arena⟩ := result
        obtain ⟨-, -, rfl⟩ := Arena.allocate_eq_ok allocated
        exact .of_memory machine.heap fun _ => .of_bookkeeping rfl rfl

theorem pooledScope_staysDetached (scope : Scope) (held : List Handle) (machine : Machine Code)
    (aloof : machine.Detached → scope.members.Aloof machine.heap.memory) :
    machine.StaysDetached (machineLeft (pooledScope scope held machine)) := by
  rw [run_pooledScope]
  cases machine.pool with
  | nil => exact Heap.addScope_staysDetached _ aloof
  | cons id rest => exact Heap.setScope_staysDetached _ id aloof

/-- A table that was allocated just now has no cells yet. -/
theorem bare_of_allocateTable {machine after : Machine Code} {held : List Handle} {size : Nat}
    {table : Table} (allocated : allocateTable size held machine = .ok table after) :
    table.heapCells = #[] := by
  rw [run_allocateTable, run_ofExcept] at allocated
  split at allocated
  next =>
    cases allocated
    rfl
  next =>
    cases given : machine.heap.memory.arena.allocate size with
    | error fault =>
        rw [given] at allocated
        cases allocated
    | ok result =>
        rw [given] at allocated
        cases allocated
        rfl

theorem allocateBlock_staysDetached (machine : Machine Code) (held : List Handle)
    (previous : ScopeId)
    (index : Index) :
    machine.StaysDetached (machineLeft (allocateBlock previous index held machine)) := by
  rw [run_allocateBlock]
  split
  next => exact Heap.newScope_staysDetached _ rfl
  next =>
    refine andThen_staysDetached (allocateTable_staysDetached ..) fun members middle allocated => ?_
    have pooled := pooledScope_staysDetached ⟨some previous, index, members, .basic,
      true⟩ held middle
      fun _ => aloof_of_bare (bare_of_allocateTable allocated) _
    exact andThen_staysDetached pooled fun _ _ _ => .refl _

theorem allocateCallScope_staysDetached {members : Table} (held : List Handle)
    {machine : Machine Code}
    (detached : machine.Detached) (previous : ScopeId) (index : Index) (invocation : Invocation)
    (aloof : members.Aloof machine.heap.memory) :
    machine.StaysDetached
      (machineLeft (allocateCallScope previous index members invocation held machine)) := by
  have grown := ensureCapacity_staysDetached members machine.heap.memory index.size
  unfold allocateCallScope
  rw [run_bind, run_onMemory, andThen_ok]
  generalize members.ensureCapacity index.size machine.heap.memory = result at grown ⊢
  obtain ⟨table, memory⟩ := result
  have stepped : machine.heap.StaysDetached { machine.heap with memory } :=
    .of_memory _ grown.continues
  have kept : table.Aloof memory := grown.aloof detached.sound aloof
  refine stepped.trans ?_
  dsimp only
  rw [run_ite]
  split
  next =>
    exact pooledScope_staysDetached _ held { machine with heap := { machine.heap with memory } }
      fun _ => kept
  next => exact Heap.addScope_staysDetached { machine.heap with memory } fun _ => kept

end Machine

end ScopeMachine
