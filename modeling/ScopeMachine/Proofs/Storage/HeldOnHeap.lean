import ScopeMachine.Proofs.Calls.ArgumentSteps
import ScopeMachine.Proofs.Storage.Detached
import ScopeMachine.Proofs.Storage.HeldCells
import ScopeMachine.Proofs.Storage.Landing
import ScopeMachine.Proofs.Storage.Stores

namespace ScopeMachine

open Memory Table Action

namespace Heap

variable {Code : Type}

def Binds (heap : Heap Code) (id : CellId) : Prop :=
  ∃ scope, (heap.scope scope).kind.trailingCell? = some id

def Apart (heap : Heap Code) (id : CellId) : Prop :=
  id.index < heap.memory.cells.size ∧ ∀ position, heap.memory.arena.peek position ≠ some id

/-- A step that keeps what is held. Bindings of `in` that it makes are cells apart from the slots.
-/
structure KeepsHeld (shared : CellId → Bool) (written : CellId → Prop) (before after : Heap Code) :
    Prop extends before.memory.KeepsHeld shared written after.memory where
  binds : ∀ {id : CellId}, after.Binds id → before.Binds id ∨ after.Apart id

namespace KeepsHeld

variable {shared : CellId → Bool} {written : CellId → Prop} {before middle after : Heap Code}

theorem apart (keeps : KeepsHeld shared written before after) {id : CellId}
    (apart : before.Apart id) :
    after.Apart id :=
  ⟨Nat.lt_of_lt_of_le apart.1 keeps.size, keeps.continues.unnamed apart.1 apart.2⟩

theorem refl (shared : CellId → Bool) (written : CellId → Prop) (heap : Heap Code) :
    KeepsHeld shared written heap heap :=
  ⟨.refl .., .inl⟩

theorem trans (left : KeepsHeld shared written before middle)
    (right : KeepsHeld shared written middle after) : KeepsHeld shared written before after := by
  refine ⟨left.toKeepsHeld.trans right.toKeepsHeld, fun bound => ?_⟩
  rcases right.binds bound with earlier | apart
  · exact (left.binds earlier).imp_right right.apart
  · exact .inr apart

theorem of_memory (heap : Heap Code) {memory : Memory}
    (keeps : heap.memory.KeepsHeld shared written memory) :
    KeepsHeld shared written heap { heap with memory } :=
  ⟨keeps, .inl⟩

/-- Nothing but things that are neither cells nor slots has changed. -/
theorem of_scopes (memory : before.memory.KeepsHeld shared written after.memory)
    (bindings : ∀ id, (after.scope id).kind.trailingCell? = none ∨
      (after.scope id).kind = (before.scope id).kind) : KeepsHeld shared written before after := by
  refine ⟨memory, fun {id} ⟨scope, bound⟩ => .inl ⟨scope, ?_⟩⟩
  rcases bindings scope with bare | same
  · rw [bare] at bound
    cases bound
  · rwa [same] at bound

end KeepsHeld

variable (shared : CellId → Bool) (written : CellId → Prop) (heap : Heap Code)

theorem modifyScope_keepsHeld {before : Heap Code} {memory : Memory}
    (keeps : before.memory.KeepsHeld shared written memory) (id : ScopeId) {change : Scope → Scope}
    (kinds : ∀ scope, (change scope).kind.trailingCell? = none ∨ (change scope).kind = scope.kind) :
    before.KeepsHeld shared written ({ before with memory }.modifyScope id change) := by
  refine .of_scopes keeps fun other => ?_
  rcases scope_modifyScope_or { before with memory } id other change with same | ⟨-, changed⟩
  · exact .inr (congrArg Scope.kind same)
  · rw [changed]
    exact kinds _

theorem newScope_keepsHeld {scope : Scope} (bare : scope.kind.trailingCell? = none) :
    heap.KeepsHeld shared written (heap.newScope scope).2 := by
  refine .of_scopes (.refl ..) fun id => ?_
  by_cases same : id = (heap.newScope scope).1
  · rw [same, scope_newScope_self]
    exact .inl bare
  · exact .inr (congrArg Scope.kind (scope_newScope_ne same))

theorem setScope_keepsHeld (id : ScopeId) {scope : Scope} (bare : scope.kind.trailingCell? = none) :
    heap.KeepsHeld shared written (heap.setScope id scope) :=
  modifyScope_keepsHeld shared written (.refl ..) id fun _ => .inl bare

theorem slotCell_keepsHeld (id : ScopeId) (slot : Nat) :
    heap.KeepsHeld shared written (heap.slotCell id slot).2 :=
  modifyScope_keepsHeld shared written (cellAt_keepsHeld ..) id fun _ => .inr rfl

theorem trailingCell_keepsHeld (sound : heap.memory.Sound) (id : ScopeId)
    (invocation : Invocation) :
    heap.KeepsHeld shared written (heap.trailingCell id invocation).2 := by
  unfold trailingCell
  split
  next => exact .refl ..
  next =>
    refine ⟨new_keepsHeld .., fun {bound} ⟨scope, found⟩ => ?_⟩
    rcases scope_modifyScope_or _ id scope _ with same | ⟨rfl, changed⟩
    · rw [same] at found
      exact .inl ⟨scope, found⟩
    · rw [changed] at found
      cases found
      refine .inr ⟨?_, fun position named => ?_⟩
      · exact Nat.lt_of_lt_of_eq (Nat.lt_succ_self _) (Array.size_push _).symm
      · exact Nat.lt_irrefl _ (sound.old named)

theorem KeepsHeld.sound {shared : CellId → Bool} {written : CellId → Prop}
    {before after : Heap Code}
    (keeps : KeepsHeld shared written before after) (sound : before.memory.Sound) :
    after.memory.Sound := keeps.continues.sound sound

theorem keepsHeld_law : SearchLaw fun before after : Heap Code =>
    before.memory.Sound → before.KeepsHeld shared written after where
  refl _ _ := .refl ..
  trans left right sound := (left sound).trans (right ((left sound).sound sound))
  slotCell heap id slot _ := slotCell_keepsHeld shared written heap id slot
  trailingCell {heap id invocation} _ sound :=
    trailingCell_keepsHeld shared written heap sound id invocation
  newCell heap _ _ := .of_memory heap (Memory.new_keepsHeld ..)

variable {written}

theorem modifyCell_keepsHeld {id : CellId} (wrote : written id) (change : Cell → Cell) :
    heap.KeepsHeld shared written (heap.modifyCell id change) :=
  .of_memory heap (Memory.modifyCell_keepsHeld _ _ wrote change)

theorem createMember_keepsHeld {id : ScopeId} {name : String} {permission : Permission}
    (wrote : written (heap.createMember id name permission).1) :
    heap.KeepsHeld shared written (heap.createMember id name permission).2 := by
  unfold createMember at wrote ⊢
  generalize heap.landing permission id = target at wrote ⊢
  dsimp only at wrote ⊢
  generalize (heap.scope target).index.insert name permission = inserted at wrote ⊢
  have renamed : heap.KeepsHeld shared written (heap.modifyScope target fun scope =>
      { scope with index := inserted.2 }) :=
    modifyScope_keepsHeld shared written (.refl ..) target fun _ => .inr rfl
  exact renamed.trans ((slotCell_keepsHeld shared written _ target inserted.1).trans
    (modifyCell_keepsHeld _ _ wrote _))

structure Young (heap : Heap Code) (base : Nat) (id : ScopeId) : Prop where
  old : id.index < heap.scopes.size
  kind : (heap.scope id).kind = .global
  members : ∃ cells : Array CellId, (heap.scope id).members = .onHeap cells none ∧
    ∀ cell ∈ cells, base ≤ cell.index

variable {heap}

private theorem Young.createMember {base : Nat} {id : ScopeId} (young : heap.Young base id)
    (since : base ≤ heap.memory.cells.size) (name : String) (permission : Permission) :
    base ≤ (heap.createMember id name permission).1.index ∧
      (heap.createMember id name permission).2.Young base id := by
  obtain ⟨old, kind, cells, members, newer⟩ := young
  unfold Heap.createMember
  have stays : heap.landing permission id = id :=
    landingWithin_self (by simp [Scope.variant, kind, ScopeKind.variant])
      (by simp [Scope.variant, kind, ScopeKind.variant]) ..
  rw [stays]
  dsimp only
  generalize (heap.scope id).index.insert name permission = inserted
  obtain ⟨slot, index⟩ := inserted
  let change : Scope → Scope := fun scope => { scope with index }
  have here : (heap.modifyScope id change).scope id = change (heap.scope id) :=
    scope_modifyScope_self old change
  obtain ⟨cells', table, newer', listed⟩ :=
    cellAt_newer newer since none slot
  have there : ((heap.modifyScope id change).scope id).members.cellAt slot
      (heap.modifyScope id change).memory = (onHeap cells none).cellAt slot heap.memory :=
    congrArg (Table.cellAt · slot heap.memory) ((congrArg Scope.members here).trans members)
  have sized : id.index < (heap.modifyScope id change).scopes.size :=
    Nat.lt_of_lt_of_eq old (size_modifyScope ..).symm
  change base ≤ (slotCell (heap.modifyScope id change) id slot).1.index ∧
    Young ((slotCell (heap.modifyScope id change) id slot).2.modifyCell
      (slotCell (heap.modifyScope id change) id slot).1 (·.declare permission)) base id
  unfold slotCell
  rw [there]
  refine ⟨newer' _ listed, ⟨?_, ?_, cells', ?_, newer'⟩⟩
  · exact Nat.lt_of_lt_of_eq sized (size_modifyScope _ id _).symm
  · refine (congrArg Scope.kind (scope_modifyScope_self sized _)).trans ?_
    exact (congrArg Scope.kind here).trans kind
  · exact (congrArg Scope.members (scope_modifyScope_self sized _)).trans table

private theorem Young.installBuiltins {base : Nat} {id : ScopeId} (young : heap.Young base id)
    (since : base ≤ heap.memory.cells.size) :
    heap.KeepsHeld shared (base ≤ ·.index) (heap.installBuiltins id) := by
  unfold Heap.installBuiltins
  generalize BuiltinType.globals = types
  induction types generalizing heap with
  | nil => exact .refl ..
  | cons type rest induction =>
      rw [List.foldl_cons]
      obtain ⟨newer, after⟩ := young.createMember since type.name (.union .publicTier .const)
      have created : heap.KeepsHeld shared (base ≤ ·.index) _ :=
        createMember_keepsHeld shared heap newer
      generalize heap.createMember id type.name (.union .publicTier .const) = result at *
      obtain ⟨cell, heap'⟩ := result
      have step := created.trans (modifyCell_keepsHeld shared heap' newer (·.install (.type type)))
      have later : (heap'.modifyCell cell (·.install (.type type))).Young base id :=
        ⟨after.old, after.kind, after.members⟩
      exact step.trans (induction later (Nat.le_trans since step.size))

theorem newGlobal_keepsHeld (written : CellId → Prop) (heap : Heap Code) :
    heap.KeepsHeld shared written heap.newGlobal.2 := by
  have empty : heap.KeepsHeld shared written heap.newEmptyGlobal.2 := newScope_keepsHeld _ _ _ rfl
  have made := scope_newScope_self heap (.onHeap none .empty .global)
  have young : heap.newEmptyGlobal.2.Young heap.newEmptyGlobal.2.memory.cells.size
      heap.newEmptyGlobal.1 := by
    refine ⟨?_, congrArg Scope.kind made, #[], congrArg Scope.members made, nofun⟩
    simp [newEmptyGlobal, newScope]
  have installed := young.installBuiltins shared (Nat.le_refl _)
  have settled : Memory.KeepsHeld shared written _ _ :=
    (installed.toKeepsHeld.mono fun _ newer => .inl newer).settle
  unfold newGlobal
  generalize heap.newEmptyGlobal = made at *
  exact empty.trans ⟨settled, installed.binds⟩

theorem detach_keepsHeld (written : CellId → Prop) (heap : Heap Code) (id : ScopeId) :
    heap.KeepsHeld shared written (heap.detach id) := by
  unfold detach
  dsimp only
  split
  next => exact modifyScope_keepsHeld _ _ (copyOut_keepsHeld ..) id fun _ => .inr rfl
  next => exact modifyScope_keepsHeld _ _ (.refl ..) id fun _ => .inr rfl

end Heap

namespace Machine

variable {Code : Type} (shared : CellId → Bool) (written : CellId → Prop)

theorem recycle_keepsHeld (machine : Machine Code) (id : ScopeId) :
    machine.heap.KeepsHeld shared written (machine.recycle id).heap :=
  Heap.modifyScope_keepsHeld shared written (.refl ..) id fun _ => .inl rfl

theorem host_releaseBlocks (held : List Handle) (blocks : List ScopeId) (machine : Machine Code) :
    (releaseBlocks held blocks machine).host = machine.host := by
  induction blocks generalizing machine with
  | nil => rfl
  | cons id rest induction =>
      unfold releaseBlocks
      dsimp only
      split
      next => exact induction _
      next => exact induction _

theorem releaseBlocks_keepsHeld (held : List Handle) (blocks : List ScopeId)
    (machine : Machine Code) :
    machine.heap.KeepsHeld shared written (releaseBlocks held blocks machine).heap := by
  induction blocks generalizing machine with
  | nil => exact .refl ..
  | cons id rest induction =>
      unfold releaseBlocks
      dsimp only
      split
      next => exact (Heap.detach_keepsHeld ..).trans (induction (machine.promote id))
      next => exact (recycle_keepsHeld ..).trans (induction _)

variable (machine : Machine Code)

theorem closeFrame_keepsHeld (held : List Handle) :
    machine.heap.KeepsHeld machine.host.shares written (machine.closeFrame held).heap := by
  unfold closeFrame
  cases machine.frames.pop? with
  | none => exact .refl ..
  | some popped =>
      have hosts : (releaseBlocks held popped.1.blocks { machine with frames := popped.2 }).host =
          machine.host := host_releaseBlocks ..
      have released := releaseBlocks_keepsHeld machine.host.shares written held popped.1.blocks
        { machine with frames := popped.2 }
      refine released.trans (.of_memory _ ?_)
      rw [hosts]
      exact Memory.closeFrame_keepsHeld ..

theorem releaseScope_keepsHeld (held : List Handle) (id : ScopeId) :
    machine.heap.KeepsHeld machine.host.shares written (machine.releaseScope held id).heap := by
  unfold releaseScope
  dsimp only
  split
  next => exact .refl ..
  next =>
    split
    next => exact Heap.detach_keepsHeld ..
    next => exact (recycle_keepsHeld _ _ machine id).trans (.of_memory _ (free_keepsHeld ..))

theorem andThen_keepsHeld {α β : Type} {before : Machine Code} {ending : Ending Code α}
    {next : α → Machine Code → Ending Code β}
    (first : before.heap.KeepsHeld shared written (machineLeft ending).heap)
    (second : ∀ (result : α) (machine : Machine Code), ending = .ok result machine →
      machine.heap.KeepsHeld shared written (machineLeft (next result machine)).heap) :
    before.heap.KeepsHeld shared written (machineLeft (andThen ending next)).heap := by
  cases ending with
  | ok result machine => exact first.trans (second result machine rfl)
  | error abort machine => exact first

theorem allocateTable_keepsHeld (held : List Handle) (size : Nat) :
    machine.heap.KeepsHeld shared written
      (machineLeft (Action.allocateTable size held machine)).heap := by
  rw [run_allocateTable, run_ofExcept]
  split
  next => exact .refl ..
  next =>
    cases allocated : machine.heap.memory.arena.allocate size with
    | error fault => exact .refl ..
    | ok result =>
        obtain ⟨offset, arena⟩ := result
        obtain ⟨-, -, rfl⟩ := Arena.allocate_eq_ok allocated
        exact .of_memory machine.heap (.of_bookkeeping rfl rfl)

theorem pooledScope_keepsHeld {scope : Scope} (bare : scope.kind.trailingCell? = none)
    (held : List Handle) :
    machine.heap.KeepsHeld shared written (machineLeft (pooledScope scope held machine)).heap := by
  rw [run_pooledScope]
  cases machine.pool with
  | nil => exact Heap.newScope_keepsHeld _ _ _ bare
  | cons id rest => exact Heap.setScope_keepsHeld _ _ _ id bare

theorem allocateBlock_keepsHeld (held : List Handle) (previous : ScopeId) (index : Index) :
    machine.heap.KeepsHeld shared written
      (machineLeft (allocateBlock previous index held machine)).heap := by
  rw [run_allocateBlock]
  split
  next => exact Heap.newScope_keepsHeld _ _ _ rfl
  next =>
    refine andThen_keepsHeld shared written (allocateTable_keepsHeld ..) fun members machine _ => ?_
    refine andThen_keepsHeld shared written (pooledScope_keepsHeld _ _ _ rfl _) fun id machine _ =>
      ?_
    exact .refl ..

theorem allocateCallScope_keepsHeld (held : List Handle) (previous : ScopeId) (index : Index)
    (members : Table) {invocation : Invocation} (unbound : invocation.trailingCell = none) :
    machine.heap.KeepsHeld shared written
      (machineLeft (allocateCallScope previous index members invocation held machine)).heap := by
  unfold allocateCallScope
  simp only [run_bind, run_onMemory, andThen_ok, run_ite]
  have fitted := Heap.KeepsHeld.of_memory machine.heap
    (ensureCapacity_keepsHeld members shared machine.heap.memory written index.size)
  generalize members.ensureCapacity index.size machine.heap.memory = ensured at fitted ⊢
  have bare : (ScopeKind.function invocation).trailingCell? = none := unbound
  split
  next => exact fitted.trans (pooledScope_keepsHeld shared written (machine.withMemory _) bare held)
  next => exact fitted.trans (Heap.newScope_keepsHeld shared written _ bare)

end Machine

end ScopeMachine
