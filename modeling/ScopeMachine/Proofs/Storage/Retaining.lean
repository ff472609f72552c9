import ScopeMachine.Machine.Storage
import ScopeMachine.Proofs.Names.Shapes
import ScopeMachine.Proofs.Storage.Laws
import ScopeMachine.Proofs.Storage.ScopesById
import ScopeMachine.Proofs.Storage.SingleTable

namespace ScopeMachine

structure Table.Retains (before after : Table) : Prop where
  heaped : before.isArena = false → after.isArena = false
  cells : ∀ {slot : Nat} {cell : CellId}, before.heapCells[slot]? = some cell →
    after.heapCells[slot]? = some cell

namespace Table

theorem Retains.refl (table : Table) : table.Retains table := ⟨id, id⟩

theorem Retains.trans {first second third : Table} (left : first.Retains second)
    (right : second.Retains third) : first.Retains third :=
  ⟨right.heaped ∘ left.heaped, right.cells ∘ left.cells⟩

private theorem cellAt_retains (table : Table) (slot : Nat) (memory : Memory) :
    table.Retains (table.cellAt slot memory).2.1 := by
  cases table with
  | inArena slice length =>
      refine ⟨nofun, fun found => ?_⟩
      simp [heapCells] at found
  | onHeap cells reserved =>
      rw [cellAt_onHeap]
      split
      · exact .refl _
      · refine ⟨id, fun {slot cell} found => ?_⟩
        simp only [heapCells] at found ⊢
        rw [Array.getElem?_append_left (Array.getElem?_eq_some_iff.mp found).1]
        exact found

/-- The members of a scope that has been promoted. -/
def detached (table : Table) (memory : Memory) : Table :=
  match table with
  | .onHeap cells reserved => .onHeap cells reserved
  | .inArena slice length => .onHeap ((inArena slice length).copyOut memory).1.heapCells none

end Table

/-- The scope keeps its names and what it has on the heap. A block scope stays one. -/
structure Scope.Retains (before after : Scope) : Prop where
  members : before.members.Retains after.members
  names : ∀ {name : String} {slot : Nat}, before.index.slot? name = some slot →
    after.index.slot? name = some slot
  basic : before.kind = .basic → after.kind = .basic
  pooled : before.pooled = false → after.pooled = false

namespace Scope.Retains

theorem refl (scope : Scope) : scope.Retains scope := ⟨.refl _, id, id, id⟩

theorem trans {first second third : Scope} (left : first.Retains second)
    (right : second.Retains third) : first.Retains third :=
  ⟨left.members.trans right.members, right.names ∘ left.names, right.basic ∘ left.basic,
    right.pooled ∘ left.pooled⟩

end Scope.Retains

namespace Heap

variable {Code : Type}

/-- Every scope that exists keeps its names and what it has on the heap. -/
structure Retains (before after : Heap Code) : Prop where
  size : before.scopes.size ≤ after.scopes.size
  scope : ∀ id : ScopeId, id.index < before.scopes.size →
    (before.scope id).Retains (after.scope id)

namespace Retains

theorem refl (heap : Heap Code) : heap.Retains heap := ⟨Nat.le_refl _, fun _ _ => .refl _⟩

theorem trans {first second third : Heap Code} (left : first.Retains second)
    (right : second.Retains third) : first.Retains third :=
  ⟨Nat.le_trans left.size right.size, fun id old =>
    (left.scope id old).trans (right.scope id (Nat.lt_of_lt_of_le old left.size))⟩

/-- Nothing but things that are no scopes has changed. -/
theorem of_scopes {before after : Heap Code} (same : after.scopes = before.scopes) :
    before.Retains after := by
  have scopes : ∀ id, after.scope id = before.scope id := fun id => by
    unfold Heap.scope
    rw [same]
  refine ⟨Nat.le_of_eq (congrArg Array.size same.symm), fun id _ => ?_⟩
  rw [scopes id]
  exact .refl _

end Retains

theorem onMemory_retains (heap : Heap Code) (memory : Memory) :
    heap.Retains { heap with memory } :=
  .of_scopes rfl

theorem newArray_retains (heap : Heap Code) (elements : List Value) (frozen : Bool) :
    heap.Retains (heap.newArray elements frozen).2 :=
  .of_scopes rfl

theorem newCell_retains (heap : Heap Code) (cell : Cell) : heap.Retains (heap.newCell cell).2 :=
  .of_scopes rfl

theorem modifyScope_retains (heap : Heap Code) (id : ScopeId) {change : Scope → Scope}
    (retains : (heap.scope id).Retains (change (heap.scope id))) :
    heap.Retains (heap.modifyScope id change) := by
  refine ⟨Nat.le_of_eq (size_modifyScope ..).symm, fun other _ => ?_⟩
  rcases scope_modifyScope_or heap id other change with same | ⟨rfl, changed⟩
  · rw [same]
    exact .refl _
  · rw [changed]
    exact retains

theorem newScope_retains (heap : Heap Code) (scope : Scope) :
    heap.Retains (heap.newScope scope).2 := by
  refine ⟨?_, fun id old => ?_⟩
  · simp [newScope]
  · rw [scope_newScope_ne fun same => Nat.lt_irrefl _ (same ▸ old)]
    exact .refl _

theorem retains_law : Law (Retains : Heap Code → Heap Code → Prop) where
  refl := .refl
  trans := .trans
  slotCell heap scope slot :=
    (onMemory_retains heap _).trans
      (modifyScope_retains _ scope ⟨Table.cellAt_retains .., id, id, id⟩)
  trailingCell := by
    intro heap scope invocation kind
    unfold trailingCell
    split
    next => exact .refl _
    next =>
      refine (newArray_retains ..).trans ((newCell_retains ..).trans
        (modifyScope_retains _ scope ⟨.refl _, id, fun basic => ?_, id⟩))
      have called : (heap.scope scope).kind = .basic := basic
      rw [kind] at called
      cases called
  insertName heap scope name permission :=
    modifyScope_retains heap scope
      ⟨.refl _, fun found => Index.slot?_insert found name permission, id, id⟩
  newCell := newCell_retains
  modifyCell heap _ _ := onMemory_retains heap _

theorem memory_detach (heap : Heap Code) (id : ScopeId) :
    (heap.detach id).memory = ((heap.scope id).members.copyOut heap.memory).2 := by
  unfold detach
  cases members : (heap.scope id).members with
  | onHeap => simp [Table.isArena, Table.copyOut, modifyScope]
  | inArena => simp [Table.isArena, Table.safeCopy, modifyScope]

theorem size_detach (heap : Heap Code) (id : ScopeId) :
    (heap.detach id).scopes.size = heap.scopes.size :=
  size_modifyScope ..

theorem scope_detach_ne {id other : ScopeId} (apart : other ≠ id) (heap : Heap Code) :
    (heap.detach id).scope other = heap.scope other :=
  scope_modifyScope_ne apart ..

theorem scope_detach_self {heap : Heap Code} {id : ScopeId}
    (old : id.index < heap.scopes.size) :
    (heap.detach id).scope id =
      { heap.scope id with
        members := (heap.scope id).members.detached heap.memory, pooled := false } := by
  have self : ∀ (memory : Memory) (members : Table),
      (({ heap with memory }.modifyScope id fun scope =>
        { scope with members, pooled := false }).scope id) =
      { heap.scope id with members, pooled := false } := fun _ _ => scope_modifyScope_self old _
  unfold detach Table.detached
  cases (heap.scope id).members with
  | onHeap => exact self ..
  | inArena => exact self ..

theorem detach_retains (heap : Heap Code) (id : ScopeId) : heap.Retains (heap.detach id) := by
  refine ⟨Nat.le_of_eq (size_detach ..).symm, fun other old => ?_⟩
  by_cases same : other = id
  · subst same
    rw [scope_detach_self old]
    refine ⟨?_, id, id, fun _ => rfl⟩
    dsimp only
    cases (heap.scope other).members with
    | onHeap => exact .refl _
    | inArena => exact ⟨nofun, fun found => by simp [Table.heapCells] at found⟩
  · rw [scope_detach_ne same]
    exact .refl _

theorem newGlobal_retains (heap : Heap Code) : heap.Retains heap.newGlobal.2 := by
  have bare := newScope_retains heap (.onHeap none .empty .global)
  unfold newGlobal newEmptyGlobal
  generalize heap.newScope (.onHeap none .empty .global) = made at bare ⊢
  exact bare.trans (retains_law.installBuiltins made.2 made.1)

end Heap

/-- Releasing blocks leaves all other scopes as they are. -/
theorem Machine.scope_releaseBlocks {Code : Type} {held : List Handle} {blocks : List ScopeId}
    {id : ScopeId} (apart : id ∉ blocks) (machine : Machine Code) :
    (releaseBlocks held blocks machine).heap.scope id = machine.heap.scope id := by
  induction blocks generalizing machine with
  | nil => rfl
  | cons first rest induction =>
      obtain ⟨different, apart⟩ := List.ne_and_not_mem_of_not_mem_cons apart
      unfold releaseBlocks
      dsimp only
      split
      · exact (induction apart _).trans (Heap.scope_detach_ne different _)
      · exact (induction apart _).trans (Heap.scope_modifyScope_ne different ..)

end ScopeMachine
