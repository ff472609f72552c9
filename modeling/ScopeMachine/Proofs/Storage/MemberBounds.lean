import ScopeMachine.Proofs.Storage.Bounds
import ScopeMachine.Proofs.Storage.Laws

namespace ScopeMachine

open Arena

namespace Heap

variable {Code : Type}

def bounds (heap : Heap Code) : Bounds := heap.memory.bounds

/-- Two heaps whose arenas differ only in a watermark that stays in range. -/
abbrev Shifts (before after : Heap Code) : Prop := before.bounds.Shifts after.bounds

@[simp] theorem bounds_modifyScope (heap : Heap Code) (id : ScopeId) (change : Scope → Scope) :
    (heap.modifyScope id change).bounds = heap.bounds := rfl

@[simp] theorem bounds_modifyCell (heap : Heap Code) (id : CellId) (change : Cell → Cell) :
    (heap.modifyCell id change).bounds = heap.bounds := rfl

@[simp] theorem bounds_newScope (heap : Heap Code) (scope : Scope) :
    (heap.newScope scope).2.bounds = heap.bounds := rfl

theorem slotCell_shifts (heap : Heap Code) (id : ScopeId) (slot : Nat) :
    heap.Shifts (heap.slotCell id slot).2 :=
  Table.cellAt_shifts (heap.scope id).members slot heap.memory

@[simp] theorem bounds_trailingCell (heap : Heap Code) (id : ScopeId)
    (invocation : Invocation) : (heap.trailingCell id invocation).2.bounds = heap.bounds := by
  unfold trailingCell
  split <;> rfl

theorem shifts_law : Law (Shifts : Heap Code → Heap Code → Prop) where
  refl _ := .refl _
  trans := .trans
  slotCell := slotCell_shifts
  trailingCell _ := .of_eq (bounds_trailingCell ..)
  newCell _ _ := .refl _
  insertName _ _ _ _ := .refl _
  modifyCell _ _ _ := .refl _

theorem newGlobal_shifts (heap : Heap Code) : heap.Shifts heap.newGlobal.2 := by
  unfold newGlobal newEmptyGlobal newScope
  dsimp only
  refine Bounds.Shifts.trans ?_ (shifts_law.installBuiltins _ _)
  exact .refl _

theorem detach_shifts (heap : Heap Code) (id : ScopeId) : heap.Shifts (heap.detach id) := by
  unfold detach
  dsimp only
  split
  · exact Table.safeCopy_shifts (heap.scope id).members heap.memory
  · exact .refl _

end Heap

end ScopeMachine
