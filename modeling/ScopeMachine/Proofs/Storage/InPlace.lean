import ScopeMachine.Proofs.Storage.Laws
import ScopeMachine.Proofs.Storage.MemberBounds
import ScopeMachine.Proofs.Storage.ScopesById

namespace ScopeMachine

open Arena

namespace Table

structure KeepsPlace (floor : Nat) (before after : Table) : Prop where
  onHeap : before.isArena = false → after.isArena = false
  offset : ∀ slice, after.slice? = some slice →
    ∃ was, before.slice? = some was ∧ was.offset = slice.offset
  below : ∀ slice, before.slice? = some slice → slice.stop ≤ floor → 0 < slice.capacity →
    after.slice? = some slice

namespace KeepsPlace

theorem refl (floor : Nat) (table : Table) : KeepsPlace floor table table :=
  ⟨id, fun slice here => ⟨slice, here, rfl⟩, fun _ here _ _ => here⟩

theorem trans {floor : Nat} {first second third : Table} (left : KeepsPlace floor first second)
    (right : KeepsPlace floor second third) : KeepsPlace floor first third where
  onHeap := right.onHeap ∘ left.onHeap
  offset := fun slice here =>
    have ⟨middle, there, same⟩ := right.offset slice here
    have ⟨was, start, start_same⟩ := left.offset middle there
    ⟨was, start, start_same.trans same⟩
  below := fun slice here low filled =>
    right.below slice (left.below slice here low filled) low filled

theorem mono {low high : Nat} {before after : Table} (le : low ≤ high)
    (keeps : KeepsPlace high before after) : KeepsPlace low before after :=
  ⟨keeps.onHeap, keeps.offset, fun slice here below filled =>
    keeps.below slice here (Nat.le_trans below le) filled⟩

theorem of_slice? {floor : Nat} {before after : Table} (slices : after.slice? = before.slice?)
    (onHeap : before.isArena = false → after.isArena = false) : KeepsPlace floor before after :=
  ⟨onHeap, fun slice here => ⟨slice, slices ▸ here, rfl⟩, fun _ here _ _ => slices ▸ here⟩

end KeepsPlace

private theorem not_isTop_of_below {arena : Arena} {slice : Slice}
    (below : slice.stop ≤ arena.floor)
    (filled : 0 < slice.capacity) : arena.isTop slice.offset slice.capacity = false := by
  cases top : arena.isTop slice.offset slice.capacity with
  | false => rfl
  | true =>
      have above := (isTop_iff.mp top).2
      unfold Slice.stop at below
      omega

private theorem copyOut_keepsPlace (table : Table) (memory : Memory) :
    KeepsPlace memory.bounds.floor table (table.copyOut memory).1 := by
  cases table with
  | onHeap cells reserved => exact .refl _ _
  | inArena slice length =>
      unfold copyOut
      dsimp only
      split
      next popped =>
        refine ⟨fun _ => rfl, nofun, fun kept here below filled => ?_⟩
        obtain rfl := Option.some.inj here
        have top := (popTop?_eq_some popped).1
        have floor := congrArg Bounds.floor (Memory.bounds_take memory slice.offset length)
        rw [not_isTop_of_below (Nat.le_trans below (Nat.le_of_eq floor.symm)) filled] at top
        cases top
      next => exact .of_slice? rfl fun _ => rfl

private theorem ensureCapacity_keepsPlace (table : Table) (capacity : Nat) (memory : Memory) :
    KeepsPlace memory.bounds.floor table (table.ensureCapacity capacity memory).1 := by
  cases table with
  | onHeap cells reserved => exact .refl _ _
  | inArena slice length =>
      unfold ensureCapacity
      dsimp only
      split
      next => exact .refl _ _
      next =>
        split
        next grown =>
          refine ⟨nofun, fun _ here => ⟨slice, rfl, ?_⟩, fun kept here below filled => ?_⟩
          · obtain rfl := Option.some.inj here
            rfl
          · obtain rfl := Option.some.inj here
            have top := (grow?_eq_some grown).1
            rw [not_isTop_of_below below filled] at top
            cases top
        next => exact copyOut_keepsPlace ..

private theorem extendTo_keepsPlace (floor : Nat) (table : Table) (length : Nat) (memory : Memory) :
    KeepsPlace floor table (table.extendTo length memory).1 := by
  cases table with
  | onHeap cells reserved => exact .of_slice? rfl id
  | inArena slice length => exact .of_slice? rfl id

private theorem extended_keepsPlace (table : Table) (slot : Nat) (memory : Memory) :
    KeepsPlace memory.bounds.floor table (table.extended slot memory).1 := by
  unfold extended
  split
  next => exact .refl _ _
  next => exact (ensureCapacity_keepsPlace table (slot + 1) memory).trans (extendTo_keepsPlace ..)

theorem cellAt_keepsPlace (table : Table) (slot : Nat) (memory : Memory) :
    KeepsPlace memory.bounds.floor table (table.cellAt slot memory).2.1 := by
  have extending := extended_keepsPlace table slot memory
  rw [cellAt_eq]
  generalize table.extended slot memory = result at extending ⊢
  obtain ⟨cells | slice, after⟩ := result
  · exact extending
  · exact extending

end Table

/-- A scope that goes on being the same scope. -/
structure Scope.KeepsPlace (floor : Nat) (before after : Scope) : Prop where
  pooled : after.pooled = before.pooled
  variant : after.variant = before.variant
  members : before.members.KeepsPlace floor after.members

namespace Scope.KeepsPlace

theorem refl (floor : Nat) (scope : Scope) : KeepsPlace floor scope scope := ⟨rfl, rfl, .refl ..⟩

theorem trans {floor : Nat} {first second third : Scope} (left : KeepsPlace floor first second)
    (right : KeepsPlace floor second third) : KeepsPlace floor first third :=
  ⟨right.pooled.trans left.pooled, right.variant.trans left.variant,
    left.members.trans right.members⟩

theorem mono {low high : Nat} {before after : Scope} (le : low ≤ high)
    (keeps : KeepsPlace high before after) : KeepsPlace low before after :=
  ⟨keeps.pooled, keeps.variant, keeps.members.mono le⟩

end Scope.KeepsPlace

namespace Heap

variable {Code : Type}

/-- A step on the heap that leaves every scope in place. -/
structure KeepsPlace (before after : Heap Code) : Prop where
  shifts : before.Shifts after
  size : before.scopes.size ≤ after.scopes.size
  scope : ∀ id : ScopeId, id.index < before.scopes.size →
    (before.scope id).KeepsPlace before.bounds.floor (after.scope id)

namespace KeepsPlace

theorem refl (heap : Heap Code) : heap.KeepsPlace heap :=
  ⟨.refl _, Nat.le_refl _, fun _ _ => .refl ..⟩

theorem floor {before after : Heap Code} (keeps : before.KeepsPlace after) :
    after.bounds.floor = before.bounds.floor := by
  unfold Bounds.floor
  rw [keeps.shifts.marks]

theorem trans {first second third : Heap Code} (left : first.KeepsPlace second)
    (right : second.KeepsPlace third) : first.KeepsPlace third where
  shifts := left.shifts.trans right.shifts
  size := Nat.le_trans left.size right.size
  scope := fun id old =>
    (left.scope id old).trans
      (left.floor ▸ right.scope id (Nat.lt_of_lt_of_le old left.size))

/-- Nothing but things that are no scopes has changed. -/
theorem of_scopes {before after : Heap Code} (scopes : after.scopes = before.scopes)
    (shifts : before.Shifts after) : before.KeepsPlace after := by
  refine ⟨shifts, Nat.le_of_eq (congrArg Array.size scopes.symm), fun id _ => ?_⟩
  unfold Heap.scope
  rw [scopes]
  exact .refl ..

end KeepsPlace

/-- A change of one scope, with work on cells and arena. -/
theorem modifyScope_keepsPlace (heap : Heap Code) (id : ScopeId) {memory : Memory}
    (shifts : heap.memory.bounds.Shifts memory.bounds) {change : Scope → Scope}
    (keeps : (heap.scope id).KeepsPlace heap.bounds.floor (change (heap.scope id))) :
    heap.KeepsPlace ({ heap with memory }.modifyScope id change) := by
  refine ⟨shifts, Nat.le_of_eq (size_modifyScope ..).symm, fun other old => ?_⟩
  rcases scope_modifyScope_or { heap with memory } id other change with same | ⟨rfl, changed⟩
  · rw [same]
    exact .refl ..
  · rw [changed]
    exact keeps

theorem newScope_keepsPlace (heap : Heap Code) (scope : Scope) :
    heap.KeepsPlace (heap.newScope scope).2 := by
  refine ⟨.refl _, ?_, fun id old => ?_⟩
  · exact Nat.le_trans (Nat.le_succ _) (Nat.le_of_eq (Array.size_push scope).symm)
  · have apart : id ≠ (heap.newScope scope).1 := fun same =>
      Nat.lt_irrefl _ (same ▸ old : (heap.newScope scope).1.index < heap.scopes.size)
    rw [scope_newScope_ne apart]
    exact .refl ..

theorem onMemory_keepsPlace (heap : Heap Code) {memory : Memory}
    (shifts : heap.memory.bounds.Shifts memory.bounds) : heap.KeepsPlace { heap with memory } :=
  .of_scopes rfl shifts

theorem modifyCell_keepsPlace (heap : Heap Code) (id : CellId) (change : Cell → Cell) :
    heap.KeepsPlace (heap.modifyCell id change) :=
  .of_scopes rfl (.refl _)

theorem newArray_keepsPlace (heap : Heap Code) (elements : List Value) (frozen : Bool) :
    heap.KeepsPlace (heap.newArray elements frozen).2 :=
  .of_scopes rfl (.refl _)

theorem newCell_keepsPlace (heap : Heap Code) (cell : Cell) :
    heap.KeepsPlace (heap.newCell cell).2 :=
  .of_scopes rfl (.refl _)

theorem assign_keepsPlace (heap : Heap Code) (id : CellId) (name : String) (value : Value) :
    heap.KeepsPlace (heap.assign id name value).2 :=
  .of_scopes rfl (.of_eq (Memory.bounds_assign ..))

theorem slotCell_keepsPlace (heap : Heap Code) (id : ScopeId) (slot : Nat) :
    heap.KeepsPlace (heap.slotCell id slot).2 :=
  modifyScope_keepsPlace heap id (Table.cellAt_shifts ..) ⟨rfl, rfl, Table.cellAt_keepsPlace ..⟩

theorem trailingCell_keepsPlace (heap : Heap Code) {id : ScopeId} {invocation : Invocation}
    (kind : (heap.scope id).kind = .function invocation) :
    heap.KeepsPlace (heap.trailingCell id invocation).2 := by
  unfold trailingCell
  split
  next => exact .refl heap
  next =>
    have variant : (heap.scope id).variant = .function := congrArg ScopeKind.variant kind
    exact (newArray_keepsPlace heap invocation.trailing true).trans ((newCell_keepsPlace ..).trans
      (modifyScope_keepsPlace _ id (.refl _) ⟨rfl, variant.symm, .refl ..⟩))

theorem keepsPlace_law : Law (KeepsPlace : Heap Code → Heap Code → Prop) where
  refl := .refl
  trans := .trans
  slotCell := slotCell_keepsPlace
  trailingCell := trailingCell_keepsPlace _
  insertName := fun heap id _ _ => modifyScope_keepsPlace heap id (.refl _) ⟨rfl, rfl, .refl ..⟩
  newCell := newCell_keepsPlace
  modifyCell := modifyCell_keepsPlace

theorem caught_keepsPlace (heap : Heap Code) (failure : Failure) :
    heap.KeepsPlace (heap.caught failure).2 := by
  unfold caught
  split
  next => exact .refl heap
  next =>
    split
    next => exact .refl heap
    next => exact .of_scopes rfl (.refl _)

end Heap

end ScopeMachine
