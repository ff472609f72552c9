import ScopeMachine.Table

namespace ScopeMachine

namespace Arena

/-- The arena's bookkeeping without its slots. -/
structure Bounds where
  watermark : Nat
  marks : List Nat
  capacity : Nat
  deriving DecidableEq

def bounds (arena : Arena) : Bounds := ⟨arena.watermark, arena.marks, arena.capacity⟩

namespace Bounds

def floor (bounds : Bounds) : Nat := bounds.marks.headD 0

structure InRange (bounds : Bounds) : Prop where
  floor_le : bounds.floor ≤ bounds.watermark
  le_capacity : bounds.watermark ≤ bounds.capacity

/-- Bookkeeping that differs only in a watermark which stays in range. -/
structure Shifts (before after : Bounds) : Prop where
  marks : after.marks = before.marks
  capacity : after.capacity = before.capacity
  inRange : before.InRange → after.InRange

namespace Shifts

theorem refl (bounds : Bounds) : Shifts bounds bounds := ⟨rfl, rfl, id⟩

theorem of_eq {before after : Bounds} (same : after = before) : Shifts before after :=
  same ▸ refl before

theorem trans {first second third : Bounds} (left : Shifts first second)
    (right : Shifts second third) : Shifts first third :=
  ⟨right.marks.trans left.marks, right.capacity.trans left.capacity,
    right.inRange ∘ left.inRange⟩

end Shifts

end Bounds

variable {arena : Arena}

theorem floor_eq (arena : Arena) : arena.floor = arena.bounds.floor := rfl

@[simp] theorem bounds_put (arena : Arena) (position : Nat) (content : Option CellId) :
    (arena.put position content).bounds = arena.bounds := by
  unfold put
  split <;> rfl

theorem allocate_eq_ok {size offset : Nat} {after : Arena}
    (allocated : arena.allocate size = .ok (offset, after)) :
    offset = arena.watermark ∧ size ≤ arena.available ∧
      after = { arena with watermark := arena.watermark + size } := by
  unfold allocate at allocated
  split at allocated
  next => cases allocated
  next fits =>
    cases allocated
    exact ⟨rfl, Nat.le_of_not_lt fits, rfl⟩

theorem allocate_eq_error {size : Nat} {fault : Fault}
    (refused : arena.allocate size = .error fault) :
    arena.available < size ∧
      fault = .arenaExhausted size arena.available arena.capacity := by
  unfold allocate at refused
  split at refused
  next short => cases refused; exact ⟨short, rfl⟩
  next => cases refused

theorem isTop_iff {offset length : Nat} :
    arena.isTop offset length = true ↔
      offset + length = arena.watermark ∧ arena.floor ≤ offset := by
  simp [isTop]

theorem grow?_eq_some {offset length extra : Nat} {after : Arena}
    (grown : arena.grow? offset length extra = some after) :
    arena.isTop offset length = true ∧ extra ≤ arena.available ∧
      after = { arena with watermark := arena.watermark + extra } := by
  unfold grow? at grown
  split at grown
  next fits =>
    cases grown
    rw [Bool.and_eq_true] at fits
    exact ⟨fits.1, by simpa using fits.2, rfl⟩
  next => cases grown

theorem popTop?_eq_some {offset length : Nat} {after : Arena}
    (popped : arena.popTop? offset length = some after) :
    arena.isTop offset length = true ∧ after = { arena with watermark := offset } := by
  unfold popTop? at popped
  split at popped
  next top => cases popped; exact ⟨top, rfl⟩
  next => cases popped

theorem allocate_shifts {size offset : Nat} {after : Arena}
    (allocated : arena.allocate size = .ok (offset, after)) :
    arena.bounds.Shifts after.bounds := by
  obtain ⟨-, fits, rfl⟩ := allocate_eq_ok allocated
  refine ⟨rfl, rfl, fun inRange => ⟨?_, ?_⟩⟩
  · exact Nat.le_trans inRange.floor_le (Nat.le_add_right _ _)
  · have below := inRange.le_capacity
    simp only [bounds, available] at below fits ⊢
    omega

theorem grow?_shifts {offset length extra : Nat} {after : Arena}
    (grown : arena.grow? offset length extra = some after) :
    arena.bounds.Shifts after.bounds := by
  obtain ⟨-, fits, rfl⟩ := grow?_eq_some grown
  refine ⟨rfl, rfl, fun inRange => ⟨?_, ?_⟩⟩
  · exact Nat.le_trans inRange.floor_le (Nat.le_add_right _ _)
  · have below := inRange.le_capacity
    simp only [bounds, available] at below fits ⊢
    omega

theorem popTop?_shifts {offset length : Nat} {after : Arena}
    (popped : arena.popTop? offset length = some after) :
    arena.bounds.Shifts after.bounds := by
  obtain ⟨top, rfl⟩ := popTop?_eq_some popped
  obtain ⟨stop, above⟩ := isTop_iff.mp top
  refine ⟨rfl, rfl, fun inRange => ⟨above, ?_⟩⟩
  have below := inRange.le_capacity
  simp only [bounds] at below ⊢
  omega

end Arena

namespace Memory

variable (shared : CellId → Bool)

def bounds (memory : Memory) : Arena.Bounds := memory.arena.bounds

@[simp] theorem bounds_new (memory : Memory) (cell : Cell) :
    (memory.new cell).2.bounds = memory.bounds := rfl

@[simp] theorem bounds_modifyCell (memory : Memory) (id : CellId) (change : Cell → Cell) :
    (memory.modifyCell id change).bounds = memory.bounds := rfl

@[simp] theorem bounds_put (memory : Memory) (position : Nat) (content : Option CellId) :
    (memory.modifyArena (·.put position content)).bounds = memory.bounds :=
  Arena.bounds_put ..

@[simp] theorem bounds_assign (memory : Memory) (id : CellId) (name : String)
    (value : Value) : (memory.assign id name value).2.bounds = memory.bounds := by
  unfold assign
  split <;> rfl

@[simp] theorem bounds_newAll (memory : Memory) (cells : List Cell) :
    (memory.newAll cells).2.bounds = memory.bounds := by
  suffices general : ∀ (ids : Array CellId) (memory : Memory),
      (cells.foldl (fun made cell =>
        (made.1.push (made.2.new cell).1, (made.2.new cell).2)) (ids, memory)).2.bounds =
          memory.bounds from
    general #[] memory
  induction cells with
  | nil => exact fun _ _ => rfl
  | cons cell cells induction => exact fun ids memory => induction _ _

@[simp] theorem bounds_slot (memory : Memory) (position : Nat) :
    (memory.slot position).2.bounds = memory.bounds := by
  unfold slot
  split
  · rfl
  · exact Arena.bounds_put ..

@[simp] theorem bounds_take (memory : Memory) (offset length : Nat) :
    (memory.take offset length).2.bounds = memory.bounds := by
  unfold take
  suffices general : ∀ (steps : List Nat) (ids : Array CellId) (memory : Memory),
      (steps.foldl (fun taken step =>
        (taken.1.push (taken.2.slot (offset + step)).1,
          (taken.2.slot (offset + step)).2.modifyArena (·.put (offset + step) none)))
        (ids, memory)).2.bounds = memory.bounds from
    general _ #[] memory
  intro steps
  induction steps with
  | nil => exact fun _ _ => rfl
  | cons step steps induction =>
      intro ids memory
      rw [List.foldl_cons, induction]
      exact (bounds_put ..).trans (bounds_slot ..)

@[simp] theorem bounds_releaseSlot (memory : Memory) (position : Nat) :
    (memory.releaseSlot shared position).bounds = memory.bounds := by
  unfold releaseSlot
  split
  · rfl
  · split
    · exact bounds_put ..
    · rfl

@[simp] theorem bounds_release (memory : Memory) (low high : Nat) :
    (memory.release shared low high).bounds = memory.bounds := by
  unfold release
  generalize List.range' low _ = positions
  induction positions generalizing memory with
  | nil => rfl
  | cons position positions induction =>
      rw [List.foldl_cons, induction, bounds_releaseSlot]

@[simp] theorem bounds_resetSlice (memory : Memory) (offset length : Nat) :
    (memory.resetSlice offset length).bounds = memory.bounds := by
  unfold resetSlice
  generalize List.range' offset length = positions
  induction positions generalizing memory with
  | nil => rfl
  | cons position positions induction =>
      rw [List.foldl_cons, induction]
      split <;> rfl

theorem bounds_releaseTo (memory : Memory) (mark : Nat) :
    (memory.releaseTo shared mark).bounds =
      { memory.bounds with watermark := min memory.bounds.watermark mark } := by
  unfold releaseTo
  split
  next low =>
    have lowest : min memory.bounds.watermark mark = memory.bounds.watermark :=
      Nat.min_eq_left low
    rw [lowest]
  next high =>
    have same := bounds_release shared memory mark memory.arena.watermark
    have marks := congrArg Arena.Bounds.marks same
    have capacity := congrArg Arena.Bounds.capacity same
    have lowest : min memory.bounds.watermark mark = mark :=
      Nat.min_eq_right (Nat.le_of_not_le high)
    rw [lowest]
    exact congr (congrArg (Arena.Bounds.mk mark) marks) capacity

theorem bounds_closeFrame (memory : Memory) (mark : Nat) :
    (memory.closeFrame shared mark).bounds =
      ⟨min memory.bounds.watermark mark, memory.bounds.marks.tail, memory.bounds.capacity⟩ :=
  bounds_releaseTo ..

end Memory

namespace Table

open Memory Arena

variable (shared : CellId → Bool)

@[simp] theorem bounds_ofValues (values : List Value) (memory : Memory) :
    (ofValues values memory).2.bounds = memory.bounds :=
  bounds_newAll ..

theorem copyOut_shifts (table : Table) (memory : Memory) :
    memory.bounds.Shifts (table.copyOut memory).2.bounds := by
  cases table with
  | onHeap cells reserved => exact .refl _
  | inArena slice length =>
      have taken := Bounds.Shifts.of_eq (bounds_take memory slice.offset length)
      unfold copyOut
      dsimp only
      split
      next popped => exact taken.trans (popTop?_shifts popped)
      next => exact taken

theorem ensureCapacity_shifts (table : Table) (capacity : Nat) (memory : Memory) :
    memory.bounds.Shifts (table.ensureCapacity capacity memory).2.bounds := by
  cases table with
  | onHeap cells reserved => exact .refl _
  | inArena slice length =>
      unfold ensureCapacity
      dsimp only
      split
      next => exact .refl _
      next =>
        split
        next grown => exact grow?_shifts grown
        next => exact copyOut_shifts ..

@[simp] theorem bounds_extendTo (table : Table) (length : Nat) (memory : Memory) :
    (table.extendTo length memory).2.bounds = memory.bounds := by
  cases table with
  | onHeap cells reserved => exact bounds_newAll ..
  | inArena slice length => rfl

/-- What a table does before its cell at a slot is read: it grows if it is too short. -/
def extended (table : Table) (slot : Nat) (memory : Memory) : Table × Memory :=
  if slot < table.length then (table, memory)
  else
    let (table, memory) := table.ensureCapacity (slot + 1) memory
    table.extendTo (slot + 1) memory

theorem cellAt_eq (table : Table) (slot : Nat) (memory : Memory) :
    table.cellAt slot memory =
      match table.extended slot memory with
      | (.onHeap cells reserved, memory) =>
          (cells.getD slot ⟨0⟩, .onHeap cells reserved, memory)
      | (.inArena slice length, memory) =>
          ((memory.slot (slice.offset + slot)).1, .inArena slice length,
            (memory.slot (slice.offset + slot)).2) := by
  unfold cellAt extended
  generalize (if slot < table.length then (table, memory) else _) = result
  obtain ⟨table, memory⟩ := result
  cases table <;> rfl

theorem extended_shifts (table : Table) (slot : Nat) (memory : Memory) :
    memory.bounds.Shifts (table.extended slot memory).2.bounds := by
  unfold extended
  split
  next => exact .refl _
  next =>
    exact (ensureCapacity_shifts table (slot + 1) memory).trans
      (.of_eq (bounds_extendTo ..))

theorem cellAt_shifts (table : Table) (slot : Nat) (memory : Memory) :
    memory.bounds.Shifts (table.cellAt slot memory).2.2.bounds := by
  rw [cellAt_eq]
  have extending := extended_shifts table slot memory
  generalize table.extended slot memory = result at extending ⊢
  obtain ⟨cells | slice, after⟩ := result
  · exact extending
  · exact extending.trans (.of_eq (bounds_slot ..))

theorem safeCopy_shifts (table : Table) (memory : Memory) :
    memory.bounds.Shifts (table.safeCopy memory).2.2.bounds :=
  copyOut_shifts ..

@[simp] theorem bounds_reset (table : Table) (memory : Memory) :
    (table.reset memory).bounds = memory.bounds := by
  cases table with
  | onHeap cells reserved =>
      unfold reset
      dsimp only
      rw [← Array.foldl_toList]
      generalize cells.toList = ids
      induction ids generalizing memory with
      | nil => rfl
      | cons id ids induction => rw [List.foldl_cons, induction, bounds_modifyCell]
  | inArena slice length => exact bounds_resetSlice ..

theorem free_shifts (table : Table) (memory : Memory) :
    memory.bounds.Shifts (table.free shared memory).bounds := by
  unfold free
  cases table.slice? with
  | none => exact .refl _
  | some slice =>
      have released := Bounds.Shifts.of_eq
        (bounds_release shared memory slice.offset slice.stop)
      dsimp only
      split
      next popped => exact released.trans (popTop?_shifts popped)
      next => exact released

@[simp] theorem bounds_truncate (table : Table) (length : Nat) (memory : Memory) :
    (table.truncate shared length memory).2.bounds = memory.bounds := by
  unfold truncate
  split
  · rfl
  · cases table with
    | onHeap cells reserved => rfl
    | inArena slice oldLength => exact bounds_release ..

theorem reinit_shifts (table : Table) (capacity : Nat) (memory : Memory) :
    memory.bounds.Shifts (table.reinit shared capacity memory).2.bounds :=
  (Bounds.Shifts.of_eq (bounds_truncate shared table 0 memory)).trans
    (ensureCapacity_shifts ..)

theorem push_shifts (table : Table) (value : Value) (memory : Memory) :
    memory.bounds.Shifts (table.push value memory).2.bounds :=
  (cellAt_shifts ..).trans (.of_eq rfl)

theorem pushEach_shifts (table : Table) (values : List Value) (memory : Memory) :
    memory.bounds.Shifts (table.pushEach values memory).2.bounds := by
  unfold pushEach
  induction values generalizing table memory with
  | nil => exact .refl _
  | cons value values induction =>
      rw [List.foldl_cons]
      exact (push_shifts table value memory).trans (induction ..)

theorem pushTogether_shifts (table : Table) (values : List Value) (memory : Memory) :
    memory.bounds.Shifts (table.pushTogether values memory).2.bounds :=
  (ensureCapacity_shifts ..).trans (pushEach_shifts ..)

end Table

end ScopeMachine
