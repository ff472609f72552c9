import ScopeMachine.Proofs.Storage.Layout

namespace ScopeMachine

namespace Memory

/-- Whatever was done with slots and cells: slots name cells that they named before, or new ones. -/
abbrev Continues (before after : Memory) : Prop :=
  Confined (fun _ => True) (fun _ => True) before after

namespace Confined

variable {slots : Nat → Prop} {cells : CellId → Prop} {before after : Memory}

theorem continues (confined : Confined slots cells before after) : before.Continues after :=
  confined.mono (fun _ _ => trivial) fun _ _ => trivial

/-- A cell that no slot names is named by none afterwards. -/
theorem unnamed (confined : Confined slots cells before after) {id : CellId}
    (old : id.index < before.cells.size)
    (unnamed : ∀ position, before.arena.peek position ≠ some id) (position : Nat) :
    after.arena.peek position ≠ some id := by
  intro named
  rcases confined.continues.origin trivial named with named | fresh
  · exact unnamed position named
  · exact Nat.not_lt_of_le fresh old

end Confined

theorem resetSlice_continues (memory : Memory) (offset length : Nat) :
    memory.Continues (memory.resetSlice offset length) := by
  unfold resetSlice
  generalize List.range' offset length = positions
  induction positions generalizing memory with
  | nil => exact .refl ..
  | cons position positions induction =>
      rw [List.foldl_cons]
      refine Confined.trans ?_ (induction _)
      split
      next => exact .refl ..
      next id named => exact (modifyCell_confined memory id _).continues

theorem resetEach_continues (memory : Memory) (ids : Array CellId) :
    memory.Continues (ids.foldl (fun memory id => memory.modifyCell id (·.reset .null))
    memory) := by
  rw [← Array.foldl_toList]
  generalize ids.toList = ids
  induction ids generalizing memory with
  | nil => exact .refl ..
  | cons id ids induction =>
      exact (modifyCell_confined memory id _).continues.trans (induction _)

theorem closeFrame_continues (shared : CellId → Bool) (memory : Memory) (mark : Nat) :
    memory.Continues (memory.closeFrame shared mark) := by
  have closed : memory.Continues (memory.modifyArena (·.closeFrame)) := .of_bookkeeping rfl rfl
  unfold closeFrame releaseTo
  split
  next => exact closed
  next =>
    have released := release_confined shared (memory.modifyArena (·.closeFrame)) mark
      (memory.modifyArena (·.closeFrame)).arena.watermark
    exact closed.trans (released.continues.trans (.of_bookkeeping rfl rfl))

end Memory

namespace Table

open Memory

/-- The cells that the table keeps on the heap exist, and no slot names them. -/
structure Aloof (table : Table) (memory : Memory) : Prop where
  old : ∀ {id : CellId}, id ∈ table.heapCells → id.index < memory.cells.size
  unnamed : ∀ {id : CellId}, id ∈ table.heapCells →
    ∀ position, memory.arena.peek position ≠ some id

theorem Aloof.continues {table : Table} {before after : Memory} (aloof : table.Aloof before)
    (continues : before.Continues after) : table.Aloof after :=
  ⟨fun listed => Nat.lt_of_lt_of_le (aloof.old listed) continues.size,
    fun listed => continues.unnamed (aloof.old listed) (aloof.unnamed listed)⟩

theorem aloof_of_bare {table : Table} (bare : table.heapCells = #[]) (memory : Memory) :
    table.Aloof memory := by
  constructor
  all_goals
    intro id listed
    rw [bare] at listed
    exact absurd listed (Array.not_mem_empty id)

theorem aloof_empty (memory : Memory) : empty.Aloof memory := aloof_of_bare rfl memory

theorem aloof_inArena (slice : Slice) (length : Nat) (memory : Memory) :
    (inArena slice length).Aloof memory := aloof_of_bare rfl memory

/-- Fewer cells, or the same under another reservation. -/
theorem Aloof.part {table part : Table} {memory : Memory} (aloof : table.Aloof memory)
    (fewer : ∀ {id : CellId}, id ∈ part.heapCells → id ∈ table.heapCells) : part.Aloof memory :=
  ⟨fun listed => aloof.old (fewer listed), fun listed => aloof.unnamed (fewer listed)⟩

theorem newAll_aloof {memory : Memory} (sound : memory.Sound) (cells : List Cell)
    (reserved : Option Slice) :
    (onHeap (memory.newAll cells).1 reserved).Aloof (memory.newAll cells).2 := by
  have fresh : ∀ {id : CellId}, id ∈ (memory.newAll cells).1 →
      memory.cells.size ≤ id.index ∧ id.index < memory.cells.size + cells.length := by
    intro id listed
    obtain ⟨slot, found⟩ := Array.mem_iff_getElem?.mp listed
    rw [newAll_getElem?] at found
    split at found
    next below =>
      cases found
      exact ⟨Nat.le_add_right _ _, Nat.add_lt_add_left below _⟩
    next => cases found
  constructor
  · intro id listed
    rw [size_newAll]
    exact (fresh listed).2
  · intro id listed position named
    rw [arena_newAll] at named
    exact Nat.not_lt_of_le (fresh listed).1 (sound.old named)

theorem Aloof.append {cells others : Array CellId} {reserved reserved' : Option Slice}
    {memory : Memory} (left : (onHeap cells reserved).Aloof memory)
    (right : (onHeap others reserved').Aloof memory) :
    (onHeap (cells ++ others) reserved).Aloof memory := by
  constructor
  · exact fun listed => (Array.mem_append.mp listed).elim left.old right.old
  · exact fun listed => (Array.mem_append.mp listed).elim left.unnamed right.unnamed

/-- Work on a table that keeps its cells on the heap apart from the slots. -/
structure StaysDetached (table : Table) (before : Memory) (table' : Table) (after : Memory) :
    Prop where
  continues : before.Sound → before.Continues after
  aloof : before.Sound → table.Aloof before → table'.Aloof after

namespace StaysDetached

variable {table table' table'' : Table} {before middle after : Memory}

theorem refl (table : Table) (memory : Memory) : StaysDetached table memory table memory :=
  ⟨fun _ => .refl .., fun _ => id⟩

theorem trans (left : StaysDetached table before table' middle)
    (right : StaysDetached table' middle table'' after) :
    StaysDetached table before table'' after := by
  have sound := fun sound => (left.continues sound).sound sound
  exact ⟨fun before => (left.continues before).trans (right.continues (sound before)),
    fun before aloof => right.aloof (sound before) (left.aloof before aloof)⟩

/-- Work on a memory under a table that stays as it is. -/
theorem of_continues (table : Table) (continues : before.Continues after) :
    StaysDetached table before table after :=
  ⟨fun _ => continues, fun _ aloof => aloof.continues continues⟩

/-- Work that leaves the table in the arena. -/
theorem of_inArena (table : Table) (slice : Slice) (length : Nat)
    (continues : before.Continues after) :
    StaysDetached table before (inArena slice length) after :=
  ⟨fun _ => continues, fun _ _ => aloof_inArena ..⟩

end StaysDetached

variable (table : Table) (memory : Memory)

theorem copyOut_staysDetached :
    StaysDetached table memory (table.copyOut memory).1 (table.copyOut memory).2 := by
  cases table with
  | onHeap cells reserved => exact .refl _ memory
  | inArena slice length =>
      have taken := fun sound : memory.Sound => take_taken sound slice.offset length
      have aloof : ∀ {after : Memory} {reserved : Option Slice},
          (memory.take slice.offset length).2.Continues after → memory.Sound →
          (onHeap (memory.take slice.offset length).1 reserved).Aloof after := by
        intro after reserved continues sound
        refine Aloof.continues ⟨?_, ?_⟩ continues
        · intro id listed
          obtain ⟨slot, listed⟩ := Array.mem_iff_getElem?.mp listed
          exact ((taken sound).drawn listed).old
        · intro id listed
          obtain ⟨slot, listed⟩ := Array.mem_iff_getElem?.mp listed
          exact ((taken sound).drawn listed).unnamed
      unfold copyOut
      dsimp only
      split
      next popped =>
        obtain ⟨-, rfl⟩ := Arena.popTop?_eq_some popped
        have lowered : (memory.take slice.offset length).2.Continues
            { (memory.take slice.offset length).2 with
              arena := { (memory.take slice.offset length).2.arena with
                watermark := slice.offset } } := .of_bookkeeping rfl rfl
        exact ⟨fun sound => (taken sound).confined.continues.trans lowered,
          fun sound _ => aloof lowered sound⟩
      next =>
        exact ⟨fun sound => (taken sound).confined.continues, fun sound _ => aloof (.refl ..) sound⟩

theorem ensureCapacity_staysDetached (capacity : Nat) :
    StaysDetached table memory (table.ensureCapacity capacity memory).1
      (table.ensureCapacity capacity memory).2 := by
  cases table with
  | onHeap cells reserved => exact .refl _ memory
  | inArena slice length =>
      unfold ensureCapacity
      dsimp only
      split
      next => exact .refl _ memory
      next =>
        split
        next grown =>
          obtain ⟨-, -, rfl⟩ := Arena.grow?_eq_some grown
          exact .of_inArena _ _ _ (.of_bookkeeping rfl rfl)
        next => exact copyOut_staysDetached _ memory

theorem extendTo_staysDetached (length : Nat) :
    StaysDetached table memory (table.extendTo length memory).1
    (table.extendTo length memory).2 := by
  cases table with
  | inArena slice old => exact .of_inArena _ _ _ (.refl ..)
  | onHeap cells reserved =>
      have made := newAll_confined memory (List.replicate (length - cells.size) .blank)
      exact ⟨fun _ => made.continues, fun sound aloof =>
        (aloof.continues made.continues).append (newAll_aloof sound _ none)⟩

theorem extended_staysDetached (slot : Nat) :
    StaysDetached table memory (table.extended slot memory).1 (table.extended slot memory).2 := by
  unfold extended
  split
  next => exact .refl _ memory
  next =>
    exact (ensureCapacity_staysDetached table memory (slot + 1)).trans
      (extendTo_staysDetached _ _ _)

theorem cellAt_staysDetached (slot : Nat) :
    StaysDetached table memory (table.cellAt slot memory).2.1 (table.cellAt slot memory).2.2 := by
  rw [cellAt_eq]
  have extended := extended_staysDetached table memory slot
  generalize table.extended slot memory = result at extended ⊢
  obtain ⟨cells | slice, after⟩ := result
  · exact extended
  · exact extended.trans (.of_continues _ (slot_confined ..).continues)

theorem write_staysDetached (slot : Nat) (change : Cell → Cell) :
    StaysDetached table memory (table.cellAt slot memory).2.1
      ((table.cellAt slot memory).2.2.modifyCell (table.cellAt slot memory).1 change) :=
  (cellAt_staysDetached table memory slot).trans
    (.of_continues _ (modifyCell_confined ..).continues)

theorem push_staysDetached (value : Value) :
    StaysDetached table memory (table.push value memory).1 (table.push value memory).2 :=
  write_staysDetached table memory table.length _

theorem pushEach_staysDetached (values : List Value) :
    StaysDetached table memory (table.pushEach values memory).1
    (table.pushEach values memory).2 := by
  unfold pushEach
  induction values generalizing table memory with
  | nil => exact .refl ..
  | cons value values induction =>
      rw [List.foldl_cons]
      exact (push_staysDetached table memory value).trans (induction ..)

theorem pushTogether_staysDetached (values : List Value) :
    StaysDetached table memory (table.pushTogether values memory).1
      (table.pushTogether values memory).2 :=
  (ensureCapacity_staysDetached table memory _).trans (pushEach_staysDetached ..)

theorem reset_staysDetached : StaysDetached table memory table (table.reset memory) := by
  cases table with
  | onHeap cells reserved => exact .of_continues _ (resetEach_continues ..)
  | inArena slice length => exact .of_continues _ (resetSlice_continues ..)

/-- The second table over the same cells keeps apart from the slots just as well. -/
theorem safeCopy_staysDetached :
    StaysDetached table memory (table.safeCopy memory).1 (table.safeCopy memory).2.2 ∧
      StaysDetached table memory (table.safeCopy memory).2.1 (table.safeCopy memory).2.2 := by
  have copied := copyOut_staysDetached table memory
  exact ⟨⟨copied.continues, fun sound before => (copied.aloof sound before).part id⟩, copied⟩

variable (shared : CellId → Bool)

theorem truncate_staysDetached (length : Nat) :
    StaysDetached table memory (table.truncate shared length memory).1
      (table.truncate shared length memory).2 := by
  unfold truncate
  split
  next => exact .refl ..
  next =>
    cases table with
    | onHeap cells reserved =>
        refine ⟨fun _ => .refl .., fun _ aloof => aloof.part fun {id} listed => ?_⟩
        change id ∈ cells.take length at listed
        rw [Array.take_eq_extract] at listed
        obtain ⟨slot, inside, rfl⟩ := Array.mem_extract_iff_getElem.mp listed
        exact Array.getElem_mem _
    | inArena slice old => exact .of_inArena _ _ _ (release_confined ..).continues

theorem reinit_staysDetached (capacity : Nat) :
    StaysDetached table memory (table.reinit shared capacity memory).1
      (table.reinit shared capacity memory).2 :=
  (truncate_staysDetached table memory shared 0).trans (ensureCapacity_staysDetached ..)

theorem free_continues : memory.Continues (table.free shared memory) := by
  unfold free
  cases table.slice? with
  | none => exact .refl ..
  | some slice =>
      have released := (release_confined shared memory slice.offset slice.stop).continues
      dsimp only
      split
      next popped =>
        obtain ⟨-, rfl⟩ := Arena.popTop?_eq_some popped
        exact released.trans (.of_bookkeeping rfl rfl)
      next => exact released

theorem ofValues_staysDetached (values : List Value) :
    StaysDetached empty memory (ofValues values memory).1 (ofValues values memory).2 :=
  ⟨fun _ => (newAll_confined ..).continues, fun sound _ => newAll_aloof sound _ none⟩

end Table

end ScopeMachine
