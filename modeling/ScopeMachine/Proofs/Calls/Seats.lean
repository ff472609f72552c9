import ScopeMachine.Proofs.Calls.ArgumentSteps
import ScopeMachine.Proofs.Storage.InPlace

namespace ScopeMachine

open Arena

namespace Table

def Seated (offset : Nat) (table : Table) (memory : Memory) : Prop :=
  match table with
  | .inArena slice _ => slice.offset = offset ∧ memory.arena.isTop offset slice.capacity = true
  | .onHeap _ reserved => reserved = none ∧ memory.arena.watermark = offset

variable {offset : Nat} {table : Table} {memory : Memory}

theorem Seated.of_bounds {after : Memory} (seated : table.Seated offset memory)
    (bounds : after.bounds = memory.bounds) : table.Seated offset after := by
  have watermark : after.arena.watermark = memory.arena.watermark :=
    congrArg Bounds.watermark bounds
  have floor : after.arena.floor = memory.arena.floor := congrArg Bounds.floor bounds
  cases table with
  | onHeap cells reserved => exact ⟨seated.1, watermark.trans seated.2⟩
  | inArena slice length =>
      have top := isTop_iff.mp seated.2
      exact ⟨seated.1, isTop_iff.mpr ⟨top.1.trans watermark.symm, floor.symm ▸ top.2⟩⟩

theorem Seated.of_bare (bare : table.slice? = none) (watermark : memory.arena.watermark = offset) :
    table.Seated offset memory := by
  cases table with
  | onHeap cells reserved => exact ⟨bare, watermark⟩
  | inArena slice length => cases bare

theorem Seated.watermark_of_onHeap (seated : table.Seated offset memory)
    (onHeap : table.isArena = false) : memory.arena.watermark = offset := by
  cases table with
  | onHeap cells reserved => exact seated.2
  | inArena slice length => cases onHeap

theorem Seated.copyOut (seated : table.Seated offset memory) :
    (table.copyOut memory).1.Seated offset (table.copyOut memory).2 := by
  cases table with
  | onHeap cells reserved => exact seated
  | inArena slice length =>
      obtain ⟨rfl, top⟩ := seated
      have bounds := Memory.bounds_take memory slice.offset length
      have top : (memory.take slice.offset length).2.arena.isTop slice.offset slice.capacity =
          true := by
        have ⟨stop, above⟩ := isTop_iff.mp top
        exact isTop_iff.mpr ⟨stop.trans (congrArg Bounds.watermark bounds).symm,
          Nat.le_trans (Nat.le_of_eq (congrArg Bounds.floor bounds)) above⟩
      unfold Table.copyOut popTop?
      dsimp only
      rw [if_pos top]
      exact ⟨rfl, rfl⟩

theorem Seated.ensureCapacity (seated : table.Seated offset memory) (capacity : Nat) :
    (table.ensureCapacity capacity memory).1.Seated offset
      (table.ensureCapacity capacity memory).2 := by
  cases table with
  | onHeap cells reserved => exact seated
  | inArena slice length =>
      unfold Table.ensureCapacity
      dsimp only
      split
      next => exact seated
      next larger =>
        split
        next arena grown =>
          obtain ⟨rfl, top⟩ := seated
          obtain ⟨-, -, rfl⟩ := grow?_eq_some grown
          have ⟨stop, above⟩ := isTop_iff.mp top
          refine ⟨rfl, isTop_iff.mpr ⟨?_, above⟩⟩
          change slice.offset + capacity = memory.arena.watermark + (capacity - slice.capacity)
          omega
        next => exact seated.copyOut

theorem Seated.extendTo (seated : table.Seated offset memory) (length : Nat) :
    (table.extendTo length memory).1.Seated offset (table.extendTo length memory).2 := by
  refine Seated.of_bounds ?_ (bounds_extendTo table length memory)
  cases table with
  | onHeap cells reserved => exact seated
  | inArena slice _ => exact seated

theorem Seated.cellAt (seated : table.Seated offset memory) (slot : Nat) :
    (table.cellAt slot memory).2.1.Seated offset (table.cellAt slot memory).2.2 := by
  have extended : (table.extended slot memory).1.Seated offset (table.extended slot memory).2 := by
    unfold Table.extended
    split
    next => exact seated
    next => exact (seated.ensureCapacity (slot + 1)).extendTo (slot + 1)
  rw [cellAt_eq]
  generalize table.extended slot memory = result at extended ⊢
  obtain ⟨cells | slice, after⟩ := result
  · exact extended
  · exact extended.of_bounds (Memory.bounds_slot ..)

theorem Seated.push (seated : table.Seated offset memory) (value : Value) :
    (table.push value memory).1.Seated offset (table.push value memory).2 :=
  (seated.cellAt table.length).of_bounds rfl

theorem Seated.truncate (seated : table.Seated offset memory) (shared : CellId → Bool)
    (length : Nat) :
    (table.truncate shared length memory).1.Seated offset
      (table.truncate shared length memory).2 := by
  refine Seated.of_bounds ?_ (bounds_truncate shared table length memory)
  unfold Table.truncate
  split
  next => exact seated
  next =>
    cases table with
    | onHeap cells reserved => exact seated
    | inArena slice _ => exact seated

theorem Seated.settled {Code : Type} (seated : table.Seated offset memory)
    (definition : Definition Code) :
    (table.settled definition memory).1.Seated offset (table.settled definition memory).2 := by
  unfold Table.settled
  split
  next =>
    refine ⟨rfl, seated.copyOut.watermark_of_onHeap ?_⟩
    cases table with
    | onHeap cells reserved => rfl
    | inArena slice length =>
        unfold Table.copyOut
        dsimp only
        split <;> rfl
  next => exact seated

theorem Seated.fitted {Code : Type} (seated : table.Seated offset memory)
    (definition : Definition Code) (shared : CellId → Bool) (rest : ArrayId) :
    (table.fitted definition shared rest memory).1.Seated offset
      (table.fitted definition shared rest memory).2 :=
  (seated.truncate shared definition.arity).push _

private theorem free_watermark {slice : Slice} (here : table.slice? = some slice)
    (start : slice.offset = offset)
    (place : memory.arena.watermark = offset ∨
      memory.arena.isTop slice.offset slice.capacity = true) (shared : CellId → Bool) :
    (table.free shared memory).arena.watermark = offset := by
  have bounds := Memory.bounds_release shared memory slice.offset slice.stop
  unfold Table.free
  rw [here]
  dsimp only
  split
  next arena popped =>
    obtain ⟨-, rfl⟩ := popTop?_eq_some popped
    exact start
  next kept =>
    refine (congrArg Bounds.watermark bounds).trans (place.resolve_right fun top => ?_)
    have ⟨stop, above⟩ := isTop_iff.mp top
    have top : (memory.release shared slice.offset slice.stop).arena.isTop slice.offset
        slice.capacity = true :=
      isTop_iff.mpr ⟨stop.trans (congrArg Bounds.watermark bounds).symm,
        Nat.le_trans (Nat.le_of_eq (congrArg Bounds.floor bounds)) above⟩
    simp [popTop?, top] at kept

/-- Freeing what has become of the table, when the watermark is where it was and the slice was left
in place below it. -/
theorem Seated.free_of_keepsPlace {after : Memory} {last : Table}
    (seated : table.Seated offset memory) (bounds : after.bounds = memory.bounds)
    (keeps : table.KeepsPlace memory.arena.watermark last) (shared : CellId → Bool) :
    (last.free shared after).arena.watermark = offset := by
  have watermark : after.arena.watermark = memory.arena.watermark :=
    congrArg Bounds.watermark bounds
  cases freed : last.slice? with
  | none =>
      have same : last.free shared after = after := by
        unfold Table.free
        rw [freed]
      rw [same, watermark]
      cases table with
      | onHeap cells reserved => exact seated.2
      | inArena slice length =>
          obtain ⟨rfl, top⟩ := seated
          have stop := (isTop_iff.mp top).1
          -- A slice with room in it would still be there.
          have empty : slice.capacity = 0 := Nat.eq_zero_of_not_pos fun filled => by
            have kept := keeps.below slice rfl (Nat.le_of_eq stop) filled
            rw [freed] at kept
            cases kept
          omega
  | some last_slice =>
      obtain ⟨slice, here, start⟩ := keeps.offset last_slice freed
      cases table with
      | onHeap cells reserved =>
          obtain ⟨rfl, -⟩ := seated
          cases here
      | inArena slice length =>
          cases here
          obtain ⟨rfl, top⟩ := seated
          have ⟨stop, above⟩ := isTop_iff.mp top
          refine free_watermark freed start.symm ?_ shared
          rcases Nat.eq_zero_or_pos slice.capacity with empty | filled
          · exact .inl (by omega)
          · have kept := keeps.below slice rfl (Nat.le_of_eq stop) filled
            rw [freed] at kept
            cases kept
            exact .inr (isTop_iff.mpr ⟨stop.trans watermark.symm,
              Nat.le_trans (Nat.le_of_eq (congrArg Bounds.floor bounds)) above⟩)

theorem Seated.free (seated : table.Seated offset memory) (shared : CellId → Bool) :
    (table.free shared memory).arena.watermark = offset :=
  seated.free_of_keepsPlace rfl (.refl ..) shared

end Table

end ScopeMachine
