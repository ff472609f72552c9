import ScopeMachine.Proofs.Storage.Aloof
import ScopeMachine.Proofs.Storage.Sparing

namespace ScopeMachine

open Memory

namespace Table

/-- The slots of the arena that the table has come to use. -/
def Fills (table : Table) (position : Nat) : Prop :=
  ∃ slice length, table = .inArena slice length ∧ Between slice.offset length position

theorem fills_inArena {slice : Slice} {length position : Nat} :
    (inArena slice length).Fills position ↔ Between slice.offset length position := by
  constructor
  · rintro ⟨slice', length', same, between⟩
    cases same
    exact between
  · exact fun between => ⟨slice, length, rfl, between⟩

private theorem not_fills_onHeap {cells : Array CellId} {reserved : Option Slice} {position : Nat} :
    ¬ (onHeap cells reserved).Fills position := by
  rintro ⟨_, _, same, -⟩
  cases same

/-- Moving a table to the heap empties the slots that it used, and no others. -/
theorem peek_copyOut (table : Table) {memory : Memory} (sound : memory.Sound) (position : Nat) :
    (table.Fills position → (table.copyOut memory).2.arena.peek position = none) ∧
      (¬ table.Fills position →
        (table.copyOut memory).2.arena.peek position = memory.arena.peek position) := by
  cases table with
  | onHeap cells reserved => exact ⟨fun fills => absurd fills not_fills_onHeap, fun _ => rfl⟩
  | inArena slice length =>
      have taken := take_taken sound slice.offset length
      have same : (copyOut (inArena slice length) memory).2.arena.peek position =
          (memory.take slice.offset length).2.arena.peek position := by
        unfold copyOut
        dsimp only
        split
        next popped =>
          obtain ⟨-, rfl⟩ := Arena.popTop?_eq_some popped
          rfl
        next => rfl
      rw [same, fills_inArena]
      exact ⟨taken.cleared, taken.confined.peek⟩

variable {table : Table} {memory : Memory}

theorem Fills.spans {position : Nat} (fills : table.Fills position) (fits : table.Fits memory) :
    table.Spans position := by
  obtain ⟨slice, length, rfl, low, high⟩ := fills
  have room := fits.room rfl
  exact spans_inArena.mpr ⟨low, by omega⟩

theorem Fits.slot_unique (fits : table.Fits memory) (sound : memory.Sound) {slot other : Nat}
    {id : CellId} (named : table.cell? slot memory = some id)
    (again : table.cell? other memory = some id) : slot = other := by
  cases table with
  | onHeap cells reserved => exact fits.distinct named again
  | inArena slice length =>
      have same := sound.distinct (peek_of_cell? named).2 (peek_of_cell? again).2
      omega

theorem Aloof.old_of_cell? {table : Table} {slot : Nat} {memory : Memory} {id : CellId}
    (aloof : table.Aloof memory) (sound : memory.Sound)
    (named : table.cell? slot memory = some id) :
    id.index < memory.cells.size := by
  cases table with
  | onHeap => exact aloof.old (mem_heapCells.mpr ⟨slot, named⟩)
  | inArena => exact sound.old (peek_of_cell? named).2

theorem Fits.aloof (fits : table.Fits memory) : table.Aloof memory := ⟨fits.old, fits.unnamed⟩

/-- A filled slot that the table leaves has no cell of before that is shared. -/
structure Vacates (shared : CellId → Bool) (table : Table) (before : Memory) (table' : Table)
    (after : Memory) : Prop where
  continues : before.Continues after
  vacated : ∀ {position : Nat} {id : CellId}, id.index < before.cells.size →
    table.Fills position → ¬ table'.Fills position → after.arena.peek position = some id →
    shared id = false

namespace Vacates

variable {shared : CellId → Bool} {table' table'' : Table} {before middle after : Memory}

theorem of_fills (continues : before.Continues after)
    (more : ∀ {position : Nat}, table.Fills position → table'.Fills position) :
    Vacates shared table before table' after :=
  ⟨continues, fun _ filled left _ => absurd (more filled) left⟩

/-- A table that was on the heap. -/
theorem of_onHeap {cells : Array CellId} {reserved : Option Slice}
    (continues : before.Continues after) :
    Vacates shared (onHeap cells reserved) before table' after :=
  of_fills continues fun filled => absurd filled not_fills_onHeap

theorem trans (left : Vacates shared table before table' middle)
    (right : Vacates shared table' middle table'' after) :
    Vacates shared table before table'' after := by
  refine ⟨left.continues.trans right.continues, fun {position id} old filled gone named => ?_⟩
  have older := Nat.lt_of_lt_of_le old left.continues.size
  by_cases still : table'.Fills position
  · exact right.vacated older still gone named
  · rcases right.continues.origin trivial named with earlier | newer
    · exact left.vacated old filled still earlier
    · exact absurd newer (Nat.not_le_of_lt older)

end Vacates

variable (shared : CellId → Bool)

theorem copyOut_vacates (clean : memory.Clean) (fits : table.Fits memory) :
    Vacates shared table memory (table.copyOut memory).1 (table.copyOut memory).2 := by
  refine ⟨(copyOut_carries clean fits).confined.continues, fun _ filled _ named => ?_⟩
  rw [(peek_copyOut table clean.sound _).1 filled] at named
  cases named

theorem ensureCapacity_vacates (clean : memory.Clean) (fits : table.Fits memory) (capacity : Nat) :
    Vacates shared table memory (table.ensureCapacity capacity memory).1
      (table.ensureCapacity capacity memory).2 := by
  cases table with
  | onHeap cells reserved => exact .of_onHeap (.refl ..)
  | inArena slice length =>
      unfold ensureCapacity
      dsimp only
      split
      next => exact .of_fills (.refl ..) id
      next =>
        split
        next grown =>
          obtain ⟨-, -, rfl⟩ := Arena.grow?_eq_some grown
          refine .of_fills (.of_bookkeeping rfl rfl) fun filled => ?_
          obtain ⟨low, high⟩ := fills_inArena.mp filled
          exact fills_inArena.mpr ⟨low, high⟩
        next => exact copyOut_vacates shared clean fits

private theorem extendTo_vacates (clean : memory.Clean) (fits : table.Fits memory) {length : Nat}
    (longer : table.length ≤ length)
    (room : ∀ {slice : Slice} {old : Nat}, table = .inArena slice old → length ≤ slice.capacity) :
    Vacates shared table memory (table.extendTo length memory).1
      (table.extendTo length memory).2 := by
  have continues := (extendTo_carries clean fits longer room).confined.continues
  cases table with
  | onHeap cells reserved => exact .of_onHeap continues
  | inArena slice old =>
      have longer : old ≤ length := longer
      refine .of_fills continues fun filled => ?_
      obtain ⟨low, high⟩ := fills_inArena.mp filled
      exact fills_inArena.mpr ⟨low, by omega⟩

private theorem extended_vacates (clean : memory.Clean) (fits : table.Fits memory) (slot : Nat) :
    Vacates shared table memory (table.extended slot memory).1 (table.extended slot memory).2 := by
  unfold extended
  split
  next => exact .of_fills (.refl ..) id
  next short =>
    have grown := ensureCapacity_carries clean fits (slot + 1)
    refine (ensureCapacity_vacates shared clean fits (slot + 1)).trans
      (extendTo_vacates shared grown.clean grown.fits ?_ room_ensureCapacity)
    rw [length_ensureCapacity]
    omega

theorem cellAt_vacates (clean : memory.Clean) (fits : table.Fits memory) (slot : Nat) :
    Vacates shared table memory (table.cellAt slot memory).2.1 (table.cellAt slot memory).2.2 := by
  have extended := extended_vacates shared clean fits slot
  rw [cellAt_eq]
  generalize table.extended slot memory = result at extended ⊢
  obtain ⟨cells | ⟨slice, length⟩, after⟩ := result
  · exact extended
  · exact extended.trans (.of_fills (slot_confined ..).continues id)

private theorem unshared_of_release {low high position : Nat} {id : CellId} (above : low ≤ position)
    (below : position < high)
    (named : (memory.release shared low high).arena.peek position = some id) :
    shared id = false := by
  rw [peek_release, if_pos ⟨above, below⟩] at named
  simpa using (Option.filter_eq_some_iff.mp named).2

theorem truncate_vacates (clean : memory.Clean) (fits : table.Fits memory) (length : Nat) :
    Vacates shared table memory (table.truncate shared length memory).1
      (table.truncate shared length memory).2 := by
  have continues := (truncate_alters shared clean fits length).1.confined.continues
  unfold truncate at continues ⊢
  split
  next => exact .of_fills (.refl ..) id
  next long =>
    rw [if_neg long] at continues
    cases table with
    | onHeap cells reserved => exact .of_onHeap continues
    | inArena slice old =>
        refine ⟨continues, fun _ filled left named => ?_⟩
        obtain ⟨low, high⟩ := fills_inArena.mp filled
        refine unshared_of_release shared ?_ high named
        exact Nat.le_of_not_lt fun below => left (fills_inArena.mpr ⟨low, below⟩)

theorem free_vacates (fits : table.Fits memory) :
    Vacates shared table memory empty (table.free shared memory) := by
  refine ⟨free_continues .., fun {position id} _ filled _ named => ?_⟩
  obtain ⟨slice, length, rfl, low, high⟩ := filled
  have room := fits.room rfl
  have released : (memory.release shared slice.offset slice.stop).arena.peek position =
    some id := by
    unfold free slice? at named
    dsimp only at named
    split at named
    next popped =>
      obtain ⟨-, rfl⟩ := Arena.popTop?_eq_some popped
      exact named
    next => exact named
  refine unshared_of_release shared low ?_ released
  unfold Slice.stop
  omega

end Table

end ScopeMachine
