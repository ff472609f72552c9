import ScopeMachine.Proofs.Storage.Aloof
import ScopeMachine.Proofs.Storage.SingleTable

namespace ScopeMachine

namespace Memory

/-- A cell that work on slots may bring to light: one that a slot named, or a new one. -/
def Offers (before after : Memory) (id : CellId) : Prop :=
  (∃ position, before.arena.peek position = some id) ∨
    (before.cells.size ≤ id.index ∧ id.index < after.cells.size)

variable {before middle after : Memory} {id : CellId}

private theorem Continues.offers (continues : before.Continues after) (sound : before.Sound)
    {position : Nat} (named : after.arena.peek position = some id) : before.Offers after id := by
  rcases continues.origin trivial named with earlier | fresh
  · exact .inl ⟨position, earlier⟩
  · exact .inr ⟨fresh, (continues.sound sound).old named⟩

theorem Offers.later (offers : before.Offers middle id) (continues : middle.Continues after) :
    before.Offers after id :=
  offers.imp_right fun ⟨fresh, present⟩ => ⟨fresh, Nat.lt_of_lt_of_le present continues.size⟩

theorem Offers.earlier (continues : before.Continues middle) (sound : before.Sound)
    (later : middle.Continues after) (offers : middle.Offers after id) :
    before.Offers after id := by
  rcases offers with ⟨position, named⟩ | ⟨fresh, present⟩
  · exact (continues.offers sound named).later later
  · exact .inr ⟨Nat.le_trans continues.size fresh, present⟩

/-- What is brought to light exists. -/
theorem Offers.present (offers : before.Offers after id) (continues : before.Continues after)
    (sound : before.Sound) : id.index < after.cells.size := by
  rcases offers with ⟨position, named⟩ | ⟨-, present⟩
  · exact Nat.lt_of_lt_of_le (sound.old named) continues.size
  · exact present

/-- A cell that exists and that no slot names stays where it is. -/
theorem Offers.not_old (offers : before.Offers after id)
    (unnamed : ∀ position, before.arena.peek position ≠ some id) :
    before.cells.size ≤ id.index := by
  rcases offers with ⟨position, named⟩ | ⟨fresh, -⟩
  · exact (unnamed position named).elim
  · exact fresh

end Memory

namespace Table

open Memory

/-- Work on a table, by where its cells come from. -/
structure Draws (table : Table) (before : Memory) (table' : Table) (after : Memory) : Prop where
  continues : before.Continues after
  cells : ∀ {id : CellId}, id ∈ table'.heapCells →
    id ∈ table.heapCells ∨ before.Offers after id

namespace Draws

variable {table middleTable table' : Table} {before middle after : Memory}

theorem refl (table : Table) (memory : Memory) : Draws table memory table memory :=
  ⟨.refl .., .inl⟩

theorem trans (left : Draws table before middleTable middle) (sound : before.Sound)
    (right : Draws middleTable middle table' after) : Draws table before table' after := by
  refine ⟨left.continues.trans right.continues, fun listed => ?_⟩
  rcases right.cells listed with earlier | offered
  · exact (left.cells earlier).imp_right (·.later right.continues)
  · exact .inr (offered.earlier left.continues sound right.continues)

private theorem of_continues (table : Table) (continues : before.Continues after) :
    Draws table before table after :=
  ⟨continues, .inl⟩

private theorem of_inArena (table : Table) (slice : Slice) (length : Nat)
    (continues : before.Continues after) : Draws table before (inArena slice length) after :=
  ⟨continues, fun listed => absurd listed (Array.not_mem_empty _)⟩

theorem old (draws : Draws table before table' after) (sound : before.Sound)
    (old : ∀ {id : CellId}, id ∈ table.heapCells → id.index < before.cells.size) {id : CellId}
    (listed : id ∈ table'.heapCells) : id.index < after.cells.size := by
  rcases draws.cells listed with earlier | offered
  · exact Nat.lt_of_lt_of_le (old earlier) draws.continues.size
  · exact offered.present draws.continues sound

end Draws

variable {memory : Memory}

theorem mem_newAll {cells : List Cell} {id : CellId} (listed : id ∈ (memory.newAll cells).1) :
    memory.cells.size ≤ id.index ∧ id.index < (memory.newAll cells).2.cells.size := by
  rw [newAll_eq] at listed
  obtain ⟨number, within, rfl⟩ := List.mem_map.mp (List.mem_toArray.mp listed)
  obtain ⟨above, below⟩ := List.mem_range'_1.mp within
  exact ⟨above, Nat.lt_of_lt_of_eq below (size_newAll ..).symm⟩

section

variable (sound : memory.Sound) (table : Table)

include sound

theorem copyOut_draws :
    Draws table memory (table.copyOut memory).1 (table.copyOut memory).2 := by
  cases table with
  | onHeap cells reserved => exact .refl _ memory
  | inArena slice length =>
      have taken := take_taken sound slice.offset length
      have offered {id : CellId} (listed : id ∈ (memory.take slice.offset length).1) :
          memory.Offers (memory.take slice.offset length).2 id := by
        obtain ⟨slot, found⟩ := Array.mem_iff_getElem?.mp listed
        rcases (taken.drawn found).origin with named | fresh
        · exact .inl ⟨_, named⟩
        · exact .inr ⟨fresh, (taken.drawn found).old⟩
      unfold copyOut
      dsimp only
      split
      next popped =>
        obtain ⟨-, rfl⟩ := Arena.popTop?_eq_some popped
        exact ⟨taken.confined.continues.trans (.of_bookkeeping rfl rfl),
          fun listed => .inr (offered listed)⟩
      next => exact ⟨taken.confined.continues, fun listed => .inr (offered listed)⟩

theorem ensureCapacity_draws (capacity : Nat) :
    Draws table memory (table.ensureCapacity capacity memory).1
      (table.ensureCapacity capacity memory).2 := by
  cases table with
  | onHeap cells reserved => exact .refl _ memory
  | inArena slice length =>
      unfold ensureCapacity
      dsimp only
      split
      next => exact .refl _ memory
      next =>
        split
        next grown =>
          obtain ⟨-, -, rfl⟩ := Arena.grow?_eq_some grown
          exact .of_inArena _ _ _ (.of_bookkeeping rfl rfl)
        next => exact copyOut_draws sound _

omit sound in
theorem extendTo_draws (length : Nat) :
    Draws table memory (table.extendTo length memory).1 (table.extendTo length memory).2 := by
  cases table with
  | inArena slice old => exact .of_inArena _ _ _ (.refl ..)
  | onHeap cells reserved =>
      refine ⟨(newAll_confined ..).continues, fun listed => ?_⟩
      exact (Array.mem_append.mp listed).imp_right fun fresh => .inr (mem_newAll fresh)

theorem extended_draws (slot : Nat) :
    Draws table memory (table.extended slot memory).1 (table.extended slot memory).2 := by
  unfold extended
  split
  next => exact .refl _ memory
  next => exact (ensureCapacity_draws sound table _).trans sound (extendTo_draws ..)

theorem cellAt_draws (slot : Nat) :
    Draws table memory (table.cellAt slot memory).2.1 (table.cellAt slot memory).2.2 := by
  have extended := extended_draws sound table slot
  rw [cellAt_eq]
  generalize table.extended slot memory = result at extended ⊢
  obtain ⟨cells | slice, after⟩ := result
  · exact extended
  · exact extended.trans sound (.of_continues _ (slot_confined ..).continues)

/-- The cell itself is one of the table's, or is brought to light. -/
theorem cellAt_offers (slot : Nat) :
    (table.cellAt slot memory).1 ∈ table.heapCells ∨
      memory.Offers (table.cellAt slot memory).2.2 (table.cellAt slot memory).1 := by
  have extended := extended_draws sound table slot
  have long := length_extended table slot memory
  rw [cellAt_eq]
  generalize table.extended slot memory = result at extended long ⊢
  obtain ⟨cells | ⟨slice, length⟩, after⟩ := result
  · have inside : slot < cells.size :=
      Nat.lt_of_lt_of_eq (Nat.lt_of_lt_of_le (Nat.lt_succ_self slot) (Nat.le_max_right ..))
        long.symm
    refine extended.cells (?_ : cells.getD slot ⟨0⟩ ∈ cells)
    rw [Array.getD_eq_getD_getElem?, Array.getElem?_eq_getElem inside]
    exact Array.getElem_mem inside
  · have touched := (slot_confined after (slice.offset + slot)).continues
    have offered := touched.offers (extended.continues.sound sound) (peek_slot ..)
    exact .inr (offered.earlier extended.continues sound touched)

/-- The cell of a slot that the table did not have is brought to light. -/
theorem cellAt_offers_beyond {slot : Nat} (beyond : table.length ≤ slot) :
    memory.Offers (table.cellAt slot memory).2.2 (table.cellAt slot memory).1 := by
  cases table with
  | inArena slice length =>
      exact (cellAt_offers sound _ slot).resolve_left (Array.not_mem_empty _)
  | onHeap cells reserved =>
      have beyond : cells.size ≤ slot := beyond
      rw [cellAt_onHeap, if_neg (Nat.not_lt_of_le beyond)]
      refine .inr (mem_newAll (Array.mem_iff_getElem?.mpr ⟨slot - cells.size, ?_⟩))
      have short : slot - cells.size <
          (memory.newAll (List.replicate (slot + 1 - cells.size) .blank)).1.size := by
        rw [newAll_eq]
        simp
        omega
      rw [Array.getD_eq_getD_getElem?, Array.getElem?_append_right beyond,
        Array.getElem?_eq_getElem short]
      rfl

theorem push_draws (value : Value) :
    Draws table memory (table.push value memory).1 (table.push value memory).2 :=
  (cellAt_draws sound table _).trans sound (.of_continues _ (modifyCell_confined ..).continues)

theorem pushEach_draws (values : List Value) :
    Draws table memory (table.pushEach values memory).1 (table.pushEach values memory).2 := by
  unfold pushEach
  induction values generalizing table memory with
  | nil => exact .refl ..
  | cons value values induction =>
      have pushed := push_draws sound table value
      rw [List.foldl_cons]
      exact pushed.trans sound (induction (pushed.continues.sound sound) _)

theorem safeCopy_draws :
    Draws table memory (table.safeCopy memory).1 (table.safeCopy memory).2.2 ∧
      Draws table memory (table.safeCopy memory).2.1 (table.safeCopy memory).2.2 :=
  ⟨⟨(copyOut_draws sound table).continues, (copyOut_draws sound table).cells⟩,
    copyOut_draws sound table⟩

end

theorem truncate_draws (shared : CellId → Bool) (table : Table) (length : Nat) :
    Draws table memory (table.truncate shared length memory).1
      (table.truncate shared length memory).2 := by
  unfold truncate
  split
  next => exact .refl ..
  next =>
    cases table with
    | onHeap cells reserved =>
        refine ⟨.refl .., fun {id} listed => .inl ?_⟩
        change id ∈ cells.take length at listed
        rw [Array.take_eq_extract] at listed
        obtain ⟨slot, inside, rfl⟩ := Array.mem_extract_iff_getElem.mp listed
        exact Array.getElem_mem _
    | inArena slice old => exact .of_inArena _ _ _ (release_confined ..).continues

theorem ofValues_draws (values : List Value) :
    Draws empty memory (ofValues values memory).1 (ofValues values memory).2 :=
  ⟨(newAll_confined ..).continues, fun listed => .inr (.inr (mem_newAll listed))⟩

theorem reset_continues (table : Table) : memory.Continues (table.reset memory) := by
  cases table with
  | onHeap cells reserved => exact resetEach_continues ..
  | inArena slice length => exact resetSlice_continues ..

end Table

end ScopeMachine
