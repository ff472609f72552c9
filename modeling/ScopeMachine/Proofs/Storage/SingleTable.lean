import ScopeMachine.Proofs.Storage.Layout

namespace ScopeMachine

open Memory

/-- Sound, with nothing left in the slots past the watermark. -/
structure Memory.Clean (memory : Memory) : Prop where
  sound : memory.Sound
  above : ∀ {position : Nat}, memory.arena.watermark ≤ position →
    memory.content position = .blank

namespace Table

/-- The slots of the table's slice. -/
def Spans (table : Table) (position : Nat) : Prop :=
  ∃ slice, table.slice? = some slice ∧ Between slice.offset slice.capacity position

/-- What the table holds at a slot; an untouched slot holds a blank. -/
def content (table : Table) (slot : Nat) (memory : Memory) : Cell :=
  (table.cell? slot memory).elim .blank memory.cell

/-- A table that stands where it should: its slice below the watermark and empty past its length,
its cells on the heap apart from the slots and from each other. -/
structure Fits (table : Table) (memory : Memory) : Prop where
  within : ∀ {position : Nat}, table.Spans position → position < memory.arena.watermark
  room : ∀ {slice : Slice} {length : Nat}, table = .inArena slice length →
    length ≤ slice.capacity
  rest : ∀ {slice : Slice} {length position : Nat}, table = .inArena slice length →
    slice.offset + length ≤ position → position < slice.stop →
    memory.content position = .blank
  old : ∀ {id : CellId}, id ∈ table.heapCells → id.index < memory.cells.size
  unnamed : ∀ {id : CellId}, id ∈ table.heapCells →
    ∀ position, memory.arena.peek position ≠ some id
  distinct : ∀ {slot other : Nat} {id : CellId}, table.heapCells[slot]? = some id →
    table.heapCells[other]? = some id → slot = other

/-- The table has the same cells at its slots, with the same content. -/
structure Stands (table : Table) (before after : Memory) : Prop where
  cell? : ∀ slot : Nat, table.cell? slot after = table.cell? slot before
  content : ∀ slot : Nat, table.content slot after = table.content slot before

theorem Stands.refl (table : Table) (memory : Memory) : table.Stands memory memory :=
  ⟨fun _ => rfl, fun _ => rfl⟩

theorem not_spans_onHeap {cells : Array CellId} {position : Nat} :
    ¬ (onHeap cells none).Spans position :=
  fun ⟨_, absent, _⟩ => nomatch absent

theorem Fits.onHeap {cells : Array CellId} {memory : Memory}
    (old : ∀ {id : CellId}, id ∈ cells → id.index < memory.cells.size)
    (unnamed : ∀ {id : CellId}, id ∈ cells → ∀ position, memory.arena.peek position ≠ some id)
    (distinct : ∀ {slot other : Nat} {id : CellId}, cells[slot]? = some id →
      cells[other]? = some id → slot = other) : (onHeap cells none).Fits memory where
  within spanned := (not_spans_onHeap spanned).elim
  room same := by cases same
  rest same := by cases same
  old := old
  unnamed := unnamed
  distinct := distinct

theorem spans_inArena {slice : Slice} {length position : Nat} :
    (inArena slice length).Spans position ↔ Between slice.offset slice.capacity position :=
  ⟨fun ⟨_, same, within⟩ => (Option.some.inj same) ▸ within, fun within => ⟨_, rfl, within⟩⟩

theorem spans_reserved {cells : Array CellId} {slice : Slice} {position : Nat} :
    (onHeap cells (some slice)).Spans position ↔
      Between slice.offset slice.capacity position :=
  ⟨fun ⟨_, same, within⟩ => (Option.some.inj same) ▸ within, fun within => ⟨_, rfl, within⟩⟩

theorem spans_of_lt {slice : Slice} {length slot : Nat} (room : length ≤ slice.capacity)
    (below : slot < length) : (inArena slice length).Spans (slice.offset + slot) :=
  spans_inArena.mpr ⟨Nat.le_add_right _ _, by omega⟩

theorem content_of_cell? {table : Table} {slot : Nat} {memory : Memory} {id : CellId}
    (named : table.cell? slot memory = some id) :
    table.content slot memory = memory.cell id := by
  unfold content
  rw [named]
  rfl

theorem content_of_cell?_none {table : Table} {slot : Nat} {memory : Memory}
    (untouched : table.cell? slot memory = none) : table.content slot memory = .blank := by
  unfold content
  rw [untouched]
  rfl

theorem cell?_inArena {slice : Slice} {length slot : Nat} (below : slot < length)
    (memory : Memory) :
    (inArena slice length).cell? slot memory = memory.arena.peek (slice.offset + slot) :=
  if_pos below

theorem cell?_of_length_le {table : Table} {slot : Nat} (beyond : table.length ≤ slot)
    (memory : Memory) : table.cell? slot memory = none := by
  cases table with
  | onHeap cells reserved => exact Array.getElem?_eq_none beyond
  | inArena slice length => exact if_neg (Nat.not_lt_of_le beyond)

theorem peek_of_cell? {slice : Slice} {length slot : Nat} {memory : Memory} {id : CellId}
    (named : (inArena slice length).cell? slot memory = some id) :
    slot < length ∧ memory.arena.peek (slice.offset + slot) = some id := by
  by_cases below : slot < length
  · exact ⟨below, (cell?_inArena below memory).symm.trans named⟩
  · rw [cell?_of_length_le (Nat.le_of_not_lt below)] at named
    cases named

theorem content_inArena {slice : Slice} {length slot : Nat} (below : slot < length)
    (memory : Memory) :
    (inArena slice length).content slot memory = memory.content (slice.offset + slot) := by
  unfold content Memory.content
  rw [cell?_inArena below]

theorem mem_heapCells {cells : Array CellId} {reserved : Option Slice} {id : CellId} :
    id ∈ (onHeap cells reserved).heapCells ↔ ∃ slot : Nat, cells[slot]? = some id :=
  Array.mem_iff_getElem?

/-- What became of a table and of the memory around it. -/
structure Alters (written : CellId → Prop) (table : Table) (before : Memory) (table' : Table)
    (after : Memory) : Prop where
  confined : Confined
    (fun position => table.Spans position ∨ before.arena.watermark ≤ position) written
    before after
  unnamed : ∀ {id : CellId}, written id → ∀ position, before.arena.peek position ≠ some id
  clean : after.Clean
  fits : table'.Fits after
  outside : ∀ {position : Nat}, position < before.arena.watermark → ¬ table.Spans position →
    position < after.arena.watermark
  spans : ∀ {position : Nat}, table'.Spans position →
    table.Spans position ∨ before.arena.watermark ≤ position
  cells : ∀ {id : CellId}, id ∈ table'.heapCells →
    id ∈ table.heapCells ∨ before.cells.size ≤ id.index ∨
      ∃ position, (table.Spans position ∨ before.arena.watermark ≤ position) ∧
        before.arena.peek position = some id

namespace Alters

variable {written : CellId → Prop} {table table' table'' : Table}
  {before middle after : Memory}

theorem refl {memory : Memory}
    (unnamed : ∀ {id : CellId}, written id → ∀ position, memory.arena.peek position ≠ some id)
    (clean : memory.Clean) (fits : table.Fits memory) :
    Alters written table memory table memory :=
  ⟨.refl .., unnamed, clean, fits, fun below _ => below, .inl, .inl⟩

theorem trans (left : Alters written table before table' middle)
    (right : Alters written table' middle table'' after) :
    Alters written table before table'' after := by
  have inner : ∀ position, table'.Spans position ∨ middle.arena.watermark ≤ position →
      table.Spans position ∨ before.arena.watermark ≤ position := by
    intro position within
    rcases within with spanned | above
    · exact left.spans spanned
    · by_cases spanned : table.Spans position
      · exact .inl spanned
      · refine .inr (Nat.le_of_not_lt fun below => ?_)
        exact Nat.not_lt_of_le above (left.outside below spanned)
  constructor
  · exact left.confined.trans (right.confined.mono inner fun _ => id)
  · exact left.unnamed
  · exact right.clean
  · exact right.fits
  · intro position below unspanned
    refine right.outside (left.outside below unspanned) fun spanned => ?_
    rcases left.spans spanned with spanned | above
    · exact unspanned spanned
    · exact Nat.not_lt_of_le above below
  · exact fun spanned => inner _ (right.spans spanned)
  · intro id listed
    rcases right.cells listed with earlier | fresh | ⟨position, within, named⟩
    · exact left.cells earlier
    · exact .inr (.inl (Nat.le_trans left.confined.size fresh))
    · have within := inner position within
      rcases left.confined.origin within named with named | fresh
      · exact .inr (.inr ⟨position, within, named⟩)
      · exact .inr (.inl fresh)

theorem mono {written' : CellId → Prop} (alters : Alters written table before table' after)
    (more : ∀ id, written id → written' id)
    (unnamed : ∀ {id : CellId}, written' id →
      ∀ position, before.arena.peek position ≠ some id) :
    Alters written' table before table' after :=
  { alters with confined := alters.confined.mono (fun _ => id) more, unnamed }

/-! Other tables. -/

variable {other : Table}

theorem outside_of_apart (fits : other.Fits before)
    (apart : ∀ {position : Nat}, table.Spans position → ¬ other.Spans position) {position : Nat}
    (spanned : other.Spans position) :
    ¬ (table.Spans position ∨ before.arena.watermark ≤ position) := by
  rintro (ours | above)
  · exact apart ours spanned
  · exact Nat.not_lt_of_le above (fits.within spanned)

theorem cell?_other (alters : Alters written table before table' after)
    (fits : other.Fits before)
    (apart : ∀ {position : Nat}, table.Spans position → ¬ other.Spans position) (slot : Nat) :
    other.cell? slot after = other.cell? slot before := by
  cases other with
  | onHeap cells reserved => rfl
  | inArena slice length =>
      by_cases below : slot < length
      · rw [cell?_inArena below, cell?_inArena below]
        have spanned := spans_of_lt (fits.room rfl) below
        exact alters.confined.peek (outside_of_apart fits apart spanned)
      · have beyond : (inArena slice length).length ≤ slot := Nat.le_of_not_lt below
        rw [cell?_of_length_le beyond, cell?_of_length_le beyond]

theorem content_other (alters : Alters written table before table' after)
    (sound : before.Sound) (fits : other.Fits before)
    (apart : ∀ {position : Nat}, table.Spans position → ¬ other.Spans position) {slot : Nat}
    (unwritten : ∀ {id : CellId}, other.cell? slot before = some id → ¬ written id) :
    other.content slot after = other.content slot before := by
  unfold content
  rw [alters.cell?_other fits apart]
  cases named : other.cell? slot before with
  | none => rfl
  | some id =>
      have kept : ¬ written id := unwritten named
      cases other with
      | onHeap cells reserved =>
          have listed : id ∈ (onHeap cells reserved).heapCells := mem_heapCells.mpr ⟨slot, named⟩
          exact alters.confined.cell (fits.old listed) kept fun position _ =>
            fits.unnamed listed position
      | inArena slice length =>
          obtain ⟨below, peeked⟩ := peek_of_cell? named
          have spanned := spans_of_lt (fits.room rfl) below
          refine alters.confined.cell (sound.old peeked) kept fun position within same => ?_
          have position_eq := sound.distinct same peeked
          subst position_eq
          exact outside_of_apart fits apart spanned within

theorem fits_other (alters : Alters written table before table' after)
    (sound : before.Sound) (fits : other.Fits before)
    (apart : ∀ {position : Nat}, table.Spans position → ¬ other.Spans position) :
    other.Fits after := by
  constructor
  · intro position spanned
    exact alters.outside (fits.within spanned) fun ours => apart ours spanned
  · exact fits.room
  · intro slice length position same above below
    have spanned : other.Spans position := by
      subst same
      exact spans_inArena.mpr ⟨by omega, below⟩
    rw [alters.confined.content sound (outside_of_apart fits apart spanned)
      fun id named written => alters.unnamed written position named]
    exact fits.rest same above below
  · exact fun listed => Nat.lt_of_lt_of_le (fits.old listed) alters.confined.size
  · intro id listed position named
    by_cases within : table.Spans position ∨ before.arena.watermark ≤ position
    · rcases alters.confined.origin within named with named | fresh
      · exact fits.unnamed listed position named
      · exact Nat.not_lt_of_le fresh (fits.old listed)
    · rw [alters.confined.peek within] at named
      exact fits.unnamed listed position named
  · exact fits.distinct

/-! Slices that are given up. -/

theorem forget {memory : Memory} {cells : Array CellId} {reserved : Option Slice}
    (clean : memory.Clean) (fits : (onHeap cells reserved).Fits memory) :
    Alters (fun _ => False) (onHeap cells reserved) memory (onHeap cells none) memory where
  confined := .refl ..
  unnamed := False.elim
  clean := clean
  fits :=
    { fits with
      within := fun spanned => (not_spans_onHeap spanned).elim
      room := nofun
      rest := nofun }
  outside below _ := below
  spans spanned := (not_spans_onHeap spanned).elim
  cells := .inl

theorem handBack {memory : Memory} {cells : Array CellId} {slice : Slice} {arena : Arena}
    (clean : memory.Clean) (fits : (onHeap cells (some slice)).Fits memory)
    (empty : ∀ {position : Nat}, Between slice.offset slice.capacity position →
      memory.content position = .blank)
    (popped : memory.arena.popTop? slice.offset slice.capacity = some arena) :
    Alters (fun _ => False) (onHeap cells (some slice)) memory (onHeap cells none)
      { memory with arena } := by
  obtain ⟨top, rfl⟩ := Arena.popTop?_eq_some popped
  have stop := (Arena.isTop_iff.mp top).1
  constructor
  · exact .of_bookkeeping rfl rfl
  · exact False.elim
  · refine ⟨⟨clean.sound.old, clean.sound.distinct⟩, fun {position} above => ?_⟩
    change memory.content position = .blank
    by_cases below : position < slice.offset + slice.capacity
    · exact empty ⟨above, below⟩
    · exact clean.above (by omega)
  · constructor
    · exact fun spanned => (not_spans_onHeap spanned).elim
    · nofun
    · nofun
    · exact fits.old
    · exact fits.unnamed
    · exact fits.distinct
  · intro position below unspanned
    change position < slice.offset
    refine Nat.lt_of_not_le fun above => unspanned (spans_reserved.mpr ⟨above, ?_⟩)
    omega
  · exact fun spanned => (not_spans_onHeap spanned).elim
  · exact .inl

end Alters

/-! Copying and growing. -/

/-- A new slice, carved off at the watermark. -/
theorem allocate_alters {memory : Memory} (clean : memory.Clean) (size : Nat) :
    Alters (fun _ => False) empty memory (inArena ⟨memory.arena.watermark, size⟩ 0)
      { memory with
        arena := { memory.arena with watermark := memory.arena.watermark + size } } := by
  refine ⟨.of_bookkeeping rfl rfl, False.elim, ⟨⟨clean.sound.old, clean.sound.distinct⟩,
    fun {position} above => ?_⟩, ⟨fun {position} spanned => ?_, ?_, ?_, nofun, nofun, nofun⟩,
    fun below _ => Nat.lt_of_lt_of_le below (Nat.le_add_right _ _), fun spanned => ?_, nofun⟩
  · exact clean.above (Nat.le_trans (Nat.le_add_right _ _) above)
  · exact (spans_inArena.mp spanned).2
  · rintro _ _ ⟨⟩
    exact Nat.zero_le _
  · rintro _ _ position ⟨⟩ above _
    exact clean.above above
  · exact .inr (spans_inArena.mp spanned).1

variable {table : Table} {memory : Memory}

theorem take_alters {slice : Slice} {length : Nat} (clean : memory.Clean)
    (fits : (inArena slice length).Fits memory) :
    Alters (fun _ => False) (inArena slice length) memory
        (onHeap (memory.take slice.offset length).1 (some slice))
        (memory.take slice.offset length).2 ∧
      ∀ {position : Nat}, Between slice.offset slice.capacity position →
        (memory.take slice.offset length).2.content position = .blank := by
  have taken := take_taken clean.sound slice.offset length
  have sameBounds := bounds_take memory slice.offset length
  have room := fits.room rfl
  have marked : (memory.take slice.offset length).2.arena.watermark = memory.arena.watermark :=
    congrArg Arena.Bounds.watermark sameBounds
  generalize memory.take slice.offset length = result at *
  obtain ⟨ids, after⟩ := result
  dsimp only at *
  have sound := taken.confined.sound clean.sound
  have emptied : ∀ {position : Nat}, Between slice.offset length position →
      after.content position = .blank := fun within => content_of_peek_none (taken.cleared within)
  have elsewhere : ∀ {position : Nat}, ¬ Between slice.offset length position →
      after.content position = memory.content position := fun outside =>
    taken.confined.content clean.sound outside fun _ _ => id
  have inner : ∀ position, Between slice.offset length position →
      (inArena slice length).Spans position ∨ memory.arena.watermark ≤ position :=
    fun position within => .inl (spans_inArena.mpr ⟨within.1, by have := within.2; omega⟩)
  constructor
  · constructor
    · exact taken.confined.mono inner fun _ => id
    · exact False.elim
    · refine ⟨sound, fun {position} above => ?_⟩
      rw [marked] at above
      by_cases within : Between slice.offset length position
      · exact emptied within
      · rw [elsewhere within]
        exact clean.above above
    · constructor
      · intro position spanned
        rw [marked]
        exact fits.within (spans_inArena.mpr (spans_reserved.mp spanned))
      · nofun
      · nofun
      · intro id listed
        obtain ⟨slot, listed⟩ := mem_heapCells.mp listed
        exact (taken.drawn listed).old
      · intro id listed position
        obtain ⟨slot, listed⟩ := mem_heapCells.mp listed
        exact (taken.drawn listed).unnamed position
      · exact taken.distinct
    · intro position below _
      rw [marked]
      exact below
    · exact fun spanned => .inl (spans_inArena.mpr (spans_reserved.mp spanned))
    · intro id listed
      obtain ⟨slot, listed⟩ := mem_heapCells.mp listed
      have below : slot < length := by
        rw [← taken.size]
        exact (Array.getElem?_eq_some_iff.mp listed).1
      rcases (taken.drawn listed).origin with named | fresh
      · exact .inr (.inr ⟨_, .inl (spans_of_lt room below), named⟩)
      · exact .inr (.inl fresh)
  · intro position within
    by_cases inside : Between slice.offset length position
    · exact emptied inside
    · rw [elsewhere inside]
      refine fits.rest rfl ?_ within.2
      unfold Between at inside within
      omega

/-- A table that keeps every cell it has, with the same content. -/
structure Carries (table : Table) (before : Memory) (table' : Table) (after : Memory) : Prop
    extends Alters (fun _ => False) table before table' after where
  cell? : ∀ {slot : Nat} {id : CellId}, table.cell? slot before = some id →
    table'.cell? slot after = some id
  content : ∀ slot : Nat, table'.content slot after = table.content slot before

namespace Carries

variable {table' table'' : Table} {before middle after : Memory}

theorem refl (clean : memory.Clean) (fits : table.Fits memory) :
    Carries table memory table memory :=
  ⟨.refl False.elim clean fits, id, fun _ => rfl⟩

theorem trans (left : Carries table before table' middle)
    (right : Carries table' middle table'' after) : Carries table before table'' after :=
  ⟨left.toAlters.trans right.toAlters, right.cell? ∘ left.cell?,
    fun slot => (right.content slot).trans (left.content slot)⟩

end Carries

@[simp] theorem length_copyOut (table : Table) (memory : Memory) :
    (table.copyOut memory).1.length = table.length := by
  cases table with
  | onHeap cells reserved => rfl
  | inArena slice length =>
      unfold copyOut
      dsimp only
      split <;> exact size_take ..

theorem isArena_copyOut (table : Table) (memory : Memory) :
    (table.copyOut memory).1.isArena = false := by
  cases table with
  | onHeap cells reserved => rfl
  | inArena slice length =>
      unfold copyOut
      dsimp only
      split <;> rfl

theorem copyOut_carries (clean : memory.Clean) (fits : table.Fits memory) :
    Carries table memory (table.copyOut memory).1 (table.copyOut memory).2 := by
  cases table with
  | onHeap cells reserved => exact .refl clean fits
  | inArena slice length =>
      have taken := take_taken clean.sound slice.offset length
      obtain ⟨alters, empty⟩ := take_alters clean fits
      unfold copyOut
      dsimp only
      generalize memory.take slice.offset length = result at *
      obtain ⟨ids, after⟩ := result
      dsimp only at *
      have cell? : ∀ {slot : Nat} {id : CellId},
          (inArena slice length).cell? slot memory = some id → ids[slot]? = some id := by
        intro slot id named
        by_cases below : slot < length
        · rw [cell?_inArena below] at named
          exact taken.kept below named
        · rw [cell?_of_length_le (Nat.le_of_not_lt below)] at named
          cases named
      have content : ∀ slot, (ids[slot]?).elim Cell.blank after.cell =
          (inArena slice length).content slot memory := by
        intro slot
        by_cases below : slot < length
        · have inside : slot < ids.size := taken.size.symm ▸ below
          have listed : ids[slot]? = some ids[slot] := Array.getElem?_eq_getElem inside
          rw [content_inArena below, listed]
          exact (taken.drawn listed).content
        · rw [Array.getElem?_eq_none (by rw [taken.size]; exact Nat.le_of_not_lt below),
            content_of_cell?_none (cell?_of_length_le (Nat.le_of_not_lt below) memory)]
          rfl
      split
      next popped =>
        exact ⟨alters.trans (.handBack alters.clean alters.fits empty popped), cell?, content⟩
      next => exact ⟨alters, cell?, content⟩

@[simp] theorem length_ensureCapacity (table : Table) (capacity : Nat) (memory : Memory) :
    (table.ensureCapacity capacity memory).1.length = table.length := by
  cases table with
  | onHeap cells reserved => rfl
  | inArena slice length =>
      unfold ensureCapacity
      dsimp only
      split
      next => rfl
      next =>
        split
        next => rfl
        next => exact length_copyOut ..

theorem grow_carries {slice : Slice} {length capacity : Nat} {arena : Arena}
    (clean : memory.Clean) (fits : (inArena slice length).Fits memory)
    (larger : slice.capacity < capacity)
    (grown : memory.arena.grow? slice.offset slice.capacity (capacity - slice.capacity) =
      some arena) :
    Carries (inArena slice length) memory (inArena ⟨slice.offset, capacity⟩ length)
      { memory with arena } := by
  obtain ⟨top, -, rfl⟩ := Arena.grow?_eq_some grown
  have stop := (Arena.isTop_iff.mp top).1
  have room := fits.room rfl
  refine ⟨⟨?_, False.elim, ?_, ?_, ?_, ?_, ?_⟩, fun named => named, fun _ => rfl⟩
  · exact .of_bookkeeping rfl rfl
  · refine ⟨⟨clean.sound.old, clean.sound.distinct⟩, fun {position} above => ?_⟩
    exact clean.above (Nat.le_trans (Nat.le_add_right _ _) above)
  · constructor
    · intro position spanned
      have within := spans_inArena.mp spanned
      change position < memory.arena.watermark + (capacity - slice.capacity)
      unfold Between at within
      dsimp only at within
      omega
    · rintro _ _ ⟨⟩
      dsimp only
      omega
    · rintro _ _ position ⟨⟩ above _
      change memory.content position = .blank
      by_cases inside : position < slice.stop
      · exact fits.rest rfl above inside
      · refine clean.above ?_
        unfold Slice.stop at inside
        omega
    · exact fits.old
    · exact fits.unnamed
    · exact fits.distinct
  · intro position below _
    exact Nat.lt_of_lt_of_le below (Nat.le_add_right _ _)
  · intro position spanned
    have within := spans_inArena.mp spanned
    by_cases inside : position < slice.offset + slice.capacity
    · exact .inl (spans_inArena.mpr ⟨within.1, inside⟩)
    · exact .inr (by omega)
  · exact .inl

theorem ensureCapacity_carries (clean : memory.Clean) (fits : table.Fits memory)
    (capacity : Nat) :
    Carries table memory (table.ensureCapacity capacity memory).1
      (table.ensureCapacity capacity memory).2 := by
  cases table with
  | onHeap cells reserved => exact .refl clean fits
  | inArena slice length =>
      unfold ensureCapacity
      dsimp only
      split
      next => exact .refl clean fits
      next small =>
        split
        next grown => exact grow_carries clean fits (Nat.lt_of_not_le small) grown
        next => exact copyOut_carries clean fits

theorem room_ensureCapacity {capacity : Nat} {slice : Slice} {length : Nat}
    (inside : (table.ensureCapacity capacity memory).1 = .inArena slice length) :
    capacity ≤ slice.capacity := by
  cases table with
  | onHeap cells reserved => cases inside
  | inArena slice length =>
      unfold ensureCapacity at inside
      dsimp only at inside
      split at inside
      next large => cases inside; exact large
      next =>
        split at inside
        next => cases inside; exact Nat.le_refl _
        next =>
          have outside := isArena_copyOut (.inArena slice length) memory
          rw [inside] at outside
          cases outside

theorem length_extendTo {length : Nat} (longer : table.length ≤ length) (memory : Memory) :
    (table.extendTo length memory).1.length = length := by
  cases table with
  | onHeap cells reserved =>
      change cells.size ≤ length at longer
      simp only [extendTo, newAll_eq, Table.length]
      simp only [Array.size_append, List.size_toArray, List.length_map, List.length_range',
        List.length_replicate]
      omega
  | inArena slice old => rfl

/-- Which cells a table on the heap has after new ones were appended. -/
theorem getElem?_append_newAll {cells : Array CellId} {added : List Cell} {slot : Nat} {id : CellId}
    (found : (cells ++ (memory.newAll added).1)[slot]? = some id) :
    cells[slot]? = some id ∨ cells.size ≤ slot ∧ slot - cells.size < added.length ∧
      id = ⟨memory.cells.size + (slot - cells.size)⟩ := by
  rw [Array.getElem?_append, newAll_getElem?] at found
  split at found
  next => exact .inl found
  next beyond =>
    split at found
    next fresh =>
      cases found
      exact .inr ⟨Nat.le_of_not_lt beyond, fresh, rfl⟩
    next => cases found

theorem append_alters {cells : Array CellId} {reserved : Option Slice} (clean : memory.Clean)
    (fits : (onHeap cells reserved).Fits memory) (added : List Cell) :
    Alters (fun _ => False) (onHeap cells reserved) memory
      (onHeap (cells ++ (memory.newAll added).1) reserved) (memory.newAll added).2 := by
  have confined := newAll_confined memory added
  have old : ∀ {slot : Nat} {id : CellId}, cells[slot]? = some id →
      id.index < memory.cells.size := fun found => fits.old (mem_heapCells.mpr ⟨_, found⟩)
  refine ⟨?_, False.elim, ?_, ?_, ?_, ?_, ?_⟩
  · exact confined.mono (fun _ => False.elim) fun _ => id
  · refine ⟨confined.sound clean.sound, fun {position} above => ?_⟩
    rw [confined.content clean.sound id fun _ _ => id]
    rw [arena_newAll] at above
    exact clean.above above
  · constructor
    · rw [arena_newAll]
      exact fits.within
    · nofun
    · nofun
    · intro id member
      obtain ⟨slot, found⟩ := mem_heapCells.mp member
      rw [size_newAll]
      rcases getElem?_append_newAll found with earlier | ⟨-, fresh, rfl⟩
      · exact Nat.lt_of_lt_of_le (old earlier) (Nat.le_add_right _ _)
      · exact Nat.add_lt_add_left fresh _
    · intro id member position
      obtain ⟨slot, found⟩ := mem_heapCells.mp member
      rw [arena_newAll]
      rcases getElem?_append_newAll found with earlier | ⟨-, -, rfl⟩
      · exact fits.unnamed (mem_heapCells.mpr ⟨_, earlier⟩) position
      · exact fun named => Nat.not_lt_of_le (Nat.le_add_right _ _) (clean.sound.old named)
    · intro slot other id first second
      rcases getElem?_append_newAll first with earlier | ⟨above, -, rfl⟩ <;>
        rcases getElem?_append_newAll second with earlier' | ⟨above', -, same⟩
      · exact fits.distinct earlier earlier'
      · subst same
        exact absurd (old earlier) (Nat.not_lt_of_le (Nat.le_add_right _ _))
      · exact absurd (old earlier') (Nat.not_lt_of_le (Nat.le_add_right _ _))
      · have indices := congrArg CellId.index same
        dsimp only at indices
        omega
  · rw [arena_newAll]
    exact fun below _ => below
  · exact fun spanned => .inl spanned
  · intro id member
    obtain ⟨slot, found⟩ := mem_heapCells.mp member
    rcases getElem?_append_newAll found with earlier | ⟨-, -, rfl⟩
    · exact .inl (mem_heapCells.mpr ⟨_, earlier⟩)
    · exact .inr (.inl (Nat.le_add_right _ _))

/-- What a table on the heap holds after new cells were appended. -/
theorem content_append {cells : Array CellId} {reserved : Option Slice}
    (fits : (onHeap cells reserved).Fits memory) (added : List Cell) (slot : Nat) :
    (onHeap (cells ++ (memory.newAll added).1) reserved).content slot (memory.newAll added).2 =
      if slot < cells.size then (onHeap cells reserved).content slot memory
      else added.getD (slot - cells.size) .blank := by
  unfold content
  change ((cells ++ _)[slot]?).elim _ _ = if _ then (cells[slot]?).elim _ _ else _
  cases found : (cells ++ (memory.newAll added).1)[slot]? with
  | none =>
      rw [Array.getElem?_append, newAll_getElem?] at found
      split at found
      next inside => rw [if_pos inside, found]; rfl
      next outside =>
        rw [if_neg outside, Option.elim_none]
        split at found
        next => cases found
        next beyond =>
          rw [List.getD_eq_getElem?_getD, List.getElem?_eq_none (Nat.le_of_not_lt beyond)]
          rfl
  | some id =>
      rcases getElem?_append_newAll found with earlier | ⟨above, fresh, rfl⟩
      · have old : id.index < memory.cells.size := fits.old (mem_heapCells.mpr ⟨_, earlier⟩)
        rw [earlier, if_pos (Array.getElem?_eq_some_iff.mp earlier).1]
        exact (newAll_confined memory added).cell old not_false fun _ within => within.elim
      · rw [if_neg (Nat.not_lt_of_le above), Option.elim_some, cell_newAll memory fresh,
          List.getD_eq_getElem?_getD, List.getElem?_eq_getElem fresh]
        rfl

theorem append_carries {cells : Array CellId} {reserved : Option Slice} (clean : memory.Clean)
    (fits : (onHeap cells reserved).Fits memory) (count : Nat) :
    Carries (onHeap cells reserved) memory
      (onHeap (cells ++ (memory.newAll (List.replicate count .blank)).1) reserved)
      (memory.newAll (List.replicate count .blank)).2 := by
  refine ⟨append_alters clean fits _, fun {slot id} found => ?_, fun slot => ?_⟩
  · change cells[slot]? = some id at found
    change (cells ++ _)[slot]? = some id
    rw [Array.getElem?_append, if_pos (Array.getElem?_eq_some_iff.mp found).1]
    exact found
  · rw [content_append fits]
    split
    next => rfl
    next outside =>
      rw [content_of_cell?_none (cell?_of_length_le (Nat.le_of_not_lt outside) memory)]
      cases held : (List.replicate count Cell.blank)[slot - cells.size]? with
      | none => rw [List.getD_eq_getElem?_getD, held]; rfl
      | some cell =>
          rw [List.getD_eq_getElem?_getD, held]
          exact List.eq_of_mem_replicate (List.mem_of_getElem? held)

theorem extendTo_carries {length : Nat} (clean : memory.Clean) (fits : table.Fits memory)
    (longer : table.length ≤ length)
    (room : ∀ {slice : Slice} {old : Nat}, table = .inArena slice old →
      length ≤ slice.capacity) :
    Carries table memory (table.extendTo length memory).1 (table.extendTo length memory).2 := by
  cases table with
  | inArena slice old =>
      refine ⟨{ Alters.refl False.elim clean fits with
        fits := ?_, spans := fun spanned => .inl spanned, cells := nofun }, ?_, fun slot => ?_⟩
      · exact ⟨fits.within, fun {_ _} same => by cases same; exact room rfl,
          fun same above => by
            cases same
            refine fits.rest rfl (Nat.le_trans ?_ above)
            exact Nat.add_le_add_left longer _, nofun, nofun, nofun⟩
      · intro slot id named
        by_cases below : slot < old
        · rw [cell?_inArena below] at named
          exact (cell?_inArena (Nat.lt_of_lt_of_le below longer) memory).trans named
        · rw [cell?_of_length_le (Nat.le_of_not_lt below)] at named
          cases named
      · change (inArena slice length).content slot memory = (inArena slice old).content slot memory
        by_cases below : slot < old
        · rw [content_inArena below, content_inArena (Nat.lt_of_lt_of_le below longer)]
        · have beyond : (inArena slice old).length ≤ slot := Nat.le_of_not_lt below
          rw [content_of_cell?_none (cell?_of_length_le beyond memory)]
          by_cases inside : slot < length
          · rw [content_inArena inside]
            have large := room rfl
            refine fits.rest rfl (Nat.add_le_add_left (Nat.le_of_not_lt below) _) ?_
            unfold Slice.stop
            omega
          · have outside : (inArena slice length).length ≤ slot := Nat.le_of_not_lt inside
            rw [content_of_cell?_none (cell?_of_length_le outside memory)]
  | onHeap cells reserved => exact append_carries clean fits _

theorem extended_carries (clean : memory.Clean) (fits : table.Fits memory) (slot : Nat) :
    Carries table memory (table.extended slot memory).1 (table.extended slot memory).2 := by
  unfold extended
  split
  next => exact .refl clean fits
  next short =>
    have grown := ensureCapacity_carries clean fits (slot + 1)
    refine grown.trans (extendTo_carries grown.clean grown.fits ?_ fun inside => ?_)
    · rw [length_ensureCapacity]
      exact Nat.le_succ_of_le (Nat.le_of_not_lt short)
    · exact room_ensureCapacity inside

theorem length_extended (table : Table) (slot : Nat) (memory : Memory) :
    (table.extended slot memory).1.length = max table.length (slot + 1) := by
  unfold extended
  split
  next below => exact (Nat.max_eq_left below).symm
  next short =>
    have shorter := Nat.le_succ_of_le (Nat.le_of_not_lt short)
    rw [Nat.max_eq_right shorter]
    exact length_extendTo (Nat.le_trans (Nat.le_of_eq (length_ensureCapacity ..)) shorter) _

theorem length_cellAt (table : Table) (slot : Nat) (memory : Memory) :
    (table.cellAt slot memory).2.1.length = max table.length (slot + 1) := by
  have extended := length_extended table slot memory
  rw [cellAt_eq]
  generalize table.extended slot memory = result at extended ⊢
  obtain ⟨cells | slice, after⟩ := result
  · exact extended
  · exact extended

theorem slot_carries {slice : Slice} {length slot : Nat} (clean : memory.Clean)
    (fits : (inArena slice length).Fits memory) (below : slot < length) :
    Carries (inArena slice length) memory (inArena slice length)
      (memory.slot (slice.offset + slot)).2 := by
  have slotted := slot_confined memory (slice.offset + slot)
  have marked : (memory.slot (slice.offset + slot)).2.arena.watermark = memory.arena.watermark :=
    congrArg Arena.Bounds.watermark (bounds_slot ..)
  have content := content_slot clean.sound (slice.offset + slot)
  have spanned := spans_of_lt (fits.room rfl) below
  refine ⟨⟨?_, False.elim, ?_, ?_, ?_, ?_, ?_⟩, ?_, ?_⟩
  · refine slotted.mono ?_ fun _ => id
    rintro position rfl
    exact .inl spanned
  · refine ⟨slotted.sound clean.sound, fun {position} above => ?_⟩
    rw [content]
    exact clean.above (marked ▸ above)
  · constructor
    · rw [marked]
      exact fits.within
    · exact fits.room
    · intro _ _ position same above inside
      rw [content]
      exact fits.rest same above inside
    · nofun
    · nofun
    · nofun
  · rw [marked]
    exact fun inside _ => inside
  · exact .inl
  · nofun
  · intro other id named
    by_cases inside : other < length
    · rw [cell?_inArena inside] at named ⊢
      by_cases same : slice.offset + other = slice.offset + slot
      · rw [same] at named ⊢
        rw [slot_of_peek named]
        exact named
      · rw [slotted.peek same]
        exact named
    · rw [cell?_of_length_le (Nat.le_of_not_lt inside)] at named
      cases named
  · intro other
    by_cases inside : other < length
    · rw [content_inArena inside, content_inArena inside, content]
    · have beyond : (inArena slice length).length ≤ other := Nat.le_of_not_lt inside
      rw [content_of_cell?_none (cell?_of_length_le beyond _),
        content_of_cell?_none (cell?_of_length_le beyond _)]

theorem cellAt_carries (clean : memory.Clean) (fits : table.Fits memory) (slot : Nat) :
    Carries table memory (table.cellAt slot memory).2.1 (table.cellAt slot memory).2.2 ∧
      (table.cellAt slot memory).2.1.cell? slot (table.cellAt slot memory).2.2 =
        some (table.cellAt slot memory).1 := by
  have carries := extended_carries clean fits slot
  have longer := length_extended table slot memory
  rw [cellAt_eq]
  generalize table.extended slot memory = result at carries longer ⊢
  have below : slot < result.1.length := by
    rw [longer]
    exact Nat.lt_of_lt_of_le (Nat.lt_succ_self slot) (Nat.le_max_right _ _)
  obtain ⟨⟨cells, reserved⟩ | ⟨slice, length⟩, after⟩ := result
  · refine ⟨carries, ?_⟩
    change slot < cells.size at below
    change cells[slot]? = some (cells.getD slot ⟨0⟩)
    simp [below]
  · refine ⟨carries.trans (slot_carries carries.clean carries.fits below), ?_⟩
    exact (cell?_inArena below _).trans (peek_slot ..)

/-! Writing. -/

theorem lt_length_of_cell? {slot : Nat} {id : CellId}
    (named : table.cell? slot memory = some id) : slot < table.length := by
  refine Nat.lt_of_not_le fun beyond => ?_
  rw [cell?_of_length_le beyond] at named
  cases named

/-- A write to a cell of a table. Only a cell on the heap can be shared with another table. -/
theorem modifyCell_alters {slot : Nat} {id : CellId} (clean : memory.Clean)
    (fits : table.Fits memory) (named : table.cell? slot memory = some id)
    (change : Cell → Cell) :
    Alters (fun other => other = id ∧ id ∈ table.heapCells) table memory table
      (memory.modifyCell id change) := by
  have sound := (modifyCell_confined memory id change).sound clean.sound
  cases table with
  | onHeap cells reserved =>
      have listed : id ∈ (onHeap cells reserved).heapCells := mem_heapCells.mpr ⟨slot, named⟩
      have confined := modifyCell_confined memory id change
      refine ⟨?_, ?_, ⟨sound, fun {position} above => ?_⟩, ?_, fun inside _ => inside, .inl, .inl⟩
      · exact confined.mono (fun _ => False.elim) fun _ same => ⟨same, listed⟩
      · rintro _ ⟨rfl, -⟩
        exact fits.unnamed listed
      · rw [confined.content clean.sound (fun within => within)
          fun other named same => fits.unnamed listed position (same ▸ named)]
        exact clean.above above
      · refine ⟨fits.within, nofun, nofun, fun member => ?_, fits.unnamed, fits.distinct⟩
        rw [size_modifyCell]
        exact fits.old member
  | inArena slice length =>
      obtain ⟨below, peeked⟩ := peek_of_cell? named
      have spanned := spans_of_lt (fits.room rfl) below
      have confined := modifyCell_slot_confined peeked change
      refine ⟨?_, nofun, ⟨sound, fun {position} above => ?_⟩, ?_, fun inside _ => inside, .inl,
        .inl⟩
      · refine confined.mono ?_ fun _ written => written.elim
        rintro position rfl
        exact .inl spanned
      · rw [confined.content clean.sound (fun same => ?_) fun _ _ written => written]
        · exact clean.above above
        · subst same
          exact Nat.not_lt_of_le above (fits.within spanned)
      · refine ⟨fits.within, fits.room, fun {_ _ position} same above inside => ?_, nofun, nofun,
          nofun⟩
        rw [confined.content clean.sound (fun written => ?_) fun _ _ written => written]
        · exact fits.rest same above inside
        · cases same
          omega

theorem content_modifyCell {slot : Nat} {id : CellId} (clean : memory.Clean)
    (fits : table.Fits memory) (named : table.cell? slot memory = some id)
    (change : Cell → Cell) (other : Nat) :
    table.content other (memory.modifyCell id change) =
      if other = slot then change (table.content slot memory)
      else table.content other memory := by
  have cell? : ∀ other, table.cell? other (memory.modifyCell id change) =
      table.cell? other memory := fun other => by cases table <;> rfl
  have old : id.index < memory.cells.size := by
    cases table with
    | onHeap cells reserved => exact fits.old (mem_heapCells.mpr ⟨slot, named⟩)
    | inArena slice length => exact clean.sound.old (peek_of_cell? named).2
  have distinct : ∀ {other : Nat}, table.cell? other memory = some id → other = slot := by
    intro other named'
    cases table with
    | onHeap cells reserved => exact fits.distinct named' named
    | inArena slice length =>
        exact Nat.add_left_cancel
          (clean.sound.distinct (peek_of_cell? named').2 (peek_of_cell? named).2)
  split
  next same =>
    subst same
    rw [content_of_cell? named, content_of_cell? ((cell? other).trans named),
      cell_modifyCell_self old]
  next apart =>
    unfold content
    rw [cell?]
    cases named' : table.cell? other memory with
    | none => rfl
    | some id' =>
        refine cell_modifyCell_ne (fun same => apart ?_) memory change
        subst same
        exact distinct named'

/-- A table on the heap gets new cells up to the slot, if it is too short. -/
theorem cellAt_onHeap (cells : Array CellId) (reserved : Option Slice) (slot : Nat)
    (memory : Memory) :
    (onHeap cells reserved).cellAt slot memory =
      if slot < cells.size then (cells.getD slot ⟨0⟩, onHeap cells reserved, memory)
      else
        ((cells ++ (memory.newAll (List.replicate (slot + 1 - cells.size) .blank)).1).getD slot ⟨0⟩,
          onHeap (cells ++ (memory.newAll (List.replicate (slot + 1 - cells.size) .blank)).1)
            reserved,
          (memory.newAll (List.replicate (slot + 1 - cells.size) .blank)).2) := by
  rw [cellAt_eq]
  unfold extended
  by_cases below : slot < cells.size
  · have short : slot < (onHeap cells reserved).length := below
    rw [if_pos below, if_pos short]
  · have long : ¬ slot < (onHeap cells reserved).length := below
    rw [if_neg below, if_neg long]
    rfl

/-- Touching a slot of a table that is long enough leaves the table as it is. -/
theorem cellAt_of_lt {slot : Nat} (below : slot < table.length) (memory : Memory) :
    (table.cellAt slot memory).2.1 = table := by
  rw [cellAt_eq, extended, if_pos below]
  cases table <;> rfl

theorem cellAt_fresh {slot : Nat} {id : CellId} (clean : memory.Clean) (fits : table.Fits memory)
    (beyond : table.length ≤ slot)
    (listed : id ∈ (table.cellAt slot memory).2.1.heapCells)
    (reached : (table.cellAt slot memory).1 = id) : memory.cells.size ≤ id.index := by
  have grown := ensureCapacity_carries clean fits (slot + 1)
  have shorter := length_ensureCapacity table (slot + 1) memory
  rw [cellAt_eq, extended, if_neg (Nat.not_lt_of_le beyond)] at listed reached
  dsimp only at listed reached
  generalize table.ensureCapacity (slot + 1) memory = result at grown shorter listed reached
  obtain ⟨⟨cells, reserved⟩ | ⟨slice, length⟩, middle⟩ := result
  · refine Nat.le_trans grown.confined.size ?_
    change cells.size = table.length at shorter
    change (cells ++ (middle.newAll (List.replicate (slot + 1 - cells.size) .blank)).1).getD slot
      ⟨0⟩ = id at reached
    subst reached
    simp only [Array.getD_eq_getD_getElem?, Array.getElem?_append, newAll_getElem?,
      List.length_replicate]
    rw [if_neg (by omega), if_pos (by omega)]
    exact Nat.le_add_right _ _
  · exact absurd listed (Array.not_mem_empty _)

/-- Touching a slot and writing what is there. -/
theorem write_alters (clean : memory.Clean) (fits : table.Fits memory) (slot : Nat)
    (change : Cell → Cell) :
    Alters (fun id => id = (table.cellAt slot memory).1 ∧
        id ∈ (table.cellAt slot memory).2.1.heapCells) table memory
      (table.cellAt slot memory).2.1
      ((table.cellAt slot memory).2.2.modifyCell (table.cellAt slot memory).1 change) := by
  obtain ⟨carries, reached⟩ := cellAt_carries clean fits slot
  have unnamed : ∀ {id : CellId}, id = (table.cellAt slot memory).1 ∧
      id ∈ (table.cellAt slot memory).2.1.heapCells →
      ∀ position, memory.arena.peek position ≠ some id := by
    rintro id ⟨same, listed⟩ position named
    by_cases below : slot < table.length
    · rw [cellAt_of_lt below] at listed
      exact fits.unnamed listed position named
    · have fresh := cellAt_fresh clean fits (Nat.le_of_not_lt below) listed same.symm
      exact Nat.not_lt_of_le fresh (clean.sound.old named)
  refine (carries.toAlters.mono (fun _ => False.elim) unnamed).trans
    ((modifyCell_alters carries.clean carries.fits reached change).mono ?_ ?_)
  · rintro id ⟨rfl, listed⟩
    exact ⟨rfl, listed⟩
  · rintro id ⟨-, listed⟩
    exact carries.fits.unnamed listed

theorem write_content (clean : memory.Clean) (fits : table.Fits memory) (slot : Nat)
    (change : Cell → Cell) (other : Nat) :
    (table.cellAt slot memory).2.1.content other
        ((table.cellAt slot memory).2.2.modifyCell (table.cellAt slot memory).1 change) =
      if other = slot then change (table.content slot memory)
      else table.content other memory := by
  obtain ⟨carries, reached⟩ := cellAt_carries clean fits slot
  rw [content_modifyCell carries.clean carries.fits reached, carries.content, carries.content]

@[simp] theorem cell?_modifyCell (table : Table) (slot : Nat) (memory : Memory) (id : CellId)
    (change : Cell → Cell) :
    table.cell? slot (memory.modifyCell id change) = table.cell? slot memory := by
  cases table <;> rfl

/-! Giving up. -/

variable (shared : CellId → Bool)

/-- What is left of a table whose slice has been emptied. -/
theorem release_alters {slice : Slice} (clean : memory.Clean) (fits : table.Fits memory)
    (spanning : table.slice? = some slice) :
    Alters (fun _ => False) table memory (onHeap #[] (some slice))
        (memory.release shared slice.offset slice.stop) ∧
      ∀ {position : Nat}, Between slice.offset slice.capacity position →
        (memory.release shared slice.offset slice.stop).content position = .blank := by
  have released := release_confined shared memory slice.offset slice.stop
  have marked : (memory.release shared slice.offset slice.stop).arena.watermark =
      memory.arena.watermark := congrArg Arena.Bounds.watermark (bounds_release ..)
  have spans : ∀ {position : Nat}, table.Spans position ↔
      Between slice.offset slice.capacity position := by
    intro position
    unfold Spans
    rw [spanning]
    exact ⟨fun ⟨_, same, within⟩ => Option.some.inj same ▸ within, fun within => ⟨_, rfl, within⟩⟩
  have emptied : ∀ {position : Nat}, Between slice.offset slice.capacity position →
      (memory.release shared slice.offset slice.stop).content position = .blank :=
    fun within => content_release shared clean.sound within.1 within.2
  refine ⟨⟨?_, False.elim, ⟨released.sound clean.sound, fun {position} above => ?_⟩, ?_, ?_, ?_,
    ?_⟩, emptied⟩
  · exact released.mono (fun _ within => .inl (spans.mpr within)) fun _ => id
  · by_cases within : Between slice.offset slice.capacity position
    · exact emptied within
    · rw [released.content clean.sound within fun _ _ => id]
      exact clean.above (marked ▸ above)
  · refine ⟨fun spanned => ?_, nofun, nofun, nofun, nofun, nofun⟩
    rw [marked]
    exact fits.within (spans.mpr (spans_reserved.mp spanned))
  · rw [marked]
    exact fun below _ => below
  · exact fun spanned => .inl (spans.mpr (spans_reserved.mp spanned))
  · nofun

theorem free_alters (clean : memory.Clean) (fits : table.Fits memory) :
    Alters (fun _ => False) table memory .empty (table.free shared memory) := by
  unfold free
  cases spanning : table.slice? with
  | none =>
      refine { Alters.refl False.elim clean fits with fits := ?_, spans := ?_, cells := nofun }
      · exact ⟨fun spanned => (not_spans_onHeap spanned).elim, nofun, nofun, nofun, nofun, nofun⟩
      · exact fun spanned => (not_spans_onHeap spanned).elim
  | some slice =>
      obtain ⟨alters, emptied⟩ := release_alters shared clean fits spanning
      dsimp only
      split
      next popped =>
        exact alters.trans (.handBack alters.clean alters.fits emptied popped)
      next => exact alters.trans (.forget alters.clean alters.fits)

theorem length_truncate (table : Table) (length : Nat) (memory : Memory) :
    (table.truncate shared length memory).1.length = min table.length length := by
  unfold truncate
  split
  next short => exact (Nat.min_eq_left short).symm
  next long =>
    rw [Nat.min_eq_right (Nat.le_of_not_le long)]
    cases table with
    | onHeap cells reserved =>
        change ¬ cells.size ≤ length at long
        change (cells.take length).size = length
        rw [Array.take_eq_extract, Array.size_extract]
        omega
    | inArena slice old => rfl

private theorem take_onHeap_alters {cells : Array CellId} {reserved : Option Slice}
    (clean : memory.Clean) (fits : (onHeap cells reserved).Fits memory) {length : Nat}
    (long : ¬ cells.size ≤ length) :
    Alters (fun _ => False) (onHeap cells reserved) memory (onHeap (cells.take length) reserved)
        memory ∧
      ∀ {slot : Nat}, slot < length → (cells.take length)[slot]? = cells[slot]? := by
  have taken : ∀ slot, (cells.take length)[slot]? =
      if slot < length then cells[slot]? else none := by
    intro slot
    rw [Array.take_eq_extract, Array.getElem?_extract, Nat.zero_add,
      Nat.min_eq_left (Nat.le_of_not_le long), Nat.sub_zero]
  have listed : ∀ {slot : Nat} {id : CellId}, (cells.take length)[slot]? = some id →
      cells[slot]? = some id := by
    intro slot id found
    rw [taken] at found
    split at found
    next => exact found
    next => cases found
  have member : ∀ {id : CellId}, id ∈ (onHeap (cells.take length) reserved).heapCells →
      id ∈ (onHeap cells reserved).heapCells := fun found =>
    have ⟨slot, found⟩ := mem_heapCells.mp found
    mem_heapCells.mpr ⟨slot, listed found⟩
  refine ⟨{ Alters.refl False.elim clean fits with fits := ?_, spans := .inl, cells := ?_ },
    fun {slot} below => (taken slot).trans (if_pos below)⟩
  · exact ⟨fits.within, nofun, nofun, fun found => fits.old (member found),
      fun found => fits.unnamed (member found),
      fun first second => fits.distinct (listed first) (listed second)⟩
  · exact fun found => .inl (member found)

private theorem release_inArena_alters {slice : Slice} {length old : Nat} (clean : memory.Clean)
    (fits : (inArena slice old).Fits memory) (long : ¬ old ≤ length) :
    Alters (fun _ => False) (inArena slice old) memory (inArena slice length)
        (memory.release shared (slice.offset + length) (slice.offset + old)) ∧
      ∀ {slot : Nat}, slot < length →
        (inArena slice length).cell? slot
            (memory.release shared (slice.offset + length) (slice.offset + old)) =
          (inArena slice old).cell? slot memory ∧
        (inArena slice length).content slot
            (memory.release shared (slice.offset + length) (slice.offset + old)) =
          (inArena slice old).content slot memory := by
  have room := fits.room rfl
  have released := release_confined shared memory (slice.offset + length) (slice.offset + old)
  have marked : (memory.release shared (slice.offset + length)
      (slice.offset + old)).arena.watermark = memory.arena.watermark :=
    congrArg Arena.Bounds.watermark (bounds_release ..)
  have kept : ∀ {position : Nat},
      position < slice.offset + length ∨ slice.offset + old ≤ position →
      (memory.release shared (slice.offset + length) (slice.offset + old)).content
        position = memory.content position := fun outside =>
    released.content clean.sound (by omega) fun _ _ => id
  refine ⟨⟨?_, False.elim, ⟨released.sound clean.sound, fun {position} above => ?_⟩, ?_, ?_,
    .inl, nofun⟩, fun {slot} below => ?_⟩
  · refine released.mono (fun position within => .inl ?_) fun _ => id
    exact spans_inArena.mpr ⟨by omega, by omega⟩
  · rw [marked] at above
    by_cases within : slice.offset + length ≤ position ∧ position < slice.offset + old
    · exact content_release shared clean.sound within.1 within.2
    · rw [kept (by omega)]
      exact clean.above above
  · refine ⟨fun spanned => ?_, fun {_ _} same => ?_, fun {_ _ position} same above inside => ?_,
      nofun, nofun, nofun⟩
    · rw [marked]
      exact fits.within (spans_inArena.mpr (spans_inArena.mp spanned))
    · cases same
      omega
    · cases same
      by_cases within : position < slice.offset + old
      · exact content_release shared clean.sound above within
      · rw [kept (by omega)]
        exact fits.rest rfl (Nat.le_of_not_lt within) inside
  · rw [marked]
    exact fun inside _ => inside
  · have longer : slot < old := by omega
    constructor
    · rw [cell?_inArena below, cell?_inArena longer]
      exact released.peek (by omega)
    · rw [content_inArena below, content_inArena longer]
      exact kept (.inl (by omega))

/-- Shortening a table keeps the cells it still has. -/
theorem truncate_alters (clean : memory.Clean) (fits : table.Fits memory) (length : Nat) :
    Alters (fun _ => False) table memory (table.truncate shared length memory).1
        (table.truncate shared length memory).2 ∧
      ∀ {slot : Nat}, slot < length →
        (table.truncate shared length memory).1.cell? slot
            (table.truncate shared length memory).2 = table.cell? slot memory ∧
          (table.truncate shared length memory).1.content slot
            (table.truncate shared length memory).2 = table.content slot memory := by
  unfold truncate
  split
  next => exact ⟨.refl False.elim clean fits, fun _ => ⟨rfl, rfl⟩⟩
  next long =>
    cases table with
    | onHeap cells reserved =>
        obtain ⟨alters, kept⟩ := take_onHeap_alters clean fits long
        exact ⟨alters, fun below =>
          ⟨kept below, congrArg (fun id => id.elim Cell.blank memory.cell) (kept below)⟩⟩
    | inArena slice old => exact release_inArena_alters shared clean fits long

end Table

end ScopeMachine
