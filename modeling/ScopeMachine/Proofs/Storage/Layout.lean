import ScopeMachine.Proofs.Storage.Bounds

namespace ScopeMachine

namespace Arena

private theorem peek_put (arena : Arena) (position other : Nat) (content : Option CellId) :
    (arena.put position content).peek other =
      if other = position then content else arena.peek other := by
  unfold put peek
  split
  next within =>
    rw [Array.getElem?_setIfInBounds]
    by_cases same : other = position
    · subst same
      simp [within]
    · rw [if_neg same, if_neg (Ne.symm same)]
  next beyond =>
    have padding : arena.slots.size + (position - arena.slots.size) = position := by omega
    rw [Array.getElem?_push, Array.getElem?_append, Array.getElem?_replicate, Array.size_append,
      Array.size_replicate, padding]
    by_cases same : other = position
    · simp [same]
    · rw [if_neg same, if_neg same]
      split
      next => rfl
      next outside =>
        rw [Array.getElem?_eq_none (Nat.le_of_not_lt outside)]
        split <;> rfl

theorem peek_of_size_le {arena : Arena} {position : Nat} (beyond : arena.slots.size ≤ position) :
    arena.peek position = none := by
  unfold peek
  rw [Array.getElem?_eq_none beyond]
  rfl

end Arena

namespace Memory

/-! Cells. -/

theorem cell_new_self (memory : Memory) (cell : Cell) :
    (memory.new cell).2.cell (memory.new cell).1 = cell := by
  simp [new, Memory.cell]

theorem cell_new_of_lt {memory : Memory} {id : CellId} (old : id.index < memory.cells.size)
    (cell : Cell) : (memory.new cell).2.cell id = memory.cell id := by
  simp [new, Memory.cell, Array.getElem?_push, Nat.ne_of_lt old]

theorem cell_modifyCell_self {memory : Memory} {id : CellId}
    (old : id.index < memory.cells.size) (change : Cell → Cell) :
    (memory.modifyCell id change).cell id = change (memory.cell id) := by
  simp [modifyCell, Memory.cell, Array.getElem_modify, old]

theorem cell_modifyCell_ne {id other : CellId} (apart : other ≠ id) (memory : Memory)
    (change : Cell → Cell) : (memory.modifyCell id change).cell other = memory.cell other := by
  have indices : id.index ≠ other.index := fun same => apart (by
    obtain ⟨index⟩ := id
    obtain ⟨index'⟩ := other
    exact congrArg CellId.mk same.symm)
  simp [modifyCell, Memory.cell, Array.getElem?_modify, indices]

@[simp] theorem size_modifyCell (memory : Memory) (id : CellId) (change : Cell → Cell) :
    (memory.modifyCell id change).cells.size = memory.cells.size :=
  Array.size_modify

theorem newAll_eq (memory : Memory) (cells : List Cell) :
    memory.newAll cells =
      (((List.range' memory.cells.size cells.length).map CellId.mk).toArray,
        { memory with cells := memory.cells ++ cells.toArray }) := by
  suffices general : ∀ (ids : Array CellId) (memory : Memory),
      cells.foldl (fun made cell =>
        (made.1.push (made.2.new cell).1, (made.2.new cell).2)) (ids, memory) =
      (ids ++ ((List.range' memory.cells.size cells.length).map CellId.mk).toArray,
        { memory with cells := memory.cells ++ cells.toArray }) by
    simpa [newAll] using general #[] memory
  induction cells with
  | nil => simp
  | cons cell cells induction =>
      intro ids memory
      rw [List.foldl_cons]
      refine (induction _ _).trans (Prod.ext (Array.ext' ?_) ?_)
      · simp [new, List.range'_succ]
      · refine congrArg (Memory.mk · memory.arena) (Array.ext' ?_)
        simp [new]

theorem newAll_getElem? (memory : Memory) (cells : List Cell) (slot : Nat) :
    (memory.newAll cells).1[slot]? =
      if slot < cells.length then some ⟨memory.cells.size + slot⟩ else none := by
  rw [newAll_eq]
  by_cases below : slot < cells.length
  · simp [below]
  · simp [below]

theorem cell_newAll (memory : Memory) {cells : List Cell} {slot : Nat}
    (below : slot < cells.length) :
    (memory.newAll cells).2.cell ⟨memory.cells.size + slot⟩ = cells[slot] := by
  rw [newAll_eq]
  simp [Memory.cell, below]

@[simp] theorem arena_newAll (memory : Memory) (cells : List Cell) :
    (memory.newAll cells).2.arena = memory.arena := by
  rw [newAll_eq]

@[simp] theorem size_newAll (memory : Memory) (cells : List Cell) :
    (memory.newAll cells).2.cells.size = memory.cells.size + cells.length := by
  rw [newAll_eq]
  simp

/-! Slots. -/

/-- Slots name cells that exist, each slot another one. -/
structure Sound (memory : Memory) : Prop where
  old : ∀ {position : Nat} {id : CellId}, memory.arena.peek position = some id →
    id.index < memory.cells.size
  distinct : ∀ {position other : Nat} {id : CellId}, memory.arena.peek position = some id →
    memory.arena.peek other = some id → position = other

/-- What a slot holds; an untouched slot holds a blank. -/
def content (memory : Memory) (position : Nat) : Cell :=
  (memory.arena.peek position).elim .blank memory.cell

theorem content_of_peek {memory : Memory} {position : Nat} {id : CellId}
    (named : memory.arena.peek position = some id) :
    memory.content position = memory.cell id := by
  unfold content
  rw [named]
  rfl

theorem content_of_peek_none {memory : Memory} {position : Nat}
    (untouched : memory.arena.peek position = none) : memory.content position = .blank := by
  unfold content
  rw [untouched]
  rfl

/-- Work confined to some slots and some cells. A slot at work keeps its cell, gives it up, or
names a new one. -/
structure Confined (slots : Nat → Prop) (cells : CellId → Prop) (before after : Memory) :
    Prop where
  peek : ∀ {position : Nat}, ¬ slots position →
    after.arena.peek position = before.arena.peek position
  cell : ∀ {id : CellId}, id.index < before.cells.size → ¬ cells id →
    (∀ position, slots position → before.arena.peek position ≠ some id) →
    after.cell id = before.cell id
  size : before.cells.size ≤ after.cells.size
  origin : ∀ {position : Nat} {id : CellId}, slots position →
    after.arena.peek position = some id →
    before.arena.peek position = some id ∨ before.cells.size ≤ id.index
  sound : before.Sound → after.Sound

namespace Confined

variable {slots : Nat → Prop} {cells : CellId → Prop} {before middle after : Memory}

theorem refl (slots : Nat → Prop) (cells : CellId → Prop) (memory : Memory) :
    Confined slots cells memory memory :=
  ⟨fun _ => rfl, fun _ _ _ => rfl, Nat.le_refl _, fun _ named => .inl named, id⟩

theorem trans (left : Confined slots cells before middle)
    (right : Confined slots cells middle after) : Confined slots cells before after where
  peek outside := (right.peek outside).trans (left.peek outside)
  cell {id} old unwritten unnamed := by
    refine (right.cell (Nat.lt_of_lt_of_le old left.size) unwritten fun position within named =>
      ?_).trans (left.cell old unwritten unnamed)
    rcases left.origin within named with before | fresh
    · exact unnamed position within before
    · exact Nat.not_lt_of_le fresh old
  size := Nat.le_trans left.size right.size
  origin {position id} within named := by
    rcases right.origin within named with middle | fresh
    · exact left.origin within middle
    · exact .inr (Nat.le_trans left.size fresh)
  sound := right.sound ∘ left.sound

theorem mono {slots' : Nat → Prop} {cells' : CellId → Prop}
    (confined : Confined slots cells before after)
    (moreSlots : ∀ position, slots position → slots' position)
    (moreCells : ∀ id, cells id → cells' id) : Confined slots' cells' before after where
  peek outside := confined.peek fun within => outside (moreSlots _ within)
  cell old unwritten unnamed :=
    confined.cell old (fun written => unwritten (moreCells _ written))
      fun position within => unnamed position (moreSlots _ within)
  size := confined.size
  origin {position id} within named := by
    by_cases inner : slots position
    · exact confined.origin inner named
    · rw [confined.peek inner] at named
      exact .inl named
  sound := confined.sound

/-- A slot away from the work keeps its content. -/
theorem content (confined : Confined slots cells before after) (sound : before.Sound)
    {position : Nat} (outside : ¬ slots position)
    (unwritten : ∀ id, before.arena.peek position = some id → ¬ cells id) :
    after.content position = before.content position := by
  unfold Memory.content
  rw [confined.peek outside]
  cases named : before.arena.peek position with
  | none => rfl
  | some id =>
      refine confined.cell (sound.old named) (unwritten id named) fun other within both => ?_
      exact outside (sound.distinct named both ▸ within)

end Confined

/-- Only the slots and the cells matter for what lies where. -/
theorem Confined.of_bookkeeping {slots : Nat → Prop} {cells : CellId → Prop} {before after : Memory}
    (sameCells : after.cells = before.cells) (sameSlots : after.arena.slots = before.arena.slots) :
    Confined slots cells before after := by
  have peek : ∀ position, after.arena.peek position = before.arena.peek position := fun position =>
    congrArg (fun slots : Array (Option CellId) => (slots[position]?).join) sameSlots
  have cell : ∀ id, after.cell id = before.cell id := fun id =>
    congrArg (fun cells : Array Cell => cells.getD id.index .blank) sameCells
  have size : after.cells.size = before.cells.size := congrArg Array.size sameCells
  constructor
  · exact fun _ => peek _
  · exact fun _ _ _ => cell _
  · exact Nat.le_of_eq size.symm
  · exact fun _ named => .inl (peek _ ▸ named)
  · intro sound
    constructor
    · intro position id named
      rw [size]
      exact sound.old (peek _ ▸ named)
    · intro position other id first second
      exact sound.distinct (peek _ ▸ first) (peek _ ▸ second)

/-! Single steps. -/

theorem new_confined (memory : Memory) (cell : Cell) :
    Confined (fun _ => False) (fun _ => False) memory (memory.new cell).2 where
  peek _ := rfl
  cell old _ _ := cell_new_of_lt old cell
  size := by simp [new]
  origin within := within.elim
  sound sound := ⟨fun named => Nat.lt_of_lt_of_le (sound.old named) (by simp [new]),
    sound.distinct⟩

theorem newAll_confined (memory : Memory) (cells : List Cell) :
    Confined (fun _ => False) (fun _ => False) memory (memory.newAll cells).2 := by
  have grown : memory.cells.size ≤ (memory.newAll cells).2.cells.size := by simp
  have slots : ∀ position,
      (memory.newAll cells).2.arena.peek position = memory.arena.peek position := by simp
  constructor
  · exact fun _ => slots _
  · intro id old _ _
    rw [newAll_eq]
    simp [Memory.cell, Array.getElem?_append, old]
  · exact grown
  · exact fun within => within.elim
  · intro sound
    exact ⟨fun named => Nat.lt_of_lt_of_le (sound.old (slots _ ▸ named)) grown,
      fun first second => sound.distinct (slots _ ▸ first) (slots _ ▸ second)⟩

theorem modifyCell_confined (memory : Memory) (id : CellId) (change : Cell → Cell) :
    Confined (fun _ => False) (· = id) memory (memory.modifyCell id change) where
  peek _ := rfl
  cell _ unwritten _ := cell_modifyCell_ne unwritten ..
  size := Nat.le_of_eq (size_modifyCell ..).symm
  origin within := within.elim
  sound sound := ⟨fun named => by rw [size_modifyCell]; exact sound.old named, sound.distinct⟩

theorem modifyCell_slot_confined {memory : Memory} {position : Nat} {id : CellId}
    (named : memory.arena.peek position = some id) (change : Cell → Cell) :
    Confined (· = position) (fun _ => False) memory (memory.modifyCell id change) where
  peek _ := rfl
  cell {other} _ _ unnamed := by
    refine cell_modifyCell_ne (fun same => ?_) memory change
    subst same
    exact unnamed position rfl named
  size := Nat.le_of_eq (size_modifyCell ..).symm
  origin _ still := .inl still
  sound := (modifyCell_confined memory id change).sound

theorem peek_put (memory : Memory) (position other : Nat) (content : Option CellId) :
    (memory.modifyArena (·.put position content)).arena.peek other =
      if other = position then content else memory.arena.peek other :=
  Arena.peek_put ..

theorem clear_confined (memory : Memory) (position : Nat) :
    Confined (· = position) (fun _ => False) memory
      (memory.modifyArena (·.put position none)) where
  peek outside := by rw [peek_put, if_neg outside]
  cell _ _ _ := rfl
  size := Nat.le_refl _
  origin within named := by
    rw [peek_put, if_pos within] at named
    cases named
  sound sound := by
    constructor
    · intro other id named
      rw [peek_put] at named
      split at named
      next => cases named
      next => exact sound.old named
    · intro other another id first second
      rw [peek_put] at first second
      split at first
      next => cases first
      next =>
        split at second
        next => cases second
        next => exact sound.distinct first second

theorem slot_of_peek {memory : Memory} {position : Nat} {id : CellId}
    (named : memory.arena.peek position = some id) : memory.slot position = (id, memory) := by
  unfold slot
  rw [named]

theorem slot_of_peek_none {memory : Memory} {position : Nat}
    (untouched : memory.arena.peek position = none) :
    memory.slot position =
      ((memory.new .blank).1,
        (memory.new .blank).2.modifyArena (·.put position (some (memory.new .blank).1))) := by
  unfold slot
  rw [untouched]

theorem slot_confined (memory : Memory) (position : Nat) :
    Confined (· = position) (fun _ => False) memory (memory.slot position).2 := by
  cases named : memory.arena.peek position with
  | some id =>
      rw [slot_of_peek named]
      exact .refl ..
  | none =>
      rw [slot_of_peek_none named]
      have grown : memory.cells.size < (memory.new .blank).2.cells.size := by simp [new]
      have elsewhere : ∀ {other : Nat} {id : CellId},
          ((memory.new .blank).2.modifyArena
            (·.put position (some (memory.new .blank).1))).arena.peek other = some id →
          other = position ∧ id = ⟨memory.cells.size⟩ ∨
            other ≠ position ∧ memory.arena.peek other = some id := by
        intro other id named
        rw [peek_put] at named
        split at named
        next same =>
          cases named
          exact .inl ⟨same, rfl⟩
        next apart => exact .inr ⟨apart, named⟩
      constructor
      · intro other outside
        rw [peek_put, if_neg outside]
        rfl
      · exact fun old _ _ => cell_new_of_lt old _
      · exact Nat.le_of_lt grown
      · intro other id within named
        rcases elsewhere named with ⟨-, rfl⟩ | ⟨apart, -⟩
        · exact .inr (Nat.le_refl _)
        · exact absurd within apart
      · intro sound
        constructor
        · intro other id named
          rcases elsewhere named with ⟨-, rfl⟩ | ⟨-, before⟩
          · exact grown
          · exact Nat.lt_trans (sound.old before) grown
        · intro other another id first second
          rcases elsewhere first with ⟨same, fresh⟩ | ⟨-, before⟩ <;>
            rcases elsewhere second with ⟨same', fresh'⟩ | ⟨-, before'⟩
          · exact same.trans same'.symm
          · exact absurd (sound.old before') (by rw [fresh]; exact Nat.lt_irrefl _)
          · exact absurd (sound.old before) (by rw [fresh']; exact Nat.lt_irrefl _)
          · exact sound.distinct before before'

theorem peek_slot (memory : Memory) (position : Nat) :
    (memory.slot position).2.arena.peek position = some (memory.slot position).1 := by
  cases named : memory.arena.peek position with
  | some id => rw [slot_of_peek named, named]
  | none => rw [slot_of_peek_none named, peek_put, if_pos rfl]

theorem cell_slot (memory : Memory) (position : Nat) :
    (memory.slot position).2.cell (memory.slot position).1 = memory.content position := by
  cases named : memory.arena.peek position with
  | some id => rw [slot_of_peek named, content_of_peek named]
  | none =>
      rw [slot_of_peek_none named, content_of_peek_none named]
      exact cell_new_self ..

theorem content_slot {memory : Memory} (sound : memory.Sound) (position other : Nat) :
    (memory.slot position).2.content other = memory.content other := by
  by_cases same : other = position
  · rw [same, content_of_peek (peek_slot memory position), cell_slot]
  · exact (slot_confined memory position).content sound same fun _ _ => id

/-! Whole slices. -/

/-- Positions of a slice that starts at `offset`. -/
def Between (offset length position : Nat) : Prop := offset ≤ position ∧ position < offset + length

private theorem Between.succ {offset length position : Nat}
    (within : Between offset length position) :
    Between offset (length + 1) position :=
  ⟨within.1, Nat.lt_succ_of_lt within.2⟩

def withdraw (memory : Memory) (position : Nat) : CellId × Memory :=
  ((memory.slot position).1, (memory.slot position).2.modifyArena (·.put position none))

structure Drawn (before : Memory) (position : Nat) (id : CellId) (after : Memory) : Prop where
  origin : before.arena.peek position = some id ∨ before.cells.size ≤ id.index
  content : after.cell id = before.content position
  old : id.index < after.cells.size
  unnamed : ∀ other, after.arena.peek other ≠ some id

theorem withdraw_confined (memory : Memory) (position : Nat) :
    Confined (· = position) (fun _ => False) memory (memory.withdraw position).2 :=
  (slot_confined memory position).trans (clear_confined _ position)

theorem peek_withdraw (memory : Memory) (position other : Nat) :
    (memory.withdraw position).2.arena.peek other =
      if other = position then none else memory.arena.peek other := by
  unfold withdraw
  rw [peek_put]
  split
  next => rfl
  next apart => exact (slot_confined memory position).peek apart

theorem withdraw_drawn {memory : Memory} (sound : memory.Sound) (position : Nat) :
    Drawn memory position (memory.withdraw position).1 (memory.withdraw position).2 := by
  have slotted := slot_confined memory position
  have named := peek_slot memory position
  refine ⟨slotted.origin rfl named, cell_slot memory position, (slotted.sound sound).old named,
    fun other again => ?_⟩
  rw [peek_withdraw] at again
  split at again
  next => cases again
  next apart =>
    rw [← slotted.peek apart] at again
    exact apart ((slotted.sound sound).distinct again named)

section

variable {before middle : Memory} {position other : Nat} {id : CellId}
  (drawn : Drawn before position id middle)

include drawn

private theorem Drawn.withdraw (other : Nat) :
    Drawn before position id (middle.withdraw other).2 := by
  have confined := withdraw_confined middle other
  refine ⟨drawn.origin, ?_, Nat.lt_of_lt_of_le drawn.old confined.size, fun third named => ?_⟩
  · exact (confined.cell drawn.old not_false fun _ _ => drawn.unnamed _).trans drawn.content
  · rw [peek_withdraw] at named
    split at named
    next => cases named
    next => exact drawn.unnamed third named

private theorem Drawn.ne_withdraw (sound : middle.Sound) (other : Nat) :
    id ≠ (middle.withdraw other).1 := by
  rintro rfl
  rcases (withdraw_drawn sound other).origin with named | fresh
  · exact drawn.unnamed other named
  · exact Nat.not_lt_of_le fresh drawn.old

end

theorem take_succ (memory : Memory) (offset length : Nat) :
    memory.take offset (length + 1) =
      ((memory.take offset length).1.push
          ((memory.take offset length).2.withdraw (offset + length)).1,
        ((memory.take offset length).2.withdraw (offset + length)).2) := by
  unfold take
  rw [List.range_succ, List.foldl_append]
  rfl

theorem size_take (memory : Memory) (offset length : Nat) :
    (memory.take offset length).1.size = length := by
  induction length with
  | zero => rfl
  | succ length induction => rw [take_succ, Array.size_push, induction]

/-- What became of the cells of a slice that were moved out of the arena. -/
structure Taken (offset length : Nat) (before : Memory) (ids : Array CellId) (after : Memory) :
    Prop where
  confined : Confined (Between offset length) (fun _ => False) before after
  size : ids.size = length
  cleared : ∀ {position : Nat}, Between offset length position →
    after.arena.peek position = none
  kept : ∀ {slot : Nat} {id : CellId}, slot < length →
    before.arena.peek (offset + slot) = some id → ids[slot]? = some id
  drawn : ∀ {slot : Nat} {id : CellId}, ids[slot]? = some id →
    Drawn before (offset + slot) id after
  distinct : ∀ {slot other : Nat} {id : CellId}, ids[slot]? = some id → ids[other]? = some id →
    slot = other

section

variable {offset length : Nat} {before middle : Memory} {ids : Array CellId}
  (taken : Taken offset length before ids middle) (sound : before.Sound)

include taken

private theorem Taken.peek_next :
    middle.arena.peek (offset + length) = before.arena.peek (offset + length) :=
  taken.confined.peek fun within => Nat.lt_irrefl _ within.2

include sound

private theorem Taken.drawn_next :
    Drawn before (offset + length) (middle.withdraw (offset + length)).1
      (middle.withdraw (offset + length)).2 := by
  obtain ⟨origin, content, old, unnamed⟩ :=
    withdraw_drawn (taken.confined.sound sound) (offset + length)
  refine ⟨?_, content.trans ?_, old, unnamed⟩
  · exact taken.peek_next ▸ origin.imp_right (Nat.le_trans taken.confined.size)
  · exact taken.confined.content sound (fun within => Nat.lt_irrefl _ within.2) fun _ _ => id

private theorem Taken.succ :
    Taken offset (length + 1) before (ids.push (middle.withdraw (offset + length)).1)
      (middle.withdraw (offset + length)).2 := by
  have apart {slot : Nat} {id : CellId} (listed : ids[slot]? = some id) :
      id ≠ (middle.withdraw (offset + length)).1 :=
    (taken.drawn listed).ne_withdraw (taken.confined.sound sound) _
  have next : ∀ position, position = offset + length → Between offset (length + 1) position := by
    rintro position rfl
    exact ⟨Nat.le_add_right _ _, Nat.lt_succ_self _⟩
  refine ⟨(taken.confined.mono (fun _ => Between.succ) fun _ => id).trans
    ((withdraw_confined middle _).mono next fun _ => id), by rw [Array.size_push, taken.size],
    fun {position} within => ?_, fun {slot id} below peeked => ?_, fun {slot id} listed => ?_,
    fun {slot other id} first second => ?_⟩
  · rw [peek_withdraw]
    split
    next => rfl
    next => exact taken.cleared ⟨within.1, by have := within.2; omega⟩
  · rw [Array.getElem?_push, taken.size]
    split
    next same =>
      subst same
      exact congrArg some (congrArg Prod.fst (slot_of_peek (taken.peek_next.trans peeked)))
    next => exact taken.kept (by omega) peeked
  · rw [Array.getElem?_push, taken.size] at listed
    split at listed
    next same =>
      cases listed
      exact same ▸ taken.drawn_next sound
    next => exact (taken.drawn listed).withdraw _
  · rw [Array.getElem?_push, taken.size] at first second
    split at first <;> split at second
    next same same' => exact same.trans same'.symm
    next => exact absurd (Option.some.inj first).symm (apart second)
    next => exact absurd (Option.some.inj second).symm (apart first)
    next => exact taken.distinct first second

end

theorem take_taken {memory : Memory} (sound : memory.Sound) (offset length : Nat) :
    Taken offset length memory (memory.take offset length).1 (memory.take offset length).2 := by
  induction length with
  | zero =>
      refine ⟨.refl .., rfl, fun within => ?_, fun below => absurd below (Nat.not_lt_zero _),
        fun listed => ?_, fun listed => ?_⟩
      · exact absurd within.2 (Nat.not_lt_of_le within.1)
      all_goals exact absurd (listed : (none : Option CellId) = some _) nofun
  | succ length induction =>
      rw [take_succ]
      exact induction.succ sound

/-! Releasing. -/

variable (shared : CellId → Bool)

theorem releaseSlot_confined (memory : Memory) (position : Nat) :
    Confined (· = position) (fun _ => False) memory (memory.releaseSlot shared position) := by
  unfold releaseSlot
  split
  next => exact .refl ..
  next id named =>
    split
    next => exact clear_confined ..
    next => exact modifyCell_slot_confined named _

theorem content_releaseSlot {memory : Memory} (sound : memory.Sound) (position : Nat) :
    (memory.releaseSlot shared position).content position = .blank := by
  unfold releaseSlot
  split
  next untouched => exact content_of_peek_none untouched
  next id named =>
    split
    next =>
      refine content_of_peek_none ?_
      rw [peek_put, if_pos rfl]
    next =>
      have still : (memory.modifyCell id fun _ => .blank).arena.peek position = some id := named
      rw [content_of_peek still, cell_modifyCell_self (sound.old named)]

theorem releaseEach_confined (memory : Memory) (positions : List Nat) :
    Confined (· ∈ positions) (fun _ => False) memory
      (positions.foldl (releaseSlot shared) memory) := by
  induction positions generalizing memory with
  | nil => exact .refl ..
  | cons position positions induction =>
      refine Confined.trans ((releaseSlot_confined shared memory position).mono ?_ fun _ => id)
        ((induction (memory.releaseSlot shared position)).mono ?_ fun _ => id)
      · rintro other rfl
        exact List.mem_cons_self
      · exact fun _ within => List.mem_cons_of_mem position within

theorem content_releaseEach {memory : Memory} (sound : memory.Sound) {positions : List Nat}
    {position : Nat} (within : position ∈ positions) :
    (positions.foldl (releaseSlot shared) memory).content position = .blank := by
  induction positions generalizing memory with
  | nil => cases within
  | cons first positions induction =>
      have stepSound := (releaseSlot_confined shared memory first).sound sound
      rw [List.foldl_cons]
      by_cases later : position ∈ positions
      · exact induction stepSound later
      · have same : position = first := (List.mem_cons.mp within).resolve_right later
        subst same
        rw [(releaseEach_confined shared _ positions).content stepSound later fun _ _ => id]
        exact content_releaseSlot shared sound position

theorem release_confined (memory : Memory) (low high : Nat) :
    Confined (fun position => low ≤ position ∧ position < high) (fun _ => False) memory
      (memory.release shared low high) := by
  refine (releaseEach_confined shared memory _).mono (fun position within => ?_)
    fun _ written => written
  have bounds := List.mem_range'_1.mp within
  omega

theorem content_release {memory : Memory} (sound : memory.Sound) {low high position : Nat}
    (above : low ≤ position) (below : position < high) :
    (memory.release shared low high).content position = .blank := by
  by_cases touched : position < memory.arena.slots.size
  · refine content_releaseEach shared sound (List.mem_range'_1.mpr ?_)
    omega
  · have untouched : memory.content position = .blank :=
      content_of_peek_none (Arena.peek_of_size_le (Nat.le_of_not_lt touched))
    rw [← untouched]
    refine (releaseEach_confined shared memory _).content sound (fun within => ?_) fun _ _ => id
    have bounds := List.mem_range'_1.mp within
    omega

end Memory

end ScopeMachine
