import Mathlib.Data.List.Basic
import Mathlib.Data.List.Nodup
import ScopeMachine.Proofs.Storage.Filling
import ScopeMachine.Proofs.Storage.HeldCells
import ScopeMachine.Proofs.TableTasks.TaskModel

namespace ScopeMachine

open Memory Table

namespace Numbered

variable {α β : Type} {numbered : Numbered α} {number other : Nat} {item : α}

theorem get?_eq_some_iff : numbered.get? number = some item ↔ numbered.items[number]? = some
    (some item) :=
  Option.join_eq_some_iff

theorem lt_of_get? (found : numbered.get? number = some item) : number < numbered.size :=
  (List.getElem?_eq_some_iff.mp (get?_eq_some_iff.mp found)).1

theorem get?_put (found : numbered.get? number = some item) (content : Option α) (other : Nat) :
    (numbered.put number content).get? other = if other = number then content else numbered.get?
    other := by
  have old : number < numbered.items.length := lt_of_get? found
  unfold get? put
  by_cases same : other = number
  · subst same
    simp [old]
  · simp [Ne.symm same, same]

theorem get?_add (numbered : Numbered α) (item : α) (other : Nat) :
    (numbered.add item).get? other = if other = numbered.size then some item else numbered.get?
    other := by
  unfold get? add size
  by_cases same : other = numbered.items.length
  · simp [same]
  · rw [if_neg same, List.getElem?_append]
    split
    · rfl
    next beyond =>
      have beyond : numbered.items.length < other := by omega
      simp [List.getElem?_eq_none (Nat.le_of_lt beyond), Nat.sub_eq_zero_iff_le, beyond]

@[simp] theorem size_put (numbered : Numbered α) (number : Nat) (content : Option α) :
    (numbered.put number content).size = numbered.size :=
  List.length_set

@[simp] theorem size_add (numbered : Numbered α) (item : α) :
    (numbered.add item).size = numbered.size + 1 := by
  simp [size, add]

theorem has_iff [BEq α] [LawfulBEq α] :
    numbered.has item = true ↔ ∃ number, numbered.get? number = some item := by
  unfold has
  simp only [List.contains_iff_mem, get?_eq_some_iff, List.mem_iff_getElem?]

structure Matches (like : α → β → Prop) (numbered : Numbered α) (other : Numbered β) : Prop where
  size : numbered.size = other.size
  present : ∀ number, (numbered.get? number).isSome = (other.get? number).isSome
  like : ∀ {number item item'}, numbered.get? number = some item → other.get? number = some item' →
    like item item'

namespace Matches

variable {like like' : α → β → Prop} {other : Numbered β}

theorem empty (like : α → β → Prop) : (Numbered.empty : Numbered α).Matches like Numbered.empty :=
  ⟨rfl, fun _ => rfl, nofun⟩

theorem get? (alike : numbered.Matches like other) (found : numbered.get? number = some item) :
    ∃ item', other.get? number = some item' ∧ like item item' := by
  have present := alike.present number
  rw [found] at present
  obtain ⟨item', found'⟩ := Option.isSome_iff_exists.mp present.symm
  exact ⟨item', found', alike.like found found'⟩

theorem get?_other (alike : numbered.Matches like other) {item' : β}
    (found : other.get? number = some item') :
    ∃ item, numbered.get? number = some item ∧ like item item' := by
  have present := alike.present number
  rw [found] at present
  obtain ⟨item, here⟩ := Option.isSome_iff_exists.mp present
  exact ⟨item, here, alike.like here found⟩

theorem get?_none (alike : numbered.Matches like other) (absent : numbered.get? number = none) :
    other.get? number = none := by
  have present := alike.present number
  rw [absent] at present
  simpa using present.symm

theorem mono (alike : numbered.Matches like other)
    (more : ∀ {number item item'}, numbered.get? number = some item →
    other.get? number = some item' →
      like item item' → like' item item') : numbered.Matches like' other :=
  ⟨alike.size, alike.present, fun found found' => more found found' (alike.like found found')⟩

theorem put (alike : numbered.Matches like other) {item' : β}
    (found : numbered.get? number = some item)
    (found' : other.get? number = some item') {content : Option α} {content' : Option β}
    (present : content.isSome = content'.isSome)
    (here : ∀ {new new'}, content = some new → content' = some new' → like' new new')
    (others : ∀ {number' old old'}, number' ≠ number → numbered.get? number' = some old →
      other.get? number' = some old' → like old old' → like' old old') :
    (numbered.put number content).Matches like' (other.put number content') := by
  constructor
  · rw [size_put, size_put, alike.size]
  · intro number'
    rw [get?_put found, get?_put found']
    split
    · exact present
    · exact alike.present number'
  · intro number' old old'
    rw [get?_put found, get?_put found']
    split
    next => exact here
    next apart => exact fun kept kept' => others apart kept kept' (alike.like kept kept')

theorem add (alike : numbered.Matches like other) {item : α} {item' : β} (here : like item item') :
    (numbered.add item).Matches like (other.add item') := by
  constructor
  · rw [size_add, size_add, alike.size]
  · intro number'
    rw [get?_add, get?_add, alike.size]
    split
    · rfl
    · exact alike.present number'
  · intro number' old old'
    rw [get?_add, get?_add, alike.size]
    split
    · rintro ⟨⟩ ⟨⟩
      exact here
    · exact alike.like

end Matches

end Numbered

namespace TableModel

def Uses (model : TableModel) (name : Nat) : Prop :=
  (∃ number names, model.tables.get? number = some names ∧ name ∈ names) ∨
    ∃ number, model.references.get? number = some name

def UsesBesides (model : TableModel) (number name : Nat) : Prop :=
  (∃ other names, other ≠ number ∧ model.tables.get? other = some names ∧ name ∈ names) ∨
    ∃ other, model.references.get? other = some name

private theorem UsesBesides.uses {model : TableModel} {number name : Nat}
    (besides : model.UsesBesides number name) : model.Uses name :=
  besides.imp_left fun ⟨other, names, _, found, member⟩ => ⟨other, names, found, member⟩

end TableModel

variable {Code : Type}

/-- The table has a slot for every name, and the cell that realises it, if there is one. -/
structure Table.Shows (realise : Nat → Option CellId) (memory : Memory) (table : Table)
    (names : List Nat) : Prop where
  length : table.length = names.length
  cell? : ∀ {slot name : Nat}, names[slot]? = some name → table.cell? slot memory = realise name

namespace TaskState

def Open (state : TaskState Code) (position : Nat) : Prop :=
  state.memory.arena.watermark ≤ position ∨
    ∃ number table, state.tables.get? number = some table ∧ table.Spans position

def Filled (state : TaskState Code) (position : Nat) : Prop :=
  ∃ number table, state.tables.get? number = some table ∧ table.Fills position

/-- Tables stand where they should and have no slot in common. A cell that a reference leads to is
in no slot that work may come to use, except where a table uses it already. -/
structure Tidy (state : TaskState Code) : Prop where
  clean : state.memory.Clean
  fits : ∀ {number : Nat} {table : Table}, state.tables.get? number = some table →
    table.Fits state.memory
  apart : ∀ {number other position : Nat} {table table' : Table}, number ≠ other →
    state.tables.get? number = some table → state.tables.get? other = some table' →
    table.Spans position → ¬ table'.Spans position
  held : ∀ {id : CellId}, state.references.has id = true → id.index < state.memory.cells.size
  filled : ∀ {position : Nat} {id : CellId}, state.memory.arena.peek position = some id →
    state.references.has id = true → state.Open position → state.Filled position

end TaskState

/-- The machine is as the model says. Names in use have the cells of the slots where they stand,
and a name of a slot in the arena stands nowhere else. -/
structure Represents (realise : Nat → Option CellId) (state : TaskState Code) (model : TableModel) :
    Prop
    extends state.Tidy where
  tables : state.tables.Matches (Table.Shows realise state.memory) model.tables
  references : state.references.Matches (fun id name => realise name = some id) model.references
  contents : ∀ {name : Nat}, model.Uses name →
    model.cells[name]? = some ((realise name).elim .blank state.memory.cell)
  old : ∀ {name : Nat} {id : CellId}, model.Uses name → realise name = some id →
    id.index < state.memory.cells.size
  distinct : ∀ {name other : Nat} {id : CellId}, model.Uses name → model.Uses other →
    realise name = some id → realise other = some id → name = other
  single : ∀ {number other slot slot' name : Nat} {table : Table} {names names' : List Nat},
    state.tables.get? number = some table → table.isArena = true →
    model.tables.get? number = some names → names[slot]? = some name →
    model.tables.get? other = some names' → names'[slot']? = some name →
    other = number ∧ slot' = slot

private theorem exists_realisation (realise : Nat → Option CellId) {names : List Nat}
    (nodup : names.Nodup) (cells : Nat → Option CellId) :
    ∃ realise' : Nat → Option CellId,
      (∀ {slot name : Nat}, names[slot]? = some name → realise' name = cells slot) ∧
        ∀ {name : Nat}, name ∉ names → realise' name = realise name := by
  refine ⟨fun name => if name ∈ names then cells (names.idxOf name) else realise name,
    fun {slot name} found => ?_, fun absent => if_neg absent⟩
  obtain ⟨below, rfl⟩ := List.getElem?_eq_some_iff.mp found
  dsimp only
  rw [if_pos (List.getElem_mem below), nodup.idxOf_getElem]

namespace TaskState.Tidy

variable {state : TaskState Code} {number : Nat} {table : Table}

/-- What a table fills is filled by no other. -/
theorem fills_of_filled (tidy : state.Tidy) (found : state.tables.get? number = some table)
    {position : Nat} (filled : state.Filled position)
    (spanned : table.Spans position ∨ state.memory.arena.watermark ≤ position) :
    table.Fills position := by
  obtain ⟨other, table', found', fills⟩ := filled
  have spanned' := fills.spans (tidy.fits found')
  by_cases same : other = number
  · subst same
    cases found.symm.trans found'
    exact fills
  · rcases spanned with spanned | above
    · exact absurd spanned (tidy.apart same found' found spanned')
    · exact absurd above (Nat.not_le_of_lt ((tidy.fits found').within spanned'))

end TaskState.Tidy

/-- What became of a table that has kept some of its slots and got new ones. -/
structure TaskState.Reworks (state : TaskState Code) (table : Table) (kept count : Nat)
    (table' : Table)
    (memory' : Memory) : Prop where
  alters : table.Alters (fun _ => False) state.memory table' memory'
  keepsHeld : state.memory.KeepsHeld state.shares (fun _ => False) memory'
  vacates : table.Vacates state.shares state.memory table' memory'
  length : table'.length = kept + count
  arena : table'.isArena = true → table.isArena = true ∨ kept = 0
  cell? : ∀ {slot : Nat} {id : CellId}, slot < kept →
    table.cell? slot state.memory = some id → table'.cell? slot memory' = some id
  content : ∀ {slot : Nat}, slot < kept →
    table'.content slot memory' = table.content slot state.memory
  blank : ∀ {slot : Nat}, kept ≤ slot → table'.content slot memory' = .blank
  whole : kept = table.length ∨ kept ≤ table.length ∧ count = 0 ∧
    ∀ {slot : Nat}, slot < kept → table'.cell? slot memory' = table.cell? slot state.memory

theorem TaskState.get?_place {state : TaskState Code} {number : Nat} {table : Table}
    (found : state.tables.get? number = some table) (content : Option Table) (memory : Memory)
    (other : Nat) :
    (state.place number content memory).tables.get? other =
      if other = number then content else state.tables.get? other :=
  Numbered.get?_put found content other

private theorem TaskState.Tidy.place {state : TaskState Code} (tidy : state.Tidy) {number : Nat}
    {table table' : Table} {memory' : Memory} (found : state.tables.get? number = some table)
    (alters : table.Alters (fun _ => False) state.memory table' memory')
    (vacates : table.Vacates state.shares state.memory table' memory') :
    (state.place number (some table') memory').Tidy := by
  have lookup := TaskState.get?_place found (some table') memory'
  have spans : ∀ {other position : Nat} {held : Table}, other ≠ number →
      state.tables.get? other = some held → table'.Spans position → ¬ held.Spans position := by
    intro other position held apart here spanned spanned'
    rcases alters.spans spanned with inside | above
    · exact tidy.apart (Ne.symm apart) found here inside spanned'
    · exact Nat.not_le_of_lt ((tidy.fits here).within spanned') above
  constructor
  · exact alters.clean
  · intro other held here
    rw [lookup] at here
    split at here
    next =>
      cases here
      exact alters.fits
    next apart =>
      exact alters.fits_other tidy.clean.sound (tidy.fits here)
        (tidy.apart (Ne.symm apart) found here)
  · intro first second position held held' apart here here'
    rw [lookup] at here here'
    split at here
    next same =>
      cases here
      rw [if_neg fun again => apart (same.trans again.symm)] at here'
      exact spans (fun again => apart (same.trans again.symm)) here'
    next other =>
      split at here'
      next =>
        cases here'
        exact fun spanned spanned' => spans other here spanned' spanned
      next => exact tidy.apart apart here here'
  · exact fun listed => Nat.lt_of_lt_of_le (tidy.held listed) alters.confined.size
  · intro position id named listed reachable
    have old := tidy.held listed
    have earlier : state.memory.arena.peek position = some id :=
      (alters.confined.continues.origin trivial named).resolve_right (Nat.not_le_of_lt old)
    have own : table.Spans position ∨ state.memory.arena.watermark ≤ position →
        (state.place number (some table') memory').Filled position := by
      intro spanned
      have opened : state.Open position := by
        rcases spanned with spanned | above
        · exact .inr ⟨number, table, found, spanned⟩
        · exact .inl above
      have fills := tidy.fills_of_filled found (tidy.filled earlier listed opened) spanned
      by_cases still : table'.Fills position
      · exact ⟨number, table', by rw [lookup, if_pos rfl], still⟩
      · have unshared := vacates.vacated old fills still named
        simp [TaskState.shares, show state.references.has id = true from listed] at unshared
    rcases reachable with above | ⟨other, held, here, spanned⟩
    · refine own ?_
      by_cases spanned : table.Spans position
      · exact .inl spanned
      · refine .inr (Nat.le_of_not_lt fun below => ?_)
        exact Nat.not_lt_of_le above (alters.outside below spanned)
    · rw [lookup] at here
      split at here
      next =>
        cases here
        exact own (alters.spans spanned)
      next apart =>
        have filled := tidy.filled earlier listed (.inr ⟨other, held, here, spanned⟩)
        refine ⟨other, held, ?_, tidy.fills_of_filled here filled (.inl spanned)⟩
        rw [lookup, if_neg apart]
        exact here

namespace Represents

variable {realise : Nat → Option CellId} {state : TaskState Code} {model : TableModel}
  {number name : Nat} {table : Table} {names : List Nat}

theorem uses_of_slot (found : model.tables.get? number = some names) {slot : Nat}
    (named : names[slot]? = some name) : model.Uses name :=
  .inl ⟨number, names, found, List.mem_of_getElem? named⟩

variable (represents : Represents realise state model)

include represents

private theorem lt_of_uses (uses : model.Uses name) : name < model.cells.length :=
  (List.getElem?_eq_some_iff.mp (represents.contents uses)).1

private theorem nodup (found : state.tables.get? number = some table)
    (found' : model.tables.get? number = some names) : names.Nodup := by
  rw [List.nodup_iff_getElem?_ne_getElem?]
  intro slot other below within same
  have named : names[other]? = some names[other] := List.getElem?_eq_getElem within
  have shows := represents.tables.like found found'
  cases arena : table.isArena with
  | true =>
      have unique := represents.single found arena found' named found' (same.trans named)
      omega
  | false =>
      have below : slot < table.length := shows.length ▸ Nat.lt_trans below within
      have cell : ∃ id, table.cell? slot state.memory = some id := by
        cases table with
        | onHeap cells reserved => exact ⟨_, Array.getElem?_eq_getElem below⟩
        | inArena => cases arena
      obtain ⟨id, here⟩ := cell
      have there : table.cell? other state.memory = some id := by
        rw [shows.cell? named, ← shows.cell? (same.trans named), here]
      have unique := (represents.fits found).slot_unique represents.clean.sound here there
      omega

/-- The cell of a name that a reference leads to. -/
theorem has_of_refers {id : CellId} (refers : ∃ other, model.references.get? other = some name)
    (realised : realise name = some id) : state.references.has id = true := by
  obtain ⟨other, found⟩ := refers
  obtain ⟨id', held, same⟩ := represents.references.get?_other found
  cases realised.symm.trans same
  exact Numbered.has_iff.mpr ⟨other, held⟩

private theorem stands {position : Nat} {id : CellId}
    (found : state.tables.get? number = some table)
    (named : state.memory.arena.peek position = some id)
    (spanned : table.Spans position ∨ state.memory.arena.watermark ≤ position)
    (uses : model.Uses name) (realised : realise name = some id) :
    ∃ slot, table.cell? slot state.memory = some id := by
  rcases uses with ⟨other, names', found', member⟩ | refers
  · obtain ⟨table', held, shows⟩ := represents.tables.get?_other found'
    obtain ⟨slot, listed⟩ := List.mem_iff_getElem?.mp member
    have there := (shows.cell? listed).trans realised
    by_cases same : other = number
    · subst same
      cases found.symm.trans held
      exact ⟨slot, there⟩
    · have fits := represents.fits held
      cases table' with
      | onHeap cells reserved =>
          exact absurd named (fits.unnamed (mem_heapCells.mpr ⟨slot, there⟩) position)
      | inArena slice length =>
          obtain ⟨below, peeked⟩ := peek_of_cell? there
          have spanned' := spans_of_lt (fits.room rfl) below
          rw [represents.clean.sound.distinct peeked named] at spanned'
          rcases spanned with spanned | above
          · exact absurd spanned (represents.apart same held found spanned')
          · exact absurd above (Nat.not_le_of_lt (fits.within spanned'))
  · have reachable : state.Open position := by
      rcases spanned with spanned | above
      · exact .inr ⟨number, table, found, spanned⟩
      · exact .inl above
    have filled := represents.filled named (represents.has_of_refers refers realised) reachable
    obtain ⟨slice, length, rfl, low, high⟩ := represents.fills_of_filled found filled spanned
    refine ⟨position - slice.offset, ?_⟩
    rw [cell?_inArena (by omega), Nat.add_sub_cancel' low]
    exact named

private theorem was_there {kept count : Nat} {table' : Table} {memory' : Memory}
    (found : state.tables.get? number = some table)
    (reworks : state.Reworks table kept count table' memory') (uses : model.Uses name) {id : CellId}
    (realised : realise name = some id) {slot : Nat}
    (here : table'.cell? slot memory' = some id) :
    slot < kept ∧ table.cell? slot state.memory = some id := by
  have old := represents.old uses realised
  rcases reworks.whole with rfl | ⟨-, rfl, same⟩
  · have earlier : ∃ slot, table.cell? slot state.memory = some id := by
      cases table' with
      | onHeap cells reserved =>
          rcases reworks.alters.cells (mem_heapCells.mpr ⟨slot, here⟩) with
            listed | newer | ⟨position, spanned, named⟩
          · cases table with
            | onHeap => exact mem_heapCells.mp listed
            | inArena => exact absurd listed (Array.not_mem_empty _)
          · exact absurd newer (Nat.not_le_of_lt old)
          · exact represents.stands found named spanned uses realised
      | inArena slice length =>
          obtain ⟨below, peeked⟩ := peek_of_cell? here
          have spanned := reworks.alters.spans (spans_of_lt (reworks.alters.fits.room rfl) below)
          rcases reworks.alters.confined.origin spanned peeked with named | newer
          · exact represents.stands found named spanned uses realised
          · exact absurd newer (Nat.not_le_of_lt old)
    obtain ⟨slot', there⟩ := earlier
    have below := lt_length_of_cell? there
    have still := reworks.cell? below there
    cases reworks.alters.fits.slot_unique reworks.alters.clean.sound here still
    exact ⟨below, there⟩
  · have below := lt_length_of_cell? here
    rw [reworks.length] at below
    refine ⟨below, ?_⟩
    rwa [← same below]

omit represents

private theorem getElem?_adjusted {model : TableModel} {names : List Nat} {kept count : Nat}
    (within : kept ≤ names.length) {slot name : Nat} :
    (names.take kept ++ model.fresh count)[slot]? = some name ↔
      slot < kept ∧ names[slot]? = some name ∨
        kept ≤ slot ∧ slot < kept + count ∧ name = model.cells.length + (slot - kept) := by
  have length : (names.take kept).length = kept := List.length_take_of_le within
  by_cases below : slot < kept
  · rw [List.getElem?_append_left (by omega), List.getElem?_take_of_lt below]
    exact ⟨fun found => .inl ⟨below, found⟩, fun found => (found.resolve_right (by omega)).2⟩
  · rw [List.getElem?_append_right (by omega), length]
    unfold TableModel.fresh
    by_cases new : slot - kept < count
    · rw [List.getElem?_range' new, Nat.one_mul, Option.some.injEq]
      omega
    · rw [List.getElem?_eq_none (by rw [List.length_range']; omega)]
      exact ⟨nofun, fun found => by omega⟩

include represents

private theorem nodup_adjusted (kept count : Nat) (found : state.tables.get? number = some table)
    (found' : model.tables.get? number = some names) :
    (names.take kept ++ model.fresh count).Nodup := by
  refine List.nodup_append.mpr ⟨(represents.nodup found found').sublist (List.take_sublist ..),
    List.nodup_range', fun name old other fresh => ?_⟩
  have used := represents.lt_of_uses (.inl ⟨number, names, found', List.mem_of_mem_take old⟩)
  rintro rfl
  have newer := List.mem_range'_1.mp fresh
  omega

omit represents in
private theorem uses_adjusted {kept count : Nat} (found' : model.tables.get? number = some names)
    (uses : (model.adjust number names kept count).Uses name) :
    (∃ slot : Nat, (names.take kept ++ model.fresh count)[slot]? = some name) ∨
      name ∉ names.take kept ++ model.fresh count ∧ model.UsesBesides number name := by
  by_cases member : name ∈ names.take kept ++ model.fresh count
  · exact .inl (List.mem_iff_getElem?.mp member)
  · refine .inr ⟨member, ?_⟩
    rcases uses with ⟨other, names', listing, member'⟩ | refers
    · have listing : (model.tables.put number _).get? other = some names' := listing
      rw [Numbered.get?_put found'] at listing
      split at listing
      next =>
        cases listing
        exact absurd member' member
      next apart => exact .inl ⟨other, names', apart, listing, member'⟩
    · exact .inr refers

private theorem cell_besides {kept count : Nat} {table' : Table} {memory' : Memory}
    (found : state.tables.get? number = some table)
    (reworks : state.Reworks table kept count table' memory')
    (besides : model.UsesBesides number name) {id : CellId} (realised : realise name = some id) :
    memory'.cell id = state.memory.cell id := by
  rcases besides with ⟨other, names', apart, listing, member⟩ | refers
  · obtain ⟨held, there, shows⟩ := represents.tables.get?_other listing
    obtain ⟨slot, listed⟩ := List.mem_iff_getElem?.mp member
    have before := (shows.cell? listed).trans realised
    have disjoint : ∀ {position : Nat}, table.Spans position → ¬ held.Spans position :=
      represents.apart (Ne.symm apart) found there
    have after : held.cell? slot memory' = some id :=
      (reworks.alters.cell?_other (represents.fits there) disjoint slot).trans before
    have same : held.content slot memory' = held.content slot state.memory :=
      reworks.alters.content_other represents.clean.sound (represents.fits there) disjoint
        fun _ => not_false
    rwa [content_of_cell? after, content_of_cell? before] at same
  · have listed := represents.has_of_refers refers realised
    refine reworks.keepsHeld.cell (represents.held listed) (.inl ?_) not_false
    simp [TaskState.shares, listed]

section Rework

variable {kept count : Nat} {table' : Table} {memory' : Memory} {realise' : Nat → Option CellId}
  (found : state.tables.get? number = some table)
  (found' : model.tables.get? number = some names)
  (reworks : state.Reworks table kept count table' memory')

include represents found found' reworks

private theorem kept_le : kept ≤ names.length := by
  rw [← (represents.tables.like found found').length]
  rcases reworks.whole with rfl | ⟨within, -⟩
  · exact Nat.le_refl _
  · exact within

private theorem slot_of_adjusted {slot : Nat} (uses : model.Uses name)
    (listed : (names.take kept ++ model.fresh count)[slot]? = some name) :
    slot < kept ∧ names[slot]? = some name := by
  rcases (getElem?_adjusted (represents.kept_le found found' reworks)).mp listed with
    old | ⟨-, -, rfl⟩
  · exact old
  · have used := represents.lt_of_uses uses
    omega

variable
  (here : ∀ {slot name : Nat}, (names.take kept ++ model.fresh count)[slot]? = some name →
    realise' name = table'.cell? slot memory')
  (elsewhere : ∀ {name : Nat}, name ∉ names.take kept ++ model.fresh count →
    realise' name = realise name)

include here elsewhere

private theorem realise_kept (uses : model.Uses name) {id : CellId}
    (realised : realise name = some id) :
    realise' name = some id := by
  by_cases member : name ∈ names.take kept ++ model.fresh count
  · obtain ⟨slot, listed⟩ := List.mem_iff_getElem?.mp member
    obtain ⟨below, stood⟩ := represents.slot_of_adjusted found found' reworks uses listed
    have shown := (represents.tables.like found found').cell? stood
    rw [here listed]
    exact reworks.cell? below (shown.trans realised)
  · rw [elsewhere member]
    exact realised

private theorem realise_besides (besides : model.UsesBesides number name) :
    realise' name = realise name := by
  cases realised : realise name with
  | some id =>
      exact represents.realise_kept found found' reworks here elsewhere besides.uses realised
  | none =>
      by_cases member : name ∈ names.take kept ++ model.fresh count
      · obtain ⟨slot, listed⟩ := List.mem_iff_getElem?.mp member
        have stood := (represents.slot_of_adjusted found found' reworks besides.uses listed).2
        rcases besides with ⟨other, names', apart, listing, member'⟩ | ⟨other, refers⟩
        · -- A name that is not realised stands in a slot of the arena, and nowhere else.
          obtain ⟨held, there, shows⟩ := represents.tables.get?_other listing
          obtain ⟨slot', listed'⟩ := List.mem_iff_getElem?.mp member'
          have untouched := (shows.cell? listed').trans realised
          have arena : held.isArena = true := by
            cases held with
            | onHeap cells reserved =>
                have below : slot' < cells.size :=
                  Nat.lt_of_lt_of_eq (List.getElem?_eq_some_iff.mp listed').1 shows.length.symm
                exact nomatch untouched.symm.trans (Array.getElem?_eq_getElem below)
            | inArena => rfl
          exact absurd (represents.single there arena listing listed' found' stood).1
            (Ne.symm apart)
        · obtain ⟨id, -, same⟩ := represents.references.get?_other refers
          exact nomatch realised.symm.trans same
      · rw [elsewhere member]
        exact realised

private theorem contents_adjusted (uses : (model.adjust number names kept count).Uses name) :
    (model.adjust number names kept count).cells[name]? =
      some ((realise' name).elim .blank memory'.cell) := by
  have within := represents.kept_le found found' reworks
  have earlier : model.Uses name → (model.adjust number names kept count).cells[name]? =
      some ((realise name).elim .blank state.memory.cell) := by
    intro uses
    unfold TableModel.adjust
    rw [List.getElem?_append_left (represents.lt_of_uses uses), represents.contents uses]
  rcases uses_adjusted found' uses with
    ⟨slot, listed⟩ | ⟨-, besides⟩
  · have same : (realise' name).elim .blank memory'.cell = table'.content slot memory' := by
      rw [here listed]
      rfl
    rw [same]
    rcases (getElem?_adjusted within).mp listed with ⟨below, stood⟩ | ⟨above, inside, rfl⟩
    · rw [earlier (uses_of_slot found' stood), reworks.content below]
      unfold Table.content
      rw [(represents.tables.like found found').cell? stood]
    · rw [reworks.blank above]
      unfold TableModel.adjust
      rw [List.getElem?_append_right (by omega), List.getElem?_replicate, if_pos (by omega)]
  · rw [earlier besides.uses, represents.realise_besides found found' reworks here elsewhere
      besides]
    cases realised : realise name with
    | none => rfl
    | some id =>
        exact congrArg some
          (represents.cell_besides found reworks besides realised).symm

private theorem distinct_adjusted {other : Nat} {id : CellId}
    (uses : (model.adjust number names kept count).Uses name)
    (uses' : (model.adjust number names kept count).Uses other)
    (realised : realise' name = some id) (realised' : realise' other = some id) : name = other := by
  have besides := fun {name : Nat} (besides : model.UsesBesides number name) =>
    represents.realise_besides found found' reworks here elsewhere besides
  have across : ∀ {slot name other : Nat},
      (names.take kept ++ model.fresh count)[slot]? = some name →
      model.UsesBesides number other → realise' name = some id → realise' other = some id →
      name = other := by
    intro slot name other listed apart realised realised'
    rw [here listed] at realised
    rw [besides apart] at realised'
    obtain ⟨below, there⟩ := represents.was_there found reworks apart.uses realised' realised
    have below' : slot < names.length :=
      Nat.lt_of_lt_of_le below (represents.kept_le found found' reworks)
    have stood : names[slot]? = some names[slot] := List.getElem?_eq_getElem below'
    have shown := (represents.tables.like found found').cell? stood
    have same := represents.distinct (uses_of_slot found' stood) apart.uses (shown.symm.trans there)
      realised'
    have again : (names.take kept ++ model.fresh count)[slot]? = some names[slot] :=
      (getElem?_adjusted (represents.kept_le found found' reworks)).mpr (.inl ⟨below, stood⟩)
    rw [← same]
    exact Option.some.inj (listed.symm.trans again)
  rcases uses_adjusted found' uses with
    ⟨slot, listed⟩ | ⟨-, apart⟩
  · rcases uses_adjusted found' uses' with
      ⟨slot', listed'⟩ | ⟨-, apart'⟩
    · rw [here listed] at realised
      rw [here listed'] at realised'
      cases reworks.alters.fits.slot_unique reworks.alters.clean.sound realised realised'
      exact Option.some.inj (listed.symm.trans listed')
    · exact across listed apart' realised realised'
  · rcases uses_adjusted found' uses' with
      ⟨slot', listed'⟩ | ⟨-, apart'⟩
    · exact (across listed' apart realised' realised).symm
    · rw [besides apart] at realised
      rw [besides apart'] at realised'
      exact represents.distinct apart.uses apart'.uses realised realised'

private theorem single_adjusted {first second slot slot' : Nat} {held : Table}
    {names₁ names₂ : List Nat}
    (there : (state.place number (some table') memory').tables.get? first = some held)
    (arena : held.isArena = true)
    (listing : (model.adjust number names kept count).tables.get? first = some names₁)
    (listed : names₁[slot]? = some name)
    (listing' : (model.adjust number names kept count).tables.get? second = some names₂)
    (listed' : names₂[slot']? = some name) : second = first ∧ slot' = slot := by
  have listing : (model.tables.put number _).get? first = some names₁ := listing
  have listing' : (model.tables.put number _).get? second = some names₂ := listing'
  rw [TaskState.get?_place found] at there
  rw [Numbered.get?_put found'] at listing listing'
  by_cases same : first = number
  · rw [if_pos same] at there listing
    cases there
    cases listing
    by_cases same' : second = number
    · rw [if_pos same'] at listing'
      cases listing'
      have below := (List.getElem?_eq_some_iff.mp listed').1
      have nodup := represents.nodup_adjusted kept count found found'
      exact ⟨same'.trans same.symm,
        (List.getElem?_inj below nodup).mp (listed'.trans listed.symm)⟩
    · rw [if_neg same'] at listing'
      obtain ⟨below, stood⟩ := represents.slot_of_adjusted found found' reworks
        (uses_of_slot listing' listed') listed
      rcases reworks.arena arena with earlier | rfl
      · exact absurd (represents.single found earlier found' stood listing' listed').1 same'
      · exact absurd below (Nat.not_lt_zero _)
  · rw [if_neg same] at there listing
    by_cases same' : second = number
    · rw [if_pos same'] at listing'
      cases listing'
      have stood := (represents.slot_of_adjusted found found' reworks
        (uses_of_slot listing listed) listed').2
      exact absurd (represents.single there arena listing listed found' stood).1 (Ne.symm same)
    · rw [if_neg same'] at listing'
      exact represents.single there arena listing listed listing' listed'

private theorem adjust : Represents realise' (state.place number (some table') memory')
    (model.adjust number names kept count) := by
  have alters := reworks.alters
  refine ⟨represents.toTidy.place found alters reworks.vacates, ?_, ?_, ?_, ?_, ?_, ?_⟩
  · refine represents.tables.put found found' rfl ?_ ?_
    · rintro _ _ ⟨⟩ ⟨⟩
      refine ⟨?_, fun listed => (here listed).symm⟩
      rw [reworks.length, List.length_append,
        List.length_take_of_le (represents.kept_le found found' reworks)]
      exact congrArg (kept + ·) List.length_range'.symm
    · intro other held names' apart there listing shows
      refine ⟨shows.length, fun listed => ?_⟩
      have besides : model.UsesBesides number _ :=
        .inl ⟨other, names', apart, listing, List.mem_of_getElem? listed⟩
      rw [represents.realise_besides found found' reworks here elsewhere besides,
        ← shows.cell? listed]
      exact alters.cell?_other (represents.fits there)
        (represents.apart (Ne.symm apart) found there) _
  · refine represents.references.mono fun {other id name} _ refers realised => ?_
    exact represents.realise_kept found found' reworks here elsewhere (.inr ⟨other, refers⟩)
      realised
  · exact represents.contents_adjusted found found' reworks here elsewhere
  · intro name id uses realised
    rcases uses_adjusted found' uses with ⟨slot, listed⟩ | ⟨-, besides⟩
    · rw [here listed] at realised
      exact alters.fits.aloof.old_of_cell? alters.clean.sound realised
    · rw [represents.realise_besides found found' reworks here elsewhere besides] at realised
      exact Nat.lt_of_lt_of_le (represents.old besides.uses realised) alters.confined.size
  · exact represents.distinct_adjusted found found' reworks here elsewhere
  · exact represents.single_adjusted found found' reworks here elsewhere

end Rework

theorem exists_rework {kept count : Nat} {table' : Table} {memory' : Memory}
    (found : state.tables.get? number = some table)
    (found' : model.tables.get? number = some names)
    (reworks : state.Reworks table kept count table' memory') :
    ∃ realise', Represents realise' (state.place number (some table') memory')
      (model.adjust number names kept count) := by
  obtain ⟨realise', here, elsewhere⟩ := exists_realisation realise
    (represents.nodup_adjusted kept count found found') fun slot => table'.cell? slot memory'
  exact ⟨realise', represents.adjust found found' reworks here elsewhere⟩

end Represents

end ScopeMachine
