import ScopeMachine.Proofs.TableTasks.Representation

namespace ScopeMachine

open Memory Table

variable {Code : Type}

namespace Numbered

variable {α : Type}

theorem put_add (numbered : Numbered α) (item : α) (content : Option α) :
    (numbered.add item).put numbered.size content = ⟨numbered.items ++ [content]⟩ := by
  simp [put, add, size]

theorem put_put (numbered : Numbered α) (number : Nat) (first second : Option α) :
    (numbered.put number first).put number second = numbered.put number second := by
  simp [put]

theorem put_self {numbered : Numbered α} {number : Nat} {item : α}
    (found : numbered.get? number = some item) : numbered.put number (some item) = numbered := by
  obtain ⟨below, same⟩ := List.getElem?_eq_some_iff.mp (get?_eq_some_iff.mp found)
  unfold put
  rw [← same, List.set_getElem_self]

end Numbered

private theorem Memory.content_modifyCell_ne {memory : Memory} {id : CellId} {position : Nat}
    (apart : memory.arena.peek position ≠ some id) (change : Cell → Cell) :
    (memory.modifyCell id change).content position = memory.content position := by
  cases named : memory.arena.peek position with
  | none => rw [content_of_peek_none named, content_of_peek_none (by exact named)]
  | some other =>
      rw [content_of_peek named, content_of_peek (by exact named)]
      exact cell_modifyCell_ne (fun same => apart (by rw [named, same])) ..

namespace TaskState

variable {state : TaskState Code}

private theorem Tidy.modifyCell (tidy : state.Tidy) {id : CellId}
    (placed : ∀ {position : Nat}, state.memory.arena.peek position = some id →
      state.Open position → state.Filled position) (change : Cell → Cell) :
    (state.withMemory (state.memory.modifyCell id change)).Tidy := by
  have size : state.memory.cells.size ≤ (state.memory.modifyCell id change).cells.size :=
    (modifyCell_confined ..).size
  constructor
  · refine ⟨(modifyCell_confined ..).sound tidy.clean.sound, fun {position} above => ?_⟩
    refine (content_modifyCell_ne (fun named => ?_) change).trans (tidy.clean.above above)
    obtain ⟨number, table, found, fills⟩ := placed named (.inl above)
    exact Nat.not_lt_of_le above ((tidy.fits found).within (fills.spans (tidy.fits found)))
  · intro number table found
    have fits := tidy.fits found
    refine ⟨fits.within, fits.room, fun {slice length position} shape above inside => ?_,
      fun listed => Nat.lt_of_lt_of_le (fits.old listed) size, fits.unnamed, fits.distinct⟩
    refine (content_modifyCell_ne (fun named => ?_) change).trans (fits.rest shape above inside)
    have spanned : table.Spans position := by
      rw [shape]
      exact spans_inArena.mpr ⟨by omega, inside⟩
    have filled := placed named (.inr ⟨number, table, found, spanned⟩)
    have fills := tidy.fills_of_filled found filled (.inl spanned)
    rw [shape] at fills
    exact Nat.not_lt_of_le above (fills_inArena.mp fills).2
  · exact tidy.apart
  · exact fun listed => Nat.lt_of_lt_of_le (tidy.held listed) size
  · exact tidy.filled

end TaskState

namespace Represents

variable {realise : Nat → Option CellId} {state : TaskState Code} {model : TableModel}
  {number name : Nat}

section Writing

variable (represents : Represents realise state model)

include represents

theorem placed (uses : model.Uses name) {id : CellId} (realised : realise name = some id)
    {position : Nat} (named : state.memory.arena.peek position = some id)
    (reachable : state.Open position) : state.Filled position := by
  rcases uses with ⟨other, names, found, member⟩ | refers
  · obtain ⟨table, held, shows⟩ := represents.tables.get?_other found
    obtain ⟨slot, listed⟩ := List.mem_iff_getElem?.mp member
    have there := (shows.cell? listed).trans realised
    cases table with
    | onHeap cells reserved =>
        exact absurd named ((represents.fits held).unnamed (mem_heapCells.mpr ⟨slot, there⟩)
          position)
    | inArena slice length =>
        obtain ⟨below, peeked⟩ := peek_of_cell? there
        cases represents.clean.sound.distinct peeked named
        exact ⟨other, _, held, fills_inArena.mpr ⟨by omega, by omega⟩⟩
  · exact represents.filled named (represents.has_of_refers refers realised) reachable

theorem write (uses : model.Uses name) {id : CellId} (realised : realise name = some id)
    (change : Cell → Cell) :
    Represents realise (state.withMemory (state.memory.modifyCell id change))
      (model.change name change) := by
  refine ⟨represents.toTidy.modifyCell (represents.placed uses realised) change, ?_, ?_, ?_,
    ?_, ?_, ?_⟩
  · refine represents.tables.mono fun _ _ shows => ⟨shows.length, fun listed => ?_⟩
    exact (cell?_modifyCell ..).trans (shows.cell? listed)
  · exact represents.references
  · intro other uses'
    change (model.cells.modify name change)[other]? = _
    rw [List.getElem?_modify, represents.contents uses']
    by_cases same : name = other
    · subst same
      rw [realised]
      simp only [if_true, Option.map_eq_map, Option.map_some, Option.elim_some]
      exact congrArg some (cell_modifyCell_self (represents.old uses realised) change).symm
    · simp only [if_neg same, Option.map_eq_map, Option.map_some]
      cases realised' : realise other with
      | none => rfl
      | some id' =>
          have apart : id' ≠ id := fun equal =>
            same (represents.distinct uses uses' realised (equal ▸ realised'))
          exact congrArg some (cell_modifyCell_ne apart ..).symm
  · exact fun uses realised => Nat.lt_of_lt_of_le (represents.old uses realised)
      (modifyCell_confined ..).size
  · exact represents.distinct
  · exact represents.single

theorem reset_unrealised (uses : model.Uses name) (unrealised : realise name = none) :
    Represents realise state (model.change name (·.reset .null)) := by
  have blank := represents.contents uses
  rw [unrealised] at blank
  have same : model.cells.modify name (·.reset .null) = model.cells := by
    refine List.ext_getElem? fun other => ?_
    rw [List.getElem?_modify]
    by_cases here : name = other
    · subst here
      rw [blank]
      simp [Cell.reset, Cell.blank, Cell.holding]
    · simp [here]
  unfold TableModel.change
  rw [same]
  exact represents

end Writing

theorem uses_of_references {references : Numbered Nat}
    (fewer : ∀ {number name : Nat}, references.get? number = some name → model.Uses name)
    (uses : ({ model with references } : TableModel).Uses name) : model.Uses name := by
  rcases uses with listed | ⟨other, found⟩
  · exact .inl listed
  · exact fewer found

section Revising

variable (represents : Represents realise state model)

include represents

theorem revise {state' : TaskState Code} {model' : TableModel} (tidy : state'.Tidy)
    (memory : state'.memory = state.memory) (cells : model'.cells = model.cells)
    (fewer : ∀ {name : Nat}, model'.Uses name → model.Uses name)
    (tables : state'.tables.Matches (Table.Shows realise state.memory) model'.tables)
    (references : state'.references.Matches (fun id name => realise name = some id)
      model'.references)
    (single : ∀ {number other slot slot' name : Nat} {table : Table} {names names' : List Nat},
      state'.tables.get? number = some table → table.isArena = true →
      model'.tables.get? number = some names → names[slot]? = some name →
      model'.tables.get? other = some names' → names'[slot']? = some name →
      other = number ∧ slot' = slot) : Represents realise state' model' := by
  refine ⟨tidy, ?_, references, fun uses => ?_, fun uses realised => ?_, fun uses uses' =>
    ?_, single⟩
  · rw [memory]
    exact tables
  · rw [cells, memory]
    exact represents.contents (fewer uses)
  · rw [memory]
    exact represents.old (fewer uses) realised
  · exact represents.distinct (fewer uses) (fewer uses')

theorem dropTable {table : Table} {names : List Nat}
    (found : state.tables.get? number = some table)
    (found' : model.tables.get? number = some names) :
    Represents realise (state.place number none state.memory)
      { model with tables := model.tables.put number none } := by
  have lookup := TaskState.get?_place found none state.memory
  have still : ∀ {other : Nat} {held : Table},
      (state.place number none state.memory).tables.get? other = some held →
        other ≠ number ∧ state.tables.get? other = some held := by
    intro other held here
    rw [lookup] at here
    split at here
    next => cases here
    next apart => exact ⟨apart, here⟩
  have still' : ∀ {other : Nat} {names' : List Nat},
      (model.tables.put number none).get? other = some names' →
        model.tables.get? other = some names' := by
    intro other names' here
    rw [Numbered.get?_put found'] at here
    split at here
    next => cases here
    next => exact here
  refine represents.revise ⟨represents.clean, fun here => represents.fits (still here).2,
    fun apart here here' => represents.apart apart (still here).2 (still here').2,
      represents.held, ?_⟩
    rfl rfl ?_ ?_ represents.references ?_
  · intro position id named listed reachable
    have filled : state.Filled position := by
      refine represents.filled named listed (reachable.imp_right ?_)
      exact fun ⟨other, held, here, spanned⟩ => ⟨other, held, (still here).2, spanned⟩
    rcases reachable with above | ⟨other, held, here, spanned⟩
    · obtain ⟨other, held, here, fills⟩ := filled
      have fits := represents.fits here
      exact absurd (fits.within (fills.spans fits)) (Nat.not_lt_of_le above)
    · exact ⟨other, held, here, represents.fills_of_filled (still here).2 filled (.inl spanned)⟩
  · rintro name (⟨other, names', here, member⟩ | refers)
    · exact .inl ⟨other, names', still' here, member⟩
    · exact .inr refers
  · exact represents.tables.put found found' rfl nofun fun _ _ _ shows => shows
  · intro first second slot slot' name held names₁ names₂ here arena listing listed listing' listed'
    exact represents.single (still here).2 arena (still' listing) listed (still' listing') listed'

theorem addTable {copy : Table} {names : List Nat} (heaped : copy.isArena = false)
    (bare : ∀ position, ¬ copy.Spans position) (fits : copy.Fits state.memory)
    (shows : copy.Shows realise state.memory names)
    (used : ∀ name ∈ names, ∃ number table names', state.tables.get? number = some table ∧
      table.isArena = false ∧ model.tables.get? number = some names' ∧ name ∈ names') :
    Represents realise (state.addTable copy) { model with tables := model.tables.add names } := by
  have lookup := Numbered.get?_add state.tables copy
  have lookup' := Numbered.get?_add model.tables names
  rw [← represents.tables.size] at lookup'
  have kept : ∀ {other : Nat} {held : Table}, state.tables.get? other = some held →
      (state.tables.add copy).get? other = some held := by
    intro other held here
    rw [lookup, if_neg (Nat.ne_of_lt (Numbered.lt_of_get? here))]
    exact here
  refine represents.revise ⟨represents.clean, fun {other held} here => ?_,
    fun {first second position held held'} apart here here' => ?_, represents.held, ?_⟩
    rfl rfl ?_ (represents.tables.add shows) represents.references ?_
  · have here : (state.tables.add copy).get? other = some held := here
    rw [lookup] at here
    split at here
    next =>
      cases here
      exact fits
    next => exact represents.fits here
  · have here : (state.tables.add copy).get? first = some held := here
    have here' : (state.tables.add copy).get? second = some held' := here'
    rw [lookup] at here here'
    split at here
    next =>
      cases here
      exact fun spanned => absurd spanned (bare position)
    next =>
      split at here'
      next =>
        cases here'
        exact fun _ => bare position
      next => exact represents.apart apart here here'
  · intro position id named listed reachable
    have opened : state.Open position := by
      refine reachable.imp_right fun ⟨other, held, here, spanned⟩ => ?_
      have here : (state.tables.add copy).get? other = some held := here
      rw [lookup] at here
      split at here
      next =>
        cases here
        exact absurd spanned (bare position)
      next => exact ⟨other, held, here, spanned⟩
    obtain ⟨other, held, here, fills⟩ := represents.filled named listed opened
    exact ⟨other, held, kept here, fills⟩
  · rintro name (⟨other, names', here, member⟩ | refers)
    · have here : (model.tables.add names).get? other = some names' := here
      rw [lookup'] at here
      split at here
      next =>
        cases here
        obtain ⟨number, _, names', -, -, listing, member⟩ := used name member
        exact .inl ⟨number, names', listing, member⟩
      next => exact .inl ⟨other, names', here, member⟩
    · exact .inr refers
  · intro first second slot slot' name held names₁ names₂ here arena listing listed listing' listed'
    have here : (state.tables.add copy).get? first = some held := here
    have listing : (model.tables.add names).get? first = some names₁ := listing
    have listing' : (model.tables.add names).get? second = some names₂ := listing'
    rw [lookup] at here
    rw [lookup'] at listing listing'
    split at here
    next =>
      cases here
      exact nomatch heaped.symm.trans arena
    next apart =>
      rw [if_neg apart] at listing
      split at listing'
      next =>
        cases listing'
        obtain ⟨number, table, names', found, onHeap, found', member⟩ :=
          used name (List.mem_of_getElem? listed')
        obtain ⟨slot, stood⟩ := List.mem_iff_getElem?.mp member
        have same := (represents.single here arena listing listed found' stood).1
        subst same
        cases found.symm.trans here
        exact nomatch onHeap.symm.trans arena
      next => exact represents.single here arena listing listed listing' listed'

theorem addReference {id : CellId} (uses : model.Uses name) (realised : realise name = some id) :
    Represents realise (state.addReference id)
      { model with references := model.references.add name } := by
  have older : ∀ {other : CellId}, (state.references.add id).has other = true →
      other = id ∨ state.references.has other = true := by
    intro other listed
    obtain ⟨number, found⟩ := Numbered.has_iff.mp listed
    rw [Numbered.get?_add] at found
    split at found
    next =>
      cases found
      exact .inl rfl
    next => exact .inr (Numbered.has_iff.mpr ⟨number, found⟩)
  refine represents.revise ⟨represents.clean, represents.fits, represents.apart, fun listed => ?_,
    fun named listed reachable => ?_⟩ rfl rfl (uses_of_references ?_) represents.tables
    (represents.references.add realised) represents.single
  · rcases older listed with rfl | listed
    · exact represents.old uses realised
    · exact represents.held listed
  · rcases older listed with rfl | listed
    · exact represents.placed uses realised named reachable
    · exact represents.filled named listed reachable
  · intro number other found
    rw [Numbered.get?_add] at found
    split at found
    next =>
      cases found
      exact uses
    next => exact .inr ⟨number, found⟩

theorem dropReference {id : CellId} (found : state.references.get? number = some id)
    (found' : model.references.get? number = some name) :
    Represents realise { state with references := state.references.put number none }
      { model with references := model.references.put number none } := by
  have older : ∀ {other : CellId}, (state.references.put number none).has other = true →
      state.references.has other = true := by
    intro other listed
    obtain ⟨number', here⟩ := Numbered.has_iff.mp listed
    rw [Numbered.get?_put found] at here
    split at here
    next => cases here
    next => exact Numbered.has_iff.mpr ⟨number', here⟩
  refine represents.revise ⟨represents.clean, represents.fits, represents.apart,
    fun listed => represents.held (older listed),
    fun named listed => represents.filled named (older listed)⟩ rfl rfl
    (uses_of_references ?_) represents.tables
    (represents.references.put found found' rfl nofun fun _ _ _ like => like) represents.single
  intro number' other here
  rw [Numbered.get?_put found'] at here
  split at here
  next => cases here
  next => exact .inr ⟨number', here⟩

end Revising

end Represents

end ScopeMachine
