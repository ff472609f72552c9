import Mathlib.Data.List.Basic
import ScopeMachine.Proofs.Calls.ArgumentSteps
import ScopeMachine.Proofs.Storage.Filling
import ScopeMachine.Proofs.Storage.Stores

namespace ScopeMachine

open Memory

namespace Table

variable {table table' table'' : Table} {memory before middle after : Memory} {count slot : Nat}

/-! The values of a table. -/

theorem value?_eq (table : Table) (slot : Nat) (memory : Memory) :
    table.value? slot memory =
      if slot < table.length then some (table.content slot memory).value else none := by
  unfold value? content
  cases table.cell? slot memory <;> rfl

theorem values_eq (table : Table) (memory : Memory) :
    table.values memory =
      (List.range table.length).map fun slot => (table.content slot memory).value := by
  unfold values
  rw [← List.filterMap_eq_map]
  refine List.filterMap_congr fun slot listed => ?_
  rw [value?_eq, if_pos (List.mem_range.mp listed)]
  rfl

@[simp] theorem length_values (table : Table) (memory : Memory) :
    (table.values memory).length = table.length := by
  rw [values_eq, List.length_map, List.length_range]

private theorem getElem?_values (table : Table) (memory : Memory) (slot : Nat) :
    (table.values memory)[slot]? = table.value? slot memory := by
  rw [values_eq, value?_eq, List.getElem?_map]
  split
  next below => rw [List.getElem?_range below, Option.map_some]
  next beyond => rw [List.getElem?_eq_none (by simpa using beyond), Option.map_none]

/-! Work that leaves the first slots as they are. -/

/-- Work on a table, after which each of so many first slots has the cell that it had, if it had
one, and the same content. -/
structure Saves (count : Nat) (table : Table) (before : Memory) (table' : Table)
    (after : Memory) : Prop extends StaysDetached table before table' after where
  cell? : before.Sound → ∀ {slot : Nat} {id : CellId}, slot < count →
    table.cell? slot before = some id → table'.cell? slot after = some id
  content : before.Sound → table.Aloof before → ∀ {slot : Nat}, slot < count →
    table'.content slot after = table.content slot before

namespace Saves

theorem refl (count : Nat) (table : Table) (memory : Memory) :
    Saves count table memory table memory :=
  ⟨.refl .., fun _ _ _ _ => id, fun _ _ _ _ => rfl⟩

theorem trans (left : Saves count table before table' middle)
    (right : Saves count table' middle table'' after) : Saves count table before table'' after := by
  have later := fun sound => (left.continues sound).sound sound
  refine ⟨left.toStaysDetached.trans right.toStaysDetached, fun sound _ _ below named => ?_,
    fun sound aloof _ below => ?_⟩
  · exact right.cell? (later sound) below (left.cell? sound below named)
  · exact (right.content (later sound) (left.aloof sound aloof) below).trans
      (left.content sound aloof below)

theorem mono {fewer : Nat} (saves : Saves count table before table' after) (le : fewer ≤ count) :
    Saves fewer table before table' after :=
  ⟨saves.toStaysDetached, fun sound _ _ below => saves.cell? sound (Nat.lt_of_lt_of_le below le),
    fun sound aloof _ below => saves.content sound aloof (Nat.lt_of_lt_of_le below le)⟩

theorem of_cells (stays : StaysDetached table before table' after)
    (named : before.Sound → ∀ slot < count, table'.cell? slot after = table.cell? slot before)
    (cells : ∀ {id : CellId}, id.index < before.cells.size → after.cell id = before.cell id) :
    Saves count table before table' after := by
  refine ⟨stays, fun sound slot id below found => (named sound slot below).trans found,
    fun sound aloof slot below => ?_⟩
  unfold Table.content
  rw [named sound slot below]
  cases found : table.cell? slot before with
  | none => rfl
  | some id => exact cells (aloof.old_of_cell? sound found)

end Saves

private theorem copyOut_saves (count : Nat) (table : Table) (memory : Memory) :
    Saves count table memory (table.copyOut memory).1 (table.copyOut memory).2 := by
  refine ⟨copyOut_staysDetached table memory, ?_, ?_⟩
  all_goals
    intro sound
    cases table with
    | onHeap cells reserved => intros; first | rfl | assumption
    | inArena slice length => ?_
  all_goals
    have taken := take_taken sound slice.offset length
    have moved : ∃ reserved arena, (inArena slice length).copyOut memory =
        (onHeap (memory.take slice.offset length).1 reserved,
          { (memory.take slice.offset length).2 with arena }) := by
      unfold copyOut
      dsimp only
      split
      next arena _ => exact ⟨none, arena, rfl⟩
      next => exact ⟨some slice, _, rfl⟩
    obtain ⟨reserved, arena, moved⟩ := moved
    rw [moved]
  · intro slot id _ named
    obtain ⟨below, named⟩ := peek_of_cell? named
    exact taken.kept below named
  · intro _ slot _
    change ((memory.take slice.offset length).1[slot]?).elim Cell.blank
      (memory.take slice.offset length).2.cell = _
    by_cases below : slot < length
    · have inside : slot < (memory.take slice.offset length).1.size := taken.size.symm ▸ below
      rw [content_inArena below, Array.getElem?_eq_getElem inside]
      exact (taken.drawn (Array.getElem?_eq_getElem inside)).content
    · have beyond := Nat.le_of_not_lt below
      rw [Array.getElem?_eq_none (taken.size.symm ▸ beyond),
        content_of_cell?_none (cell?_of_length_le beyond memory)]
      rfl

theorem ensureCapacity_saves (count : Nat) (table : Table) (capacity : Nat) (memory : Memory) :
    Saves count table memory (table.ensureCapacity capacity memory).1
      (table.ensureCapacity capacity memory).2 := by
  cases table with
  | onHeap cells reserved => exact .refl ..
  | inArena slice length =>
      unfold ensureCapacity
      dsimp only
      split
      next => exact .refl ..
      next =>
        split
        next arena grown =>
          obtain ⟨-, -, rfl⟩ := Arena.grow?_eq_some grown
          exact .of_cells (.of_inArena _ _ _ (.of_bookkeeping rfl rfl)) (fun _ _ _ => rfl)
            fun _ => rfl
        next => exact copyOut_saves ..

private theorem extendTo_saves {length : Nat} (longer : table.length ≤ length) (memory : Memory) :
    Saves table.length table memory (table.extendTo length memory).1
      (table.extendTo length memory).2 := by
  have stays := extendTo_staysDetached table memory length
  cases table with
  | inArena slice old =>
      refine .of_cells stays (fun _ slot below => ?_) fun _ => rfl
      exact (cell?_inArena (Nat.lt_of_lt_of_le below longer) memory).trans
        (cell?_inArena below memory).symm
  | onHeap cells reserved =>
      refine .of_cells stays (fun _ slot below => ?_) fun old => ?_
      · exact Array.getElem?_append_left below
      · exact (newAll_confined ..).cell old id fun _ => False.elim

private theorem extended_saves (table : Table) (slot : Nat) (memory : Memory) :
    Saves table.length table memory (table.extended slot memory).1
      (table.extended slot memory).2 := by
  unfold extended
  split
  next => exact .refl ..
  next beyond =>
    have grown := ensureCapacity_saves table.length table (slot + 1) memory
    have same := length_ensureCapacity table (slot + 1) memory
    generalize table.ensureCapacity (slot + 1) memory = result at grown same ⊢
    refine grown.trans (same ▸ extendTo_saves ?_ _)
    omega

private theorem slot_saves (slice : Slice) (length position : Nat) (memory : Memory) :
    Saves length (inArena slice length) memory (inArena slice length)
      (memory.slot position).2 := by
  have confined := slot_confined memory position
  refine ⟨.of_continues _ confined.continues, fun sound slot id below named => ?_,
    fun sound _ slot below => ?_⟩
  · rw [cell?_inArena below] at named ⊢
    by_cases same : slice.offset + slot = position
    · rw [← same, slot_of_peek named]
      exact named
    · rw [confined.peek same]
      exact named
  · rw [content_inArena below, content_inArena below, content_slot sound]

theorem cellAt_saves (table : Table) (slot : Nat) (memory : Memory) :
    Saves table.length table memory (table.cellAt slot memory).2.1
      (table.cellAt slot memory).2.2 := by
  have saves := extended_saves table slot memory
  have longer := length_extended table slot memory
  rw [cellAt_eq]
  generalize table.extended slot memory = result at saves longer ⊢
  obtain ⟨⟨cells, reserved⟩ | ⟨slice, length⟩, after⟩ := result
  · exact saves
  · have within : table.length ≤ length := Nat.le_trans (Nat.le_max_left ..)
      (Nat.le_of_eq longer.symm)
    exact saves.trans ((slot_saves slice length _ after).mono within)

theorem cell?_cellAt (table : Table) (slot : Nat) (memory : Memory) :
    (table.cellAt slot memory).2.1.cell? slot (table.cellAt slot memory).2.2 =
      some (table.cellAt slot memory).1 := by
  have longer := length_extended table slot memory
  rw [cellAt_eq]
  generalize table.extended slot memory = result at longer ⊢
  have below : slot < result.1.length := by omega
  obtain ⟨⟨cells, reserved⟩ | ⟨slice, length⟩, after⟩ := result
  · change slot < cells.size at below
    change cells[slot]? = some (cells.getD slot ⟨0⟩)
    simp [below]
  · exact (cell?_inArena below _).trans (peek_slot ..)

private theorem cellAt_length_apart (sound : memory.Sound) (aloof : table.Aloof memory)
    (below : slot < table.length) {id : CellId}
    (named : (table.cellAt table.length memory).2.1.cell? slot
      (table.cellAt table.length memory).2.2 = some id) :
    id ≠ (table.cellAt table.length memory).1 := by
  have stays := ensureCapacity_staysDetached table memory (table.length + 1)
  have same := length_ensureCapacity table (table.length + 1) memory
  have aloof := stays.aloof sound aloof
  have sound := (stays.continues sound).sound sound
  rw [cellAt_eq, extended, if_neg (Nat.lt_irrefl _)] at named ⊢
  generalize table.ensureCapacity (table.length + 1) memory = result at named sound aloof same ⊢
  obtain ⟨⟨cells, reserved⟩ | ⟨slice, length⟩, middle⟩ := result
  · have size : cells.size = table.length := same
    have inside : slot < cells.size := size ▸ below
    have older : id.index < middle.cells.size := by
      have found : cells[slot]? = some id := (Array.getElem?_append_left inside).symm.trans named
      exact aloof.old (Array.mem_of_getElem? found)
    rintro rfl
    simp [extendTo, ← size, newAll_eq, Array.getD_eq_getD_getElem?] at older
  · rintro rfl
    have here := peek_slot middle (slice.offset + table.length)
    have there := (peek_of_cell? named).2
    have after := (slot_confined middle (slice.offset + table.length)).sound sound
    have := after.distinct here there
    omega

/-- Adding to a table leaves what it has, and the value comes last. -/
theorem push_saves (table : Table) (value : Value) (memory : Memory) :
    Saves table.length table memory (table.push value memory).1 (table.push value memory).2 := by
  have touched := cellAt_saves table table.length memory
  refine ⟨push_staysDetached table memory value, fun sound slot id below named => ?_,
    fun sound aloof slot below => ?_⟩
  · exact (cell?_modifyCell ..).trans (touched.cell? sound below named)
  · rw [← touched.content sound aloof below]
    change ((table.cellAt table.length memory).2.1.cell? slot
      ((table.cellAt table.length memory).2.2.modifyCell _ _)).elim Cell.blank _ = _
    rw [cell?_modifyCell]
    unfold Table.content
    cases named : (table.cellAt table.length memory).2.1.cell? slot
      (table.cellAt table.length memory).2.2 with
    | none => rfl
    | some id => exact cell_modifyCell_ne (cellAt_length_apart sound aloof below named) ..

theorem length_push (table : Table) (value : Value) (memory : Memory) :
    (table.push value memory).1.length = table.length + 1 := by
  have longer := length_cellAt table table.length memory
  change (table.cellAt table.length memory).2.1.length = _
  omega

theorem content_push_last (sound : memory.Sound) (aloof : table.Aloof memory) (value : Value) :
    ((table.push value memory).1.content table.length (table.push value memory).2).value =
      value := by
  have reached := cell?_cellAt table table.length memory
  have stays := cellAt_staysDetached table memory table.length
  have old := (stays.aloof sound aloof).old_of_cell? ((stays.continues sound).sound sound) reached
  have written : (table.push value memory).1.cell? table.length (table.push value memory).2 =
      some (table.cellAt table.length memory).1 := (cell?_modifyCell ..).trans reached
  rw [content_of_cell? written]
  exact congrArg Cell.value (cell_modifyCell_self old _)

private theorem truncate_saves (shared : CellId → Bool) {length : Nat} (table : Table)
    (memory : Memory) :
    Saves length table memory (table.truncate shared length memory).1
      (table.truncate shared length memory).2 := by
  have stays := truncate_staysDetached table memory shared length
  unfold truncate at stays ⊢
  split
  next => exact .refl ..
  next long =>
    rw [if_neg long] at stays
    cases table with
    | onHeap cells reserved =>
        refine .of_cells stays (fun _ slot below => ?_) fun _ => rfl
        change (cells.take length)[slot]? = cells[slot]?
        rw [Array.take_eq_extract, Array.getElem?_extract]
        simp only [Nat.sub_zero, Nat.zero_add, ite_eq_left_iff]
        intro beyond
        exact (Array.getElem?_eq_none (by omega)).symm
    | inArena slice old =>
        have released := release_confined shared memory (slice.offset + length) (slice.offset + old)
        have longer : length < old := Nat.lt_of_not_le long
        have outside : ∀ {slot}, slot < length → ¬ (slice.offset + length ≤ slice.offset + slot ∧
            slice.offset + slot < slice.offset + old) := by omega
        refine ⟨stays, fun sound slot id below named => ?_, fun sound _ slot below => ?_⟩
        · rw [cell?_inArena (Nat.lt_trans below longer)] at named
          rw [cell?_inArena below, released.peek (outside below)]
          exact named
        · rw [content_inArena below, content_inArena (Nat.lt_trans below longer)]
          exact released.content sound (outside below) fun _ _ => id

/-- The values of a table after work on it that leaves all its slots. -/
theorem Saves.values_eq (saves : Saves table.length table before table' after)
    (same : table'.length = table.length) (sound : before.Sound) (aloof : table.Aloof before) :
    table'.values after = table.values before := by
  rw [Table.values_eq, Table.values_eq, same]
  refine List.map_congr_left fun slot listed => ?_
  rw [saves.content sound aloof (List.mem_range.mp listed)]

/-! The layout of a body. -/

section Layout

variable {Code : Type} {definition : Definition Code} {values : List Value} {heap : Heap Code}

/-- The layout of a body: a slot for each parameter with its argument, then one for the rest if
there is one, with an array of the arguments past the parameters. -/
structure LaysOut (table : Table) (definition : Definition Code) (values : List Value)
    (heap : Heap Code) : Prop where
  length : table.length = definition.params.length + definition.rest.toList.length
  param : ∀ slot < definition.params.length, table.value? slot heap.memory = values[slot]?
  rest : definition.rest.isSome = true → ∃ array,
    table.value? definition.params.length heap.memory = some (.array array) ∧
      heap.elements array = values.drop definition.params.length

theorem safeCopy_saves (count : Nat) (table : Table) (memory : Memory) :
    Saves count table memory (table.safeCopy memory).1 (table.safeCopy memory).2.2 ∧
      (table.safeCopy memory).1.length = table.length := by
  have copied := copyOut_saves count table memory
  have length := length_copyOut table memory
  have heaped := isArena_copyOut table memory
  unfold safeCopy
  generalize table.copyOut memory = result at copied length heaped ⊢
  obtain ⟨⟨cells, reserved⟩ | _, after⟩ := result
  · have aloof := fun sound before =>
      ((copied.aloof sound before).part id : (onHeap cells none).Aloof after)
    exact ⟨⟨⟨copied.continues, aloof⟩, copied.cell?, copied.content⟩, length⟩
  · cases heaped

theorem settled_saves (count : Nat) (table : Table) (definition : Definition Code)
    (memory : Memory) :
    Saves count table memory (table.settled definition memory).1
        (table.settled definition memory).2 ∧
      (table.settled definition memory).1.length = table.length := by
  unfold settled
  split
  next => exact safeCopy_saves count table memory
  next => exact ⟨.refl .., rfl⟩

private theorem fitted_saves (table : Table) (definition : Definition Code) (shared : CellId → Bool)
    (rest : ArrayId) (memory : Memory) (enough : definition.arity ≤ table.length) :
    Saves definition.arity table memory (table.fitted definition shared rest memory).1
        (table.fitted definition shared rest memory).2 ∧
      (table.fitted definition shared rest memory).1.length = definition.arity + 1 ∧
      (memory.Sound → table.Aloof memory →
        ((table.fitted definition shared rest memory).1.content definition.arity
          (table.fitted definition shared rest memory).2).value = .array rest) := by
  have short : Saves definition.arity table memory
      (table.truncate shared definition.arity memory).1
      (table.truncate shared definition.arity memory).2 := truncate_saves shared table memory
  have length := length_truncate shared table definition.arity memory
  unfold fitted
  generalize table.truncate shared definition.arity memory = result at short length ⊢
  obtain ⟨middle, after⟩ := result
  have length : middle.length = definition.arity := length.trans (Nat.min_eq_right enough)
  refine ⟨short.trans (length ▸ push_saves ..), ?_, fun sound aloof => ?_⟩
  · rw [← length]
    exact length_push ..
  · rw [← length]
    exact content_push_last ((short.continues sound).sound sound) (short.aloof sound aloof) _

private theorem settled_fits (clean : memory.Clean) (fits : table.Fits memory)
    (definition : Definition Code) : (table.settled definition memory).2.Clean ∧
      (table.settled definition memory).1.Fits (table.settled definition memory).2 := by
  unfold settled
  split
  next =>
    have copied := copyOut_carries clean fits
    exact ⟨copied.clean, (Part.forget _).fits copied.fits⟩
  next => exact ⟨clean, fits⟩

private theorem content_fitted (clean : memory.Clean) (fits : table.Fits memory)
    (definition : Definition Code) (shared : CellId → Bool) (rest : ArrayId)
    (enough : definition.arity ≤ table.length) :
    (table.fitted definition shared rest memory).1.content definition.arity
      (table.fitted definition shared rest memory).2 = .holding (.array rest) := by
  obtain ⟨short, -⟩ := truncate_alters shared clean fits definition.arity
  have length := length_truncate shared table definition.arity memory
  unfold fitted
  generalize table.truncate shared definition.arity memory = result at short length ⊢
  obtain ⟨middle, after⟩ := result
  have length : middle.length = definition.arity := length.trans (Nat.min_eq_right enough)
  rw [← length]
  refine (write_content short.clean short.fits middle.length (·.reset (.array rest)) _).trans ?_
  rw [if_pos rfl, content_of_cell?_none (cell?_of_length_le (Nat.le_refl _) _)]
  rfl

end Layout

end Table

theorem Heap.elements_newArray_self {Code : Type} (heap : Heap Code) (elements : List Value)
    (frozen : Bool) :
    (heap.newArray elements frozen).2.elements (heap.newArray elements frozen).1 = elements := by
  simp [Heap.elements, array, newArray]

/-- What a definition accepts. -/
theorem Definition.accepts_iff {Code : Type} (definition : Definition Code) (count : Nat) :
    definition.accepts count = true ↔ count = definition.params.length ∨
      definition.rest.isSome = true ∧ definition.params.length ≤ count := by
  unfold accepts isVariadic arity
  rw [Bool.or_eq_true, beq_iff_eq, Bool.and_eq_true, decide_eq_true_iff]

namespace Action

variable {Code : Type} {definition : Definition Code} {arguments : Table} {machine : Machine Code}

theorem enough_of_accepts {count : Nat} (accepts : definition.accepts count = true) :
    definition.params.length ≤ count := by
  rcases (definition.accepts_iff count).mp accepts with same | ⟨-, enough⟩
  · exact Nat.le_of_eq same.symm
  · exact enough

/-- Accepted arguments are brought into the layout of the body, in the cells that they had. -/
theorem mapArguments_ok (held : List Handle) (sound : machine.heap.memory.Sound)
    (aloof : arguments.Aloof machine.heap.memory)
    (accepts : definition.accepts arguments.length = true) :
    ∃ table after,
      mapArguments definition arguments held machine =
        .ok (table, (arguments.values machine.heap.memory).drop definition.params.length) after ∧
      table.LaysOut definition (arguments.values machine.heap.memory) after.heap ∧
      Table.Saves definition.params.length arguments machine.heap.memory table
        after.heap.memory ∧
      (machine.heap.memory.Clean → arguments.Fits machine.heap.memory →
        definition.rest.isSome = true → ∃ value,
          table.content definition.params.length after.heap.memory = .holding value) := by
  obtain ⟨saves, length⟩ := Table.settled_saves arguments.length arguments definition
    machine.heap.memory
  have values := saves.values_eq length sound aloof
  have settledSound := (saves.continues sound).sound sound
  have settledAloof := saves.aloof sound aloof
  have settledFits := fun clean fits =>
    @Table.settled_fits arguments machine.heap.memory _ clean fits definition
  have enough := enough_of_accepts accepts
  have saves := saves.mono enough
  rw [run_mapArguments]
  generalize arguments.settled definition machine.heap.memory = settled at *
  obtain ⟨table, memory⟩ := settled
  simp only [Table.trailing] at *
  rw [length, if_pos accepts, values]
  have param {table' : Table} {after : Memory} (later : Table.Saves definition.params.length
      table memory table' after) (longer : definition.params.length ≤ table'.length) :
      ∀ slot < definition.params.length, table'.value? slot after =
        (arguments.values machine.heap.memory)[slot]? := by
    intro slot below
    rw [Table.getElem?_values, Table.value?_eq, Table.value?_eq, if_pos (by omega),
      if_pos (by omega), later.content settledSound settledAloof below,
      saves.content sound aloof below]
  cases rest : definition.rest with
  | none =>
      have unvariadic : definition.isVariadic = false := congrArg Option.isSome rest
      rw [unvariadic]
      have exact : arguments.length = definition.params.length := by
        simpa [rest] using (definition.accepts_iff _).mp accepts
      refine ⟨_, _, rfl, ⟨?_, param (.refl ..) (by omega), fun variadic => ?_⟩, saves,
        fun _ _ => nofun⟩
      · simp [rest, length, exact]
      · rw [rest] at variadic
        cases variadic
  | some declaration =>
      have variadic : definition.isVariadic = true := congrArg Option.isSome rest
      rw [variadic]
      obtain ⟨fitted, longer, last⟩ := Table.fitted_saves table definition machine.host.shares
        ⟨machine.heap.arrays.size⟩ memory (length ▸ enough)
      refine ⟨_, _, rfl, ⟨?_, param fitted ?_, fun _ => ⟨⟨machine.heap.arrays.size⟩, ?_, ?_⟩⟩,
        saves.trans fitted, fun clean fits _ => ⟨.array ⟨machine.heap.arrays.size⟩, ?_⟩⟩
      · rw [rest]
        exact longer
      · exact longer ▸ Nat.le_succ _
      · rw [Table.value?_eq, if_pos (longer ▸ Nat.lt_succ_self _)]
        exact congrArg some (last settledSound settledAloof)
      · exact Heap.elements_newArray_self ..
      · obtain ⟨clean, fits⟩ := settledFits clean fits
        exact Table.content_fitted clean fits definition _ _ (length ▸ enough)

theorem mapArguments_error (held : List Handle)
    (refuses : definition.accepts arguments.length = false) :
    ∃ after, mapArguments definition arguments held machine =
      .error (.failure { fault := arityMismatch definition arguments.length }) after := by
  have length := (Table.settled_saves 0 arguments definition machine.heap.memory).2
  rw [run_mapArguments]
  generalize arguments.settled definition machine.heap.memory = settled at length ⊢
  obtain ⟨table, memory⟩ := settled
  have length : table.length = arguments.length := length
  simp only [length, refuses, Bool.false_eq_true, if_false]
  exact ⟨_, rfl⟩

end Action

end ScopeMachine
