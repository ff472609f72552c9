import ScopeMachine.Proofs.TableTasks.CellTasks

namespace ScopeMachine

open Memory Table

variable {Code : Type}

namespace Table

theorem isArena_ensureCapacity {table : Table} {capacity : Nat} {memory : Memory}
    (arena : (table.ensureCapacity capacity memory).1.isArena = true) : table.isArena = true := by
  cases table with
  | onHeap => exact arena
  | inArena => rfl

theorem isArena_cellAt {table : Table} {slot : Nat} {memory : Memory}
    (arena : (table.cellAt slot memory).2.1.isArena = true) : table.isArena = true := by
  cases table with
  | onHeap cells reserved =>
      rw [cellAt_onHeap] at arena
      split at arena <;> exact arena
  | inArena => rfl

theorem isArena_truncate {table : Table} {shared : CellId → Bool} {length : Nat} {memory : Memory}
    (arena : (table.truncate shared length memory).1.isArena = true) : table.isArena = true := by
  cases table with
  | onHeap cells reserved =>
      unfold truncate at arena
      split at arena <;> exact arena
  | inArena => rfl

theorem isArena_pushTogether {table : Table} {values : List Value} {memory : Memory}
    (arena : (table.pushTogether values memory).1.isArena = true) : table.isArena = true := by
  have each : ∀ (values : List Value) (table : Table) (memory : Memory),
      (table.pushEach values memory).1.isArena = true → table.isArena = true := by
    intro values
    induction values with
    | nil => exact fun _ _ arena => arena
    | cons value rest induction =>
        intro table memory arena
        have pushed : (table.cellAt table.length memory).2.1.isArena = true :=
          induction (table.push value memory).1 _ arena
        exact isArena_cellAt pushed
  exact isArena_ensureCapacity (each _ _ _ arena)

end Table

namespace TableModel

variable {model : TableModel} {number : Nat} {names : List Nat}

theorem adjust_self (found : model.tables.get? number = some names) :
    model.adjust number names names.length 0 = model := by
  unfold adjust fresh
  simp [Numbered.put_self found]

theorem adjust_min (number : Nat) (names : List Nat) (length count : Nat) :
    model.adjust number names (min names.length length) count =
      model.adjust number names length count := by
  unfold adjust
  rw [show names.take (min names.length length) = names.take length by simp [Nat.min_comm]]

end TableModel

namespace TaskState

variable {state : TaskState Code} {number : Nat} {table : Table}

theorem place_self (found : state.tables.get? number = some table) :
    state.place number (some table) state.memory = state := by
  unfold place
  rw [Numbered.put_self found]
  rfl

theorem place_place (state : TaskState Code) (number : Nat) (first second : Option Table)
    (memory memory' : Memory) :
    (state.place number first memory).place number second memory' =
      state.place number second memory' := by
  unfold place
  rw [show ({ state.withMemory memory with tables := state.tables.put number first } :
    TaskState Code).tables =
    state.tables.put number first from rfl, Numbered.put_put]
  rfl

theorem place_addTable (state : TaskState Code) (first second : Table) (memory : Memory) :
    (state.addTable first).place state.tables.size (some second) memory =
      (state.withMemory memory).addTable second := by
  unfold place addTable
  rw [Numbered.put_add]
  rfl

theorem get?_place_self (found : state.tables.get? number = some table) (content : Option Table)
    (memory : Memory) : (state.place number content memory).tables.get? number = content :=
  (get?_place found content memory number).trans (if_pos rfl)

private theorem Reworks.of_carries {count : Nat} {table' : Table} {memory' : Memory}
    (carries : table.Carries state.memory table' memory')
    (keeps : state.memory.KeepsHeld state.shares (fun _ => False) memory')
    (vacates : table.Vacates state.shares state.memory table' memory')
    (length : table'.length = table.length + count)
    (arena : table'.isArena = true → table.isArena = true) :
    state.Reworks table table.length count table' memory' where
  alters := carries.toAlters
  keepsHeld := keeps
  vacates := vacates
  length := length
  arena inside := .inl (arena inside)
  cell? _ := carries.cell?
  content _ := carries.content _
  blank beyond := (carries.content _).trans
    (content_of_cell?_none (cell?_of_length_le beyond _))
  whole := .inl rfl

end TaskState

namespace TaskState.Tidy

variable {state : TaskState Code} {number : Nat} {table : Table}

section Reworking

variable (tidy : state.Tidy) (found : state.tables.get? number = some table)

include tidy found

theorem cellAt_reworks (slot : Nat) :
    state.Reworks table table.length (slot + 1 - table.length) (table.cellAt slot state.memory).2.1
      (table.cellAt slot state.memory).2.2 := by
  refine .of_carries (cellAt_carries tidy.clean (tidy.fits found) slot).1 (cellAt_keepsHeld ..)
    (cellAt_vacates _ tidy.clean (tidy.fits found) slot) ?_ isArena_cellAt
  rw [length_cellAt]
  omega

theorem ensureCapacity_reworks (capacity : Nat) :
    state.Reworks table table.length 0 (table.ensureCapacity capacity state.memory).1
      (table.ensureCapacity capacity state.memory).2 :=
  .of_carries (ensureCapacity_carries tidy.clean (tidy.fits found) capacity)
    (ensureCapacity_keepsHeld ..) (ensureCapacity_vacates _ tidy.clean (tidy.fits found) capacity)
    (length_ensureCapacity ..) isArena_ensureCapacity

theorem copyOut_reworks :
    state.Reworks table table.length 0 (table.copyOut state.memory).1
      (table.copyOut state.memory).2 :=
  .of_carries (copyOut_carries tidy.clean (tidy.fits found)) (copyOut_keepsHeld ..)
    (copyOut_vacates _ tidy.clean (tidy.fits found)) (length_copyOut ..)
    fun arena => nomatch (isArena_copyOut table state.memory).symm.trans arena

theorem truncate_reworks (length : Nat) :
    state.Reworks table (min table.length length) 0
      (table.truncate state.shares length state.memory).1
      (table.truncate state.shares length state.memory).2 := by
  obtain ⟨alters, kept⟩ := truncate_alters state.shares tidy.clean (tidy.fits found) length
  have short := length_truncate state.shares table length state.memory
  constructor
  · exact alters
  · exact truncate_keepsHeld ..
  · exact truncate_vacates _ tidy.clean (tidy.fits found) length
  · exact short
  · exact fun arena => .inl (isArena_truncate arena)
  · intro slot id below named
    rw [(kept (by omega)).1]
    exact named
  · exact fun below => (kept (by omega)).2
  · intro slot beyond
    refine content_of_cell?_none (cell?_of_length_le ?_ _)
    rw [short]
    exact beyond
  · exact .inr ⟨Nat.min_le_left .., rfl, fun below => (kept (by omega)).1⟩

theorem free_reworks :
    state.Reworks table 0 0 .empty (table.free state.shares state.memory) where
  alters := free_alters state.shares tidy.clean (tidy.fits found)
  keepsHeld := free_keepsHeld ..
  vacates := free_vacates _ (tidy.fits found)
  length := rfl
  arena := nofun
  cell? below := absurd below (Nat.not_lt_zero _)
  content below := absurd below (Nat.not_lt_zero _)
  blank _ := content_of_cell?_none (cell?_of_length_le (Nat.zero_le _) _)
  whole := .inr ⟨Nat.zero_le _, rfl, fun below => absurd below (Nat.not_lt_zero _)⟩

end Reworking

theorem carve_reworks (tidy : state.Tidy) (size : Nat) :
    state.Reworks .empty 0 0 (.inArena ⟨state.memory.arena.watermark, size⟩ 0)
      (state.memory.modifyArena fun arena =>
        { arena with watermark := arena.watermark + size }) where
  alters := allocate_alters tidy.clean size
  keepsHeld := .of_bookkeeping rfl rfl
  vacates := .of_onHeap (.of_bookkeeping rfl rfl)
  length := rfl
  arena _ := .inr rfl
  cell? below := absurd below (Nat.not_lt_zero _)
  content below := absurd below (Nat.not_lt_zero _)
  blank _ := content_of_cell?_none (cell?_of_length_le (Nat.zero_le _) _)
  whole := .inl rfl

end TaskState.Tidy

end ScopeMachine
