import ScopeMachine.Proofs.Frames.Deeds
import ScopeMachine.Proofs.Frames.Integrity
import ScopeMachine.Proofs.Storage.Sparing

/-!
Freeing a table on the heap. It disturbs another table exactly when the slice it still holds on to
has come to belong to that table, which happens when it has outlived the frame of the slice.
-/

namespace ScopeMachine

open Memory Table

namespace Workspace

variable {Code : Type}

/-- The table of a key, as it is. -/
def tableAt? (state : Workspace Code) : Key → Option Table
  | .entry number => (state.entryAt? number).map (·.table)
  | .scope id => some (state.machine.heap.scope id).members

/-- Freeing a table at hand leaves another one its length, its cells and their contents, and the
watermark at or above the end of its slice. -/
structure Spares (state : Workspace Code) (number : Nat) (key : Key) : Prop where
  table : (state.step (.free number)).tableAt? key = state.tableAt? key
  stands : ∀ {table : Table}, state.tableAt? key = some table →
    table.Stands state.memory (state.step (.free number)).memory
  watermark : ∀ {slice : Slice} {length : Nat}, state.tableAt? key = some (.inArena slice length) →
    slice.stop ≤ state.machine.watermark →
    slice.stop ≤ (state.step (.free number)).machine.watermark

def Menaces (state : Workspace Code) (number : Nat) (key : Key) : Prop :=
  ∃ cells reserved birth table, state.entryAt? number = some ⟨.onHeap cells (some reserved),
    birth⟩ ∧
    state.tableAt? key = some table ∧
    (table.Overlaid state.machine.host.shares reserved state.memory ∨
      ∃ slice length, table = .inArena slice length ∧
        state.memory.arena.isTop reserved.offset reserved.capacity = true ∧
        slice.stop ≤ state.machine.watermark ∧ reserved.offset < slice.stop)

variable {state : Workspace Code}

private theorem step_free {number : Nat} {entry : Entry}
    (held : state.entryAt? number = some entry) :
    state.step (.free number) =
      (state.withMemory (entry.table.free state.machine.host.shares state.memory)).setEntry number
        none := by
  unfold step
  dsimp only
  rw [held]

private theorem tableAt?_setEntry {number : Nat} {key : Key} (apart : key ≠ .entry number)
    (content : Option Entry) :
    (state.setEntry number content).tableAt? key = state.tableAt? key := by
  cases key with
  | entry other =>
      have different : other ≠ number := fun same => apart (congrArg Key.entry same)
      exact congrArg (Option.map (·.table)) (entryAt?_setEntry_ne different state content)
  | scope id => rfl

private theorem tableAt?_aloof (detached : state.Detached) {key : Key} {table : Table}
    (found : state.tableAt? key = some table) : table.Aloof state.memory := by
  cases key with
  | entry number =>
      obtain ⟨entry, held, rfl⟩ := Option.map_eq_some_iff.mp found
      exact detached.entries held
  | scope id =>
      cases found
      exact detached.machine.aloof id

private theorem spares_of_unreserved {number birth : Nat} {cells : Array CellId} {key : Key}
    (held : state.entryAt? number = some ⟨.onHeap cells none, birth⟩)
    (apart : key ≠ .entry number) : state.Spares number key := by
  constructor
  · rw [step_free held, tableAt?_setEntry apart]
    cases key <;> rfl
  · rw [step_free held]
    exact fun _ => ⟨fun _ => rfl, fun _ => rfl⟩
  · rw [step_free held]
    exact fun _ => id

private theorem Detached.spares_iff (detached : state.Detached) {number : Nat} {entry : Entry}
    {key : Key}
    (held : state.entryAt? number = some entry) (heaped : entry.table.isArena = false)
    (apart : key ≠ .entry number) : state.Spares number key ↔ ¬ state.Menaces number key := by
  obtain ⟨⟨cells, reserved⟩ | ⟨slice, length⟩, birth⟩ := entry
  · cases reserved with
    | none =>
        refine ⟨fun _ => ?_, fun _ => spares_of_unreserved held apart⟩
        rintro ⟨_, _, _, _, found, -⟩
        cases held.symm.trans found
    | some reserved =>
        obtain ⟨sameCells, sameSlots, watermark⟩ :=
          free_reserved state.machine.host.shares cells reserved state.memory
        have same : (state.step (.free number)).tableAt? key = state.tableAt? key := by
          rw [step_free held, tableAt?_setEntry apart]
          cases key <;> rfl
        have stands : ∀ {table : Table}, state.tableAt? key = some table →
            (table.Stands state.memory (state.step (.free number)).memory ↔
              ¬ table.Overlaid state.machine.host.shares reserved state.memory) := by
          intro table found
          rw [step_free held]
          exact (stands_of_bookkeeping sameCells sameSlots).trans (release_stands_iff _
            detached.machine.sound (tableAt?_aloof detached found) reserved)
        have lowered : (state.step (.free number)).machine.watermark =
            if state.memory.arena.isTop reserved.offset reserved.capacity then reserved.offset
            else state.machine.watermark := by
          rw [step_free held]
          exact watermark
        constructor
        · rintro spares ⟨_, _, _, table, found, other, menace⟩
          cases held.symm.trans found
          rcases menace with overlaid | ⟨slice, length, rfl, top, within, above⟩
          · exact (stands other).mp (spares.stands other) overlaid
          · have kept := spares.watermark other within
            rw [lowered, if_pos top] at kept
            exact Nat.not_lt_of_le kept above
        · intro harmless
          refine ⟨same, fun {table} found => (stands found).mpr fun overlaid => ?_,
            fun {slice length} found within => ?_⟩
          · exact harmless ⟨cells, reserved, birth, table, held, found, .inl overlaid⟩
          · rw [lowered]
            split
            next top =>
              refine Nat.le_of_not_lt fun above => harmless ?_
              exact ⟨cells, reserved, birth, _, held, found,
                .inr ⟨slice, length, rfl, top, within, above⟩⟩
            next => exact within
  · cases heaped

def Roomy (state : Workspace Code) (key : Key) : Prop :=
  ∀ (slice : Slice) (length : Nat), state.tableAt? key = some (.inArena slice length) →
    0 < slice.capacity

private theorem tableOf_of_tableAt? {key : Key} {table : Table} (live : state.Live key)
    (found : state.tableAt? key = some table) :
    ∃ birth, state.tableOf key = some (table, birth) := by
  cases key with
  | entry number =>
      obtain ⟨entry, held, rfl⟩ := Option.map_eq_some_iff.mp found
      exact ⟨_, tableOf_entry.mpr held⟩
  | scope id =>
      cases found
      obtain ⟨birth, hosted⟩ := Option.isSome_iff_exists.mp live
      exact ⟨birth, tableOf_scope.mpr (.inl ⟨hosted, rfl⟩)⟩

private theorem Settled.harmless (settled : state.Settled) {number : Nat} {key : Key}
    (live : state.Live key) (roomy : state.Roomy key) (apart : key ≠ .entry number) :
    ¬ state.Menaces number key := by
  rintro ⟨cells, reserved, birth, table, held, found, menace⟩
  obtain ⟨birth', found'⟩ := tableOf_of_tableAt? live found
  have fits := settled.fits found'
  have separate : ∀ {position : Nat}, Between reserved.offset reserved.capacity position →
      ¬ table.Spans position := fun within =>
    settled.apart (Ne.symm apart) (tableOf_entry.mpr held) found' (spans_reserved.mpr within)
  rcases menace with ⟨slice, length, slot, rfl, below, within, -⟩ |
    ⟨slice, length, rfl, top, inside, above⟩
  · exact separate within (spans_of_lt (fits.room rfl) below)
  · -- The last slot of the other slice lies in the slice that is on top.
    have room := roomy slice length found
    obtain ⟨stop, -⟩ := Arena.isTop_iff.mp top
    have stop : reserved.offset + reserved.capacity = state.machine.watermark := stop
    have last : slice.stop = slice.offset + slice.capacity := rfl
    have within : Between reserved.offset reserved.capacity (slice.stop - 1) := by
      constructor <;> omega
    exact separate within (spans_inArena.mpr (by constructor <;> omega))

/-- Whatever a machine has been through, freeing a table on the heap spares another table just when
the slice it holds on to is no menace to that table. In a run in which tables go with their frames
and grow in place only in their own, every table with room is spared. -/
theorem free_spares_iff (limits : Limits) (choice : GlobalChoice) :
    (∀ (deeds : List (Deed Code)) (number : Nat) (entry : Entry) (key : Key),
      ((fresh limits choice).after deeds).entryAt? number = some entry →
      entry.table.isArena = false → key ≠ .entry number →
      (((fresh limits choice).after deeds).Spares number key ↔
        ¬ ((fresh limits choice).after deeds).Menaces number key)) ∧
    (∀ (moves : List Move) (number : Nat) (entry : Entry) (key : Key),
      (fresh limits choice : Workspace Code).Tame moves →
      ((fresh limits choice : Workspace Code).run moves).entryAt? number = some entry →
      entry.table.isArena = false → key ≠ .entry number →
      ((fresh limits choice : Workspace Code).run moves).Live key →
      ((fresh limits choice : Workspace Code).run moves).Roomy key →
      ((fresh limits choice : Workspace Code).run moves).Spares number key) := by
  constructor
  · intro deeds number entry key held heaped apart
    exact ((fresh_detached limits choice).after deeds).spares_iff held heaped apart
  · intro moves number entry key tame held heaped apart live roomy
    have settled := settled_run limits choice tame
    have start : (fresh limits choice : Workspace Code).Detached := fresh_detached limits choice
    have detached := start.after (moves.map .move)
    rw [after_moves] at detached
    exact (detached.spares_iff held heaped apart).mpr (settled.harmless live roomy apart)

def outgrown : List Move :=
  [.openFrame "outer" "" ⟨0⟩, .allocateTable 1, .allocateTable 1, .work 0 (.push (.bool true)),
    .work 0 (.push (.bool true)), .work 1 (.push (.bool true))]

theorem free_spares_outgrown :
    ((fresh .default .empty : Workspace Unit).run outgrown).Spares 0 (.entry 1) := by
  have tame : (fresh .default .empty : Workspace Unit).Tame outgrown := by
    refine ⟨not_stray_of_idle rfl, not_stray_of_idle rfl, not_stray_of_idle rfl,
      not_stray_of_innermost ?_, not_stray_of_innermost ?_, not_stray_of_innermost ?_, trivial⟩
    all_goals decide +kernel
  have outgrew : (((fresh .default .empty : Workspace Unit).run outgrown).entryAt? 0).map
      (·.table.isArena) = some false := by decide +kernel
  have other : ((fresh .default .empty : Workspace Unit).run outgrown).tableAt? (.entry 1) =
      some (.inArena ⟨1, 1⟩ 1) := by decide +kernel
  obtain ⟨entry, held, heaped⟩ := Option.map_eq_some_iff.mp outgrew
  refine (free_spares_iff .default .empty).2 outgrown 0 entry (.entry 1) tame held heaped
    (by decide) trivial fun slice length found => ?_
  cases other.symm.trans found
  decide

def outlived : List (Deed Unit) :=
  [.move (.openFrame "outer" "" ⟨0⟩), .move (.openFrame "inner" "" ⟨0⟩),
    .move (.allocateTable 1), .move (.allocateTable 1), .move (.work 0 (.push (.bool true))),
    .move (.work 0 (.push (.bool true))), .closeFrame [], .move (.allocateTable 1),
    .move (.work 2 (.push (.bool true)))]

/-- Freeing the table then wipes what the outer frame has stored, and takes its slot away. -/
theorem free_wipes_outlived :
    (((fresh .default .empty).after outlived).tableAt? (.entry 0)).map (·.isArena) = some false ∧
      ¬ ((fresh .default .empty).after outlived).Spares 0 (.entry 2) ∧
      (((fresh .default .empty).after outlived).content? (.entry 2) 0).map (·.value.isNull) =
        some false ∧
      ((((fresh .default .empty).after outlived).step (.free 0)).content? (.entry 2) 0).map
        (·.value.isNull) = some true := by
  have other : ((fresh .default .empty).after outlived).tableAt? (.entry 2) =
      some (.inArena ⟨0, 1⟩ 1) := by decide +kernel
  have within : 1 ≤ ((fresh .default .empty).after outlived).machine.watermark := by
    decide +kernel
  have lowered : (((fresh .default .empty).after outlived).step (.free 0)).machine.watermark =
    0 := by
    decide +kernel
  refine ⟨by decide +kernel, fun spares => ?_, by decide +kernel, by decide +kernel⟩
  have kept := spares.watermark other within
  rw [lowered] at kept
  exact absurd kept (by decide)

end Workspace

end ScopeMachine
