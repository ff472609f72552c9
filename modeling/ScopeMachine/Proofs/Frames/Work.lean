import ScopeMachine.Proofs.Frames.Workspace
import ScopeMachine.Proofs.Storage.SingleTable

namespace ScopeMachine

namespace Table

variable {table : Table} {memory : Memory}

theorem spans_copyOut {position : Nat} (spanned : (table.copyOut memory).1.Spans position) :
    table.Spans position := by
  cases table with
  | onHeap cells reserved => exact spanned
  | inArena slice length =>
      unfold copyOut at spanned
      dsimp only at spanned
      split at spanned
      next => exact (not_spans_onHeap spanned).elim
      next => exact spans_inArena.mpr (spans_reserved.mp spanned)

private theorem spans_ensureCapacity {capacity position : Nat}
    (still : ¬ table.growsInPlace capacity memory)
    (spanned : (table.ensureCapacity capacity memory).1.Spans position) :
    table.Spans position := by
  cases table with
  | onHeap cells reserved => exact spanned
  | inArena slice length =>
      unfold ensureCapacity at spanned
      dsimp only at spanned
      split at spanned
      next => exact spanned
      next small =>
        split at spanned
        next grown => simp [growsInPlace, grown, Nat.lt_of_not_le small] at still
        next => exact spans_copyOut spanned

private theorem spans_extendTo {length position : Nat}
    (spanned : (table.extendTo length memory).1.Spans position) : table.Spans position := by
  cases table with
  | onHeap cells reserved => exact spanned
  | inArena slice old => exact spans_inArena.mpr (spans_inArena.mp spanned)

private theorem spans_cellAt {slot position : Nat}
    (still : ¬ table.growsInPlace (Work.demand (.touch slot) table) memory)
    (spanned : (table.cellAt slot memory).2.1.Spans position) : table.Spans position := by
  have extended : (table.extended slot memory).1.Spans position := by
    rw [cellAt_eq] at spanned
    generalize table.extended slot memory = result at spanned ⊢
    obtain ⟨cells | slice, after⟩ := result <;> exact spanned
  unfold Table.extended at extended
  split at extended
  next => exact extended
  next short =>
    simp only [Work.demand, if_neg short] at still
    exact spans_ensureCapacity still (spans_extendTo extended)

namespace Work

variable (shared : CellId → Bool)

theorem run_alters (clean : memory.Clean) (fits : table.Fits memory) (work : Work) :
    Alters (fun id => work.written? table memory = some id ∧
        id ∈ (work.run shared table memory).1.heapCells) table memory
      (work.run shared table memory).1 (work.run shared table memory).2 := by
  cases work with
  | touch slot =>
      exact (cellAt_carries clean fits slot).1.toAlters.mono (fun _ => False.elim) nofun
  | ensureCapacity capacity =>
      exact (ensureCapacity_carries clean fits capacity).toAlters.mono (fun _ => False.elim) nofun
  | truncate length =>
      exact (truncate_alters shared clean fits length).1.mono (fun _ => False.elim) nofun
  | write slot change =>
      have alters := write_alters clean fits slot change
      refine alters.mono (fun _ ⟨same, listed⟩ => ⟨congrArg some same.symm, listed⟩) ?_
      rintro id ⟨same, listed⟩
      exact alters.unnamed ⟨(Option.some.inj same).symm, listed⟩
  | push value =>
      have alters := write_alters clean fits table.length (·.reset value)
      refine alters.mono (fun _ ⟨same, listed⟩ => ⟨congrArg some same.symm, listed⟩) ?_
      rintro id ⟨same, listed⟩
      exact alters.unnamed ⟨(Option.some.inj same).symm, listed⟩

theorem run_keeps (clean : memory.Clean) (fits : table.Fits memory) (work : Work) {slot : Nat}
    (still : slot < (work.run shared table memory).1.length) :
    (∀ {id : CellId}, table.cell? slot memory = some id →
        (work.run shared table memory).1.cell? slot (work.run shared table memory).2 = some id) ∧
      ((∀ {id : CellId}, work.written? table memory = some id →
          (work.run shared table memory).1.cell? slot (work.run shared table memory).2 ≠
            some id) →
        (work.run shared table memory).1.content slot (work.run shared table memory).2 =
          table.content slot memory) := by
  have writing : ∀ (written : Nat) (change : Cell → Cell),
      (∀ {id : CellId}, table.cell? slot memory = some id →
        (table.cellAt written memory).2.1.cell? slot
          ((table.cellAt written memory).2.2.modifyCell (table.cellAt written memory).1 change) =
            some id) ∧
      ((∀ {id : CellId}, some (table.cellAt written memory).1 = some id →
        (table.cellAt written memory).2.1.cell? slot
          ((table.cellAt written memory).2.2.modifyCell (table.cellAt written memory).1 change) ≠
            some id) →
        (table.cellAt written memory).2.1.content slot
          ((table.cellAt written memory).2.2.modifyCell (table.cellAt written memory).1 change) =
            table.content slot memory) := by
    intro written change
    obtain ⟨carries, reached⟩ := cellAt_carries clean fits written
    constructor
    · intro id named
      rw [cell?_modifyCell]
      exact carries.cell? named
    · intro elsewhere
      rw [write_content clean fits, if_neg]
      rintro rfl
      refine elsewhere rfl ?_
      rw [cell?_modifyCell]
      exact reached
  cases work with
  | touch touched =>
      have carries := (cellAt_carries clean fits touched).1
      exact ⟨carries.cell?, fun _ => carries.content slot⟩
  | ensureCapacity capacity =>
      have carries := ensureCapacity_carries clean fits capacity
      exact ⟨carries.cell?, fun _ => carries.content slot⟩
  | truncate length =>
      have below : slot < length := by
        change slot < (table.truncate shared length memory).1.length at still
        rw [length_truncate] at still
        exact Nat.lt_of_lt_of_le still (Nat.min_le_right _ _)
      have kept := (truncate_alters shared clean fits length).2 below
      exact ⟨fun named => kept.1.trans named, fun _ => kept.2⟩
  | write written change => exact writing written change
  | push value => exact writing table.length (·.reset value)

theorem spans_run {work : Work} (still : ¬ table.growsInPlace (work.demand table) memory)
    {position : Nat} (spanned : (work.run shared table memory).1.Spans position) :
    table.Spans position := by
  cases work with
  | touch slot => exact spans_cellAt still spanned
  | write slot change => exact spans_cellAt still spanned
  | push value =>
      refine spans_cellAt ?_ spanned
      rw [demand, if_neg (Nat.lt_irrefl _)]
      exact still
  | ensureCapacity capacity => exact spans_ensureCapacity still spanned
  | truncate length =>
      change (table.truncate shared length memory).1.Spans position at spanned
      unfold Table.truncate at spanned
      split at spanned
      next => exact spanned
      next =>
        cases table with
        | onHeap cells reserved => exact spanned
        | inArena slice old => exact spans_inArena.mpr (spans_inArena.mp spanned)

theorem run_growing {work : Work}
    (growing : table.growsInPlace (work.demand table) memory = true) :
    ∃ offset capacity length length', table = .inArena ⟨offset, capacity⟩ length ∧
      capacity < work.demand table ∧ memory.arena.isTop offset capacity = true ∧
      (work.run shared table memory).1 = .inArena ⟨offset, work.demand table⟩ length' := by
  cases table with
  | onHeap cells reserved => cases growing
  | inArena slice length =>
      obtain ⟨offset, capacity⟩ := slice
      obtain ⟨short, room⟩ := Bool.and_eq_true_iff.mp growing
      have lacking : capacity < work.demand (.inArena ⟨offset, capacity⟩ length) :=
        of_decide_eq_true short
      obtain ⟨arena, grown⟩ := Option.isSome_iff_exists.mp room
      obtain ⟨top, -, -⟩ := Arena.grow?_eq_some grown
      have made : ∀ demand, work.demand (.inArena ⟨offset, capacity⟩ length) = demand →
          (Table.ensureCapacity (.inArena ⟨offset, capacity⟩ length) demand memory).1 =
            .inArena ⟨offset, demand⟩ length := by
        rintro _ rfl
        unfold Table.ensureCapacity
        dsimp only at grown ⊢
        rw [if_neg (Nat.not_le_of_lt lacking), grown]
      have touched : ∀ slot, work.demand (.inArena ⟨offset, capacity⟩ length) =
            demand (.touch slot) (.inArena ⟨offset, capacity⟩ length) →
          (Table.cellAt (.inArena ⟨offset, capacity⟩ length) slot memory).2.1 =
            .inArena ⟨offset, work.demand (.inArena ⟨offset, capacity⟩ length)⟩ (slot + 1) := by
        intro slot same
        by_cases below : slot < (Table.inArena ⟨offset, capacity⟩ length).length
        · rw [same, demand, if_pos below] at lacking
          exact absurd lacking (Nat.not_lt_zero _)
        · rw [demand, if_neg below] at same
          have moved := made _ same
          rw [same, cellAt_eq, extended, if_neg below]
          dsimp only
          generalize Table.ensureCapacity _ _ memory = result at moved ⊢
          obtain ⟨table, memory⟩ := result
          cases moved
          rfl
      refine ⟨offset, capacity, length, ?_⟩
      cases work with
      | touch slot => exact ⟨_, rfl, lacking, top, touched slot rfl⟩
      | write slot change => exact ⟨_, rfl, lacking, top, touched slot rfl⟩
      | push value =>
          refine ⟨_, rfl, lacking, top, touched length ?_⟩
          exact (if_neg (Nat.lt_irrefl length)).symm
      | ensureCapacity demand => exact ⟨_, rfl, lacking, top, made _ rfl⟩
      | truncate length => exact absurd lacking (Nat.not_lt_zero _)

theorem isArena_run {work : Work} (heaped : table.isArena = false) :
    (work.run shared table memory).1.isArena = false := by
  cases table with
  | inArena slice length => cases heaped
  | onHeap cells reserved =>
      have touched : ∀ slot, ((onHeap cells reserved).cellAt slot memory).2.1.isArena = false := by
        intro slot
        unfold cellAt
        by_cases below : slot < (onHeap cells reserved).length
        · rw [if_pos below]
          rfl
        · rw [if_neg below]
          rfl
      cases work with
      | touch slot => exact touched slot
      | write slot change => exact touched slot
      | push value => exact touched cells.size
      | ensureCapacity capacity => rfl
      | truncate length =>
          change ((onHeap cells reserved).truncate shared length memory).1.isArena = false
          unfold Table.truncate
          split <;> rfl

theorem run_shifts (work : Work) (table : Table) (memory : Memory) :
    memory.bounds.Shifts (work.run shared table memory).2.bounds := by
  cases work with
  | touch slot => exact cellAt_shifts ..
  | write slot change => exact cellAt_shifts ..
  | push value => exact push_shifts ..
  | ensureCapacity capacity => exact ensureCapacity_shifts ..
  | truncate length => exact .of_eq (bounds_truncate ..)

end Work

end Table

end ScopeMachine
