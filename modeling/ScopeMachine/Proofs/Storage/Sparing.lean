import ScopeMachine.Proofs.Storage.Aloof
import ScopeMachine.Proofs.Storage.SingleTable

namespace ScopeMachine

namespace Memory

variable (shared : CellId → Bool) (memory : Memory)

private theorem peek_releaseSlot (position other : Nat) :
    (memory.releaseSlot shared position).arena.peek other =
      if other = position then (memory.arena.peek other).filter (!shared ·)
      else memory.arena.peek other := by
  unfold releaseSlot
  split
  next untouched =>
    by_cases same : other = position
    · rw [if_pos same, same, untouched]
      rfl
    · rw [if_neg same]
  next id named =>
    split
    next held =>
      rw [peek_put]
      by_cases same : other = position
      · rw [if_pos same, if_pos same, same, named]
        simp [Option.filter_some, held]
      · rw [if_neg same, if_neg same]
    next unshared =>
      change memory.arena.peek other = _
      by_cases same : other = position
      · rw [if_pos same, same, named]
        simp [Option.filter_some, unshared]
      · rw [if_neg same]

/-- A slot that is released keeps its cell unless something else names the cell too. -/
theorem peek_release (low high position : Nat) :
    (memory.release shared low high).arena.peek position =
      if low ≤ position ∧ position < high then (memory.arena.peek position).filter (!shared ·)
      else memory.arena.peek position := by
  have each : ∀ (positions : List Nat) (memory : Memory),
      (positions.foldl (releaseSlot shared) memory).arena.peek position =
        if position ∈ positions then (memory.arena.peek position).filter (!shared ·)
        else memory.arena.peek position := by
    intro positions
    induction positions with
    | nil => exact fun _ => rfl
    | cons first rest induction =>
        intro memory
        rw [List.foldl_cons, induction, peek_releaseSlot]
        by_cases later : position ∈ rest <;> by_cases now : position = first
        · simp [now, Option.filter_filter]
        · simp [now, later]
        · simp [now]
        · simp [now, later]
  unfold release
  rw [each]
  simp only [List.mem_range'_1]
  by_cases touched : position < memory.arena.slots.size
  · by_cases within : low ≤ position ∧ position < high
    · rw [if_pos (by omega), if_pos within]
    · rw [if_neg (by omega), if_neg within]
  · rw [Arena.peek_of_size_le (Nat.le_of_not_lt touched)]
    simp

def Filled (position : Nat) : Prop :=
  ∃ id, memory.arena.peek position = some id ∧ (shared id = true ∨ memory.cell id ≠ .blank)

private theorem release_stands_iff {memory : Memory} (sound : memory.Sound)
    {low high position : Nat}
    (above : low ≤ position) (below : position < high) :
    ((memory.release shared low high).arena.peek position = memory.arena.peek position ∧
      (memory.release shared low high).content position = memory.content position) ↔
      ¬ memory.Filled shared position := by
  rw [peek_release, if_pos ⟨above, below⟩, content_release shared sound above below]
  cases named : memory.arena.peek position with
  | none =>
      rw [content_of_peek_none named]
      refine ⟨fun _ ⟨_, found, _⟩ => ?_, fun _ => ⟨rfl, rfl⟩⟩
      exact nomatch named.symm.trans found
  | some id =>
      rw [content_of_peek named]
      constructor
      · rintro ⟨kept, blank⟩ ⟨other, found, filled⟩
        cases named.symm.trans found
        rcases filled with held | stained
        · simp [held] at kept
        · exact stained blank.symm
      · intro unfilled
        have unshared : shared id = false := by
          cases held : shared id with
          | false => rfl
          | true => exact absurd ⟨id, named, .inl held⟩ unfilled
        refine ⟨by simp [unshared], Classical.byContradiction fun stained => ?_⟩
        exact unfilled ⟨id, named, .inr (Ne.symm stained)⟩

end Memory

namespace Table

open Memory

theorem stands_of_bookkeeping {table : Table} {before middle after : Memory}
    (cells : after.cells = middle.cells) (slots : after.arena.slots = middle.arena.slots) :
    table.Stands before after ↔ table.Stands before middle := by
  have cell? : ∀ slot, table.cell? slot after = table.cell? slot middle := by
    intro slot
    cases table with
    | onHeap ids reserved => rfl
    | inArena slice length =>
        unfold Table.cell? Arena.peek
        rw [slots]
  have content : ∀ slot, table.content slot after = table.content slot middle := by
    intro slot
    unfold Table.content
    rw [cell?]
    unfold Memory.cell
    rw [cells]
  constructor
  · exact fun stands => ⟨fun slot => (cell? slot).symm.trans (stands.cell? slot),
      fun slot => (content slot).symm.trans (stands.content slot)⟩
  · exact fun stands => ⟨fun slot => (cell? slot).trans (stands.cell? slot),
      fun slot => (content slot).trans (stands.content slot)⟩

def Overlaid (shared : CellId → Bool) (table : Table) (reserved : Slice) (memory : Memory) : Prop :=
  ∃ slice length slot, table = .inArena slice length ∧ slot < length ∧
    Between reserved.offset reserved.capacity (slice.offset + slot) ∧
    memory.Filled shared (slice.offset + slot)

variable (shared : CellId → Bool) {memory : Memory}

theorem release_stands_iff {table : Table} (sound : memory.Sound) (aloof : table.Aloof memory)
    (reserved : Slice) :
    table.Stands memory (memory.release shared reserved.offset reserved.stop) ↔
      ¬ table.Overlaid shared reserved memory := by
  have released := release_confined shared memory reserved.offset reserved.stop
  cases table with
  | onHeap cells other =>
      constructor
      · rintro - ⟨_, _, _, same, _⟩
        cases same
      · refine fun _ => ⟨fun _ => rfl, fun slot => ?_⟩
        cases named : cells[slot]? with
        | none =>
            have bare : ∀ memory, (onHeap cells other).cell? slot memory = none := fun _ => named
            rw [content_of_cell?_none (bare _), content_of_cell?_none (bare _)]
        | some id =>
            have here : ∀ memory, (onHeap cells other).cell? slot memory = some id := fun _ => named
            have listed : id ∈ (onHeap cells other).heapCells := mem_heapCells.mpr ⟨slot, named⟩
            rw [content_of_cell? (here _), content_of_cell? (here _)]
            exact released.cell (aloof.old listed) (fun written => written) fun position _ =>
              aloof.unnamed listed position
  | inArena slice length =>
      constructor
      · rintro stands ⟨_, _, slot, same, below, within, filled⟩
        cases same
        refine (Memory.release_stands_iff shared sound within.1 within.2).mp ⟨?_, ?_⟩ filled
        · have kept := stands.cell? slot
          rwa [cell?_inArena below, cell?_inArena below] at kept
        · have kept := stands.content slot
          rwa [content_inArena below, content_inArena below] at kept
      · intro clear
        have each : ∀ slot, slot < length →
            (memory.release shared reserved.offset reserved.stop).arena.peek (slice.offset + slot) =
              memory.arena.peek (slice.offset + slot) ∧
            (memory.release shared reserved.offset reserved.stop).content (slice.offset + slot) =
              memory.content (slice.offset + slot) := by
          intro slot below
          by_cases within : Between reserved.offset reserved.capacity (slice.offset + slot)
          · refine (Memory.release_stands_iff shared sound within.1 within.2).mpr fun filled => ?_
            exact clear ⟨slice, length, slot, rfl, below, within, filled⟩
          · exact ⟨released.peek within, released.content sound within fun _ _ => id⟩
        constructor
        · intro slot
          by_cases below : slot < length
          · rw [cell?_inArena below, cell?_inArena below]
            exact (each slot below).1
          · have beyond : (inArena slice length).length ≤ slot := Nat.le_of_not_lt below
            rw [cell?_of_length_le beyond, cell?_of_length_le beyond]
        · intro slot
          by_cases below : slot < length
          · rw [content_inArena below, content_inArena below]
            exact (each slot below).2
          · have beyond : (inArena slice length).length ≤ slot := Nat.le_of_not_lt below
            rw [content_of_cell?_none (cell?_of_length_le beyond _),
              content_of_cell?_none (cell?_of_length_le beyond _)]

theorem free_reserved (cells : Array CellId) (reserved : Slice) (memory : Memory) :
    ((onHeap cells (some reserved)).free shared memory).cells =
        (memory.release shared reserved.offset reserved.stop).cells ∧
      ((onHeap cells (some reserved)).free shared memory).arena.slots =
        (memory.release shared reserved.offset reserved.stop).arena.slots ∧
      ((onHeap cells (some reserved)).free shared memory).arena.watermark =
        if memory.arena.isTop reserved.offset reserved.capacity then reserved.offset
        else memory.arena.watermark := by
  have bounds : (memory.release shared reserved.offset reserved.stop).arena.bounds =
      memory.arena.bounds := bounds_release ..
  have top : (memory.release shared reserved.offset reserved.stop).arena.isTop reserved.offset
      reserved.capacity = memory.arena.isTop reserved.offset reserved.capacity := by
    have watermark : (memory.release shared reserved.offset reserved.stop).arena.watermark =
        memory.arena.watermark := congrArg Arena.Bounds.watermark bounds
    have floor : (memory.release shared reserved.offset reserved.stop).arena.floor =
        memory.arena.floor := congrArg Arena.Bounds.floor bounds
    unfold Arena.isTop
    rw [floor, watermark]
  unfold free slice?
  dsimp only
  unfold Arena.popTop?
  rw [top]
  split
  next popped =>
    cases top : memory.arena.isTop reserved.offset reserved.capacity with
    | false => simp [top] at popped
    | true =>
        simp only [top, if_true, Option.some.injEq] at popped
        subst popped
        exact ⟨rfl, rfl, rfl⟩
  next kept =>
    cases top : memory.arena.isTop reserved.offset reserved.capacity with
    | false => exact ⟨rfl, rfl, congrArg Arena.Bounds.watermark bounds⟩
    | true => simp [top] at kept

end Table

end ScopeMachine
