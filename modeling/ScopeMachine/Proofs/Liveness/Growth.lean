import ScopeMachine.Proofs.Liveness.Lost
import ScopeMachine.Proofs.Storage.SingleTable

namespace ScopeMachine

variable {live : Handle → Prop}

/-- Whatever the value holds is live. -/
def Value.Kept (live : Handle → Prop) (value : Value) : Prop :=
  ∀ handle, value.holds handle = true → live handle

theorem Value.kept_of_holds_nothing {value : Value}
    (nothing : ∀ handle, value.holds handle = false) :
    value.Kept live :=
  fun handle holds => nomatch (nothing handle).symm.trans holds

theorem Value.kept_null : Value.null.Kept live := kept_of_holds_nothing Heap.holds_null

theorem Value.kept_iff {value : Value} : value.Kept live ↔ ∀ handle ∈ value.handles, live handle :=
  forall_congr' fun _ => imp_congr_left mem_handles.symm

theorem Value.kept_object {id : ScopeId} (alive : live (.scope id)) :
    (Value.object id).Kept live :=
  kept_iff.mpr (List.forall_mem_singleton.mpr alive)

theorem Value.kept_function {id : FunctionId} (alive : live (.function id)) :
    (Value.function id).Kept live :=
  kept_iff.mpr (List.forall_mem_singleton.mpr alive)

namespace Memory

/-- Cells that slots name are live, and so is every cell there will be. -/
structure Serves (live : Handle → Prop) (memory : Memory) : Prop where
  fresh : ∀ id : CellId, memory.cells.size ≤ id.index → live (.cell id)
  named : ∀ {position : Nat} {id : CellId}, memory.arena.peek position = some id →
    live (.cell id)

/-- Cells hold what they held or what is live, and slots name what was named or is live. -/
structure Grows (live : Handle → Prop) (before after : Memory) : Prop where
  size : before.cells.size ≤ after.cells.size
  value : ∀ {id : CellId} {handle : Handle}, (after.value id).holds handle = true →
    (before.value id).holds handle = true ∨ live handle
  named : ∀ {position : Nat} {id : CellId}, after.arena.peek position = some id →
    (∃ origin, before.arena.peek origin = some id) ∨ live (.cell id)

namespace Grows

variable {before after : Memory}

theorem refl (memory : Memory) : memory.Grows live memory :=
  ⟨Nat.le_refl _, .inl, fun named => .inl ⟨_, named⟩⟩

theorem trans {first second third : Memory} (left : first.Grows live second)
    (right : second.Grows live third) : first.Grows live third := by
  refine ⟨Nat.le_trans left.size right.size, fun holds => ?_, fun named => ?_⟩
  · rcases right.value holds with earlier | alive
    · exact left.value earlier
    · exact .inr alive
  · rcases right.named named with ⟨origin, earlier⟩ | alive
    · exact left.named earlier
    · exact .inr alive

theorem serves (grows : before.Grows live after) (serves : before.Serves live) :
    after.Serves live := by
  refine ⟨fun id fresh => serves.fresh id (Nat.le_trans grows.size fresh), fun named => ?_⟩
  rcases grows.named named with ⟨origin, earlier⟩ | alive
  · exact serves.named earlier
  · exact alive

/-- Bookkeeping alone. -/
theorem of_slots (cells : after.cells = before.cells)
    (slots : after.arena.slots = before.arena.slots) : before.Grows live after := by
  refine ⟨Nat.le_of_eq (congrArg Array.size cells.symm), fun holds => .inl ?_,
    fun {position id} named => .inl ⟨position, ?_⟩⟩
  · unfold Memory.value Memory.cell at *
    exact cells ▸ holds
  · unfold Arena.peek at *
    exact slots ▸ named

end Grows

theorem new_grows (memory : Memory) {cell : Cell} (kept : cell.value.Kept live) :
    memory.Grows live (memory.new cell).2 := by
  refine ⟨by simp [new], fun {id handle} holds => ?_, fun named => .inl ⟨_, named⟩⟩
  by_cases same : id = (memory.new cell).1
  · refine .inr (kept handle ?_)
    rw [value, same, cell_new_self] at holds
    exact holds
  · refine .inl ?_
    have indices : id.index ≠ memory.cells.size := fun index => same (by
      obtain ⟨number⟩ := id
      exact congrArg CellId.mk index)
    simpa [value, Memory.cell, new, Array.getElem?_push, indices] using holds

theorem modifyCell_grows (memory : Memory) (id : CellId) {change : Cell → Cell}
    (kept : ∀ cell handle, (change cell).value.holds handle = true →
      cell.value.holds handle = true ∨ live handle) :
    memory.Grows live (memory.modifyCell id change) := by
  refine ⟨by simp, fun {other handle} holds => ?_, fun named => .inl ⟨_, named⟩⟩
  by_cases same : other = id
  · subst same
    by_cases old : other.index < memory.cells.size
    · rw [value, cell_modifyCell_self old] at holds
      exact kept _ handle holds
    · exact .inl (by simpa [value, Memory.cell, modifyCell, old] using holds)
  · rw [value, cell_modifyCell_ne same] at holds
    exact .inl holds

/-- A cell that is given a live value, or none. -/
theorem setCell_grows (memory : Memory) (id : CellId) {change : Cell → Cell} {value : Value}
    (set : ∀ cell, (change cell).value = value) (kept : value.Kept live) :
    memory.Grows live (memory.modifyCell id change) :=
  modifyCell_grows memory id fun cell handle holds => .inr (kept handle (set cell ▸ holds))

theorem declareCell_grows (memory : Memory) (id : CellId) (permission : Permission) :
    memory.Grows live (memory.modifyCell id (·.declare permission)) := by
  refine modifyCell_grows memory id fun cell handle holds => .inl ?_
  unfold Cell.declare at holds
  split at holds <;> exact holds

theorem assign_grows (memory : Memory) (id : CellId) (name : String) {value : Value}
    (kept : value.Kept live) : memory.Grows live (memory.assign id name value).2 := by
  unfold assign
  split
  next cell assigned =>
    refine setCell_grows memory id (fun _ => ?_) kept
    unfold Cell.assign at assigned
    split at assigned
    next => cases assigned
    next =>
      cases assigned
      rfl
  next => exact .refl memory

private theorem newAll_grows (memory : Memory) {cells : List Cell}
    (kept : ∀ cell ∈ cells, cell.value.Kept live) :
    memory.Grows live (memory.newAll cells).2 := by
  refine ⟨by simp, fun {id handle} holds => ?_, fun {position id} named => .inl ⟨position, ?_⟩⟩
  · by_cases old : id.index < memory.cells.size
    · rw [value, (newAll_confined memory cells).cell old not_false fun _ within => within.elim]
        at holds
      exact .inl holds
    · by_cases made : id.index - memory.cells.size < cells.length
      · have same : id = ⟨memory.cells.size + (id.index - memory.cells.size)⟩ := by
          obtain ⟨number⟩ := id
          have above : memory.cells.size ≤ number := Nat.le_of_not_lt old
          exact congrArg CellId.mk (Nat.add_sub_cancel' above).symm
        rw [value, same, cell_newAll memory made] at holds
        exact .inr (kept _ (List.getElem_mem _) handle holds)
      · have absent : (memory.newAll cells).2.cell id = .blank := by
          simp only [Memory.cell, Array.getD_eq_getD_getElem?]
          rw [Array.getElem?_eq_none (by rw [size_newAll]; omega)]
          rfl
        rw [value, absent] at holds
        exact .inr (Value.kept_null handle holds)
  · simpa using named

private theorem put_grows (memory : Memory) (position : Nat) {content : Option CellId}
    (kept : ∀ id, content = some id → live (.cell id)) :
    memory.Grows live (memory.modifyArena (·.put position content)) := by
  refine ⟨Nat.le_refl _, .inl, fun {other id} named => ?_⟩
  rw [peek_put] at named
  split at named
  next => exact .inr (kept id named)
  next => exact .inl ⟨other, named⟩

private theorem slot_grows {memory : Memory} (serves : memory.Serves live) (position : Nat) :
    memory.Grows live (memory.slot position).2 ∧ live (.cell (memory.slot position).1) := by
  cases named : memory.arena.peek position with
  | some id =>
      rw [slot_of_peek named]
      exact ⟨.refl memory, serves.named named⟩
  | none =>
      rw [slot_of_peek_none named]
      have alive : live (.cell (memory.new .blank).1) := serves.fresh _ (Nat.le_refl _)
      refine ⟨(new_grows memory Value.kept_null).trans (put_grows _ position fun id same => ?_),
        alive⟩
      cases same
      exact alive

private theorem take_grows {memory : Memory} (serves : memory.Serves live) (offset length : Nat) :
    memory.Grows live (memory.take offset length).2 ∧
      ∀ id ∈ (memory.take offset length).1, live (.cell id) := by
  induction length with
  | zero => exact ⟨.refl memory, fun _ listed => nomatch Array.not_mem_empty _ listed⟩
  | succ length induction =>
      obtain ⟨grown, alive⟩ := induction
      obtain ⟨touched, here⟩ := slot_grows (grown.serves serves) (offset + length)
      rw [take_succ]
      refine ⟨grown.trans (touched.trans (put_grows _ _ nofun)), fun id listed => ?_⟩
      rcases Array.mem_push.mp listed with earlier | rfl
      · exact alive id earlier
      · exact here

private theorem wipe_grows (memory : Memory) (id : CellId) :
    memory.Grows live (memory.modifyCell id (·.reset .null)) :=
  setCell_grows memory id (fun _ => rfl) Value.kept_null

private theorem release_grows (shared : CellId → Bool) (memory : Memory) (low high : Nat) :
    memory.Grows live (memory.release shared low high) := by
  unfold release
  generalize List.range' low _ = positions
  induction positions generalizing memory with
  | nil => exact .refl memory
  | cons position positions induction =>
      refine Grows.trans ?_ (induction (memory.releaseSlot shared position))
      unfold releaseSlot
      split
      next => exact .refl memory
      next id _ =>
        split
        next => exact put_grows memory position nofun
        next => exact setCell_grows memory id (fun _ => rfl) Value.kept_null

private theorem resetSlice_grows (memory : Memory) (offset length : Nat) :
    memory.Grows live (memory.resetSlice offset length) := by
  unfold resetSlice
  generalize List.range' offset length = positions
  induction positions generalizing memory with
  | nil => exact .refl memory
  | cons position positions induction =>
      rw [List.foldl_cons]
      refine Grows.trans ?_ (induction _)
      split
      next => exact .refl memory
      next id _ => exact wipe_grows memory id

theorem closeFrame_grows (shared : CellId → Bool) (memory : Memory) (mark : Nat) :
    memory.Grows live (memory.closeFrame shared mark) := by
  have closed : memory.Grows live (memory.modifyArena (·.closeFrame)) := .of_slots rfl rfl
  unfold closeFrame releaseTo
  split
  next => exact closed
  next => exact closed.trans ((release_grows shared _ mark _).trans (.of_slots rfl rfl))

end Memory

namespace Table

open Memory

/-- The cells that the table keeps on the heap are live. -/
def Kept (live : Handle → Prop) (table : Table) : Prop :=
  ∀ id ∈ table.heapCells, live (.cell id)

theorem kept_inArena (slice : Slice) (length : Nat) : (inArena slice length).Kept live :=
  fun _ listed => nomatch Array.not_mem_empty _ listed

theorem kept_empty : empty.Kept live := fun _ listed => nomatch Array.not_mem_empty _ listed

/-- Work on a table: afterwards it keeps the cells it kept, or live ones. -/
structure Grows (live : Handle → Prop) (table : Table) (before : Memory) (table' : Table)
    (after : Memory) : Prop where
  memory : before.Grows live after
  kept : table.Kept live → table'.Kept live

namespace Grows

variable {table middleTable table' : Table} {before middle after : Memory}

theorem refl (table : Table) (memory : Memory) : Grows live table memory table memory :=
  ⟨.refl memory, id⟩

theorem trans (left : Grows live table before middleTable middle)
    (right : Grows live middleTable middle table' after) : Grows live table before table' after :=
  ⟨left.memory.trans right.memory, right.kept ∘ left.kept⟩

theorem of_memory (table : Table) (grows : before.Grows live after) :
    Grows live table before table after :=
  ⟨grows, id⟩

end Grows

variable {table : Table} {memory : Memory} (serves : memory.Serves live)

include serves

theorem copyOut_grows :
    Grows live table memory (table.copyOut memory).1 (table.copyOut memory).2 := by
  cases table with
  | onHeap cells reserved => exact .refl _ memory
  | inArena slice length =>
      obtain ⟨grown, alive⟩ := take_grows serves slice.offset length
      unfold copyOut
      dsimp only
      split
      next popped =>
        obtain ⟨-, rfl⟩ := Arena.popTop?_eq_some popped
        exact ⟨grown.trans (.of_slots rfl rfl), fun _ => alive⟩
      next => exact ⟨grown, fun _ => alive⟩

theorem ensureCapacity_grows (capacity : Nat) :
    Grows live table memory (table.ensureCapacity capacity memory).1
      (table.ensureCapacity capacity memory).2 := by
  cases table with
  | onHeap cells reserved => exact .refl _ memory
  | inArena slice length =>
      unfold ensureCapacity
      dsimp only
      split
      next => exact .refl _ memory
      next =>
        split
        next grown =>
          obtain ⟨-, -, rfl⟩ := Arena.grow?_eq_some grown
          exact ⟨.of_slots rfl rfl, fun _ => kept_inArena _ _⟩
        next => exact copyOut_grows serves

theorem newAll_kept (cells : List Cell) (reserved : Option Slice) :
    (onHeap (memory.newAll cells).1 reserved).Kept live := by
  intro id listed
  have listed : id ∈ (memory.newAll cells).1 := listed
  rw [newAll_eq] at listed
  obtain ⟨number, within, rfl⟩ := List.mem_map.mp (List.mem_toArray.mp listed)
  exact serves.fresh _ (List.mem_range'_1.mp within).1

theorem extendTo_grows (length : Nat) :
    Grows live table memory (table.extendTo length memory).1 (table.extendTo length memory).2 := by
  cases table with
  | inArena slice old => exact ⟨.refl memory, fun _ => kept_inArena _ _⟩
  | onHeap cells reserved =>
      refine ⟨newAll_grows memory fun cell listed => ?_, fun kept id listed => ?_⟩
      · rw [List.eq_of_mem_replicate listed]
        exact Value.kept_null
      · rcases Array.mem_append.mp listed with old | fresh
        · exact kept id old
        · exact newAll_kept serves _ none id fresh

theorem extended_grows (slot : Nat) :
    Grows live table memory (table.extended slot memory).1 (table.extended slot memory).2 := by
  unfold extended
  split
  next => exact .refl _ memory
  next =>
    have roomy := @ensureCapacity_grows live table memory serves (slot + 1)
    exact roomy.trans (extendTo_grows (roomy.memory.serves serves) _)

theorem cellAt_grows (slot : Nat) :
    Grows live table memory (table.cellAt slot memory).2.1 (table.cellAt slot memory).2.2 := by
  have extended := @extended_grows live table memory serves slot
  rw [cellAt_eq]
  generalize table.extended slot memory = result at extended ⊢
  obtain ⟨cells | slice, after⟩ := result
  · exact extended
  · exact extended.trans (.of_memory _ (slot_grows (extended.memory.serves serves) _).1)

/-- The cell itself is live too. -/
theorem cellAt_live (kept : table.Kept live) (slot : Nat) :
    live (.cell (table.cellAt slot memory).1) := by
  have extended := @extended_grows live table memory serves slot
  have long := length_extended table slot memory
  rw [cellAt_eq]
  generalize table.extended slot memory = result at extended long ⊢
  obtain ⟨cells | slice, after⟩ := result
  · have inside : slot < cells.size :=
      Nat.lt_of_lt_of_eq (Nat.lt_of_lt_of_le (Nat.lt_succ_self slot) (Nat.le_max_right ..))
        long.symm
    refine extended.kept kept _ (?_ : cells.getD slot ⟨0⟩ ∈ cells)
    rw [Array.getD_eq_getD_getElem?, Array.getElem?_eq_getElem inside]
    exact Array.getElem_mem inside
  · exact (slot_grows (extended.memory.serves serves) _).2

theorem push_grows {value : Value} (kept : value.Kept live) :
    Grows live table memory (table.push value memory).1 (table.push value memory).2 :=
  (cellAt_grows serves table.length).trans
    (.of_memory _ (setCell_grows _ _ (fun _ => rfl) kept))

theorem pushEach_grows {values : List Value} (kept : ∀ value ∈ values, value.Kept live) :
    Grows live table memory (table.pushEach values memory).1 (table.pushEach values memory).2 := by
  unfold pushEach
  induction values generalizing table memory with
  | nil => exact .refl ..
  | cons value values induction =>
      have pushed := @push_grows live table memory serves value (kept value List.mem_cons_self)
      rw [List.foldl_cons]
      exact pushed.trans (induction (pushed.memory.serves serves)
        fun value listed => kept value (List.mem_cons_of_mem _ listed))

theorem safeCopy_grows :
    Grows live table memory (table.safeCopy memory).1 (table.safeCopy memory).2.2 :=
  ⟨(copyOut_grows serves).memory, (copyOut_grows serves).kept⟩

theorem ofValues_grows {values : List Value} (kept : ∀ value ∈ values, value.Kept live) :
    Grows live empty memory (ofValues values memory).1 (ofValues values memory).2 := by
  refine ⟨newAll_grows memory fun cell listed => ?_, fun _ => newAll_kept serves _ none⟩
  obtain ⟨value, member, rfl⟩ := List.mem_map.mp listed
  exact kept value member

omit serves

variable (shared : CellId → Bool)

theorem truncate_grows (table : Table) (memory : Memory) (length : Nat) :
    Grows live table memory (table.truncate shared length memory).1
      (table.truncate shared length memory).2 := by
  unfold truncate
  split
  next => exact .refl ..
  next =>
    cases table with
    | onHeap cells reserved =>
        refine ⟨.refl memory, fun kept id listed => kept id ?_⟩
        change id ∈ cells.take length at listed
        rw [Array.take_eq_extract] at listed
        obtain ⟨slot, inside, rfl⟩ := Array.mem_extract_iff_getElem.mp listed
        exact Array.getElem_mem _
    | inArena slice old => exact ⟨release_grows .., fun _ => kept_inArena _ _⟩

theorem reset_grows (table : Table) (memory : Memory) :
    memory.Grows live (table.reset memory) := by
  cases table with
  | inArena slice length => exact resetSlice_grows memory slice.offset length
  | onHeap cells reserved =>
      unfold reset
      dsimp only
      rw [← Array.foldl_toList]
      generalize cells.toList = ids
      induction ids generalizing memory with
      | nil => exact .refl memory
      | cons id ids induction => exact (wipe_grows memory id).trans (induction _)

theorem free_grows (table : Table) (memory : Memory) :
    memory.Grows live (table.free shared memory) := by
  unfold free
  cases table.slice? with
  | none => exact .refl memory
  | some slice =>
      have released := @release_grows live shared memory slice.offset slice.stop
      dsimp only
      split
      next popped =>
        obtain ⟨-, rfl⟩ := Arena.popTop?_eq_some popped
        exact released.trans (.of_slots rfl rfl)
      next => exact released

end Table

end ScopeMachine
