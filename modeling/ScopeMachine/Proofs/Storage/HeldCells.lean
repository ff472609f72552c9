import ScopeMachine.Proofs.Storage.Aloof
import ScopeMachine.Proofs.Storage.SingleTable

namespace ScopeMachine

namespace Memory

def Held (memory : Memory) (shared : CellId → Bool) (id : CellId) : Prop :=
  shared id = true ∨ ∀ position, memory.arena.peek position ≠ some id

/-- A step that keeps what is held. -/
structure KeepsHeld (shared : CellId → Bool) (written : CellId → Prop) (before after : Memory) :
    Prop where
  continues : before.Continues after
  cell : ∀ {id : CellId}, id.index < before.cells.size → before.Held shared id → ¬ written id →
    after.cell id = before.cell id

namespace KeepsHeld

variable {shared : CellId → Bool} {written : CellId → Prop} {before middle after : Memory}

theorem size (keeps : KeepsHeld shared written before after) :
    before.cells.size ≤ after.cells.size := keeps.continues.size

theorem held (keeps : KeepsHeld shared written before after) {id : CellId}
    (old : id.index < before.cells.size) (held : before.Held shared id) :
    after.Held shared id :=
  held.imp_right fun unnamed => keeps.continues.unnamed old unnamed

theorem refl (shared : CellId → Bool) (written : CellId → Prop) (memory : Memory) :
    KeepsHeld shared written memory memory :=
  ⟨.refl .., fun _ _ _ => rfl⟩

theorem trans (left : KeepsHeld shared written before middle)
    (right : KeepsHeld shared written middle after) : KeepsHeld shared written before after := by
  refine ⟨left.continues.trans right.continues, fun {id} old held unwritten => ?_⟩
  have later := right.cell (Nat.lt_of_lt_of_le old left.size) (left.held old held) unwritten
  exact later.trans (left.cell old held unwritten)

theorem mono {written' : CellId → Prop} (keeps : KeepsHeld shared written before after)
    (more : ∀ id, written id → written' id) : KeepsHeld shared written' before after :=
  ⟨keeps.continues, fun old held unwritten =>
    keeps.cell old held fun wrote => unwritten (more _ wrote)⟩

theorem settle (keeps : KeepsHeld shared
    (fun id => before.cells.size ≤ id.index ∨ written id) before
    after) : KeepsHeld shared written before after :=
  ⟨keeps.continues, fun old held unwritten => keeps.cell old held fun wrote =>
    wrote.elim (Nat.not_le_of_lt old) unwritten⟩

theorem of_cells (continues : before.Continues after)
    (same : ∀ {id : CellId}, id.index < before.cells.size → after.cell id = before.cell id) :
    KeepsHeld shared written before after :=
  ⟨continues, fun old _ _ => same old⟩

theorem of_bookkeeping (cells : after.cells = before.cells)
    (slots : after.arena.slots = before.arena.slots) : KeepsHeld shared written before after := by
  refine .of_cells (.of_bookkeeping cells slots) fun {id} _ => ?_
  unfold Memory.cell
  rw [cells]

theorem foldl {α : Type} (step : Memory → α → Memory)
    (each : ∀ memory item, KeepsHeld shared written memory (step memory item)) (items : List α)
    (memory : Memory) : KeepsHeld shared written memory (items.foldl step memory) := by
  induction items generalizing memory with
  | nil => exact .refl ..
  | cons item items induction => exact (each memory item).trans (induction _)

end KeepsHeld

variable (shared : CellId → Bool) (memory : Memory)

theorem new_keepsHeld (written : CellId → Prop) (cell : Cell) :
    KeepsHeld shared written memory (memory.new cell).2 :=
  .of_cells (new_confined ..).continues fun old => cell_new_of_lt old cell

theorem newAll_keepsHeld (written : CellId → Prop) (cells : List Cell) :
    KeepsHeld shared written memory (memory.newAll cells).2 :=
  .of_cells (newAll_confined ..).continues fun old =>
    (newAll_confined memory cells).cell old id fun _ => False.elim

theorem modifyCell_keepsHeld {written : CellId → Prop} {id : CellId} (wrote : written id)
    (change : Cell → Cell) : KeepsHeld shared written memory (memory.modifyCell id change) :=
  ⟨(modifyCell_confined ..).continues, fun _ _ unwritten =>
    cell_modifyCell_ne (fun same => unwritten (by rwa [same])) ..⟩

private theorem slot_keepsHeld (written : CellId → Prop) (position : Nat) :
    KeepsHeld shared written memory (memory.slot position).2 := by
  refine .of_cells (slot_confined ..).continues fun {id} old => ?_
  cases named : memory.arena.peek position with
  | some named' => rw [slot_of_peek named]
  | none =>
      rw [slot_of_peek_none named]
      exact cell_new_of_lt old .blank

private theorem clear_keepsHeld (written : CellId → Prop) (position : Nat) :
    KeepsHeld shared written memory (memory.modifyArena (·.put position none)) :=
  .of_cells (clear_confined ..).continues fun _ => rfl

private theorem take_keepsHeld (written : CellId → Prop) (offset length : Nat) :
    KeepsHeld shared written memory (memory.take offset length).2 := by
  induction length with
  | zero => exact .refl ..
  | succ length induction =>
      rw [take_succ]
      exact induction.trans ((slot_keepsHeld ..).trans (clear_keepsHeld ..))

private theorem releaseSlot_keepsHeld (written : CellId → Prop) (position : Nat) :
    KeepsHeld shared written memory (memory.releaseSlot shared position) := by
  refine ⟨(releaseSlot_confined ..).continues, fun {id} _ held _ => ?_⟩
  unfold releaseSlot
  split
  next => rfl
  next named slotted =>
    split
    next => rfl
    next unshared =>
      refine cell_modifyCell_ne (fun same => ?_) ..
      subst same
      exact held.elim unshared fun unnamed => unnamed position slotted

private theorem release_keepsHeld (written : CellId → Prop) (low high : Nat) :
    KeepsHeld shared written memory (memory.release shared low high) :=
  .foldl _ (fun memory position => releaseSlot_keepsHeld shared memory written position) _ memory

private theorem writeEach_keepsHeld {written : CellId → Prop} {change : Cell → Cell}
    {ids : List CellId}
    (wrote : ∀ id ∈ ids, written id) :
    KeepsHeld shared written memory
      (ids.foldl (fun memory id => memory.modifyCell id change) memory) := by
  induction ids generalizing memory with
  | nil => exact .refl ..
  | cons id ids induction =>
      refine (modifyCell_keepsHeld shared memory (wrote id List.mem_cons_self) change).trans ?_
      exact induction _ fun other listed => wrote other (List.mem_cons_of_mem _ listed)

private theorem resetSlice_keepsHeld {written : CellId → Prop} {offset length : Nat}
    (wrote : ∀ {step : Nat}, step < length → ∀ {id : CellId},
      memory.arena.peek (offset + step) = some id → written id) :
    KeepsHeld shared written memory (memory.resetSlice offset length) := by
  refine (List.foldlRecOn
    (motive := fun after => after.arena = memory.arena ∧ KeepsHeld shared written memory after)
    _ _ ⟨rfl, .refl ..⟩ fun after reached position listed => ?_).2
  obtain ⟨same, keeps⟩ := reached
  split
  next => exact ⟨same, keeps⟩
  next id named =>
    obtain ⟨step, below, rfl⟩ := List.mem_range'.mp listed
    rw [same, Nat.one_mul] at named
    exact ⟨same, keeps.trans (modifyCell_keepsHeld shared after (wrote below named) _)⟩

theorem closeFrame_keepsHeld (written : CellId → Prop) (mark : Nat) :
    KeepsHeld shared written memory (memory.closeFrame shared mark) := by
  have closed : KeepsHeld shared written memory (memory.modifyArena (·.closeFrame)) :=
    .of_bookkeeping rfl rfl
  unfold closeFrame releaseTo
  split
  next => exact closed
  next => exact closed.trans ((release_keepsHeld ..).trans (.of_bookkeeping rfl rfl))

end Memory

namespace Table

open Memory

variable (table : Table) (shared : CellId → Bool) (memory : Memory)

def Names (id : CellId) : Prop := ∃ slot, table.cell? slot memory = some id

def pushed : Table → List Value → Memory → List CellId
  | _, [], _ => []
  | table, value :: values, memory =>
      (table.cellAt table.length memory).1 ::
        pushed (table.push value memory).1 values (table.push value memory).2

theorem copyOut_keepsHeld (written : CellId → Prop) :
    KeepsHeld shared written memory (table.copyOut memory).2 := by
  cases table with
  | onHeap cells reserved => exact .refl ..
  | inArena slice length =>
      unfold copyOut
      dsimp only
      split
      next popped =>
        obtain ⟨-, rfl⟩ := Arena.popTop?_eq_some popped
        exact (take_keepsHeld ..).trans (.of_bookkeeping rfl rfl)
      next => exact take_keepsHeld ..

theorem ensureCapacity_keepsHeld (written : CellId → Prop) (capacity : Nat) :
    KeepsHeld shared written memory (table.ensureCapacity capacity memory).2 := by
  cases table with
  | onHeap cells reserved => exact .refl ..
  | inArena slice length =>
      unfold ensureCapacity
      dsimp only
      split
      next => exact .refl ..
      next =>
        split
        next grown =>
          obtain ⟨-, -, rfl⟩ := Arena.grow?_eq_some grown
          exact .of_bookkeeping rfl rfl
        next => exact copyOut_keepsHeld ..

theorem getD_mem {cells : Array CellId} {slot : Nat} (below : slot < cells.size)
    (other : CellId) : cells.getD slot other ∈ cells := by
  simp [below]

theorem cellAt_newer {cells : Array CellId} {base : Nat} {memory : Memory}
    (newer : ∀ id ∈ cells, base ≤ id.index) (since : base ≤ memory.cells.size)
    (reserved : Option Slice) (slot : Nat) :
    ∃ cells' : Array CellId,
      ((onHeap cells reserved).cellAt slot memory).2.1 = onHeap cells' reserved ∧
      (∀ id ∈ cells', base ≤ id.index) ∧
      ((onHeap cells reserved).cellAt slot memory).1 ∈ cells' := by
  have length := length_cellAt (onHeap cells reserved) slot memory
  rw [cellAt_onHeap] at length ⊢
  by_cases below : slot < cells.size
  · rw [if_pos below]
    exact ⟨cells, rfl, newer, getD_mem below _⟩
  · rw [if_neg below] at length ⊢
    have below := Nat.lt_of_lt_of_eq (Nat.lt_of_lt_of_le (Nat.lt_succ_self slot)
      (Nat.le_max_right cells.size _)) length.symm
    refine ⟨_, rfl, fun id listed => ?_, getD_mem below _⟩
    obtain ⟨position, found⟩ := Array.mem_iff_getElem?.mp listed
    rcases getElem?_append_newAll found with old | ⟨-, -, rfl⟩
    · exact newer id (Array.mem_of_getElem? old)
    · exact Nat.le_trans since (Nat.le_add_right _ _)

theorem extendTo_keepsHeld (written : CellId → Prop) (length : Nat) :
    KeepsHeld shared written memory (table.extendTo length memory).2 := by
  cases table with
  | inArena slice old => exact .refl ..
  | onHeap cells reserved => exact newAll_keepsHeld ..

theorem cellAt_keepsHeld (written : CellId → Prop) (slot : Nat) :
    KeepsHeld shared written memory (table.cellAt slot memory).2.2 := by
  have extended : KeepsHeld shared written memory (table.extended slot memory).2 := by
    unfold extended
    split
    next => exact .refl ..
    next => exact (ensureCapacity_keepsHeld ..).trans (extendTo_keepsHeld ..)
  rw [cellAt_eq]
  generalize table.extended slot memory = result at extended ⊢
  obtain ⟨cells | slice, after⟩ := result
  · exact extended
  · exact extended.trans (slot_keepsHeld ..)

/-- Touching a slot and writing what is there. -/
theorem write_keepsHeld {written : CellId → Prop} {slot : Nat}
    (wrote : written (table.cellAt slot memory).1) (change : Cell → Cell) :
    KeepsHeld shared written memory
      ((table.cellAt slot memory).2.2.modifyCell (table.cellAt slot memory).1 change) :=
  (cellAt_keepsHeld ..).trans (modifyCell_keepsHeld _ _ wrote change)

theorem pushEach_keepsHeld {written : CellId → Prop} {values : List Value}
    (wrote : ∀ id ∈ table.pushed values memory, written id) :
    KeepsHeld shared written memory (table.pushEach values memory).2 := by
  unfold pushEach
  induction values generalizing table memory with
  | nil => exact .refl ..
  | cons value values induction =>
      rw [List.foldl_cons]
      have first : KeepsHeld shared written memory (table.push value memory).2 :=
        write_keepsHeld table shared memory (wrote _ List.mem_cons_self) _
      exact first.trans (induction _ _ fun id listed => wrote id (List.mem_cons_of_mem _ listed))

theorem pushTogether_keepsHeld {written : CellId → Prop} {values : List Value}
    (wrote : ∀ id ∈ (table.ensureCapacity (table.length + values.length) memory).1.pushed values
      (table.ensureCapacity (table.length + values.length) memory).2, written id) :
    KeepsHeld shared written memory (table.pushTogether values memory).2 :=
  (ensureCapacity_keepsHeld ..).trans (pushEach_keepsHeld _ _ _ wrote)

theorem reset_keepsHeld {written : CellId → Prop}
    (wrote : ∀ id, table.Names memory id → written id) :
    KeepsHeld shared written memory (table.reset memory) := by
  cases table with
  | onHeap cells reserved =>
      have each : ∀ id ∈ cells.toList, written id := by
        intro id listed
        obtain ⟨slot, found⟩ := Array.mem_iff_getElem?.mp (Array.mem_toList_iff.mp listed)
        exact wrote id ⟨slot, found⟩
      unfold reset
      dsimp only
      rw [← Array.foldl_toList]
      exact writeEach_keepsHeld shared memory each
  | inArena slice length =>
      refine resetSlice_keepsHeld shared memory fun {step} below {id} named => wrote id ⟨step, ?_⟩
      exact (cell?_inArena below memory).trans named

theorem free_keepsHeld (written : CellId → Prop) :
    KeepsHeld shared written memory (table.free shared memory) := by
  unfold free
  split
  next => exact .refl ..
  next slice _ =>
    have released := release_keepsHeld shared memory written slice.offset slice.stop
    dsimp only
    split
    next popped =>
      obtain ⟨-, rfl⟩ := Arena.popTop?_eq_some popped
      exact released.trans (.of_bookkeeping rfl rfl)
    next => exact released

theorem truncate_keepsHeld (written : CellId → Prop) (length : Nat) :
    KeepsHeld shared written memory (table.truncate shared length memory).2 := by
  unfold truncate
  split
  next => exact .refl ..
  next =>
    cases table with
    | onHeap cells reserved => exact .refl ..
    | inArena slice old => exact release_keepsHeld ..

theorem reinit_keepsHeld (written : CellId → Prop) (capacity : Nat) :
    KeepsHeld shared written memory (table.reinit shared capacity memory).2 :=
  (truncate_keepsHeld ..).trans (ensureCapacity_keepsHeld ..)

end Table

end ScopeMachine
