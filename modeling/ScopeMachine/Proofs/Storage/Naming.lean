import ScopeMachine.Proofs.Storage.Landing
import ScopeMachine.Proofs.Storage.Retaining
import ScopeMachine.Proofs.Storage.SingleTable

namespace ScopeMachine

open Memory

/-- How a table on the heap changes when the cell at a slot is reached: it keeps its cells and grows
by blank ones up to the slot. -/
structure Table.Grown (before : Memory) (cells : Array CellId) (slot : Nat) (reached : CellId)
    (cells' : Array CellId) (after : Memory) : Prop where
  confined : Confined (fun _ => False) (fun _ => False) before after
  reached : cells'[slot]? = some reached
  kept : ∀ {slot : Nat} {cell : CellId}, cells[slot]? = some cell → cells'[slot]? = some cell
  size : cells'.size ≤ max cells.size (slot + 1)
  origin : ∀ {slot : Nat} {cell : CellId}, cells'[slot]? = some cell → cells[slot]? = some cell ∨
    cells.size ≤ slot ∧ cell = ⟨before.cells.size + (slot - cells.size)⟩ ∧
      cell.index < after.cells.size ∧ after.cell cell = .blank

theorem Table.exists_grown (cells : Array CellId) (reserved : Option Slice) (slot : Nat)
    (memory : Memory) : ∃ reached cells' after,
    (onHeap cells reserved).cellAt slot memory = (reached, onHeap cells' reserved, after) ∧
      Grown memory cells slot reached cells' after := by
  rw [cellAt_onHeap]
  split
  next below =>
    refine ⟨_, _, _, rfl, .refl .., by simp [below], id, Nat.le_max_left .., .inl⟩
  next beyond =>
    refine ⟨_, _, _, rfl, newAll_confined .., ?_, fun found => ?_, ?_, fun found => ?_⟩
    · have inside : slot < (cells ++ (memory.newAll
          (List.replicate (slot + 1 - cells.size) .blank)).1).size := by
        simp [newAll_eq]
        omega
      rw [Array.getD_eq_getD_getElem?, Array.getElem?_eq_getElem inside, Option.getD_some]
    · rw [Array.getElem?_append_left (Array.getElem?_eq_some_iff.mp found).1]
      exact found
    · simp [newAll_eq]
      omega
    · rcases getElem?_append_newAll found with found | ⟨above, below, rfl⟩
      · exact .inl found
      · refine .inr ⟨above, rfl, ?_, ?_⟩
        · rw [size_newAll]
          exact Nat.add_lt_add_left below _
        · rw [cell_newAll memory below]
          simp

namespace Heap

open Table (Grown exists_grown)

variable {Code : Type} {heap heap' : Heap Code} {id other : ScopeId} {name name' : String}

/-- The cell that a scope's own table has for a name. -/
def named? (heap : Heap Code) (id : ScopeId) (name : String) : Option CellId :=
  ((heap.scope id).index.slot? name).bind fun slot =>
    (heap.scope id).members.cell? slot heap.memory

/-- What is in it; a name without a cell stands for a blank one. -/
def named (heap : Heap Code) (id : ScopeId) (name : String) : Cell :=
  (heap.named? id name).elim .blank heap.cell

theorem named_of_named? {cell : CellId} (found : heap.named? id name = some cell) :
    heap.named id name = heap.cell cell := by
  rw [named, found]
  rfl

theorem named_of_none (missing : heap.named? id name = none) : heap.named id name = .blank := by
  rw [named, missing]
  rfl

theorem exists_named? (visible : (heap.named id name).isVisible = true) :
    ∃ cell, heap.named? id name = some cell ∧ heap.cell cell = heap.named id name := by
  cases found : heap.named? id name with
  | none =>
      rw [named_of_none found] at visible
      cases visible
  | some cell => exact ⟨cell, rfl, (named_of_named? found).symm⟩

@[simp] theorem named?_modifyCell (heap : Heap Code) (cell : CellId) (change : Cell → Cell)
    (id : ScopeId) (name : String) :
    (heap.modifyCell cell change).named? id name = heap.named? id name := by
  unfold named?
  exact Option.bind_congr fun slot _ => Table.cell?_modifyCell ..

/-- Except in the scope of a call, a name is seen if it stands for a visible cell. -/
theorem storedMember_eq (uncalled : (heap.scope id).variant ≠ .function) (name : String) :
    heap.storedMember id name =
      ((heap.named? id name).filter fun cell => (heap.cell cell).isVisible, heap) := by
  unfold storedMember named?
  dsimp only
  split
  next kind _ => exact (uncalled (congrArg ScopeKind.variant kind)).elim
  next kind _ => exact (uncalled (congrArg ScopeKind.variant kind)).elim
  next slot found _ => rw [found, Option.bind_some]
  next found _ =>
    rw [found]
    rfl

theorem storedMember_of_visible (uncalled : (heap.scope id).variant ≠ .function)
    (visible : (heap.named id name).isVisible = true) :
    ∃ cell, heap.named? id name = some cell ∧ heap.storedMember id name = (some cell, heap) ∧
      heap.cell cell = heap.named id name := by
  obtain ⟨cell, found, content⟩ := exists_named? visible
  refine ⟨cell, found, ?_, content⟩
  rw [storedMember_eq uncalled, found]
  simp [content, visible]

theorem storedMember_of_hidden (uncalled : (heap.scope id).variant ≠ .function)
    (hidden : (heap.named id name).isVisible = false) :
    heap.storedMember id name = (none, heap) := by
  rw [storedMember_eq uncalled]
  cases found : heap.named? id name with
  | none => rfl
  | some cell =>
      rw [named_of_named? found] at hidden
      simp [hidden]

/-- Scopes with their members on the heap, no more of them than there are names, and each member in
a cell of its own. -/
structure Furnishes (heap : Heap Code) (scopes : ScopeId → Prop) : Prop where
  old : ∀ {id : ScopeId}, scopes id → id.index < heap.scopes.size
  onHeap : ∀ {id : ScopeId}, scopes id → ∃ cells reserved,
    (heap.scope id).members = .onHeap cells reserved
  listed : ∀ {id : ScopeId}, scopes id → 
    (heap.scope id).members.heapCells.size ≤ (heap.scope id).index.size
  present : ∀ {id : ScopeId}, scopes id → ∀ cell ∈ (heap.scope id).members.heapCells,
    cell.index < heap.memory.cells.size
  unique : ∀ {id other : ScopeId} {slot slot' : Nat} {cell : CellId}, scopes id → scopes other →
    (heap.scope id).members.heapCells[slot]? = some cell →
    (heap.scope other).members.heapCells[slot']? = some cell → id = other ∧ slot = slot'

structure Widens (id : ScopeId) (before after : Heap Code) : Prop where
  size : after.scopes.size = before.scopes.size
  cells : before.memory.cells.size ≤ after.memory.cells.size
  index : ∀ other, (after.scope other).index = (before.scope other).index
  onHeap : ∀ other, (∃ cells reserved, (before.scope other).members = .onHeap cells reserved) →
    ∃ cells reserved, (after.scope other).members = .onHeap cells reserved
  listed : ∀ other,
    (before.scope other).members.heapCells.size ≤ (before.scope other).index.size →
    (after.scope other).members.heapCells.size ≤ (before.scope other).index.size
  cell : ∀ {cell : CellId}, cell.index < before.memory.cells.size →
    after.cell cell = before.cell cell
  kept : ∀ {other : ScopeId} {slot : Nat} {cell : CellId},
    (before.scope other).members.heapCells[slot]? = some cell →
    (after.scope other).members.heapCells[slot]? = some cell
  origin : ∀ {other : ScopeId} {slot : Nat} {cell : CellId},
    (after.scope other).members.heapCells[slot]? = some cell →
    (before.scope other).members.heapCells[slot]? = some cell ∨
      other = id ∧ (before.scope id).members.heapCells.size ≤ slot ∧
        cell = ⟨before.memory.cells.size + (slot - (before.scope id).members.heapCells.size)⟩ ∧
        cell.index < after.memory.cells.size ∧ after.cell cell = .blank

theorem slotCell_widens {cells : Array CellId} {reserved : Option Slice} {slot : Nat}
    (old : id.index < heap.scopes.size) (table : (heap.scope id).members = .onHeap cells reserved)
    (inside : slot < (heap.scope id).index.size) :
    Widens id heap (heap.slotCell id slot).2 ∧
      ((heap.slotCell id slot).2.scope id).members.heapCells[slot]? =
        some (heap.slotCell id slot).1 := by
  obtain ⟨cell, cells', memory, reached, grown⟩ := exists_grown cells reserved slot heap.memory
  have made : heap.slotCell id slot = (cell, { heap with memory }.modifyScope id fun scope =>
      { scope with members := .onHeap cells' reserved }) := by
    unfold slotCell
    rw [table, reached]
  have either (other : ScopeId) : (heap.slotCell id slot).2.scope other = heap.scope other ∨
      other = id ∧ (heap.slotCell id slot).2.scope other =
        { heap.scope id with members := .onHeap cells' reserved } := by
    rw [made]
    rcases scope_modifyScope_or { heap with memory } id other fun scope =>
      { scope with members := .onHeap cells' reserved } with same | ⟨rfl, changed⟩
    · exact .inl same
    · exact .inr ⟨rfl, changed⟩
  have after : (heap.slotCell id slot).2.memory = memory := congrArg (·.2.memory) made
  have stays {cell : CellId} (old : cell.index < heap.memory.cells.size) :
      (heap.slotCell id slot).2.cell cell = heap.cell cell := by
    unfold Heap.cell
    rw [after]
    exact grown.confined.cell old (fun no => no) fun _ no => no.elim
  refine ⟨⟨?_, ?_, fun other => ?_, fun other there => ?_, fun other few => ?_, stays,
    fun {other slot' cell} found => ?_, fun {other slot' cell} found => ?_⟩, ?_⟩
  · rw [made]
    exact size_modifyScope ..
  · rw [after]
    exact grown.confined.size
  · rcases either other with same | ⟨rfl, changed⟩
    · rw [same]
    · rw [changed]
  · rcases either other with same | ⟨rfl, changed⟩
    · rw [same]
      exact there
    · rw [changed]
      exact ⟨_, _, rfl⟩
  · rcases either other with same | ⟨rfl, changed⟩
    · rw [same]
      exact few
    · rw [table] at few
      rw [changed]
      exact Nat.le_trans grown.size (Nat.max_le.mpr ⟨few, inside⟩)
  · rcases either other with same | ⟨rfl, changed⟩
    · rw [same]
      exact found
    · rw [table] at found
      rw [changed]
      exact grown.kept found
  · rcases either other with same | ⟨rfl, changed⟩
    · exact .inl (same ▸ found)
    · rw [changed] at found
      rw [table]
      rcases grown.origin found with old | ⟨above, fresh, new, blank⟩
      · exact .inl old
      · unfold Heap.cell
        rw [after]
        exact .inr ⟨rfl, above, fresh, new, blank⟩
  · have here : (heap.slotCell id slot).2.scope id =
        { heap.scope id with members := .onHeap cells' reserved } := by
      rw [made]
      exact scope_modifyScope_self (show id.index < { heap with memory }.scopes.size from old) _
    rw [here, made]
    exact grown.reached

theorem furnishes_of_empty (old : id.index < heap.scopes.size)
    (bare : (heap.scope id).members = .empty) : heap.Furnishes (· = id) := by
  have cells : (heap.scope id).members.heapCells = #[] := congrArg Table.heapCells bare
  refine ⟨?_, ?_, ?_, ?_, ?_⟩
  · rintro _ rfl
    exact old
  · rintro _ rfl
    exact ⟨_, _, bare⟩
  · rintro _ rfl
    rw [cells]
    exact Nat.zero_le _
  · rintro _ rfl cell listed
    rw [cells] at listed
    exact absurd listed (Array.not_mem_empty _)
  · rintro _ _ slot _ cell rfl _ found
    rw [cells] at found
    cases found

variable {scopes : ScopeId → Prop}

namespace Furnishes

theorem named?_eq (furnishes : heap.Furnishes scopes) (member : scopes id) (name : String) :
    heap.named? id name = ((heap.scope id).index.slot? name).bind fun slot =>
      (heap.scope id).members.heapCells[slot]? := by
  obtain ⟨cells, reserved, table⟩ := furnishes.onHeap member
  unfold named?
  rw [table]
  rfl

theorem mem_of_named? (furnishes : heap.Furnishes scopes) (member : scopes id) {cell : CellId}
    (found : heap.named? id name = some cell) : cell ∈ (heap.scope id).members.heapCells := by
  rw [furnishes.named?_eq member] at found
  obtain ⟨slot, -, found⟩ := Option.bind_eq_some_iff.mp found
  exact Array.mem_of_getElem? found

theorem old_of_named? (furnishes : heap.Furnishes scopes) (member : scopes id) {cell : CellId}
    (found : heap.named? id name = some cell) : cell.index < heap.memory.cells.size :=
  furnishes.present member cell (furnishes.mem_of_named? member found)

theorem named?_unique (furnishes : heap.Furnishes scopes) (member : scopes id)
    (member' : scopes other) {cell : CellId} (found : heap.named? id name = some cell)
    (again : heap.named? other name' = some cell) : id = other ∧ name = name' := by
  rw [furnishes.named?_eq member] at found
  rw [furnishes.named?_eq member'] at again
  obtain ⟨slot, here, found⟩ := Option.bind_eq_some_iff.mp found
  obtain ⟨slot', there, again⟩ := Option.bind_eq_some_iff.mp again
  obtain ⟨rfl, rfl⟩ := furnishes.unique member member' found again
  exact ⟨rfl, Index.slot?_unique here there⟩

/-- Writing to the cell of one name. -/
theorem modifyCell (furnishes : heap.Furnishes scopes) (member : scopes id) {cell : CellId}
    (found : heap.named? id name = some cell) (change : Cell → Cell) :
    (heap.modifyCell cell change).Furnishes scopes ∧
      (heap.modifyCell cell change).named id name = change (heap.named id name) ∧
      ∀ {other name'}, scopes other → (other, name') ≠ (id, name) →
        (heap.modifyCell cell change).named other name' = heap.named other name' := by
  refine ⟨⟨furnishes.old, furnishes.onHeap, furnishes.listed, fun member => ?_, furnishes.unique⟩,
    ?_, fun {other name'} member' apart => ?_⟩
  · exact fun cell listed => (size_modifyCell ..).symm ▸ furnishes.present member cell listed
  · rw [named_of_named? ((named?_modifyCell ..).trans found), named_of_named? found]
    exact cell_modifyCell_self (furnishes.old_of_named? member found) change
  · unfold named
    rw [named?_modifyCell]
    cases again : heap.named? other name' with
    | none => rfl
    | some cell' =>
        refine cell_modifyCell_ne (fun same => apart ?_) ..
        obtain ⟨rfl, rfl⟩ := furnishes.named?_unique member' member again (same ▸ found)
        rfl

/-- A name joins the index of a scope. It stands for nothing yet, and the others for what they stood
for. -/
theorem rename (furnishes : heap.Furnishes scopes) (member : scopes id) (name : String)
    (permission : Permission) {heap' : Heap Code}
    (made : heap' = heap.modifyScope id fun scope =>
      { scope with index := ((heap.scope id).index.insert name permission).2 }) :
    heap'.Furnishes scopes ∧
      ∀ {other name'}, scopes other → heap'.named other name' = heap.named other name' := by
  subst made
  have old := furnishes.old member
  have here := scope_modifyScope_self old fun scope : Scope =>
    { scope with index := ((heap.scope id).index.insert name permission).2 }
  have members (other : ScopeId) : ((heap.modifyScope id fun scope =>
      { scope with index := ((heap.scope id).index.insert name permission).2 }).scope
        other).members =
        (heap.scope other).members := by
    rcases scope_modifyScope_or heap id other fun scope =>
      { scope with index := ((heap.scope id).index.insert name permission).2 } with same | ⟨-, same⟩
    all_goals rw [same]
  have furnishes' : (heap.modifyScope id fun scope =>
      { scope with
        index := ((heap.scope id).index.insert name permission).2 }).Furnishes scopes := by
    refine ⟨fun member => ?_, fun member => ?_, fun {other} member => ?_, fun member => ?_,
      fun member member' => ?_⟩
    · rw [size_modifyScope]
      exact furnishes.old member
    · rw [members]
      exact furnishes.onHeap member
    · rw [members]
      by_cases same : other = id
      · subst same
        rw [here]
        exact Nat.le_trans (furnishes.listed member) (Index.size_insert ..)
      · rw [scope_modifyScope_ne same]
        exact furnishes.listed member
    · rw [members]
      exact furnishes.present member
    · rw [members, members]
      exact furnishes.unique member member'
  refine ⟨furnishes', fun {other name'} member' => ?_⟩
  refine congrArg (Option.elim · Cell.blank heap.cell) ?_
  rw [furnishes'.named?_eq member', furnishes.named?_eq member', members]
  by_cases same : other = id
  · subst same
    rw [here]
    by_cases renamed : name' = name
    · subst renamed
      cases found : (heap.scope other).index.slot? name' with
      | some slot => simp [Index.insert, found]
      | none =>
          rw [Index.slot?_insert_self, Index.insert_of_new found]
          exact Array.getElem?_eq_none (furnishes.listed member)
    · rw [Index.slot?_insert_ne renamed]
  · rw [scope_modifyScope_ne same]

theorem widen (furnishes : heap.Furnishes scopes) (widens : Widens id heap heap') :
    heap'.Furnishes scopes := by
  have present {other : ScopeId} {slot : Nat} {found : CellId} (member : scopes other)
      (old : (heap.scope other).members.heapCells[slot]? = some found) :
      found.index < heap.memory.cells.size :=
    furnishes.present member found (Array.mem_of_getElem? old)
  refine ⟨fun member => ?_, fun member => widens.onHeap _ (furnishes.onHeap member),
    fun member => ?_, fun member found listed => ?_,
    fun {one two slot₁ slot₂ found} member₁ member₂ here₁ here₂ => ?_⟩
  · rw [widens.size]
    exact furnishes.old member
  · rw [widens.index]
    exact widens.listed _ (furnishes.listed member)
  · obtain ⟨slot, listed⟩ := Array.mem_iff_getElem?.mp listed
    rcases widens.origin listed with old | ⟨-, -, -, new, -⟩
    · exact Nat.lt_of_lt_of_le (present member old) widens.cells
    · exact new
  · rcases widens.origin here₁ with old₁ | ⟨rfl, above₁, new₁, -⟩
    · rcases widens.origin here₂ with old₂ | ⟨rfl, -, new₂, -⟩
      · exact furnishes.unique member₁ member₂ old₁ old₂
      · exact absurd (new₂ ▸ present member₁ old₁) (Nat.not_lt_of_le (Nat.le_add_right ..))
    · rcases widens.origin here₂ with old₂ | ⟨rfl, above₂, new₂, -⟩
      · exact absurd (new₁ ▸ present member₂ old₂) (Nat.not_lt_of_le (Nat.le_add_right ..))
      · have same := congrArg CellId.index (new₁.symm.trans new₂)
        simp only at same
        exact ⟨rfl, by omega⟩

theorem named_widen (furnishes : heap.Furnishes scopes) (widens : Widens id heap heap')
    (member : scopes other) : heap'.named other name = heap.named other name := by
  unfold named
  rw [(furnishes.widen widens).named?_eq member, furnishes.named?_eq member, widens.index]
  cases (heap.scope other).index.slot? name with
  | none => rfl
  | some slot =>
      rw [Option.bind_some, Option.bind_some]
      cases before : (heap.scope other).members.heapCells[slot]? with
      | some old =>
          rw [widens.kept before]
          exact widens.cell (furnishes.present member old (Array.mem_of_getElem? before))
      | none =>
          cases found : (heap'.scope other).members.heapCells[slot]? with
          | none => rfl
          | some now =>
              rcases widens.origin found with old | ⟨-, -, -, -, blank⟩
              · cases before.symm.trans old
              · exact blank

theorem touch (furnishes : heap.Furnishes scopes) (member : scopes id) {slot : Nat}
    (known : (heap.scope id).index.slot? name = some slot) :
    (heap.slotCell id slot).2.Furnishes scopes ∧
      (heap.slotCell id slot).2.named? id name = some (heap.slotCell id slot).1 ∧
      ∀ {other name'}, scopes other →
        (heap.slotCell id slot).2.named other name' = heap.named other name' := by
  obtain ⟨cells, reserved, table⟩ := furnishes.onHeap member
  obtain ⟨widens, reached⟩ := slotCell_widens (furnishes.old member) table
    (Index.slot?_lt known)
  refine ⟨furnishes.widen widens, ?_, fun member' => furnishes.named_widen widens member'⟩
  rw [(furnishes.widen widens).named?_eq member, widens.index, known]
  exact reached

end Furnishes

end Heap

end ScopeMachine
