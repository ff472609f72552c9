import ScopeMachine.Proofs.Liveness.Evolution

namespace ScopeMachine

namespace Table

variable {memory : Memory}

private theorem extended_onHeap (cells : Array CellId) (reserved : Option Slice) (slot : Nat)
    (memory : Memory) :
    ∃ blanks, (onHeap cells reserved).extended slot memory =
      (.onHeap (cells ++ (memory.newAll blanks).1) reserved, (memory.newAll blanks).2) := by
  unfold extended
  split
  next => exact ⟨[], by simp [Memory.newAll]⟩
  next => exact ⟨_, rfl⟩

theorem cellAt_aside {table : Table} (sound : memory.Sound) (aside : table.isArena = false)
    (slot : Nat) :
    (table.cellAt slot memory).2.1.isArena = false ∧
      (table.cellAt slot memory).1 ∈ (table.cellAt slot memory).2.1.heapCells ∧
      ∀ {id : CellId}, id ∈ (table.cellAt slot memory).2.1.heapCells → id ∈ table.heapCells ∨
        (memory.cells.size ≤ id.index ∧ id.index < (table.cellAt slot memory).2.2.cells.size ∧
          ∀ position, (table.cellAt slot memory).2.2.arena.peek position ≠ some id) := by
  cases table with
  | inArena slice length => cases aside
  | onHeap cells reserved =>
      have long := length_extended (.onHeap cells reserved) slot memory
      obtain ⟨blanks, same⟩ := extended_onHeap cells reserved slot memory
      rw [cellAt_eq]
      rw [same] at long ⊢
      dsimp only [heapCells]
      refine ⟨rfl, ?_, fun {id} listed => (Array.mem_append.mp listed).imp_right fun fresh => ?_⟩
      · have inside : slot < (cells ++ (memory.newAll blanks).1).size :=
          Nat.lt_of_lt_of_eq (Nat.lt_of_lt_of_le (Nat.lt_succ_self slot) (Nat.le_max_right ..))
            long.symm
        rw [Array.getD_eq_getD_getElem?, Array.getElem?_eq_getElem inside]
        exact Array.getElem_mem inside
      · obtain ⟨above, below⟩ := mem_newAll fresh
        refine ⟨above, below, fun position named => ?_⟩
        rw [Memory.arena_newAll] at named
        exact Nat.not_lt_of_le above (sound.old named)

end Table

namespace Heap

variable {Code : Type}

/-- A cell that exists, that no slot names, and that no scope but its owner holds, of the scopes
that are not calls or that are watched. -/
structure Secludes (heap : Heap Code) (watched : ScopeId → Prop) (owner : ScopeId) (cell : CellId) :
    Prop where
  present : cell.index < heap.memory.cells.size
  unnamed : ∀ position, heap.memory.arena.peek position ≠ some cell
  unshared : ∀ {id}, id ≠ owner → ((heap.scope id).variant ≠ .function ∨ watched id) →
    (heap.scope id).holds (.cell cell) = false

/-- A cell of the scope of a constructor, if the scope is recent. -/
structure Owns (heap : Heap Code) (recent : ScopeId → Prop) (owner : ScopeId) (cell : CellId) :
    Prop where
  recent : recent owner
  constructor : (heap.scope owner).variant = .constructor
  holds : (heap.scope owner).holds (.cell cell) = true

/-- The scopes and cells that matter: recent constructors, watched calls, and cells known to be
secret. -/
structure Secrecy where
  recent : ScopeId → Prop
  watched : ScopeId → Prop
  secret : ScopeId → CellId → Prop

/-- Scopes hold cells that exist, and what recent constructors own is secluded. -/
structure Discreet (secrecy : Secrecy) (heap : Heap Code) : Prop where
  sound : heap.memory.Sound
  furnished : ∀ {id cell}, (heap.scope id).holds (.cell cell) = true →
    cell.index < heap.memory.cells.size
  aside : ∀ {id}, (heap.scope id).variant = .constructor →
    (heap.scope id).members.isArena = false
  secludes : ∀ {owner cell}, secrecy.secret owner cell ∨ heap.Owns secrecy.recent owner cell →
    heap.Secludes secrecy.watched owner cell

variable {secrecy : Secrecy} {heap after : Heap Code}

private theorem Secludes.carry {watched : ScopeId → Prop} {owner : ScopeId} {cell : CellId}
    (secludes : heap.Secludes watched owner cell)
    (continues : heap.memory.Continues after.memory)
    (holds : ∀ {id}, (after.scope id).holds (.cell cell) = true →
      ((heap.scope id).holds (.cell cell) = true ∧
        (after.scope id).variant = (heap.scope id).variant) ∨
        heap.memory.Offers after.memory cell ∨
        ((after.scope id).variant = .function ∧ ¬ watched id)) :
    after.Secludes watched owner cell where
  present := Nat.lt_of_lt_of_le secludes.present continues.size
  unnamed := continues.unnamed secludes.present secludes.unnamed
  unshared {id} apart counts := by
    refine Bool.eq_false_iff.mpr fun held => ?_
    rcases holds held with ⟨earlier, variant⟩ | offered | ⟨called, unwatched⟩
    · exact nomatch earlier.symm.trans (secludes.unshared apart (variant ▸ counts))
    · exact Nat.not_lt_of_le (offered.not_old secludes.unnamed) secludes.present
    · exact counts.elim (· called) unwatched

namespace Discreet

private theorem work (discreet : heap.Discreet secrecy)
    (continues : heap.memory.Continues after.memory)
    (holds : ∀ {id cell}, (after.scope id).holds (.cell cell) = true →
      ((heap.scope id).holds (.cell cell) = true ∧
        (after.scope id).variant = (heap.scope id).variant) ∨
        heap.memory.Offers after.memory cell ∨
        (cell.index < heap.memory.cells.size ∧ (after.scope id).variant = .function ∧
          ¬ secrecy.watched id))
    (aside : ∀ {id}, (after.scope id).variant = .constructor →
      (after.scope id).members.isArena = false)
    (owns : ∀ {id cell}, (after.scope id).variant = .constructor →
      (after.scope id).holds (.cell cell) = true →
      (heap.scope id).variant = .constructor ∧ (heap.scope id).holds (.cell cell) = true ∨
        (cell.index < after.memory.cells.size ∧
          (∀ position, after.memory.arena.peek position ≠ some cell) ∧
          ∀ {other}, other ≠ id → (after.scope other).holds (.cell cell) = false)) :
    after.Discreet secrecy := by
  have carry {owner : ScopeId} {cell : CellId}
      (secludes : heap.Secludes secrecy.watched owner cell) :
      after.Secludes secrecy.watched owner cell :=
    secludes.carry continues fun held => (holds held).imp_right fun others =>
      others.imp_right And.right
  refine ⟨continues.sound discreet.sound, fun {id cell} held => ?_, aside,
    fun {owner cell} owned => ?_⟩
  · rcases holds held with ⟨earlier, -⟩ | offered | ⟨present, -⟩
    · exact Nat.lt_of_lt_of_le (discreet.furnished earlier) continues.size
    · exact offered.present continues discreet.sound
    · exact Nat.lt_of_lt_of_le present continues.size
  · rcases owned with secret | ⟨recent, made, held⟩
    · exact carry (discreet.secludes (.inl secret))
    · rcases owns made held with ⟨made, held⟩ | ⟨present, unnamed, alone⟩
      · exact carry (discreet.secludes (.inr ⟨recent, made, held⟩))
      · exact ⟨present, unnamed, fun apart _ => alone apart⟩

/-- Work that leaves the scopes alone. -/
theorem of_scopes (discreet : heap.Discreet secrecy)
    (continues : heap.memory.Continues after.memory) (scopes : after.scopes = heap.scopes) :
    after.Discreet secrecy := by
  have same (id : ScopeId) : after.scope id = heap.scope id := by
    unfold Heap.scope
    rw [scopes]
  refine discreet.work continues (fun {id cell} held => ?_) (fun {id} made => ?_)
    fun {id cell} made held => ?_
  · rw [same] at held ⊢
    exact .inl ⟨held, rfl⟩
  · rw [same] at made ⊢
    exact discreet.aside made
  · rw [same] at made held
    exact .inl ⟨made, held⟩

private theorem workScope (discreet : heap.Discreet secrecy) {id : ScopeId} {memory : Memory}
    (continues : heap.memory.Continues memory) {change : Scope → Scope}
    (variant : (change (heap.scope id)).variant = (heap.scope id).variant)
    (holds : ∀ {cell}, (change (heap.scope id)).holds (.cell cell) = true →
      (heap.scope id).holds (.cell cell) = true ∨ heap.memory.Offers memory cell)
    (aside : (heap.scope id).variant = .constructor →
      (change (heap.scope id)).members.isArena = false ∧
        ∀ {cell}, (change (heap.scope id)).holds (.cell cell) = true →
          (heap.scope id).holds (.cell cell) = true ∨
            (heap.memory.cells.size ≤ cell.index ∧ cell.index < memory.cells.size ∧
              ∀ position, memory.arena.peek position ≠ some cell)) :
    ({ heap with memory }.modifyScope id change).Discreet secrecy := by
  have either (other : ScopeId) :
      ({ heap with memory }.modifyScope id change).scope other = heap.scope other ∨
        other = id ∧ ({ heap with memory }.modifyScope id change).scope other =
          change (heap.scope other) := scope_modifyScope_or { heap with memory } id other change
  refine discreet.work continues (fun {other cell} held => ?_) (fun {other} made => ?_)
    fun {other cell} made held => ?_
  · rcases either other with same | ⟨rfl, changed⟩
    · rw [same] at held ⊢
      exact .inl ⟨held, rfl⟩
    · rw [changed] at held ⊢
      exact (holds held).imp (⟨·, variant⟩) .inl
  · rcases either other with same | ⟨rfl, changed⟩
    · rw [same] at made ⊢
      exact discreet.aside made
    · rw [changed] at made ⊢
      exact (aside (variant ▸ made)).1
  · rcases either other with same | ⟨rfl, changed⟩
    · rw [same] at made held
      exact .inl ⟨made, held⟩
    · rw [changed] at made held
      have made : (heap.scope other).variant = .constructor := variant ▸ made
      refine ((aside made).2 held).imp (⟨made, ·⟩) fun ⟨fresh, present, unnamed⟩ =>
        ⟨present, unnamed, fun {another} apart => Bool.eq_false_iff.mpr fun held => ?_⟩
      rcases either another with same | ⟨same, -⟩
      · rw [same] at held
        exact Nat.not_lt_of_le fresh (discreet.furnished held)
      · exact apart same

private theorem workMembers (discreet : heap.Discreet secrecy) {id : ScopeId} {table : Table}
    {memory : Memory} (draws : (heap.scope id).members.Draws heap.memory table memory)
    {change : Scope → Scope} (members : ∀ scope, (change scope).members = table)
    (kind : ∀ scope, (change scope).kind = scope.kind)
    (aside : (heap.scope id).variant = .constructor → table.isArena = false ∧
      ∀ {cell}, cell ∈ table.heapCells → cell ∈ (heap.scope id).members.heapCells ∨
        (heap.memory.cells.size ≤ cell.index ∧ cell.index < memory.cells.size ∧
          ∀ position, memory.arena.peek position ≠ some cell)) :
    ({ heap with memory }.modifyScope id change).Discreet secrecy := by
  refine discreet.workScope draws.continues (congrArg ScopeKind.variant (kind _))
    (fun {cell} held => ?_) fun made => ?_
  · rcases holds_cell_of_members (kind _) held with listed | earlier
    · exact (draws.cells (members _ ▸ listed)).imp_left holds_cell_of_mem
    · exact .inl earlier
  · obtain ⟨stays, fresh⟩ := aside made
    refine ⟨members _ ▸ stays, fun {cell} held => ?_⟩
    rcases holds_cell_of_members (kind _) held with listed | earlier
    · exact (fresh (members _ ▸ listed)).imp_left holds_cell_of_mem
    · exact .inl earlier

/-- A scope that is put in place holds no cells, or is a call that is not watched. -/
theorem place (discreet : heap.Discreet secrecy) {id : ScopeId} {scope : Scope}
    (memory : after.memory = heap.memory)
    (either : ∀ other, after.scope other = heap.scope other ∨ other = id ∧
    after.scope other = scope)
    (aside : scope.variant = .constructor → scope.members.isArena = false)
    (holds : ∀ {cell}, scope.holds (.cell cell) = true →
      cell.index < heap.memory.cells.size ∧ scope.variant = .function ∧ ¬ secrecy.watched id) :
    after.Discreet secrecy := by
  refine discreet.work (memory ▸ .refl ..) (fun {other cell} held => ?_) (fun {other} made => ?_)
    fun {other cell} made held => ?_
  · rcases either other with same | ⟨rfl, placed⟩
    · rw [same] at held ⊢
      exact .inl ⟨held, rfl⟩
    · rw [placed] at held ⊢
      exact .inr (.inr (holds held))
  · rcases either other with same | ⟨rfl, placed⟩
    · rw [same] at made ⊢
      exact discreet.aside made
    · rw [placed] at made ⊢
      exact aside made
  · rcases either other with same | ⟨rfl, placed⟩
    · rw [same] at made held
      exact .inl ⟨made, held⟩
    · rw [placed] at made held
      exact nomatch made.symm.trans (holds held).2.1

end Discreet

theorem slotCell_discreet (discreet : heap.Discreet secrecy) (id : ScopeId) (slot : Nat) :
    (heap.slotCell id slot).2.Discreet secrecy := by
  refine discreet.workMembers (Table.cellAt_draws discreet.sound (heap.scope id).members slot)
    (fun _ => rfl) (fun _ => rfl) fun made => ?_
  obtain ⟨stays, -, fresh⟩ := Table.cellAt_aside discreet.sound (discreet.aside made) slot
  exact ⟨stays, fresh⟩

theorem setIndex_discreet (discreet : heap.Discreet secrecy) (id : ScopeId) (index : Index) :
    (heap.modifyScope id fun scope => { scope with index }).Discreet secrecy :=
  discreet.workScope (.refl ..) rfl .inl fun made => ⟨discreet.aside made, .inl⟩

theorem trailingCell_discreet (discreet : heap.Discreet secrecy) {id : ScopeId}
    {invocation : Invocation} (kind : (heap.scope id).kind = .function invocation) :
    (heap.trailingCell id invocation).2.Discreet secrecy := by
  have variant : (heap.scope id).variant = .function := congrArg ScopeKind.variant kind
  unfold trailingCell
  split
  next => exact discreet
  next =>
    have arrayed : (heap.newArray invocation.trailing true).2.Discreet secrecy :=
      discreet.of_scopes (.refl ..) rfl
    refine arrayed.workScope (Memory.new_confined ..).continues variant.symm
      (fun {cell} held => ?_) fun made => nomatch variant.symm.trans made
    refine (holds_cell_of_binding kind held).imp_right fun same => .inr ⟨?_, ?_⟩
    · exact Nat.le_of_eq (congrArg CellId.index same).symm
    · rw [same]
      simp [newCell, Memory.new, newArray]

theorem modifyCell_discreet (discreet : heap.Discreet secrecy) (id : CellId)
    (change : Cell → Cell) : (heap.modifyCell id change).Discreet secrecy :=
  discreet.of_scopes (Memory.modifyCell_confined ..).continues rfl

theorem newCell_discreet (discreet : heap.Discreet secrecy) (cell : Cell) :
    (heap.newCell cell).2.Discreet secrecy :=
  discreet.of_scopes (Memory.new_confined ..).continues rfl

theorem discreet_law (secrecy : Secrecy) :
    Law fun before after : Heap Code => before.Discreet secrecy → after.Discreet secrecy where
  refl _ := id
  trans left right := right ∘ left
  slotCell _ id slot discreet := slotCell_discreet discreet id slot
  trailingCell kind discreet := trailingCell_discreet discreet kind
  insertName _ id _ _ discreet := setIndex_discreet discreet id _
  newCell _ cell discreet := newCell_discreet discreet cell
  modifyCell _ id change discreet := modifyCell_discreet discreet id change

theorem newScope_discreet (discreet : heap.Discreet secrecy) {scope : Scope}
    (aside : scope.variant = .constructor → scope.members.isArena = false)
    (holds : ∀ {cell}, scope.holds (.cell cell) = true →
      cell.index < heap.memory.cells.size ∧ scope.variant = .function ∧
        ¬ secrecy.watched (heap.newScope scope).1) :
    (heap.newScope scope).2.Discreet secrecy := by
  refine discreet.place rfl (fun other => ?_) aside holds
  by_cases same : other = (heap.newScope scope).1
  · exact .inr ⟨same, same ▸ scope_newScope_self ..⟩
  · exact .inl (scope_newScope_ne same)

theorem detach_discreet (discreet : heap.Discreet secrecy) (id : ScopeId) :
    (heap.detach id).Discreet secrecy := by
  unfold detach
  dsimp only
  split
  next arena =>
    exact discreet.workMembers (Table.safeCopy_draws discreet.sound _).1 (fun _ => rfl)
      (fun _ => rfl) fun made => nomatch arena.symm.trans (discreet.aside made)
  next =>
    exact discreet.workMembers (.refl ..) (fun _ => rfl) (fun _ => rfl)
      fun made => ⟨discreet.aside made, .inl⟩

theorem newEmptyGlobal_discreet (discreet : heap.Discreet secrecy) :
    heap.newEmptyGlobal.2.Discreet secrecy :=
  newScope_discreet discreet nofun fun held => absurd held
    (Bool.eq_false_iff.mp (onHeap_holds_cell rfl))

theorem newGlobal_discreet (discreet : heap.Discreet secrecy) :
    heap.newGlobal.2.Discreet secrecy := by
  have made := newEmptyGlobal_discreet discreet
  unfold newGlobal
  generalize heap.newEmptyGlobal = result at made ⊢
  obtain ⟨scope, after⟩ := result
  exact (discreet_law secrecy).installBuiltins after scope made

theorem resetGlobal_discreet (discreet : heap.Discreet secrecy) (scope : ScopeId) :
    (heap.resetGlobal scope).Discreet secrecy := by
  have emptied : (heap.modifyScope scope fun data =>
      { data with index := .empty, members := .empty }).Discreet secrecy := by
    refine discreet.workMembers ⟨.refl .., fun listed => ?_⟩ (fun _ => rfl) (fun _ => rfl)
      fun _ => ⟨rfl, fun listed => ?_⟩
    · exact absurd listed (Array.not_mem_empty _)
    · exact absurd listed (Array.not_mem_empty _)
  exact (discreet_law secrecy).installBuiltins _ scope emptied

end Heap

end ScopeMachine
