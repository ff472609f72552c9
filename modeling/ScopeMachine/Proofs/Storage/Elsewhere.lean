import ScopeMachine.Proofs.Liveness.Findings
import ScopeMachine.Proofs.Storage.Detached
import ScopeMachine.Proofs.Storage.Filling
import ScopeMachine.Proofs.Storage.Naming

namespace ScopeMachine

open Memory

namespace Table

def stays? (slice : Slice) (length slot : Nat) (arena : Arena) : Option (Slice × Nat × Arena) :=
  if slot < length then some (slice, length, arena)
  else if slot + 1 ≤ slice.capacity then some (slice, slot + 1, arena)
  else
    (arena.grow? slice.offset slice.capacity (slot + 1 - slice.capacity)).map fun arena =>
      (⟨slice.offset, slot + 1⟩, slot + 1, arena)

def seat? (table : Table) (slot : Nat) (arena : Arena) : Option CellId :=
  match table with
  | .onHeap cells _ => cells[slot]?
  | .inArena slice length =>
      (stays? slice length slot arena).bind fun (slice, _, arena) =>
        arena.peek (slice.offset + slot)

variable {table : Table} {slot length : Nat} {slice : Slice} {arena : Arena} {memory : Memory}
  {id : CellId}

private theorem extended_inArena (slice : Slice) (length slot : Nat) (memory : Memory) :
    (inArena slice length).extended slot memory =
      match stays? slice length slot memory.arena with
      | some (slice, length, arena) => (.inArena slice length, { memory with arena })
      | none =>
          ((inArena slice length).copyOut memory).1.extendTo (slot + 1)
            ((inArena slice length).copyOut memory).2 := by
  unfold extended stays?
  by_cases below : slot < length
  · rw [if_pos below, if_pos (show slot < (inArena slice length).length from below)]
  · rw [if_neg below, if_neg (show ¬ slot < (inArena slice length).length from below)]
    by_cases inside : slot + 1 ≤ slice.capacity
    · have same : (inArena slice length).ensureCapacity (slot + 1) memory =
          (inArena slice length, memory) := if_pos inside
      rw [if_pos inside, same]
      rfl
    · have same : (inArena slice length).ensureCapacity (slot + 1) memory = _ := if_neg inside
      rw [if_neg inside, same]
      cases memory.arena.grow? slice.offset slice.capacity (slot + 1 - slice.capacity) <;> rfl

private theorem cellAt_of_seat? (found : table.seat? slot arena = some id) :
    ∃ table' arena', ∀ memory : Memory, memory.arena = arena →
      table.cellAt slot memory = (id, table', { memory with arena := arena' }) := by
  cases table with
  | onHeap cells reserved =>
      refine ⟨.onHeap cells reserved, arena, fun memory same => ?_⟩
      have reached : cells[slot]? = some id := found
      rw [cellAt_onHeap, if_pos (Array.getElem?_eq_some_iff.mp found).1,
        Array.getD_eq_getD_getElem?, reached, ← same]
      rfl
  | inArena slice length =>
      obtain ⟨⟨slice', length', arena'⟩, stays, peeked⟩ := Option.bind_eq_some_iff.mp found
      refine ⟨.inArena slice' length', arena', fun memory same => ?_⟩
      rw [cellAt_eq, extended_inArena, same, stays]
      dsimp only
      unfold Memory.slot
      rw [show Arena.peek arena' (slice'.offset + slot) = some id from peeked]

private theorem cellAt_of_unseated (sound : memory.Sound)
    (missing : table.seat? slot memory.arena = none) :
    memory.cells.size ≤ (table.cellAt slot memory).1.index ∧
      (table.cellAt slot memory).1.index < (table.cellAt slot memory).2.2.cells.size ∧
      (table.cellAt slot memory).2.2.cell (table.cellAt slot memory).1 = .blank := by
  have made (cells : Array CellId) (reserved : Option Slice) (memory : Memory)
      (absent : cells[slot]? = none) :
      memory.cells.size ≤ ((onHeap cells reserved).cellAt slot memory).1.index ∧
        ((onHeap cells reserved).cellAt slot memory).1.index <
          ((onHeap cells reserved).cellAt slot memory).2.2.cells.size ∧
        ((onHeap cells reserved).cellAt slot memory).2.2.cell
          ((onHeap cells reserved).cellAt slot memory).1 = .blank := by
    obtain ⟨reached, cells', after, same, grown⟩ := exists_grown cells reserved slot memory
    rw [same]
    rcases grown.origin grown.reached with found | ⟨-, fresh, present, blank⟩
    · cases absent.symm.trans found
    · refine ⟨?_, present, blank⟩
      rw [fresh]
      exact Nat.le_add_right ..
  cases table with
  | onHeap cells reserved => exact made cells reserved memory missing
  | inArena slice length =>
      rw [cellAt_eq, extended_inArena]
      cases stays : stays? slice length slot memory.arena with
      | some room =>
          obtain ⟨slice', length', arena'⟩ := room
          have empty : ((stays? slice length slot memory.arena).bind fun (slice, _, arena) =>
              arena.peek (slice.offset + slot)) = none := missing
          rw [stays] at empty
          dsimp only
          unfold Memory.slot
          rw [show Arena.peek arena' (slice'.offset + slot) = none from empty]
          refine ⟨Nat.le_refl _, ?_, ?_⟩
          · exact Nat.lt_of_lt_of_eq (Nat.lt_succ_self _) (Array.size_push _).symm
          · exact cell_new_self { memory with arena := arena' } .blank
      | none =>
          have beyond : ¬ slot < length := fun below => by
            unfold stays? at stays
            rw [if_pos below] at stays
            cases stays
          have size := (copyOut_draws sound (inArena slice length)).continues.size
          have same := length_copyOut (inArena slice length) memory
          have moved := isArena_copyOut (inArena slice length) memory
          generalize (inArena slice length).copyOut memory = result at size same moved ⊢
          obtain ⟨cells | slice, middle⟩ := result
          · next reserved =>
            have beyond : ¬ slot < (onHeap cells reserved).length := same ▸ beyond
            obtain ⟨fresh, present⟩ := made cells reserved middle
              (Array.getElem?_eq_none (Nat.le_of_not_lt beyond))
            have reached := cellAt_eq (onHeap cells reserved) slot middle
            unfold extended at reached
            rw [if_neg beyond] at reached
            rw [reached] at fresh present
            exact ⟨Nat.le_trans size fresh, present⟩
          · cases moved

private theorem Aloof.old_of_seat? (aloof : table.Aloof memory) (sound : memory.Sound)
    (found : table.seat? slot memory.arena = some id) : id.index < memory.cells.size := by
  cases table with
  | onHeap cells reserved => exact aloof.old (mem_heapCells.mpr ⟨slot, found⟩)
  | inArena slice length =>
      obtain ⟨⟨slice', length', arena'⟩, stays, peeked⟩ := Option.bind_eq_some_iff.mp found
      have slots : arena'.slots = memory.arena.slots := by
        unfold stays? at stays
        split at stays
        next => cases stays; rfl
        next =>
          split at stays
          next => cases stays; rfl
          next =>
            obtain ⟨grown, grows, same⟩ := Option.map_eq_some_iff.mp stays
            cases same
            unfold Arena.grow? at grows
            split at grows
            next => cases grows; rfl
            next => cases grows
      have peeked : arena'.peek (slice'.offset + slot) = some id := peeked
      unfold Arena.peek at peeked
      rw [slots] at peeked
      exact sound.old peeked

end Table

namespace Heap

variable {Code : Type} {before after : Heap Code} {id other : ScopeId} {name : String}

structure Beside (id : ScopeId) (before after : Heap Code) : Prop where
  size : after.scopes.size = before.scopes.size
  scope : ∀ {other : ScopeId}, other ≠ id → after.scope other = before.scope other
  kind : (after.scope id).kind = (before.scope id).kind
  previous : (after.scope id).previous = (before.scope id).previous
  arena : after.memory.arena = before.memory.arena
  cells : before.memory.cells.size ≤ after.memory.cells.size
  cell : ∀ {cell : CellId}, cell.index < before.memory.cells.size →
    after.cell cell = before.cell cell
  arrays : after.arrays = before.arrays

/-- What is found is the same: a cell that was there before, or a new one for a new one that holds
the same. -/
structure Agrees (base : Heap Code) (left right : Option CellId × Heap Code) : Prop where
  isSome : right.1.isSome = left.1.isSome
  cell : ∀ cell ∈ left.1, cell.index < left.2.memory.cells.size → ∃ cell' ∈ right.1,
    right.2.cell cell' = left.2.cell cell ∧ (cell.index < base.memory.cells.size → cell' = cell)

private theorem scope_modifyScope_congr {left right : Heap Code}
    (size : right.scopes.size = left.scopes.size)
    (same : right.scope id = left.scope id) (change : Scope → Scope) :
    (right.modifyScope id change).scope id = (left.modifyScope id change).scope id := by
  by_cases old : id.index < left.scopes.size
  · rw [scope_modifyScope_self old, scope_modifyScope_self (size ▸ old), same]
  · have absent : left.scopes.size ≤ id.index := Nat.le_of_not_lt old
    rw [scope_of_size_le, scope_of_size_le]
    · rw [size_modifyScope]
      exact absent
    · rw [size_modifyScope, size]
      exact absent

theorem Agrees.same {base left right : Heap Code} {cell : CellId}
    (content : right.cell cell = left.cell cell) :
    base.Agrees (some cell, left) (some cell, right) :=
  ⟨rfl, fun found same _ => ⟨cell, rfl, by cases same; exact content, fun _ => by cases same; rfl⟩⟩

namespace Beside

theorem refl (id : ScopeId) (heap : Heap Code) : Beside id heap heap :=
  ⟨rfl, fun _ => rfl, rfl, rfl, rfl, Nat.le_refl _, fun _ => rfl, rfl⟩

variable (beside : Beside id before after)

include beside

private theorem sound (sound : before.memory.Sound) : after.memory.Sound := by
  refine ⟨fun {position id} named => ?_, fun {position other id} named again => ?_⟩
  · rw [beside.arena] at named
    exact Nat.lt_of_lt_of_le (sound.old named) beside.cells
  · rw [beside.arena] at named again
    exact sound.distinct named again

private theorem links (other : ScopeId) : (after.scope other).kind = (before.scope other).kind ∧
    (after.scope other).previous = (before.scope other).previous := by
  by_cases same : other = id
  · subst same
    exact ⟨beside.kind, beside.previous⟩
  · rw [beside.scope same]
    exact ⟨rfl, rfl⟩

private theorem forked_eq (other : ScopeId) : after.forked other = before.forked other := by
  unfold forked
  rw [beside.size]
  generalize before.scopes.size = budget
  induction budget generalizing other with
  | zero => rfl
  | succ budget induction =>
      unfold forkedWithin
      rw [(beside.links other).1]
      split
      next => exact induction _
      next => rfl

private theorem chain_eq (other : ScopeId) : after.chain other = before.chain other := by
  unfold chain
  rw [beside.size]
  generalize before.scopes.size = budget
  induction budget generalizing other with
  | zero => rfl
  | succ budget induction =>
      unfold chainWithin
      rw [(beside.links other).2]
      cases (before.scope other).previous with
      | none => rfl
      | some next => exact congrArg (other :: ·) (induction next)

private theorem workMembers (table : Table) (arena : Arena) (apart : other ≠ id) :
    Beside id
      ({ before with memory := { before.memory with arena } }.modifyScope other fun scope =>
        { scope with members := table })
      ({ after with memory := { after.memory with arena } }.modifyScope other fun scope =>
        { scope with members := table }) where
  size := (size_modifyScope ..).trans (beside.size.trans (size_modifyScope ..).symm)
  scope {another} apart' := by
    by_cases same : another = other
    · subst same
      exact @scope_modifyScope_congr _ another
        { before with memory := { before.memory with arena } }
        { after with memory := { after.memory with arena } } beside.size (beside.scope apart) _
    · rw [scope_modifyScope_ne same, scope_modifyScope_ne same]
      exact beside.scope apart'
  kind := by
    rw [scope_modifyScope_ne apart.symm, scope_modifyScope_ne apart.symm]
    exact beside.kind
  previous := by
    rw [scope_modifyScope_ne apart.symm, scope_modifyScope_ne apart.symm]
    exact beside.previous
  arena := rfl
  cells := beside.cells
  cell := beside.cell
  arrays := beside.arrays

private theorem storedMember_agrees_uncalled (detached : before.Detached) (apart : other ≠ id)
    (uncalled : (before.scope other).variant ≠ .function) (name : String) :
    before.Agrees (before.storedMember other name) (after.storedMember other name) := by
  have same := beside.scope apart
  have named : after.named? other name = before.named? other name := by
    unfold named?
    rw [same]
    refine Option.bind_congr fun slot _ => ?_
    unfold Table.cell?
    rw [beside.arena]
  have old {cell : CellId} (found : before.named? other name = some cell) :
      after.cell cell = before.cell cell := by
    obtain ⟨slot, -, found⟩ := Option.bind_eq_some_iff.mp found
    exact beside.cell ((detached.aloof other).old_of_cell? detached.sound found)
  rw [storedMember_eq uncalled, storedMember_eq (same ▸ uncalled), named]
  have shown : (before.named? other name).filter (fun cell => (after.cell cell).isVisible) =
      (before.named? other name).filter fun cell => (before.cell cell).isVisible := by
    cases found : before.named? other name with
    | none => rfl
    | some cell => rw [Option.filter_some, Option.filter_some, old found]
  rw [shown]
  refine ⟨rfl, fun cell found _ => ⟨cell, found, ?_, fun _ => rfl⟩⟩
  exact old (Option.filter_eq_some_iff.mp found).1

private theorem slotCell_agrees (detached : before.Detached) (apart : other ≠ id) (slot : Nat) :
    ((after.slotCell other slot).1 = (before.slotCell other slot).1 ∧
        (after.slotCell other slot).2.cell (before.slotCell other slot).1 =
          (before.slotCell other slot).2.cell (before.slotCell other slot).1 ∧
        Beside id (before.slotCell other slot).2 (after.slotCell other slot).2) ∨
      (before.memory.cells.size ≤ (before.slotCell other slot).1.index ∧
        (before.slotCell other slot).2.cell (before.slotCell other slot).1 = .blank ∧
        (after.slotCell other slot).2.cell (after.slotCell other slot).1 = .blank) := by
  have same := beside.scope apart
  unfold slotCell
  rw [same]
  cases seat : (before.scope other).members.seat? slot before.memory.arena with
  | some cell =>
      obtain ⟨table, arena, reaches⟩ := Table.cellAt_of_seat? seat
      rw [reaches before.memory rfl, reaches after.memory beside.arena]
      have old := (detached.aloof other).old_of_seat? detached.sound seat
      exact .inl ⟨rfl, beside.cell old, beside.workMembers table arena apart⟩
  | none =>
      obtain ⟨fresh, -, blank⟩ := Table.cellAt_of_unseated detached.sound seat
      obtain ⟨-, -, blank'⟩ :=
        Table.cellAt_of_unseated (beside.sound detached.sound) (beside.arena.symm ▸ seat)
      exact .inr ⟨fresh, blank, blank'⟩

private theorem trailingCell_agrees (other : ScopeId) (invocation : Invocation) :
    before.Agrees (some (before.trailingCell other invocation).1,
        (before.trailingCell other invocation).2)
      (some (after.trailingCell other invocation).1,
        (after.trailingCell other invocation).2) := by
  unfold trailingCell
  cases invocation.trailingCell with
  | some cell =>
      refine ⟨rfl, fun found same old => ⟨cell, rfl, ?_, fun _ => by cases same; rfl⟩⟩
      cases same
      exact beside.cell old
  | none =>
      refine ⟨rfl, fun found same _ => ⟨_, rfl, ?_, ?_⟩⟩
      · cases same
        have made := cell_new_self before.memory
          (.constant (.array (before.newArray invocation.trailing true).1))
        have made' := cell_new_self after.memory
          (.constant (.array (after.newArray invocation.trailing true).1))
        have arrays := congrArg
          (fun arrays : Array ArrayObject => Cell.constant (.array ⟨arrays.size⟩)) beside.arrays
        exact made'.trans (arrays.trans made.symm)
      · cases same
        exact fun old => absurd old (Nat.lt_irrefl _)

private theorem storedMember_agrees (detached : before.Detached) (apart : other ≠ id)
    (name : String) :
    before.Agrees (before.storedMember other name) (after.storedMember other name) ∧
      ((before.storedMember other name).1 = none →
        Beside id (before.storedMember other name).2 (after.storedMember other name).2) := by
  have same := beside.scope apart
  by_cases called : (before.scope other).variant = .function
  · cases kind : (before.scope other).kind with
    | function invocation =>
        cases known : (before.scope other).index.slot? name with
        | some slot =>
            unfold storedMember
            simp only [same, kind, known]
            have agrees := beside.slotCell_agrees detached apart slot
            generalize before.slotCell other slot = reached at agrees ⊢
            generalize after.slotCell other slot = reached' at agrees ⊢
            obtain ⟨cell, heap⟩ := reached
            obtain ⟨cell', heap'⟩ := reached'
            dsimp only at agrees ⊢
            rcases agrees with ⟨rfl, content, still⟩ | ⟨fresh, blank, blank'⟩
            · rw [content]
              refine ⟨?_, fun _ => still⟩
              split
              · exact ⟨rfl, nofun⟩
              · exact .same content
            · rw [blank, blank']
              refine ⟨⟨rfl, fun found same _ => ⟨cell', rfl, ?_, ?_⟩⟩, nofun⟩
              · cases same
                exact blank'.trans blank.symm
              · cases same
                exact fun old => absurd old (Nat.not_lt_of_le fresh)
        | none =>
            unfold storedMember
            simp only [same, kind, known]
            split
            · exact ⟨beside.trailingCell_agrees other invocation, nofun⟩
            · exact ⟨⟨rfl, nofun⟩, fun _ => beside⟩
    | _ =>
        rw [Scope.variant, kind] at called
        cases called
  · refine ⟨beside.storedMember_agrees_uncalled detached apart called name, fun _ => ?_⟩
    rw [storedMember_eq called, storedMember_eq (same ▸ called)]
    exact beside

theorem ownMember_agrees (detached : before.Detached) (apart : before.forked other ≠ id)
    (name : String) :
    before.Agrees (before.ownMember other name) (after.ownMember other name) ∧
      ((before.ownMember other name).1 = none →
        Beside id (before.ownMember other name).2 (after.ownMember other name).2) := by
  unfold ownMember
  rw [beside.forked_eq]
  exact beside.storedMember_agrees detached apart name

private theorem lookupAlong_agrees (detached : before.Detached) (name : String)
    {chain : List ScopeId}
    (apart : ∀ scope ∈ chain, before.forked scope ≠ id) :
    before.Agrees (before.lookupAlong name chain) (after.lookupAlong name chain) := by
  suffices general : ∀ {base before after : Heap Code}, Beside id before after →
      before.Detached → base.memory.cells.size ≤ before.memory.cells.size →
      (∀ scope ∈ chain, before.forked scope ≠ id) →
      base.Agrees (before.lookupAlong name chain) (after.lookupAlong name chain) from
    general beside detached (Nat.le_refl _) apart
  clear beside detached apart
  induction chain with
  | nil => exact fun _ _ _ _ => ⟨rfl, nofun⟩
  | cons scope outer induction =>
      intro base before after beside detached grown apart
      obtain ⟨agrees, still⟩ := beside.ownMember_agrees detached (apart scope (.head _)) name
      have staysDetached := staysDetached_law.ownMember before scope name
      have forked := (settles_law.ownMember before scope name detached.sound).forked
      rw [lookupAlong_cons, lookupAlong_cons]
      generalize before.ownMember scope name = found at agrees still staysDetached forked ⊢
      generalize after.ownMember scope name = found' at agrees still ⊢
      obtain ⟨_ | cell, heap⟩ := found
      · obtain ⟨_ | cell', heap'⟩ := found'
        · refine induction (still rfl) (staysDetached.detached detached)
            (Nat.le_trans grown (staysDetached.continues detached).size) fun scope listed => ?_
          rw [forked]
          exact apart scope (.tail _ listed)
        · cases agrees.isSome
      · obtain ⟨_ | cell', heap'⟩ := found'
        · cases agrees.isSome
        · refine ⟨agrees.isSome, fun cell found present => ?_⟩
          obtain ⟨cell', found', content, same⟩ := agrees.cell cell found present
          exact ⟨cell', found', content, fun old => same (Nat.lt_of_lt_of_le old grown)⟩

theorem lookup_agrees (detached : before.Detached)
    (apart : ∀ scope ∈ before.chain other, before.forked scope ≠ id) (name : String) :
    before.Agrees (before.lookup other name) (after.lookup other name) := by
  unfold lookup
  rw [beside.chain_eq]
  exact beside.lookupAlong_agrees detached name apart

end Beside

end Heap

end ScopeMachine
