import Mathlib.Data.List.Basic
import ScopeMachine.Proofs.Frames.Held
import ScopeMachine.Proofs.Frames.Integrity
import ScopeMachine.Proofs.Frames.Ledger
import ScopeMachine.Proofs.Liveness.ScopeExtents
import ScopeMachine.Proofs.Storage.Filling

/-!
Block scopes that something still holds when their frame is closed. Each is moved to the heap with
its members and is left alone from then on. A block loses a member on the way exactly when an
earlier one had the same slot and took it along.
-/

namespace ScopeMachine

open Memory Table Action

namespace Table

private theorem detached_slot (table : Table) {memory : Memory} (sound : memory.Sound) {slot : Nat}
    (below : slot < table.length) :
    ∃ cell, (table.detached memory).heapCells[slot]? = some cell ∧
      (∀ {named : CellId}, table.cell? slot memory = some named → cell = named) ∧
      (table.copyOut memory).2.cell cell = table.content slot memory := by
  cases table with
  | onHeap cells reserved =>
      have found : (onHeap cells reserved).cell? slot memory = some cells[slot] :=
        Array.getElem?_eq_getElem below
      refine ⟨_, found, fun {named} here => ?_, (content_of_cell? found).symm⟩
      exact Option.some.inj (found.symm.trans here)
  | inArena slice length =>
      have below : slot < length := below
      have taken := take_taken sound slice.offset length
      have cells : ((inArena slice length).detached memory).heapCells =
          (memory.take slice.offset length).1 := by
        unfold detached copyOut
        dsimp only
        split <;> rfl
      have contents : ∀ cell, ((inArena slice length).copyOut memory).2.cell cell =
          (memory.take slice.offset length).2.cell cell := by
        intro cell
        unfold copyOut
        dsimp only
        split <;> rfl
      have inside : slot < (memory.take slice.offset length).1.size :=
        Nat.lt_of_lt_of_eq below taken.size.symm
      have found := Array.getElem?_eq_getElem inside
      refine ⟨_, (congrArg (·[slot]?) cells).trans found, fun {named} here => ?_, ?_⟩
      · rw [cell?_inArena below] at here
        exact Option.some.inj (found.symm.trans (taken.kept below here))
      · rw [contents, content_inArena below]
        exact (taken.drawn found).content

private theorem length_detached (table : Table) (memory : Memory) :
    (table.detached memory).length = table.length := by
  cases table with
  | onHeap => rfl
  | inArena slice length =>
      have same := length_copyOut (inArena slice length) memory
      have heaped := isArena_copyOut (inArena slice length) memory
      change (onHeap ((inArena slice length).copyOut memory).1.heapCells none).length = length
      generalize ((inArena slice length).copyOut memory).1 = copied at same heaped ⊢
      cases copied with
      | onHeap => exact same
      | inArena => cases heaped

private theorem cell?_of_heaped {table : Table} (heaped : table.isArena = false) (slot : Nat)
    (memory : Memory) : table.cell? slot memory = table.heapCells[slot]? := by
  cases table with
  | onHeap => rfl
  | inArena => cases heaped

private theorem isArena_detached (table : Table) (memory : Memory) :
    (table.detached memory).isArena = false := by
  cases table <;> rfl

end Table

namespace Heap

variable {Code : Type} {heap : Heap Code} {id : ScopeId}

def shown? (heap : Heap Code) (id : ScopeId) (slot : Nat) : Option CellId :=
  ((heap.scope id).members.cell? slot heap.memory).filter fun cell => (heap.cell cell).isVisible

private theorem ownMember_basic (basic : (heap.scope id).kind = .basic) (name : String) :
    (heap.ownMember id name).1 = ((heap.scope id).index.slot? name).bind (heap.shown? id) := by
  have here : heap.forked id = id := by
    unfold forked
    cases heap.scopes.size with
    | zero => rfl
    | succ budget =>
        unfold forkedWithin
        rw [basic]
  unfold ownMember storedMember
  rw [here]
  dsimp only
  rw [basic]
  cases (heap.scope id).index.slot? name <;> rfl

/-- Every name of its own leads the scope to the same cell as before, with the same content. -/
def Resolves (before after : Heap Code) (id : ScopeId) : Prop :=
  ∀ name, (after.ownMember id name).1 = (before.ownMember id name).1 ∧
    ∀ cell ∈ (before.ownMember id name).1, after.cell cell = before.cell cell

end Heap

namespace Machine

variable {Code : Type}

def promoted (held : List Handle) : List ScopeId → Machine Code → List ScopeId
  | [], _ => []
  | id :: rest, machine =>
      if machine.isHeld (rest.map .scope ++ held) id then
        id :: promoted held rest (machine.promote id)
      else promoted held rest (machine.recycle id)

def survivors (machine : Machine Code) (held : List Handle) : List ScopeId :=
  match machine.frames.pop? with
  | none => []
  | some (top, outer) => promoted held top.blocks { machine with frames := outer }

def TakenBy (machine : Machine Code) (blocks : List ScopeId) (cell : CellId) : Prop :=
  ∃ other ∈ blocks, (machine.heap.scope other).members.isArena = true ∧
    (machine.heap.scope other).members.Names machine.heap.memory cell

/-- An earlier survivor has one of the scope's members in a slot of its own. -/
def Overtaken (machine : Machine Code) (held : List Handle) (id : ScopeId) : Prop :=
  ∃ earlier later name cell, machine.survivors held = earlier ++ id :: later ∧
    (machine.heap.ownMember id name).1 = some cell ∧ machine.TakenBy earlier cell

private theorem promoted_sublist (held : List Handle) (blocks : List ScopeId)
    (machine : Machine Code) :
    (promoted held blocks machine).Sublist blocks := by
  induction blocks generalizing machine with
  | nil => exact .slnil
  | cons first rest induction =>
      unfold promoted
      split
      · exact (induction _).cons_cons first
      · exact (induction _).cons first

private theorem promoted_subset (held : List Handle) (blocks : List ScopeId)
    (machine : Machine Code) :
    ∀ id ∈ promoted held blocks machine, id ∈ blocks :=
  fun _ listed => (promoted_sublist held blocks machine).subset listed

private theorem promoted_cons (held : List Handle) (id : ScopeId) (rest : List ScopeId)
    (machine : Machine Code) :
    promoted held (id :: rest) machine =
      if machine.isHeld (rest.map .scope ++ held) id then
        id :: promoted held rest (machine.promote id)
      else promoted held rest (machine.recycle id) := rfl

/-- Blocks are released in turn: first the earlier ones, while the later ones are still listed. -/
theorem releaseBlocks_append (held : List Handle) (first later : List ScopeId)
    (machine : Machine Code) :
    releaseBlocks held (first ++ later) machine =
        releaseBlocks held later (releaseBlocks (later.map .scope ++ held) first machine) ∧
      promoted held (first ++ later) machine =
        promoted (later.map .scope ++ held) first machine ++
          promoted held later (releaseBlocks (later.map .scope ++ held) first machine) := by
  induction first generalizing machine with
  | nil => exact ⟨rfl, rfl⟩
  | cons id rest induction =>
      have same : (rest ++ later).map .scope ++ held =
          rest.map .scope ++ (later.map .scope ++ held) := by simp
      rw [List.cons_append, Workspace.releaseBlocks_cons, Workspace.releaseBlocks_cons,
        promoted_cons,
        promoted_cons, same]
      by_cases kept : machine.isHeld (rest.map .scope ++ (later.map .scope ++ held)) id = true
      · simp only [if_pos kept, (induction _).1, (induction _).2, List.cons_append, and_self]
      · simp only [if_neg kept, (induction _).1, (induction _).2, and_self]

private theorem peek_releaseBlocks {held : List Handle} {blocks : List ScopeId}
    (nodup : blocks.Nodup)
    {machine : Machine Code} (sound : machine.heap.memory.Sound) (position : Nat) :
    ((∃ id ∈ promoted held blocks machine, (machine.heap.scope id).members.Fills position) →
        (releaseBlocks held blocks machine).heap.memory.arena.peek position = none) ∧
      ((∀ id ∈ promoted held blocks machine, ¬ (machine.heap.scope id).members.Fills position) →
        (releaseBlocks held blocks machine).heap.memory.arena.peek position =
          machine.heap.memory.arena.peek position) := by
  induction blocks generalizing machine with
  | nil => exact ⟨nofun, fun _ => rfl⟩
  | cons first rest induction =>
      obtain ⟨fresh, nodup⟩ := List.nodup_cons.mp nodup
      rw [Workspace.releaseBlocks_cons, promoted_cons]
      have others : ∀ {kept : List Handle} {machine' : Machine Code},
        ∀ id ∈ promoted kept rest machine',
          id ≠ first := fun id listed same => fresh (same ▸ promoted_subset _ _ _ id listed)
      split
      next =>
        have promotion := Heap.detach_keepsHeld (fun _ => true) (fun _ => False) machine.heap first
        have later := @induction nodup (machine.promote first) (promotion.sound sound)
        have scopes : ∀ {kept : List Handle}, ∀ id ∈ promoted kept rest (machine.promote first),
            (machine.promote first).heap.scope id = machine.heap.scope id :=
          fun id listed => Heap.scope_detach_ne (others id listed) _
        obtain ⟨emptied, spared⟩ := (machine.heap.scope first).members.peek_copyOut sound position
        rw [← Heap.memory_detach] at emptied spared
        constructor
        · rintro ⟨id, listed, fills⟩
          by_cases again : ∃ id ∈ promoted held rest (machine.promote first),
              (machine.heap.scope id).members.Fills position
          · obtain ⟨id, listed, fills⟩ := again
            exact later.1 ⟨id, listed, scopes id listed ▸ fills⟩
          · rcases List.mem_cons.mp listed with rfl | listed
            · refine (later.2 fun other listed fills => again ⟨other, listed, ?_⟩).trans
                (emptied fills)
              exact scopes other listed ▸ fills
            · exact absurd ⟨id, listed, fills⟩ again
        · intro unfilled
          refine (later.2 fun id listed fills => ?_).trans
            (spared (unfilled first List.mem_cons_self))
          exact unfilled id (List.mem_cons_of_mem _ listed) (scopes id listed ▸ fills)
      next =>
        have later := @induction nodup (machine.recycle first) sound
        have scopes : ∀ {kept : List Handle}, ∀ id ∈ promoted kept rest (machine.recycle first),
            (machine.recycle first).heap.scope id = machine.heap.scope id :=
          fun id listed => Heap.scope_modifyScope_ne (others id listed) ..
        constructor
        · rintro ⟨id, listed, fills⟩
          exact later.1 ⟨id, listed, scopes id listed ▸ fills⟩
        · exact fun unfilled => later.2 fun id listed fills =>
            unfilled id listed (scopes id listed ▸ fills)

structure Survives (machine : Machine Code) (held : List Handle) (id : ScopeId)
    (earlier : List ScopeId) (before : Machine Code) : Prop where
  scope : before.heap.scope id = machine.heap.scope id
  old : id.index < before.heap.scopes.size
  keepsHeld : machine.heap.KeepsHeld (fun _ => true) (fun _ => False) before.heap
  emptied : ∀ {position : Nat},
    (∃ other ∈ earlier, (machine.heap.scope other).members.Fills position) →
    before.heap.memory.arena.peek position = none
  spared : ∀ {position : Nat},
    (∀ other ∈ earlier, ¬ (machine.heap.scope other).members.Fills position) →
    before.heap.memory.arena.peek position = machine.heap.memory.arena.peek position
  detached : before.Detached
  later : (before.promote id).heap.KeepsHeld machine.host.shares (fun _ => False)
    (machine.closeFrame held).heap
  final : (machine.closeFrame held).heap.scope id = (before.promote id).heap.scope id
  retired : (machine.closeFrame held).ledger.Retired id
  overtaken : machine.Overtaken held id ↔ ∃ name cell,
    (machine.heap.ownMember id name).1 = some cell ∧ machine.TakenBy earlier cell

theorem closeFrame_of_pop? {machine : Machine Code} {top : Frame} {outer : FrameStack}
    (popped : machine.frames.pop? = some (top, outer)) (held : List Handle) :
    let released := releaseBlocks held top.blocks { machine with frames := outer }
    machine.closeFrame held =
      released.withMemory (released.heap.memory.closeFrame released.host.shares top.mark) := by
  unfold closeFrame
  rw [popped]
  rfl

private theorem survivors_of_pop? {machine : Machine Code} {top : Frame} {outer : FrameStack}
    (popped : machine.frames.pop? = some (top, outer)) (held : List Handle) :
    machine.survivors held = promoted held top.blocks { machine with frames := outer } := by
  unfold survivors
  rw [popped]

private theorem survivors_split {machine : Machine Code} {top : Frame} {outer : FrameStack}
    (popped : machine.frames.pop? = some (top, outer)) (nodup : top.blocks.Nodup)
    {held : List Handle} {id : ScopeId} (survives : id ∈ machine.survivors held) :
    ∃ first rest, top.blocks = first ++ id :: rest ∧ id ∉ first ∧ id ∉ rest ∧
      let before := releaseBlocks ((id :: rest).map .scope ++ held) first
        { machine with frames := outer }
      releaseBlocks held top.blocks { machine with frames := outer } =
          releaseBlocks held rest (before.promote id) ∧
        machine.survivors held =
          promoted ((id :: rest).map .scope ++ held) first { machine with frames := outer } ++
            id :: promoted held rest (before.promote id) := by
  rw [survivors_of_pop? popped] at survives ⊢
  obtain ⟨first, rest, blocks, fresh⟩ :=
    List.eq_append_cons_of_mem (promoted_subset _ _ _ id survives)
  have apart : id ∉ rest := by
    rw [blocks] at nodup
    exact (List.nodup_cons.mp (List.nodup_append.mp nodup).2.1).1
  obtain ⟨released, listing⟩ := releaseBlocks_append held first (id :: rest)
    { machine with frames := outer }
  rw [← blocks] at released listing
  refine ⟨first, rest, blocks, fresh, apart, ?_⟩
  rw [Workspace.releaseBlocks_cons] at released
  rw [promoted_cons] at listing
  -- Only its own turn can have brought it among the promoted ones.
  split at listing
  next alive =>
    rw [if_pos alive] at released
    exact ⟨released, listing⟩
  next =>
    rw [listing] at survives
    rcases List.mem_append.mp survives with earlier | later
    · exact absurd (promoted_subset _ _ _ id earlier) fresh
    · exact absurd (promoted_subset _ _ _ id later) apart

private theorem enlisted_turn {machine : Machine Code} (enlisted : machine.ledger.Enlisted)
    {top : Frame}
    {outer : FrameStack} (popped : machine.frames.pop? = some (top, outer))
    {first later : List ScopeId} (blocks : top.blocks = first ++ later) (held : List Handle) :
    let before := releaseBlocks held first { machine with frames := outer }
    (Ledger.mk before.heap before.pool (later ++ outer.blocks)).Enlisted := by
  refine (releaseBlocks_upholds held first (later ++ outer.blocks)
    { machine with frames := outer }).enlisted ?_
  have known : (Ledger.mk machine.heap machine.pool machine.frames.blocks).Enlisted := enlisted
  rw [blocks_of_pop? popped, blocks, List.append_assoc] at known
  exact known

private theorem survives_of_held {machine : Machine Code} (enlisted : machine.ledger.Enlisted)
    {top : Frame} {outer : FrameStack} (popped : machine.frames.pop? = some (top, outer))
    {held : List Handle} {id : ScopeId} (listed : id ∈ top.blocks)
    (kept : (machine.closeFrame held).isHeld held id = true) : id ∈ machine.survivors held := by
  obtain ⟨first, rest, blocks, -⟩ := List.eq_append_cons_of_mem listed
  obtain ⟨released, listing⟩ := releaseBlocks_append held first (id :: rest)
    { machine with frames := outer }
  have turn := enlisted_turn enlisted popped blocks ((id :: rest).map .scope ++ held)
  have closing := closeFrame_of_pop? popped held
  rw [survivors_of_pop? popped]
  rw [← blocks, Workspace.releaseBlocks_cons] at released
  rw [← blocks, promoted_cons] at listing
  dsimp only at turn closing
  generalize releaseBlocks ((id :: rest).map .scope ++ held) first
    { machine with frames := outer } =
    before at *
  cases alive : before.isHeld (rest.map .scope ++ held) id with
  | true =>
      rw [listing, if_pos alive]
      exact List.mem_append_right _ List.mem_cons_self
  | false =>
      have old : id.index < before.heap.scopes.size :=
        turn.old id (List.mem_append_right _ List.mem_cons_self)
      have recycled : (before.recycle id).Lost (rest.map .scope ++ held) (.scope id) :=
        lost_recycle (lost_of_not_held old alive)
      have lost := lost_releaseBlocks recycled
      rw [if_neg (by simp [alive])] at released
      rw [← released] at lost
      have gone : (machine.closeFrame held).Lost held (.scope id) := by
        rw [closing]
        exact lost_onMemory (Memory.closeFrame_grows ..) lost
      exact nomatch kept.symm.trans (not_held_of_lost gone)

private theorem exists_survives {machine : Machine Code} (enlisted : machine.ledger.Enlisted)
    (detached : machine.Detached) {held : List Handle} {id : ScopeId}
    (survives : id ∈ machine.survivors held) :
    ∃ earlier before, machine.Survives held id earlier before := by
  cases popping : machine.frames.pop? with
  | none => simp [survivors, popping] at survives
  | some popped =>
  obtain ⟨top, outer⟩ := popped
  have known : (Ledger.mk machine.heap machine.pool (top.blocks ++ outer.blocks)).Enlisted :=
    blocks_of_pop? popping ▸ enlisted
  have nodup : top.blocks.Nodup := (List.nodup_append.mp (List.nodup_append.mp known.nodup).2.1).1
  obtain ⟨first, rest, blocks, fresh, apart, released, listing⟩ :=
    survivors_split popping nodup survives
  have firstNodup : first.Nodup := (List.nodup_append.mp (blocks ▸ nodup)).1
  have later := promoted_subset held rest
    ((releaseBlocks ((id :: rest).map .scope ++ held) first
      { machine with frames := outer }).promote id)
  have earlier := promoted_subset ((id :: rest).map .scope ++ held) first
    { machine with frames := outer }
  have closing := closeFrame_of_pop? popping held
  have listed := enlisted_turn enlisted popping blocks ((id :: rest).map .scope ++ held)
  have scope : (releaseBlocks ((id :: rest).map .scope ++ held) first
      { machine with frames := outer }).heap.scope id = machine.heap.scope id :=
    scope_releaseBlocks fresh _
  have keeps := releaseBlocks_keepsHeld (fun _ => true) (fun _ => False)
    ((id :: rest).map .scope ++ held) first { machine with frames := outer }
  have stays := releaseBlocks_staysDetached ((id :: rest).map .scope ++ held) first
    { machine with frames := outer }
  have peeks := @peek_releaseBlocks _ ((id :: rest).map .scope ++ held) first firstNodup
    { machine with frames := outer } detached.sound
  have hosts := host_releaseBlocks ((id :: rest).map .scope ++ held) first
    { machine with frames := outer }
  generalize releaseBlocks ((id :: rest).map .scope ++ held) first
    { machine with frames := outer } = before at *
  generalize promoted ((id :: rest).map .scope ++ held) first { machine with frames := outer } =
    promotedFirst at *
  have listed : (Ledger.mk before.heap before.pool (id :: (rest ++ outer.blocks))).Enlisted :=
    listed
  have old : id.index < before.heap.scopes.size :=
    listed.old id (List.mem_append_right _ List.mem_cons_self)
  have unlisted : id ∉ before.pool ++ (rest ++ outer.blocks) :=
    (List.nodup_cons.mp (List.perm_middle.nodup_iff.mp listed.nodup)).1
  have retired : (Ledger.mk (before.promote id).heap before.pool (rest ++ outer.blocks)).Retired
    id := by
    have self : (before.promote id).heap.scope id = _ := Heap.scope_detach_self old
    refine ⟨Nat.lt_of_lt_of_eq old (Heap.size_detach ..).symm, unlisted, ?_, ?_, ?_⟩
    · rw [self]
      exact listed.basic id List.mem_cons_self
    · rw [self]
    · rw [self]
      exact Table.isArena_detached ..
  have ending := releaseBlocks_upholds held rest outer.blocks (before.promote id)
  have frames := (Workspace.frames_releaseBlocks held top.blocks { machine with frames := outer }).1
  have heeded := releaseBlocks_keepsHeld machine.host.shares (fun _ => False) held rest
    (before.promote id)
  have host := host_releaseBlocks held top.blocks { machine with frames := outer }
  have final : (releaseBlocks held rest (before.promote id)).heap.scope id =
      (before.promote id).heap.scope id := scope_releaseBlocks apart _
  dsimp only at closing
  rw [released] at closing frames host
  generalize releaseBlocks held rest (before.promote id) = after at *
  refine ⟨promotedFirst, before, scope, old, keeps, (peeks _).1, (peeks _).2,
    stays.detached detached,
    ?_, ?_, ?_, ?_⟩
  · rw [closing, host]
    exact heeded.trans (.of_memory _ (Memory.closeFrame_keepsHeld ..))
  · rw [closing]
    exact final
  · have closed : (Ledger.mk after.heap after.pool outer.blocks).Upholds
        (machine.closeFrame held).ledger := by
      rw [closing]
      exact Ledger.upholds_heap (.of_scopes rfl) rfl (congrArg FrameStack.blocks frames)
    exact ((ending.trans closed).retired
      ((Ledger.upholds_promote _ (.refl _)).enlisted listed) retired).1
  · unfold Overtaken
    rw [listing]
    constructor
    · rintro ⟨before', after', name, cell, same, bound, taken⟩
      obtain ⟨rfl, -, -⟩ := (List.append_cons_inj_of_notMem (fun again => fresh (earlier id again))
        fun again => apart (later id again)).mp same
      exact ⟨name, cell, bound, taken⟩
    · exact fun ⟨name, cell, bound, taken⟩ => ⟨_, _, name, cell, rfl, bound, taken⟩

section Survives

variable {machine before : Machine Code} {held : List Handle} {id : ScopeId}
  {earlier : List ScopeId}

private theorem takenBy_iff {position : Nat} {cell : CellId} (sound : machine.heap.memory.Sound)
    (named : machine.heap.memory.arena.peek position = some cell) :
    machine.TakenBy earlier cell ↔
      ∃ other ∈ earlier, (machine.heap.scope other).members.Fills position := by
  constructor
  · rintro ⟨other, listed, arena, slot, found⟩
    refine ⟨other, listed, ?_⟩
    generalize (machine.heap.scope other).members = members at arena found
    cases members with
    | onHeap => cases arena
    | inArena slice length =>
        obtain ⟨below, peeked⟩ := peek_of_cell? found
        rw [fills_inArena, sound.distinct named peeked]
        exact ⟨Nat.le_add_right .., Nat.add_lt_add_left below _⟩
  · rintro ⟨other, listed, slice, length, shape, low, high⟩
    refine ⟨other, listed, by rw [shape]; rfl, position - slice.offset, ?_⟩
    rw [shape, cell?_inArena (by omega), Nat.add_sub_cancel' low]
    exact named

namespace Survives

variable (survives : machine.Survives held id earlier before) (detached : machine.Detached)

include survives

private theorem members_closeFrame :
    ((machine.closeFrame held).heap.scope id).members =
      (machine.heap.scope id).members.detached before.heap.memory := by
  rw [survives.final]
  unfold Machine.promote
  rw [Heap.scope_detach_self survives.old, survives.scope]

private theorem cell_of_promoted {cell : CellId}
    (listed : cell ∈ ((before.promote id).heap.scope id).members.heapCells) :
    (machine.closeFrame held).heap.cell cell = (before.promote id).heap.cell cell := by
  have aloof := ((Heap.detach_staysDetached before.heap id).detached survives.detached).aloof id
  exact survives.later.cell (aloof.old listed) (.inr (aloof.unnamed listed)) not_false

private theorem slot_closeFrame {slot : Nat}
    (below : slot < (machine.heap.scope id).members.length) :
    ∃ cell, ((machine.closeFrame held).heap.scope id).members.cell? slot
        (machine.closeFrame held).heap.memory = some cell ∧
      (∀ {named : CellId}, (machine.heap.scope id).members.cell? slot before.heap.memory =
        some named → cell = named) ∧
      (machine.closeFrame held).heap.cell cell =
        (machine.heap.scope id).members.content slot before.heap.memory := by
  obtain ⟨cell, found, same, content⟩ :=
    (machine.heap.scope id).members.detached_slot survives.detached.sound below
  have members := survives.members_closeFrame
  have named : ((machine.closeFrame held).heap.scope id).members.cell? slot
      (machine.closeFrame held).heap.memory = some cell := by
    rw [← members] at found
    exact (cell?_of_heaped survives.retired.heaped ..).trans found
  refine ⟨cell, named, same, ?_⟩
  rw [survives.cell_of_promoted]
  · rw [← content, ← survives.scope, ← Heap.memory_detach]
    rfl
  · rw [← survives.final, members]
    exact Array.mem_of_getElem? found

include detached

private theorem cell?_eq_some_iff {slot : Nat} {cell : CellId} :
    (machine.heap.scope id).members.cell? slot before.heap.memory = some cell ↔
      (machine.heap.scope id).members.cell? slot machine.heap.memory = some cell ∧
        ¬ machine.TakenBy earlier cell := by
  have aloof := detached.aloof id
  generalize (machine.heap.scope id).members = members at aloof
  cases members with
  | onHeap cells reserved =>
      refine ⟨fun named => ⟨named, ?_⟩, fun ⟨named, _⟩ => named⟩
      rintro ⟨other, listed, arena, slot', found⟩
      generalize (machine.heap.scope other).members = members' at arena found
      cases members' with
      | onHeap => cases arena
      | inArena slice length =>
          exact aloof.unnamed (mem_heapCells.mpr ⟨slot, named⟩) _ (peek_of_cell? found).2
  | inArena slice length =>
      by_cases below : slot < length
      · rw [cell?_inArena below, cell?_inArena below]
        by_cases filled : ∃ other ∈ earlier,
            (machine.heap.scope other).members.Fills (slice.offset + slot)
        · rw [survives.emptied filled]
          refine ⟨nofun, fun ⟨named, free⟩ => ?_⟩
          exact absurd ((takenBy_iff detached.sound named).mpr filled) free
        · rw [survives.spared fun other listed fills => filled ⟨other, listed, fills⟩]
          refine ⟨fun named => ⟨named, fun taken => ?_⟩, fun ⟨named, _⟩ => named⟩
          exact filled ((takenBy_iff detached.sound named).mp taken)
      · have beyond := Nat.le_of_not_lt below
        rw [cell?_of_length_le beyond, cell?_of_length_le beyond]
        exact ⟨nofun, fun ⟨named, _⟩ => named⟩

private theorem kept {slot : Nat} {cell : CellId}
    (named : (machine.heap.scope id).members.cell? slot machine.heap.memory = some cell)
    (free : ¬ machine.TakenBy earlier cell) :
    ((machine.closeFrame held).heap.scope id).members.cell? slot
        (machine.closeFrame held).heap.memory = some cell ∧
      (machine.closeFrame held).heap.cell cell = machine.heap.cell cell := by
  have left := (survives.cell?_eq_some_iff detached).mpr ⟨named, free⟩
  have below : slot < (machine.heap.scope id).members.length := by
    refine Nat.lt_of_not_le fun beyond => ?_
    rw [cell?_of_length_le beyond] at named
    cases named
  obtain ⟨cell', found, same, content⟩ := survives.slot_closeFrame below
  cases same left
  refine ⟨found, content.trans ((content_of_cell? left).trans ?_)⟩
  exact survives.keepsHeld.cell ((detached.aloof id).old_of_cell? detached.sound named) (.inl rfl)
    not_false

private theorem blank {slot : Nat}
    (taken : ∀ cell, (machine.heap.scope id).members.cell? slot machine.heap.memory = some cell →
      machine.TakenBy earlier cell) :
    (machine.closeFrame held).heap.shown? id slot = none := by
  have left : (machine.heap.scope id).members.cell? slot before.heap.memory = none := by
    refine Option.eq_none_iff_forall_ne_some.mpr fun cell named => ?_
    obtain ⟨named, free⟩ := (survives.cell?_eq_some_iff detached).mp named
    exact free (taken cell named)
  unfold Heap.shown?
  by_cases below : slot < (machine.heap.scope id).members.length
  · obtain ⟨cell, found, -, content⟩ := survives.slot_closeFrame below
    rw [content_of_cell?_none left] at content
    rw [found, Option.filter_some, content]
    rfl
  · have beyond : ((machine.closeFrame held).heap.scope id).members.length ≤ slot := by
      rw [survives.members_closeFrame, length_detached]
      exact Nat.le_of_not_lt below
    rw [cell?_of_length_le beyond]
    rfl

private theorem shown?_eq_some_iff {slot : Nat} {cell : CellId} :
    (machine.closeFrame held).heap.shown? id slot = some cell ↔
      machine.heap.shown? id slot = some cell ∧ ¬ machine.TakenBy earlier cell := by
  by_cases kept : ∃ named,
      (machine.heap.scope id).members.cell? slot machine.heap.memory = some named ∧
        ¬ machine.TakenBy earlier named
  · obtain ⟨named, here, free⟩ := kept
    obtain ⟨there, content⟩ := survives.kept detached here free
    unfold Heap.shown?
    rw [here, there, Option.filter_some, Option.filter_some, content]
    split
    · refine ⟨fun same => ⟨same, ?_⟩, And.left⟩
      cases same
      exact free
    · exact ⟨nofun, fun ⟨absurd, _⟩ => nomatch absurd⟩
  · rw [survives.blank detached fun cell named => Classical.not_not.mp fun free =>
      kept ⟨cell, named, free⟩]
    refine ⟨nofun, fun ⟨shown, free⟩ => ?_⟩
    exact absurd ⟨cell, (Option.filter_eq_some_iff.mp shown).1, free⟩ kept

private theorem resolves_iff (basic : (machine.heap.scope id).kind = .basic) :
    machine.heap.Resolves (machine.closeFrame held).heap id ↔ ¬ machine.Overtaken held id := by
  have index : ((machine.closeFrame held).heap.scope id).index = (machine.heap.scope id).index := by
    rw [survives.final]
    unfold Machine.promote
    rw [Heap.scope_detach_self survives.old, survives.scope]
  have after : ((machine.closeFrame held).heap.scope id).kind = .basic := survives.retired.basic
  unfold Heap.Resolves
  simp only [survives.overtaken, Heap.ownMember_basic basic, Heap.ownMember_basic after, index]
  constructor
  · rintro resolves ⟨name, cell, bound, taken⟩
    have still := (resolves name).1.trans bound
    obtain ⟨slot, -, shown⟩ := Option.bind_eq_some_iff.mp still
    exact ((survives.shown?_eq_some_iff detached).mp shown).2 taken
  · intro free name
    cases found : (machine.heap.scope id).index.slot? name with
    | none => exact ⟨rfl, nofun⟩
    | some slot =>
        simp only [Option.bind_some]
        have free : ∀ cell, machine.heap.shown? id slot = some cell →
            ¬ machine.TakenBy earlier cell := by
          intro cell shown taken
          refine free ⟨name, cell, ?_, taken⟩
          rw [found]
          exact shown
        refine ⟨Option.ext fun cell => ?_, fun cell shown => ?_⟩
        · rw [survives.shown?_eq_some_iff detached]
          exact and_iff_left_of_imp (free cell)
        · exact (survives.kept detached (Option.filter_eq_some_iff.mp shown).1 (free cell shown)).2

end Survives

end Survives

/-- The scope is a block of the innermost frame. -/
def Hosts (machine : Machine Code) (id : ScopeId) : Prop :=
  ∃ top outer, machine.frames.pop? = some (top, outer) ∧ id ∈ top.blocks

/-- A block of the innermost frame that something still holds when the frame has been closed. -/
structure Escapes (machine : Machine Code) (held : List Handle) (id : ScopeId) : Prop where
  hosted : machine.Hosts id
  held : (machine.closeFrame held).isHeld held id = true

private theorem Escapes.survives {machine : Machine Code} {held : List Handle} {id : ScopeId}
    (escapes : machine.Escapes held id) (enlisted : machine.ledger.Enlisted)
    (detached : machine.Detached) :
    (machine.ledger.heap.scope id).kind = .basic ∧
      ∃ earlier before, machine.Survives held id earlier before := by
  obtain ⟨top, outer, popped, listed⟩ := escapes.hosted
  refine ⟨enlisted.basic id ?_, exists_survives enlisted detached
    (survives_of_held enlisted popped listed escapes.held)⟩
  change id ∈ machine.frames.blocks
  rw [blocks_of_pop? popped]
  exact List.mem_append_left _ listed

end Machine

namespace Workspace

variable {Code : Type} {state : Workspace Code}

def Untouched (state : Workspace Code) (id : CellId) : List (Deed Code) → Prop
  | [] => True
  | deed :: rest => deed.Unbound ∧ ¬ state.Writes deed id ∧ (state.act deed).Untouched id rest

/-- Every name of its own leads the scope to the same cell for as long as the cell is declared, and
the cell is what it was unless it is written. The scope stays on the heap and out of all lists. -/
structure Lasting (state : Workspace Code) (id : ScopeId) (later : List (Deed Code)) : Prop where
  retired : (state.after later).machine.ledger.Retired id
  names : ∀ {name : String} {cell : CellId}, (state.machine.heap.ownMember id name).1 = some cell →
    ((state.after later).memory.cell cell).isVisible = true →
    ((state.after later).machine.heap.ownMember id name).1 = some cell
  contents : ∀ {name : String} {cell : CellId},
    (state.machine.heap.ownMember id name).1 = some cell → state.Untouched cell later →
    ((state.after later).machine.heap.ownMember id name).1 = some cell ∧
      (state.after later).memory.cell cell = state.memory.cell cell

private theorem Untouched.spared {id : ScopeId} {cell : CellId} (parted : state.Parted)
    (enlisted : state.machine.ledger.Enlisted) (retired : state.machine.ledger.Retired id)
    (listed : cell ∈ (state.machine.heap.scope id).members.heapCells) {later : List (Deed Code)}
    (untouched : state.Untouched cell later) : state.Spared cell later := by
  induction later generalizing state with
  | nil => trivial
  | cons deed rest induction =>
      obtain ⟨unbound, unwritten, untouched⟩ := untouched
      have upholds := state.act_upholds deed
      obtain ⟨still, retains⟩ := upholds.retired enlisted retired
      refine ⟨⟨(parted.machine.aloof id).old listed, .inr (.inr (.inl ⟨id, listed⟩))⟩, unbound,
        unwritten, induction (parted.act unbound) (upholds.enlisted enlisted) still ?_ untouched⟩
      obtain ⟨slot, found⟩ := Array.mem_iff_getElem?.mp listed
      exact Array.mem_of_getElem? (retains.members.cells found)

private theorem Parted.lasting {id : ScopeId} (parted : state.Parted)
    (enlisted : state.machine.ledger.Enlisted)
    (retired : state.machine.ledger.Retired id) (later : List (Deed Code)) :
    state.Lasting id later := by
  obtain ⟨still, retains⟩ := (state.after_upholds later).retired enlisted retired
  have found : ∀ {name : String} {cell : CellId},
      (state.machine.heap.ownMember id name).1 = some cell →
      cell ∈ (state.machine.heap.scope id).members.heapCells ∧
        (state.memory.cell cell).isVisible = true ∧
        ((state.after later).machine.heap.ownMember id name).1 =
          (some cell).filter fun cell => ((state.after later).memory.cell cell).isVisible := by
    intro name cell bound
    have own := Heap.ownMember_basic retired.basic name
    obtain ⟨slot, indexed, shown⟩ := Option.bind_eq_some_iff.mp (own.symm.trans bound)
    obtain ⟨named, visible⟩ := Option.filter_eq_some_iff.mp shown
    rw [cell?_of_heaped retired.heaped] at named
    refine ⟨Array.mem_of_getElem? named, visible, (Heap.ownMember_basic still.basic name).trans ?_⟩
    rw [retains.names indexed, Option.bind_some, Heap.shown?, cell?_of_heaped still.heaped,
      retains.members.cells named]
    rfl
  refine ⟨still, fun {name cell} bound visible => ?_, fun {name cell} bound untouched => ?_⟩
  · rw [(found bound).2.2, Option.filter_some, if_pos visible]
  · obtain ⟨listed, visible, same⟩ := found bound
    have content := parted.spared (untouched.spared parted enlisted retired listed)
    rw [same, Option.filter_some, content, if_pos visible]
    exact ⟨rfl, rfl⟩

private theorem hosts_addBlock (machine : Machine Code) (id : ScopeId)
    (framed : ¬ machine.frames.isEmpty = true) :
    (machine.modifyTop fun frame => { frame with blocks := frame.blocks ++ [id] }).Hosts id := by
  obtain ⟨heap, ⟨frames, depth, depth_eq⟩⟩ := machine
  cases frames with
  | nil => exact absurd rfl framed
  | cons top outer => exact ⟨_, _, rfl, List.mem_append_right _ List.mem_cons_self⟩

private theorem allocateBlock_hosted {machine after : Machine Code}
    (enlisted : machine.ledger.Enlisted)
    {held : List Handle} {previous id : ScopeId} {index : Index}
    (allocated : Action.allocateBlock previous index held machine = .ok id after) :
    after.Hosts id ∨ after.ledger.Retired id := by
  rw [run_allocateBlock] at allocated
  split at allocated
  next =>
    cases allocated
    exact .inr (Ledger.retired_newScope enlisted rfl rfl rfl)
  next framed =>
    cases ran : allocateTable index.size held machine with
    | error abort middle =>
        rw [ran] at allocated
        cases allocated
    | ok members middle =>
        have framed : ¬ middle.frames.isEmpty = true := by
          rw [Machine.frames_of_allocateTable ran]
          simp_all
        rw [ran, andThen_ok, run_pooledScope] at allocated
        cases pool : middle.pool with
        | nil =>
            rw [pool] at allocated
            cases allocated
            exact .inl (hosts_addBlock _ _ framed)
        | cons first rest =>
            rw [pool] at allocated
            cases allocated
            exact .inl (hosts_addBlock _ _ framed)

private theorem tableOf_hosted {id : ScopeId} (hosted : id ∈ state.machine.frames.blocks) :
    ∃ birth, state.tableOf (.scope id) = some ((state.machine.heap.scope id).members, birth) := by
  cases host : state.host? id with
  | none => exact absurd hosted (hostAmong?_eq_none.mp host)
  | some birth => exact ⟨birth, tableOf_scope.mpr (.inl ⟨host, rfl⟩)⟩

private theorem Settled.cell?_apart (settled : state.Settled) {key key' : Key} (apart : key ≠ key')
    {table table' : Table} {birth birth' : Nat} (found : state.tableOf key = some (table, birth))
    (found' : state.tableOf key' = some (table', birth')) (arena : table'.isArena = true)
    {slot slot' : Nat} {cell : CellId} (named : table.cell? slot state.memory = some cell) :
    table'.cell? slot' state.memory ≠ some cell := by
  intro named'
  cases table' with
  | onHeap => cases arena
  | inArena slice' length' =>
      obtain ⟨below', peeked'⟩ := peek_of_cell? named'
      have fits := settled.fits found
      cases table with
      | onHeap => exact fits.unnamed (mem_heapCells.mpr ⟨slot, named⟩) _ peeked'
      | inArena slice length =>
          obtain ⟨below, peeked⟩ := peek_of_cell? named
          have same := settled.clean.sound.distinct peeked peeked'
          have spanned := spans_of_lt (fits.room rfl) below
          refine settled.apart apart found found' spanned ?_
          rw [same]
          exact spans_of_lt ((settled.fits found').room rfl) below'

private theorem Settled.not_overtaken (settled : state.Settled)
    (enlisted : state.machine.ledger.Enlisted)
    (held : List Handle) (id : ScopeId) : ¬ state.machine.Overtaken held id := by
  rintro ⟨earlier, later, name, cell, listing, bound, other, listed, arena, slot', found'⟩
  cases popping : state.machine.frames.pop? with
  | none => simp [Machine.survivors, popping] at listing
  | some popped =>
      obtain ⟨top, outer⟩ := popped
      have blocks := Machine.blocks_of_pop? popping
      have sublist : (earlier ++ id :: later).Sublist state.machine.frames.blocks := by
        rw [blocks, ← listing, Machine.survivors_of_pop? popping]
        exact (Machine.promoted_sublist ..).trans (List.sublist_append_left ..)
      have nodup := (List.nodup_append.mp enlisted.nodup).2.1.sublist sublist
      have apart : id ≠ other := fun same =>
        (List.nodup_append.mp nodup).2.2 other listed id List.mem_cons_self same.symm
      have mine : id ∈ state.machine.frames.blocks :=
        sublist.subset (List.mem_append_right _ List.mem_cons_self)
      obtain ⟨birth, table⟩ := tableOf_hosted mine
      obtain ⟨birth', table'⟩ := tableOf_hosted (sublist.subset (List.mem_append_left _ listed))
      have own := Heap.ownMember_basic (enlisted.basic id mine) name
      obtain ⟨slot, -, shown⟩ := Option.bind_eq_some_iff.mp (own.symm.trans bound)
      have found := (Option.filter_eq_some_iff.mp shown).1
      exact settled.cell?_apart (fun same => apart (Key.scope.inj same)) table table' arena found
        found'

/-- A new block scope is hosted by the innermost frame or has its members on the heap already. If
it is still held when its frame is closed, it is moved to the heap and out of reach of whatever
follows; and all its names still lead to the same cells, with the same contents, exactly if no block
that went before it had one of them in a slot of its own. Where tables keep to their frames, none
has. -/
theorem escaping_block_kept_iff (limits : Limits) (choice : GlobalChoice)
    (deeds : List (Deed Code)) (unbound : ∀ deed ∈ deeds, deed.Unbound) :
    let state := (fresh limits choice : Workspace Code).after deeds
    (∀ previous index id machine,
      allocateBlock previous index [] state.machine = .ok id machine →
        machine.Hosts id ∨ machine.ledger.Retired id) ∧
    (∀ held id, state.machine.Escapes held id →
      let closed := state.act (.closeFrame held)
      (state.machine.heap.Resolves closed.machine.heap id ↔ ¬ state.machine.Overtaken held id) ∧
        ∀ later, closed.Lasting id later) ∧
    (∀ id, state.machine.ledger.Retired id → ∀ later, state.Lasting id later) ∧
    (∀ moves, deeds = moves.map .move → (fresh limits choice : Workspace Code).Tame moves →
      ∀ held id, ¬ state.machine.Overtaken held id) := by
  intro state
  have parted : state.Parted := (fresh_parted limits choice).after unbound
  have enlisted : state.machine.ledger.Enlisted :=
    ((fresh limits choice).after_upholds deeds).enlisted (fresh_enlisted limits choice)
  refine ⟨fun _ _ _ _ => allocateBlock_hosted enlisted, fun held id escapes => ?_,
    fun _ retired => parted.lasting enlisted retired, ?_⟩
  · obtain ⟨basic, earlier, before, survives⟩ := escapes.survives enlisted parted.machine
    have closed : (state.act (.closeFrame held)).Parted := parted.act trivial
    exact ⟨survives.resolves_iff parted.machine basic,
      closed.lasting ((state.act_upholds _).enlisted enlisted) survives.retired⟩
  · rintro moves rfl tame held id
    have settled := settled_run limits choice tame
    rw [← after_moves] at settled
    exact settled.not_overtaken enlisted held id

def single : Index := (Index.empty.insert "x" .publicTier).2

/-- A block with a declared member, in the arena. -/
def housed : List Move :=
  [.openFrame "main" "" ⟨0⟩, .allocateBlock ⟨0⟩ single, .createMember ⟨2⟩ "x" .publicTier]

/-- The next frame uses the slots anew. -/
def reused : List (Deed Unit) :=
  [.move (.openFrame "next" "" ⟨0⟩), .move (.allocateTable 1), .move (.work 0 (.push (.bool true))),
    .closeFrame []]

private theorem hosts_of_any {machine : Machine Code} {id : ScopeId}
    (listed : machine.frames.pop?.any (fun popped => popped.1.blocks.contains id) = true) :
    machine.Hosts id := by
  obtain ⟨⟨top, outer⟩, popped, member⟩ := (Option.any_eq_true ..).mp listed
  exact ⟨top, outer, popped, List.contains_iff_mem.mp member⟩

private theorem not_stray_of_hosted {id : ScopeId} {name : String} {permission : Permission}
    (innermost : state.host? id = some state.depth) :
    ¬ state.Stray (.createMember id name permission) := by
  rintro ⟨key, work, table, birth, effort, found, inner, -⟩
  cases effort
  rcases tableOf_scope.mp found with ⟨hosted, -⟩ | ⟨absent, -⟩
  · cases innermost.symm.trans hosted
    exact Nat.lt_irrefl _ inner
  · cases innermost.symm.trans absent

theorem escaping_block_kept_returned :
    let state := (fresh .default .empty : Workspace Unit).after (housed.map .move)
    let closed := state.act (.closeFrame [.scope ⟨2⟩])
    (state.machine.heap.scope ⟨2⟩).members.isArena = true ∧
      state.machine.heap.Resolves closed.machine.heap ⟨2⟩ ∧
      ((closed.after reused).machine.heap.ownMember ⟨2⟩ "x").1 = some ⟨12⟩ ∧
      (closed.after reused).memory.cell ⟨12⟩ = closed.memory.cell ⟨12⟩ := by
  intro state closed
  have unbound : ∀ deed ∈ housed.map (.move : Move → Deed Unit), deed.Unbound := by
    simp [housed, Deed.Unbound]
  have tame : (fresh .default .empty : Workspace Unit).Tame housed := by
    refine ⟨not_stray_of_idle rfl, not_stray_of_idle rfl, not_stray_of_hosted ?_, trivial⟩
    decide +kernel
  have escapes : state.machine.Escapes [.scope ⟨2⟩] ⟨2⟩ :=
    ⟨hosts_of_any (by decide +kernel), by decide +kernel⟩
  have bound : (closed.machine.heap.ownMember ⟨2⟩ "x").1 = some ⟨12⟩ := by decide +kernel
  have fresh : (((closed.act reused[0]).act reused[1]).entryAt? 0).all (fun entry =>
      (Table.Work.push (.bool true)).written? entry.table
        ((closed.act reused[0]).act reused[1]).memory != some ⟨12⟩) = true := by decide +kernel
  have untouched : closed.Untouched ⟨12⟩ reused := by
    refine ⟨trivial, id, trivial, id, trivial, ?_, trivial, id, trivial⟩
    rintro ⟨entry, held, wrote⟩
    have apart := (Option.all_eq_true ..).mp fresh entry held
    exact bne_iff_ne.mp apart wrote
  obtain ⟨-, kept, -, apart⟩ := escaping_block_kept_iff .default .empty (housed.map .move) unbound
  obtain ⟨resolves, lasting⟩ := kept _ _ escapes
  exact ⟨by decide +kernel, resolves.mpr (apart housed rfl tame _ _),
    (lasting reused).contents bound untouched⟩

/-- A table outgrows its slice in an inner frame and is freed after a block of the outer frame has
come to stand there. The next block gets the same slot. -/
def crowded : List (Deed Unit) :=
  [.move (.openFrame "outer" "" ⟨0⟩), .move (.openFrame "inner" "" ⟨0⟩),
    .move (.allocateTable 1), .move (.allocateTable 1), .move (.work 0 (.push (.bool true))),
    .move (.work 0 (.push (.bool true))), .closeFrame [],
    .move (.allocateBlock ⟨0⟩ single), .move (.createMember ⟨2⟩ "x" .publicTier),
    .move (.free 0),
    .move (.allocateBlock ⟨0⟩ single), .move (.createMember ⟨3⟩ "x" .publicTier)]

/-- Both blocks escape. The first takes the member of the second along. -/
theorem escaping_block_robbed :
    let state := (fresh .default .empty).after crowded
    let held : List Handle := [.scope ⟨2⟩, .scope ⟨3⟩]
    let closed := state.act (.closeFrame held)
    state.machine.Escapes held ⟨2⟩ ∧ state.machine.Escapes held ⟨3⟩ ∧
      (state.machine.heap.ownMember ⟨3⟩ "x").1.isSome = true ∧
      (closed.machine.heap.ownMember ⟨3⟩ "x").1 = none ∧
      ¬ state.machine.heap.Resolves closed.machine.heap ⟨3⟩ := by
  intro state held closed
  have bound : (state.machine.heap.ownMember ⟨3⟩ "x").1.isSome = true := by decide +kernel
  have gone : (closed.machine.heap.ownMember ⟨3⟩ "x").1 = none := by decide +kernel
  refine ⟨⟨hosts_of_any (by decide +kernel), by decide +kernel⟩,
    ⟨hosts_of_any (by decide +kernel), by decide +kernel⟩, bound, gone, fun resolves => ?_⟩
  rw [← (resolves "x").1, gone] at bound
  cases bound

end Workspace

end ScopeMachine
