import ScopeMachine.Proofs.Frames.Deeds
import ScopeMachine.Proofs.Frames.OpenAndClose
import ScopeMachine.Proofs.Frames.ScopesInUse
import ScopeMachine.Proofs.Storage.Retaining

namespace ScopeMachine

open Action

structure Ledger (Code : Type) where
  heap : Heap Code
  pool : List ScopeId
  blocks : List ScopeId

namespace Ledger

variable {Code : Type}

structure Enlisted (ledger : Ledger Code) : Prop where
  nodup : (ledger.pool ++ ledger.blocks).Nodup
  old : ∀ id ∈ ledger.pool ++ ledger.blocks, id.index < ledger.heap.scopes.size
  basic : ∀ id ∈ ledger.blocks, (ledger.heap.scope id).kind = .basic
  idle : ∀ id ∈ ledger.pool, (ledger.heap.scope id).pooled = false

/-- A block scope on the heap that nobody lists any more. -/
structure Retired (ledger : Ledger Code) (id : ScopeId) : Prop where
  old : id.index < ledger.heap.scopes.size
  unlisted : id ∉ ledger.pool ++ ledger.blocks
  basic : (ledger.heap.scope id).kind = .basic
  unpooled : (ledger.heap.scope id).pooled = false
  heaped : (ledger.heap.scope id).members.isArena = false

structure Upholds (before after : Ledger Code) : Prop where
  enlisted : before.Enlisted → after.Enlisted
  retired : before.Enlisted → ∀ {id : ScopeId}, before.Retired id →
    after.Retired id ∧ (before.heap.scope id).Retains (after.heap.scope id)

theorem Upholds.refl (ledger : Ledger Code) : ledger.Upholds ledger :=
  ⟨id, fun _ _ retired => ⟨retired, .refl _⟩⟩

theorem Upholds.trans {first second third : Ledger Code} (left : first.Upholds second)
    (right : second.Upholds third) : first.Upholds third := by
  refine ⟨right.enlisted ∘ left.enlisted, fun enlisted id retired => ?_⟩
  obtain ⟨later, retains⟩ := left.retired enlisted retired
  obtain ⟨last, retains'⟩ := right.retired (left.enlisted enlisted) later
  exact ⟨last, retains.trans retains'⟩

private theorem Retired.retains {before after : Ledger Code} {id : ScopeId}
    (retired : before.Retired id)
    (retains : (before.heap.scope id).Retains (after.heap.scope id))
    (old : id.index < after.heap.scopes.size) (unlisted : id ∉ after.pool ++ after.blocks) :
    after.Retired id ∧ (before.heap.scope id).Retains (after.heap.scope id) :=
  ⟨⟨old, unlisted, retains.basic retired.basic, retains.pooled retired.unpooled,
    retains.members.heaped retired.heaped⟩, retains⟩

/-- A step on the heap that leaves every scope in place. -/
theorem upholds_heap {before after : Ledger Code} (retains : before.heap.Retains after.heap)
    (pool : after.pool = before.pool) (blocks : after.blocks = before.blocks) :
    before.Upholds after := by
  constructor
  · intro enlisted
    constructor
    · rw [pool, blocks]
      exact enlisted.nodup
    · intro id listed
      rw [pool, blocks] at listed
      exact Nat.lt_of_lt_of_le (enlisted.old id listed) retains.size
    · intro id listed
      rw [blocks] at listed
      have old := enlisted.old id (List.mem_append_right _ listed)
      exact (retains.scope id old).basic (enlisted.basic id listed)
    · intro id listed
      rw [pool] at listed
      have old := enlisted.old id (List.mem_append_left _ listed)
      exact (retains.scope id old).pooled (enlisted.idle id listed)
  · intro enlisted id retired
    refine retired.retains (retains.scope id retired.old)
      (Nat.lt_of_lt_of_le retired.old retains.size) ?_
    rw [pool, blocks]
    exact retired.unlisted

variable {heap heap' : Heap Code} {pool pool' blocks blocks' : List ScopeId} {id : ScopeId}

private theorem upholds_moved (size : heap.scopes.size ≤ heap'.scopes.size)
    (others : ∀ other, other ≠ id → heap'.scope other = heap.scope other)
    (claimed : (Ledger.mk heap pool blocks).Enlisted → ¬ (Ledger.mk heap pool blocks).Retired id)
    (nodup : (Ledger.mk heap pool blocks).Enlisted → (pool' ++ blocks').Nodup)
    (pools : ∀ other ∈ pool', other = id ∨ other ∈ pool)
    (listed : ∀ other ∈ blocks', other = id ∨ other ∈ blocks)
    (old : (Ledger.mk heap pool blocks).Enlisted → id ∈ pool' ++ blocks' →
      id.index < heap'.scopes.size)
    (basic : (Ledger.mk heap pool blocks).Enlisted → id ∈ blocks' → (heap'.scope id).kind = .basic)
    (idle : (Ledger.mk heap pool blocks).Enlisted → id ∈ pool' →
      (heap'.scope id).pooled = false) :
    (Ledger.mk heap pool blocks).Upholds ⟨heap', pool', blocks'⟩ := by
  have within : ∀ {other}, other ≠ id → other ∈ pool' ++ blocks' → other ∈ pool ++ blocks := by
    intro other apart member
    rcases List.mem_append.mp member with waiting | hosted
    · exact List.mem_append_left _ ((pools other waiting).resolve_left apart)
    · exact List.mem_append_right _ ((listed other hosted).resolve_left apart)
  constructor
  · intro enlisted
    refine ⟨nodup enlisted, fun other member => ?_, fun other member => ?_, fun other member => ?_⟩
    · by_cases same : other = id
      · exact same ▸ old enlisted (same ▸ member)
      · exact Nat.lt_of_lt_of_le (enlisted.old other (within same member)) size
    · by_cases same : other = id
      · exact same ▸ basic enlisted (same ▸ member)
      · change (heap'.scope other).kind = .basic
        rw [others other same]
        exact enlisted.basic other ((listed other member).resolve_left same)
    · by_cases same : other = id
      · exact same ▸ idle enlisted (same ▸ member)
      · change (heap'.scope other).pooled = false
        rw [others other same]
        exact enlisted.idle other ((pools other member).resolve_left same)
  · intro enlisted other retired
    have apart : other ≠ id := fun same => claimed enlisted (same ▸ retired)
    refine retired.retains ?_ (Nat.lt_of_lt_of_le retired.old size)
      fun member => retired.unlisted (within apart member)
    change (heap.scope other).Retains (heap'.scope other)
    rw [others other apart]
    exact .refl _

private theorem not_retired_of_listed (listed : id ∈ pool ++ blocks) :
    ¬ (Ledger.mk heap pool blocks).Retired id :=
  fun retired => retired.unlisted listed

theorem retired_newScope (enlisted : (Ledger.mk heap pool blocks).Enlisted) {scope : Scope}
    (basic : scope.kind = .basic) (unpooled : scope.pooled = false)
    (heaped : scope.members.isArena = false) :
    (Ledger.mk (heap.newScope scope).2 pool blocks).Retired (heap.newScope scope).1 := by
  have self := heap.scope_newScope_self scope
  constructor
  · simp [Heap.newScope]
  · exact fun listed => Nat.lt_irrefl _ (enlisted.old _ listed)
  all_goals
    dsimp only
    rwa [self]

private theorem upholds_enlist {rest : List ScopeId} {scope : Scope} (basic : scope.kind = .basic)
    (size : heap.scopes.size ≤ heap'.scopes.size)
    (self : (Ledger.mk heap pool blocks).Enlisted →
      id.index < heap'.scopes.size ∧ heap'.scope id = scope)
    (others : ∀ other, other ≠ id → heap'.scope other = heap.scope other)
    (taken : pool = id :: rest ∨ pool = rest ∧ heap.scopes.size ≤ id.index)
    (listing : blocks'.Perm (id :: blocks)) :
    (Ledger.mk heap pool blocks).Upholds ⟨heap', rest, blocks'⟩ := by
  have unlisted : (Ledger.mk heap pool blocks).Enlisted → (id :: (rest ++ blocks)).Nodup := by
    intro enlisted
    rcases taken with rfl | ⟨rfl, fresh⟩
    · exact enlisted.nodup
    · refine List.nodup_cons.mpr ⟨fun member => ?_, enlisted.nodup⟩
      exact Nat.not_lt_of_le fresh (enlisted.old id member)
  refine upholds_moved size others (fun enlisted retired => ?_) (fun enlisted => ?_) ?_ ?_
    (fun enlisted _ => (self enlisted).1) (fun enlisted _ => ?_) fun enlisted waiting => ?_
  · rcases taken with rfl | ⟨rfl, fresh⟩
    · exact retired.unlisted List.mem_cons_self
    · exact Nat.not_lt_of_le fresh retired.old
  · have moved : (rest ++ blocks').Perm (id :: (rest ++ blocks)) :=
      (listing.append_left rest).trans List.perm_middle
    exact moved.nodup_iff.mpr (unlisted enlisted)
  · intro other member
    rcases taken with rfl | ⟨rfl, -⟩
    · exact .inr (List.mem_cons_of_mem _ member)
    · exact .inr member
  · exact fun other member => List.mem_cons.mp (listing.mem_iff.mp member)
  · rw [(self enlisted).2]
    exact basic
  · have apart := (List.nodup_cons.mp (unlisted enlisted)).1
    exact absurd (List.mem_append_left _ waiting) apart

private theorem upholds_reuse {rest : List ScopeId} (scope : Scope) :
    (Ledger.mk heap (id :: rest) blocks).Upholds ⟨heap.setScope id scope, rest, blocks⟩ := by
  refine upholds_moved (Nat.le_of_eq (Heap.size_modifyScope ..).symm)
    (fun other apart => Heap.scope_modifyScope_ne apart ..)
    (fun _ => not_retired_of_listed List.mem_cons_self)
    (fun enlisted => (List.nodup_cons.mp enlisted.nodup).2)
    (fun other member => .inr (List.mem_cons_of_mem _ member)) (fun _ => .inr)
    (fun enlisted member => ?_) (fun enlisted member => ?_) fun enlisted member => ?_
  all_goals
    have apart := (List.nodup_cons.mp enlisted.nodup).1
  · exact absurd member apart
  · exact absurd (List.mem_append_right _ member) apart
  · exact absurd (List.mem_append_left _ member) apart

/-- A block is promoted and leaves the list. -/
theorem upholds_promote (rest : List ScopeId) (listing : blocks.Perm (id :: rest)) :
    (Ledger.mk heap pool blocks).Upholds ⟨heap.detach id, pool, rest⟩ := by
  have moved : (pool ++ blocks).Perm (id :: (pool ++ rest)) :=
    (listing.append_left pool).trans List.perm_middle
  refine upholds_moved (Nat.le_of_eq (Heap.size_detach ..).symm)
    (fun other apart => Heap.scope_detach_ne apart _)
    (fun _ => not_retired_of_listed (moved.mem_iff.mpr List.mem_cons_self))
    (fun enlisted => (List.nodup_cons.mp (moved.nodup_iff.mp enlisted.nodup)).2)
    (fun _ => .inr) (fun other member => .inr (listing.mem_iff.mpr (List.mem_cons_of_mem _ member)))
    (fun enlisted member => ?_) (fun enlisted member => ?_) fun enlisted member => ?_
  all_goals
    have apart := (List.nodup_cons.mp (moved.nodup_iff.mp enlisted.nodup)).1
  · exact absurd member apart
  · exact absurd (List.mem_append_right _ member) apart
  · exact absurd (List.mem_append_left _ member) apart

private theorem upholds_recycle (rest : List ScopeId) (listing : blocks.Perm (id :: rest))
    (size : heap'.scopes.size = heap.scopes.size)
    (others : ∀ other, other ≠ id → heap'.scope other = heap.scope other)
    (idle : (heap'.scope id).pooled = false) :
    (Ledger.mk heap pool blocks).Upholds ⟨heap', id :: pool, rest⟩ := by
  have moved : (pool ++ blocks).Perm (id :: (pool ++ rest)) :=
    (listing.append_left pool).trans List.perm_middle
  have here : id ∈ pool ++ blocks := moved.mem_iff.mpr List.mem_cons_self
  refine upholds_moved (Nat.le_of_eq size.symm) others (fun _ => not_retired_of_listed here)
    (fun enlisted => moved.nodup_iff.mp enlisted.nodup) (fun _ => List.mem_cons.mp)
    (fun other member => .inr (listing.mem_iff.mpr (List.mem_cons_of_mem _ member)))
    (fun enlisted _ => Nat.lt_of_lt_of_eq (enlisted.old id here) size.symm)
    (fun enlisted member => ?_) fun _ _ => idle
  have apart := (List.nodup_cons.mp (moved.nodup_iff.mp enlisted.nodup)).1
  exact absurd (List.mem_append_right _ member) apart

private theorem upholds_release (old : id.index < heap.scopes.size)
    (pooled : (heap.scope id).pooled = true)
    (called : (heap.scope id).kind ≠ .basic) (size : heap'.scopes.size = heap.scopes.size)
    (others : ∀ other, other ≠ id → heap'.scope other = heap.scope other)
    (idle : (heap'.scope id).pooled = false) :
    (Ledger.mk heap pool blocks).Upholds ⟨heap', id :: pool, blocks⟩ := by
  have unlisted : (Ledger.mk heap pool blocks).Enlisted → id ∉ pool ++ blocks := by
    intro enlisted member
    rcases List.mem_append.mp member with waiting | hosted
    · exact Bool.noConfusion (pooled.symm.trans (enlisted.idle id waiting))
    · exact called (enlisted.basic id hosted)
  refine upholds_moved (Nat.le_of_eq size.symm) others
    (fun _ retired => called retired.basic)
    (fun enlisted => List.nodup_cons.mpr ⟨unlisted enlisted, enlisted.nodup⟩)
    (fun _ => List.mem_cons.mp) (fun _ => .inr) (fun _ _ => Nat.lt_of_lt_of_eq old size.symm)
    (fun enlisted member => ?_) fun _ _ => idle
  exact absurd (List.mem_append_right _ member) (unlisted enlisted)

end Ledger

namespace Machine

variable {Code : Type}

def ledger (machine : Machine Code) : Ledger Code :=
  ⟨machine.heap, machine.pool, machine.frames.blocks⟩

abbrev Upholds (before after : Machine Code) : Prop := before.ledger.Upholds after.ledger

private theorem upholds_heap (machine : Machine Code) {heap : Heap Code}
    (retains : machine.heap.Retains heap) : machine.Upholds { machine with heap } :=
  Ledger.upholds_heap retains rfl rfl

private theorem upholds_memory (machine : Machine Code) (memory : Memory) :
    machine.Upholds (machine.withMemory memory) :=
  machine.upholds_heap (.of_scopes rfl)

theorem blocks_modifyTop {change : Frame → Frame}
    (keeps : ∀ frame, (change frame).blocks = frame.blocks)
    (stack : FrameStack) : (stack.modifyTop change).blocks = stack.blocks := by
  obtain ⟨frames, depth, depth_eq⟩ := stack
  cases frames with
  | nil => rfl
  | cons top outer => simp [FrameStack.modifyTop, FrameStack.blocks, keeps]

private theorem modifyTop_upholds (machine : Machine Code) {change : Frame → Frame}
    (keeps : ∀ frame, (change frame).blocks = frame.blocks) :
    machine.Upholds (machine.modifyTop change) :=
  Ledger.upholds_heap (.refl _) rfl (blocks_modifyTop keeps _)

private theorem scope_recycle_self {machine : Machine Code} {id : ScopeId}
    (old : id.index < machine.heap.scopes.size) :
    (machine.recycle id).heap.scope id = .vacant (machine.heap.scope id).index :=
  Heap.scope_modifyScope_self old _

private theorem pooled_recycle (machine : Machine Code) (id : ScopeId) :
    ((machine.recycle id).heap.scope id).pooled = false := by
  by_cases old : id.index < machine.heap.scopes.size
  · rw [scope_recycle_self old]
    rfl
  · have absent : (machine.recycle id).heap.scopes.size ≤ id.index :=
      Nat.le_trans (Nat.le_of_eq (Heap.size_modifyScope ..)) (Nat.le_of_not_lt old)
    rw [Heap.scope_of_size_le absent]
    rfl

theorem releaseBlocks_upholds (held : List Handle) (blocks outer : List ScopeId)
    (machine : Machine Code) :
    (Ledger.mk machine.heap machine.pool (blocks ++ outer)).Upholds
      ⟨(releaseBlocks held blocks machine).heap, (releaseBlocks held blocks machine).pool,
        outer⟩ := by
  induction blocks generalizing machine with
  | nil => exact .refl _
  | cons id rest induction =>
      rw [Workspace.releaseBlocks_cons]
      split
      next => exact (Ledger.upholds_promote _ (.refl _)).trans (induction (machine.promote id))
      next =>
        have recycled : (Ledger.mk machine.heap machine.pool (id :: (rest ++ outer))).Upholds
            ⟨(machine.recycle id).heap, id :: machine.pool, rest ++ outer⟩ :=
          Ledger.upholds_recycle _ (.refl _) (Heap.size_modifyScope ..)
            (fun other apart => Heap.scope_modifyScope_ne apart ..) (pooled_recycle machine id)
        exact recycled.trans (induction (machine.recycle id))

theorem blocks_of_pop? {stack outer : FrameStack} {top : Frame}
    (popped : stack.pop? = some (top, outer)) : stack.blocks = top.blocks ++ outer.blocks := by
  obtain ⟨frames, depth, depth_eq⟩ := stack
  cases frames with
  | nil => cases popped
  | cons first rest =>
      cases popped
      rfl

private theorem closeFrame_upholds (machine : Machine Code) (held : List Handle) :
    machine.Upholds (machine.closeFrame held) := by
  unfold closeFrame
  cases popping : machine.frames.pop? with
  | none => exact .refl _
  | some popped =>
      obtain ⟨top, outer⟩ := popped
      have released := releaseBlocks_upholds held top.blocks outer.blocks
        { machine with frames := outer }
      have frames := (Workspace.frames_releaseBlocks held top.blocks
        { machine with frames := outer }).1
      unfold Upholds ledger
      rw [blocks_of_pop? popping]
      refine released.trans (Ledger.upholds_heap (.of_scopes rfl) rfl ?_)
      exact congrArg FrameStack.blocks frames

private theorem releaseScope_upholds (machine : Machine Code) (held : List Handle) (id : ScopeId) :
    machine.Upholds (machine.releaseScope held id) := by
  unfold releaseScope
  dsimp only
  split
  next => exact .refl _
  next called =>
    simp only [Bool.or_eq_true, Bool.not_eq_true', not_or, Bool.not_eq_false] at called
    split
    next => exact machine.upholds_heap (Heap.detach_retains ..)
    next =>
      have old : id.index < machine.heap.scopes.size := by
        refine Nat.lt_of_not_le fun absent => ?_
        rw [Heap.scope_of_size_le absent] at called
        cases called.1
      have uncommon : (machine.heap.scope id).kind ≠ .basic := fun basic => by
        have variant : (machine.heap.scope id).variant = .basic := congrArg ScopeKind.variant basic
        simp [variant] at called
      have recycled : machine.Upholds (machine.recycle id) :=
        Ledger.upholds_release old called.1 uncommon (Heap.size_modifyScope ..)
          (fun other apart => Heap.scope_modifyScope_ne apart ..) (pooled_recycle machine id)
      exact recycled.trans (upholds_memory ..)

private theorem andThen_upholds {α β : Type} {before : Machine Code} {ending : Ending Code α}
    {next : α → Machine Code → Ending Code β} (first : before.Upholds (machineLeft ending))
    (second : ∀ (result : α) (machine : Machine Code), ending = .ok result machine →
      machine.Upholds (machineLeft (next result machine))) :
    before.Upholds (machineLeft (andThen ending next)) := by
  cases ending with
  | ok result machine => exact first.trans (second result machine rfl)
  | error abort machine => exact first

private theorem allocateTable_upholds (machine : Machine Code) (held : List Handle) (size : Nat) :
    machine.Upholds (machineLeft (Action.allocateTable size held machine)) := by
  rw [run_allocateTable, run_ofExcept]
  split
  next => exact .refl _
  next =>
    cases machine.heap.memory.arena.allocate size with
    | error fault => exact .refl _
    | ok result => exact upholds_memory ..

private theorem pooledScope_upholds (machine : Machine Code) (scope : Scope) (held : List Handle) :
    machine.Upholds (machineLeft (pooledScope scope held machine)) := by
  rw [run_pooledScope]
  cases pool : machine.pool with
  | nil => exact machine.upholds_heap (Heap.newScope_retains ..)
  | cons id rest =>
      unfold Upholds ledger
      rw [pool]
      exact Ledger.upholds_reuse scope

theorem addBlock_listing (id : ScopeId) {stack : FrameStack} (framed : ¬ stack.isEmpty = true) :
    (stack.modifyTop fun frame => { frame with blocks := frame.blocks ++ [id] }).blocks.Perm
      (id :: stack.blocks) := by
  obtain ⟨top, outer, shape, pushed⟩ := Workspace.pushBlock_eq stack framed
  unfold FrameStack.blocks
  rw [pushed, shape]
  simp only [List.flatMap_cons, List.append_assoc]
  exact List.perm_middle

private theorem enroll_upholds (machine : Machine Code) {scope : Scope}
    (basic : scope.kind = .basic)
    (held : List Handle) (framed : ¬ machine.frames.isEmpty = true) :
    machine.Upholds
      (machineLeft (andThen (pooledScope scope held machine) fun id machine =>
        .ok id (machine.modifyTop fun frame =>
          { frame with blocks := frame.blocks ++ [id] }))) := by
  rw [run_pooledScope]
  cases pool : machine.pool with
  | nil =>
      unfold Upholds ledger
      have size : machine.heap.scopes.size < (machine.heap.newScope scope).2.scopes.size := by
        simp [Heap.newScope]
      exact Ledger.upholds_enlist basic (Nat.le_of_lt size)
        (fun _ => ⟨size, Heap.scope_newScope_self ..⟩) (fun _ => Heap.scope_newScope_ne)
        (.inr ⟨rfl, Nat.le_refl _⟩) (addBlock_listing _ framed)
  | cons id rest =>
      unfold Upholds ledger
      rw [pool]
      have size := Heap.size_modifyScope machine.heap id fun _ => scope
      refine Ledger.upholds_enlist basic (Nat.le_of_eq size.symm) (fun enlisted => ?_)
        (fun _ apart => Heap.scope_modifyScope_ne apart ..) (.inl rfl) (addBlock_listing _ framed)
      have old := enlisted.old id List.mem_cons_self
      exact ⟨Nat.lt_of_lt_of_eq old size.symm, Heap.scope_modifyScope_self old _⟩

private theorem allocateBlock_upholds (machine : Machine Code) (held : List Handle)
    (previous : ScopeId)
    (index : Index) :
    machine.Upholds (machineLeft (allocateBlock previous index held machine)) := by
  rw [run_allocateBlock]
  split
  next => exact machine.upholds_heap (Heap.newScope_retains ..)
  next inside =>
    refine andThen_upholds (allocateTable_upholds ..) fun members middle ran => ?_
    have framed : ¬ middle.frames.isEmpty = true := by
      rw [frames_of_allocateTable ran]
      simp_all
    exact enroll_upholds middle rfl held framed

private theorem allocateCallScope_upholds (machine : Machine Code) (held : List Handle)
    (previous : ScopeId) (index : Index) (members : Table) (invocation : Invocation) :
    machine.Upholds
      (machineLeft (allocateCallScope previous index members invocation held machine)) := by
  unfold allocateCallScope
  simp only [run_bind, run_onMemory, andThen_ok, run_ite]
  have fitted := machine.upholds_memory (members.ensureCapacity index.size machine.heap.memory).2
  split
  next => exact fitted.trans (pooledScope_upholds (machine.withMemory _) _ held)
  next => exact fitted.trans (upholds_heap (machine.withMemory _) (Heap.newScope_retains ..))

private theorem mapArguments_upholds (machine : Machine Code) (definition : Definition Code)
    (arguments : Table) (held : List Handle) :
    machine.Upholds (machineLeft (mapArguments definition arguments held machine)) := by
  rw [run_mapArguments]
  generalize arguments.settled definition machine.heap.memory = result
  obtain ⟨table, memory⟩ := result
  dsimp only
  split
  next => split <;> exact machine.upholds_heap (.of_scopes rfl)
  next => exact machine.upholds_heap (.of_scopes rfl)

private theorem perform_upholds {α : Type} (operation : Operation Code α) (machine : Machine Code) :
    machine.Upholds (operation.perform machine).2 := by
  cases operation with
  | ask | keep => exact .refl _
  | setLine line => exact machine.modifyTop_upholds fun _ => rfl
  | setScopeAndLine scope line => exact machine.modifyTop_upholds fun _ => rfl
  | allocateTable size =>
      exact (attempt_snd machine [] (Action.allocateTable size)).symm ▸
        allocateTable_upholds machine [] size
  | allocateBlock previous index =>
      exact (attempt_snd machine [] (Action.allocateBlock previous index)).symm ▸
        allocateBlock_upholds machine [] previous index
  | releaseScope held scope => exact releaseScope_upholds ..
  | newBasic previous index => exact machine.upholds_heap (Heap.newScope_retains ..)
  | newEmptyGlobal => exact machine.upholds_heap (Heap.newScope_retains ..)
  | newGlobal => exact machine.upholds_heap (Heap.newGlobal_retains _)
  | ownMember scope name => exact machine.upholds_heap (Heap.retains_law.ownMember ..)
  | lookup scope name => exact machine.upholds_heap (Heap.retains_law.lookup ..)
  | scopeMember scope name => exact machine.upholds_heap (Heap.retains_law.scopeMember ..)
  | createMember scope name permission =>
      exact machine.upholds_heap (Heap.retains_law.createMember ..)
  | _ => exact machine.upholds_heap (.of_scopes rfl)

end Machine

namespace Workspace

variable {Code : Type}

private theorem chore_retains (chore : Chore Code) (heap : Heap Code) :
    heap.Retains (chore.run heap) := by
  cases chore with
  | newScope previous index kind => exact Heap.newScope_retains ..
  | changeArray id change =>
      change heap.Retains (heap.modifyArray id change).2
      unfold Heap.modifyArray
      split <;> exact .of_scopes rfl
  | _ => exact .of_scopes rfl

private theorem onEntry_upholds (state : Workspace Code) (number : Nat)
    (work : Table → Memory → Table × Memory) :
    state.machine.Upholds (state.onEntry number work).machine := by
  unfold onEntry
  cases state.entryAt? number with
  | none => exact .refl _
  | some entry => exact state.machine.upholds_memory _

private theorem step_upholds (state : Workspace Code) (move : Move) :
    state.machine.Upholds (state.step move).machine := by
  cases move with
  | keep change => exact .refl _
  | openFrame id file scope =>
      unfold step
      dsimp only
      split
      · exact .refl _
      · exact Ledger.upholds_heap (.of_scopes rfl) rfl rfl
  | closeFrame held => exact state.machine.closeFrame_upholds held
  | allocateTable size =>
      rw [step_allocateTable]
      split
      · exact .refl _
      · split
        · exact state.machine.upholds_memory _
        · exact .refl _
  | allocateBlock previous index =>
      unfold step
      dsimp only
      rw [Machine.attempt_snd]
      exact state.machine.allocateBlock_upholds ..
  | work number work => exact state.onEntry_upholds number (work.run state.machine.host.shares)
  | safeCopy number =>
      unfold step
      dsimp only
      cases state.entryAt? number with
      | none => exact .refl _
      | some entry => exact state.machine.upholds_memory _
  | free number =>
      unfold step
      dsimp only
      cases state.entryAt? number with
      | none => exact .refl _
      | some entry => exact state.machine.upholds_memory _
  | createMember scope name permission =>
      exact state.machine.upholds_heap (Heap.retains_law.createMember ..)
  | writeMember scope slot change =>
      have touched := Heap.retains_law.slotCell state.machine.heap scope slot
      exact (state.machine.upholds_heap touched).trans
        (Ledger.upholds_heap (.of_scopes rfl) rfl rfl)

theorem act_upholds (state : Workspace Code) (deed : Deed Code) :
    state.machine.Upholds (state.act deed).machine := by
  cases deed with
  | move move => exact state.step_upholds move
  | closeFrame held => exact state.machine.closeFrame_upholds held
  | operate operation => exact Machine.perform_upholds operation state.machine
  | chore chore => exact state.machine.upholds_heap (chore_retains chore _)
  | tableOfValues values => exact state.machine.upholds_memory _
  | reset number =>
      exact state.onEntry_upholds number fun table memory => (table, table.reset memory)
  | reinit number capacity => exact state.onEntry_upholds number _
  | pushTogether number values => exact state.onEntry_upholds number _
  | settle number definition =>
      unfold act
      dsimp only
      cases state.entryAt? number with
      | none => exact .refl _
      | some entry =>
          have mapped := state.machine.mapArguments_upholds definition entry.table []
          dsimp only
          unfold Machine.attempt
          cases ended : mapArguments definition entry.table [] state.machine with
          | error abort after =>
              rw [ended] at mapped
              exact mapped
          | ok result after =>
              rw [ended] at mapped
              exact mapped
  | enter number previous index invocation =>
      unfold act
      dsimp only
      cases state.entryAt? number with
      | none => exact .refl _
      | some entry =>
          dsimp only
          rw [Machine.attempt_snd]
          exact state.machine.allocateCallScope_upholds ..

theorem after_upholds (state : Workspace Code) (deeds : List (Deed Code)) :
    state.machine.Upholds (state.after deeds).machine := by
  induction deeds generalizing state with
  | nil => exact .refl _
  | cons deed rest induction => exact (state.act_upholds deed).trans (induction (state.act deed))

theorem fresh_enlisted (limits : Limits) (choice : GlobalChoice) :
    (fresh limits choice : Workspace Code).machine.ledger.Enlisted :=
  ⟨.nil, nofun, nofun, nofun⟩

end Workspace

end ScopeMachine
