import ScopeMachine.Proofs.Calls.ArgumentSteps
import ScopeMachine.Proofs.Evaluation.Composed
import ScopeMachine.Proofs.Frames.Balance
import ScopeMachine.Proofs.Storage.InPlace

namespace ScopeMachine

open Arena ScopeMachine.Action

theorem mem_flatten_headD {α : Type} {item : α} {lists : List (List α)} :
    item ∈ lists.flatten ↔ item ∈ lists.headD [] ∨ item ∈ lists.tail.flatten := by
  cases lists <;> simp

namespace FrameStack

/-- The block scopes of each open frame, innermost frame first. -/
def blockLists (stack : FrameStack) : List (List ScopeId) := stack.toList.map (·.blocks)

theorem blockLists_modifyTop {change : Frame → Frame}
    (keeps : ∀ frame, (change frame).blocks = frame.blocks) (stack : FrameStack) :
    (stack.modifyTop change).blockLists = stack.blockLists := by
  obtain ⟨frames, depth, depth_eq⟩ := stack
  cases frames with
  | nil => rfl
  | cons top outer => simp [FrameStack.modifyTop, blockLists, keeps]

theorem blockLists_modifyTop_append (id : ScopeId) {stack : FrameStack}
    (framed : stack.isEmpty = false) :
    ∃ top outer, stack.blockLists = top :: outer ∧
      (stack.modifyTop fun frame => { frame with blocks := frame.blocks ++ [id] }).blockLists =
        (top ++ [id]) :: outer := by
  obtain ⟨frames, depth, depth_eq⟩ := stack
  cases frames with
  | nil => cases framed
  | cons top outer => exact ⟨top.blocks, outer.map (·.blocks), rfl, rfl⟩

theorem blockLists_of_pop? {stack outer : FrameStack} {top : Frame}
    (popped : stack.pop? = some (top, outer)) :
    stack.blockLists = top.blocks :: outer.blockLists := by
  obtain ⟨frames, depth, depth_eq⟩ := stack
  cases frames with
  | nil => cases popped
  | cons first rest =>
      cases popped
      rfl

end FrameStack

namespace Machine

variable {Code : Type}

def blocks (machine : Machine Code) : List (List ScopeId) := machine.frames.blockLists

/-- The scope exists and does not wait in the pool. -/
def Busy (machine : Machine Code) (id : ScopeId) : Prop :=
  id.index < machine.heap.scopes.size ∧ id ∉ machine.pool

/-- No scope is twice in the pool or among the blocks of the open frames, or in both. -/
structure Tidy (machine : Machine Code) : Prop where
  pool_nodup : machine.pool.Nodup
  pool_old : ∀ id ∈ machine.pool, id.index < machine.heap.scopes.size
  blocks_nodup : machine.blocks.flatten.Nodup
  blocks_busy : ∀ id ∈ machine.blocks.flatten, machine.Busy id

theorem new_tidy (limits : Limits) (choice : GlobalChoice) :
    (Machine.new limits choice : Machine Code).Tidy :=
  ⟨.nil, nofun, .nil, nofun⟩

/-- Every scope that was in use still is, and is left in place. -/
structure Spares (floor : Nat) (before after : Machine Code) : Prop where
  tidy : after.Tidy
  busy : ∀ id, before.Busy id → after.Busy id
  scope : ∀ id, before.Busy id →
    (before.heap.scope id).KeepsPlace floor (after.heap.scope id)

namespace Spares

variable {floor : Nat}

theorem refl {machine : Machine Code} (tidy : machine.Tidy) : Spares floor machine machine :=
  ⟨tidy, fun _ => id, fun _ _ => .refl ..⟩

theorem trans {first second third : Machine Code} (left : Spares floor first second)
    (right : Spares floor second third) : Spares floor first third :=
  ⟨right.tidy, fun id busy => right.busy id (left.busy id busy), fun id busy =>
    (left.scope id busy).trans (right.scope id (left.busy id busy))⟩

theorem mono {low high : Nat} {before after : Machine Code} (le : low ≤ high)
    (spares : Spares high before after) : Spares low before after :=
  ⟨spares.tidy, spares.busy, fun id busy => (spares.scope id busy).mono le⟩

private theorem of_heap {machine : Machine Code} (tidy : machine.Tidy) {heap : Heap Code}
    (keepsPlace : machine.heap.KeepsPlace heap) :
    Spares machine.bounds.floor machine { machine with heap } := by
  have busy : ∀ id, machine.Busy id → ({ machine with heap } : Machine Code).Busy id :=
    fun id busy => ⟨Nat.lt_of_lt_of_le busy.1 keepsPlace.size, busy.2⟩
  refine ⟨⟨tidy.pool_nodup, ?_, tidy.blocks_nodup, ?_⟩, busy, fun id busy =>
    keepsPlace.scope id busy.1⟩
  · exact fun id pooled => Nat.lt_of_lt_of_le (tidy.pool_old id pooled) keepsPlace.size
  · exact fun id listed => busy id (tidy.blocks_busy id listed)

private theorem of_memory {machine : Machine Code} (tidy : machine.Tidy) (memory : Memory) :
    Spares floor machine { machine with heap := { machine.heap with memory } } :=
  ⟨⟨tidy.pool_nodup, tidy.pool_old, tidy.blocks_nodup, tidy.blocks_busy⟩, fun _ => id,
    fun _ _ => .refl ..⟩

private theorem withdraw {before after final : Machine Code} (spares : Spares floor before after)
    {id : ScopeId} (idle : ¬ before.Busy id) (busy : after.Busy id)
    (apart : id ∉ after.blocks.flatten) (frames : final.frames = after.frames)
    (size : final.heap.scopes.size = after.heap.scopes.size)
    (others : ∀ other, other ≠ id → final.heap.scope other = after.heap.scope other)
    (pool : final.pool = after.pool ∨ final.pool = id :: after.pool) :
    Spares floor before final := by
  have tidy := spares.tidy
  have blocks : final.blocks = after.blocks := congrArg FrameStack.blockLists frames
  have still : ∀ other, other ≠ id → after.Busy other → final.Busy other := by
    intro other apart used
    refine ⟨Nat.lt_of_lt_of_eq used.1 size.symm, fun pooled => used.2 ?_⟩
    rcases pool with same | grown
    · exact same ▸ pooled
    · exact (List.mem_cons.mp (grown ▸ pooled)).resolve_left apart
  refine ⟨⟨?_, ?_, blocks ▸ tidy.blocks_nodup, ?_⟩, ?_, ?_⟩
  · rcases pool with same | grown
    · exact same ▸ tidy.pool_nodup
    · exact grown ▸ List.nodup_cons.mpr ⟨busy.2, tidy.pool_nodup⟩
  · intro other pooled
    rw [size]
    rcases pool with same | grown
    · exact tidy.pool_old other (same ▸ pooled)
    · rcases List.mem_cons.mp (grown ▸ pooled) with rfl | earlier
      · exact busy.1
      · exact tidy.pool_old other earlier
  · intro other listed
    rw [blocks] at listed
    exact still other (fun same => apart (same ▸ listed)) (tidy.blocks_busy other listed)
  · exact fun other used => still other (fun same => idle (same ▸ used)) (spares.busy other used)
  · intro other used
    rw [others other fun same => idle (same ▸ used)]
    exact spares.scope other used

end Spares

/-- What happens while the same frames are open and leaves every scope in use in place. The
innermost frame may take further blocks, but none that was in use. -/
structure StaysInFrame (before after : Machine Code) : Prop where
  steady : before.Steady after
  spares : Spares before.bounds.floor before after
  outer : after.blocks.tail = before.blocks.tail
  top : ∀ id ∈ after.blocks.headD [], id ∈ before.blocks.headD [] ∨ ¬ before.Busy id

private theorem Steady.floor {before after : Machine Code} (steady : before.Steady after) :
    after.bounds.floor = before.bounds.floor := by
  unfold Bounds.floor
  rw [steady.bounds.marks]

namespace StaysInFrame

theorem refl {machine : Machine Code} (tidy : machine.Tidy) : machine.StaysInFrame machine :=
  ⟨.refl _, .refl tidy, rfl, fun _ => .inl⟩

theorem trans {first second third : Machine Code} (left : first.StaysInFrame second)
    (right : second.StaysInFrame third) : first.StaysInFrame third where
  steady := left.steady.trans right.steady
  spares := left.spares.trans (left.steady.floor ▸ right.spares)
  outer := right.outer.trans left.outer
  top := fun id listed => by
    rcases right.top id listed with earlier | idle
    · exact left.top id earlier
    · exact .inr fun busy => idle (left.spares.busy id busy)

theorem of_spares {before after : Machine Code} (frames : after.frames = before.frames)
    (bounds : before.bounds.Shifts after.bounds) (limits : after.limits = before.limits)
    (spares : Spares before.bounds.floor before after) : before.StaysInFrame after where
  steady := ⟨congrArg FrameStack.marks frames, bounds, limits⟩
  spares := spares
  outer := congrArg (List.tail ∘ FrameStack.blockLists) frames
  top := fun id listed => by
    have blocks : after.blocks = before.blocks := congrArg FrameStack.blockLists frames
    exact .inl (blocks ▸ listed)

theorem of_heap {machine : Machine Code} (tidy : machine.Tidy) {heap : Heap Code}
    (keepsPlace : machine.heap.KeepsPlace heap) : machine.StaysInFrame { machine with heap } :=
  .of_spares rfl keepsPlace.shifts rfl (.of_heap tidy keepsPlace)

theorem of_memory {machine : Machine Code} (tidy : machine.Tidy) {memory : Memory}
    (shifts : machine.heap.memory.bounds.Shifts memory.bounds) :
    machine.StaysInFrame (machine.withMemory memory) :=
  .of_spares rfl shifts rfl (.of_memory tidy memory)

end StaysInFrame

theorem andThen_staysInFrame {α β : Type} {before : Machine Code} {ending : Ending Code α}
    {next : α → Machine Code → Ending Code β} (first : before.StaysInFrame (machineLeft ending))
    (second : ∀ (result : α) (machine : Machine Code), ending = .ok result machine →
      before.StaysInFrame machine → machine.StaysInFrame (machineLeft (next result machine))) :
    before.StaysInFrame (machineLeft (andThen ending next)) := by
  cases ending with
  | ok result machine => exact first.trans (second result machine rfl first)
  | error abort machine => exact first

theorem setLine_staysInFrame {machine : Machine Code} (tidy : machine.Tidy) (line : Nat) :
    machine.StaysInFrame (machine.modifyTop fun frame => { frame with line }) := by
  have blocks : (machine.modifyTop fun frame => { frame with line }).blocks = machine.blocks :=
    @FrameStack.blockLists_modifyTop (fun frame => { frame with line }) (fun _ => rfl) _
  refine ⟨modifyTop_steady machine fun _ => rfl, ⟨⟨tidy.pool_nodup, tidy.pool_old, ?_, ?_⟩,
    fun _ => id, fun _ _ => .refl ..⟩, congrArg List.tail blocks, ?_⟩
  · exact blocks ▸ tidy.blocks_nodup
  · exact fun id listed => tidy.blocks_busy id (blocks ▸ listed)
  · exact fun id listed => .inl (blocks ▸ listed)

/-! Taking a scope into use. -/

/-- The machine took a scope into use that was not in use before, and did nothing else. -/
structure Occupies (before : Machine Code) (id : ScopeId) (scope : Scope) (after : Machine Code) :
    Prop where
  staysInFrame : before.StaysInFrame after
  idle : ¬ before.Busy id
  busy : after.Busy id
  scope : after.heap.scope id = scope
  frames : after.frames = before.frames
  memory : after.heap.memory = before.heap.memory

theorem newScope_occupies {machine : Machine Code} (tidy : machine.Tidy) (scope : Scope) :
    machine.Occupies (machine.heap.newScope scope).1 scope
      { machine with heap := (machine.heap.newScope scope).2 } where
  staysInFrame := .of_heap tidy (Heap.newScope_keepsPlace ..)
  idle := fun busy => Nat.lt_irrefl _ busy.1
  busy := by
    refine ⟨?_, fun pooled => Nat.lt_irrefl _ (tidy.pool_old _ pooled)⟩
    exact Nat.lt_of_lt_of_eq (Nat.lt_succ_self _) (Array.size_push scope).symm
  scope := Heap.scope_newScope_self ..
  frames := rfl
  memory := rfl

theorem reuse_occupies {machine : Machine Code} (tidy : machine.Tidy) {id : ScopeId}
    {rest : List ScopeId} (pool : machine.pool = id :: rest) (scope : Scope) :
    machine.Occupies id scope
      { machine with heap := machine.heap.setScope id scope, pool := rest } := by
  have pooled : id ∈ machine.pool := pool ▸ List.mem_cons_self
  have old : id.index < machine.heap.scopes.size := tidy.pool_old id pooled
  have nodup : id ∉ rest ∧ rest.Nodup := List.nodup_cons.mp (pool ▸ tidy.pool_nodup)
  have size : (machine.heap.setScope id scope).scopes.size = machine.heap.scopes.size :=
    Heap.size_modifyScope ..
  have within : ∀ other ∈ rest, other ∈ machine.pool := fun other listed =>
    pool ▸ List.mem_cons_of_mem id listed
  have busy : ∀ other, machine.Busy other →
      ({ machine with heap := machine.heap.setScope id scope, pool := rest } :
        Machine Code).Busy other :=
    fun other busy => ⟨Nat.lt_of_lt_of_eq busy.1 size.symm, busy.2 ∘ within other⟩
  constructor
  · refine .of_spares rfl (.of_eq (Heap.bounds_modifyScope ..)) rfl
      ⟨⟨nodup.2, ?_, tidy.blocks_nodup, ?_⟩, busy, ?_⟩
    · exact fun other listed =>
        Nat.lt_of_lt_of_eq (tidy.pool_old other (within other listed)) size.symm
    · exact fun other listed => busy other (tidy.blocks_busy other listed)
    · intro other used
      have apart : other ≠ id := fun same => used.2 (same ▸ pooled)
      have same : (machine.heap.setScope id scope).scope other = machine.heap.scope other :=
        Heap.scope_modifyScope_ne apart ..
      exact same.symm ▸ .refl ..
  · exact fun busy => busy.2 pooled
  · exact ⟨Nat.lt_of_lt_of_eq old size.symm, nodup.1⟩
  · exact Heap.scope_modifyScope_self old _
  · rfl
  · rfl

theorem pooledScope_occupies {machine : Machine Code} (tidy : machine.Tidy) (scope : Scope)
    (held : List Handle) :
    ∃ id after, pooledScope scope held machine = .ok id after ∧
      machine.Occupies id scope after := by
  rw [run_pooledScope]
  cases pool : machine.pool with
  | nil => exact ⟨_, _, rfl, newScope_occupies tidy scope⟩
  | cons id rest => exact ⟨_, _, rfl, reuse_occupies tidy pool scope⟩

theorem allocateTable_staysInFrame {machine : Machine Code} (tidy : machine.Tidy)
    (held : List Handle)
    (size : Nat) : machine.StaysInFrame (machineLeft (allocateTable size held machine)) := by
  rw [run_allocateTable, run_ofExcept]
  split
  next => exact .refl tidy
  next =>
    cases allocated : machine.heap.memory.arena.allocate size with
    | error fault => exact .refl tidy
    | ok result => exact .of_heap tidy (Heap.onMemory_keepsPlace _ (allocate_shifts allocated))

theorem frames_of_allocateTable {machine after : Machine Code} {held : List Handle} {size : Nat}
    {table : Table} (allocated : allocateTable size held machine = .ok table after) :
    after.frames = machine.frames := by
  rw [run_allocateTable, run_ofExcept] at allocated
  split at allocated
  next =>
    cases allocated
    rfl
  next =>
    cases given : machine.heap.memory.arena.allocate size with
    | error fault =>
        rw [given] at allocated
        cases allocated
    | ok result =>
        rw [given] at allocated
        cases allocated
        rfl

/-- A scope taken into use as a block of the innermost frame. -/
theorem Occupies.addBlock {before after : Machine Code} {id : ScopeId} {scope : Scope}
    (occupies : before.Occupies id scope after) (start : before.Tidy)
    (framed : before.frames.isEmpty = false) :
    before.StaysInFrame (after.modifyTop fun frame =>
    { frame with blocks := frame.blocks ++ [id] }) := by
  have tidy := occupies.staysInFrame.spares.tidy
  obtain ⟨top, outer, shape, grown⟩ := FrameStack.blockLists_modifyTop_append id framed
  rw [← occupies.frames] at grown
  have grown : (after.modifyTop fun frame => { frame with blocks := frame.blocks ++ [id] }).blocks =
      (top ++ [id]) :: outer := grown
  have shape : before.blocks = top :: outer := shape
  have known : after.blocks = top :: outer :=
    (congrArg FrameStack.blockLists occupies.frames).trans shape
  have nodup : (top ++ outer.flatten).Nodup := by
    have nodup := tidy.blocks_nodup
    rwa [known] at nodup
  have apart : id ∉ top ++ outer.flatten := fun listed =>
    occupies.idle (start.blocks_busy id (shape ▸ listed))
  have listing : ((top ++ [id]) :: outer).flatten.Perm (id :: (top ++ outer.flatten)) := by
    rw [List.flatten_cons, List.append_assoc]
    exact List.perm_middle
  have added : after.Steady
      (after.modifyTop fun frame => { frame with blocks := frame.blocks ++ [id] }) :=
    modifyTop_steady after fun _ => rfl
  have steady := occupies.staysInFrame.steady.trans added
  refine ⟨steady, ⟨⟨tidy.pool_nodup, tidy.pool_old, ?_, ?_⟩, occupies.staysInFrame.spares.busy,
    occupies.staysInFrame.spares.scope⟩, ?_, ?_⟩
  · rw [grown]
    exact listing.nodup_iff.mpr (List.nodup_cons.mpr ⟨apart, nodup⟩)
  · intro other listed
    rw [grown, listing.mem_iff] at listed
    rcases List.mem_cons.mp listed with rfl | earlier
    · exact occupies.busy
    · exact tidy.blocks_busy other (known ▸ earlier)
  · rw [grown, shape]
    rfl
  · intro other listed
    rw [grown] at listed
    rcases List.mem_append.mp listed with earlier | here
    · exact .inl (shape ▸ earlier)
    · obtain rfl := List.mem_singleton.mp here
      exact .inr occupies.idle

theorem allocateBlock_staysInFrame {machine : Machine Code} (tidy : machine.Tidy)
    (held : List Handle)
    (previous : ScopeId) (index : Index) :
    machine.StaysInFrame (machineLeft (allocateBlock previous index held machine)) := by
  rw [run_allocateBlock]
  split
  next => exact (newScope_occupies tidy _).staysInFrame
  next inside =>
    have framed : machine.frames.isEmpty = false := by simp_all
    refine andThen_staysInFrame (allocateTable_staysInFrame tidy held index.size)
      fun members middle ran stays => ?_
    have tidy := stays.spares.tidy
    rw [← frames_of_allocateTable ran] at framed
    obtain ⟨id, after, pooled, occupies⟩ :=
      pooledScope_occupies tidy ⟨some previous, index, members, .basic, true⟩ held
    rw [pooled]
    exact occupies.addBlock tidy framed

/-! Releasing. -/

@[simp] theorem scope_promote_ne {id other : ScopeId} (apart : other ≠ id)
    (machine : Machine Code) :
    (machine.promote id).heap.scope other = machine.heap.scope other := by
  unfold promote Heap.detach
  dsimp only
  rw [Heap.scope_modifyScope_ne apart]
  rfl

@[simp] theorem size_promote (machine : Machine Code) (id : ScopeId) :
    (machine.promote id).heap.scopes.size = machine.heap.scopes.size :=
  Heap.size_modifyScope ..

namespace Spares

variable {floor : Nat} {before after : Machine Code} {id : ScopeId}

private theorem promote (spares : Spares floor before after) (idle : ¬ before.Busy id)
    (busy : after.Busy id) (apart : id ∉ after.blocks.flatten) :
    Spares floor before (after.promote id) :=
  spares.withdraw idle busy apart rfl (size_promote ..)
    (fun _ apart => scope_promote_ne apart after) (.inl rfl)

private theorem recycle (spares : Spares floor before after) (idle : ¬ before.Busy id)
    (busy : after.Busy id) (apart : id ∉ after.blocks.flatten) :
    Spares floor before (after.recycle id) :=
  spares.withdraw idle busy apart rfl (Heap.size_modifyScope ..)
    (fun _ apart => Heap.scope_modifyScope_ne apart ..) (.inr rfl)

private theorem releaseScope (spares : Spares floor before after) (idle : ¬ before.Busy id)
    (busy : after.Busy id) (apart : id ∉ after.blocks.flatten) (held : List Handle) :
    Spares floor before (after.releaseScope held id) := by
  unfold Machine.releaseScope
  dsimp only
  split
  next => exact spares
  next =>
    split
    next => exact spares.promote idle busy apart
    next =>
      have recycled := spares.recycle idle busy apart
      exact recycled.trans (.of_memory recycled.tidy _)

private theorem releaseBlocks (held : List Handle) (blocks : List ScopeId)
    (spares : Spares floor before after) (nodup : blocks.Nodup)
    (idle : ∀ id ∈ blocks, ¬ before.Busy id) (busy : ∀ id ∈ blocks, after.Busy id)
    (apart : ∀ id ∈ blocks, id ∉ after.blocks.flatten) :
    Spares floor before (releaseBlocks held blocks after) ∧
      (releaseBlocks held blocks after).frames = after.frames := by
  induction blocks generalizing after with
  | nil => exact ⟨spares, rfl⟩
  | cons id rest induction =>
      obtain ⟨fresh, nodup⟩ := List.nodup_cons.mp nodup
      have here : id ∈ id :: rest := List.mem_cons_self
      have there : ∀ other ∈ rest, other ∈ id :: rest := fun _ => List.mem_cons_of_mem id
      have idleRest := fun other listed => idle other (there other listed)
      have apartRest := fun other listed => apart other (there other listed)
      unfold Machine.releaseBlocks
      dsimp only
      split
      next =>
        refine induction (spares.promote (idle id here) (busy id here) (apart id here)) nodup
          idleRest ?_ apartRest
        intro other listed
        have used := busy other (there other listed)
        exact ⟨Nat.lt_of_lt_of_eq used.1 (size_promote ..).symm, used.2⟩
      next =>
        refine induction (spares.recycle (idle id here) (busy id here) (apart id here)) nodup
          idleRest ?_ apartRest
        intro other listed
        have used := busy other (there other listed)
        refine ⟨Nat.lt_of_lt_of_eq used.1 (Heap.size_modifyScope ..).symm, fun pooled => ?_⟩
        rcases List.mem_cons.mp pooled with rfl | earlier
        · exact fresh listed
        · exact used.2 earlier

end Spares

@[simp] theorem frames_releaseScope (machine : Machine Code) (held : List Handle)
    (id : ScopeId) : (machine.releaseScope held id).frames = machine.frames := by
  unfold releaseScope
  dsimp only
  split
  next => rfl
  next => split <;> rfl

/-- A call's own scope is released at its end. -/
theorem StaysInFrame.releaseScope {before entered after : Machine Code} {id : ScopeId}
    (start : before.Tidy) (entering : before.StaysInFrame entered)
    (frames : entered.frames = before.frames) (idle : ¬ before.Busy id) (busy : entered.Busy id)
    (stays : entered.StaysInFrame after) (held : List Handle) :
    before.StaysInFrame (after.releaseScope held id) := by
  have whole := entering.trans stays
  have blocks : entered.blocks = before.blocks := congrArg FrameStack.blockLists frames
  have unlisted : id ∉ before.blocks.flatten := fun listed => idle (start.blocks_busy id listed)
  have apart : id ∉ after.blocks.flatten := by
    intro listed
    rcases mem_flatten_headD.mp listed with top | outer
    · rcases stays.top id top with earlier | idle
      · exact unlisted (mem_flatten_headD.mpr (.inl (blocks ▸ earlier)))
      · exact idle busy
    · exact unlisted (mem_flatten_headD.mpr (.inr (whole.outer ▸ outer)))
  have same : (after.releaseScope held id).blocks = after.blocks :=
    congrArg FrameStack.blockLists (frames_releaseScope ..)
  refine ⟨whole.steady.trans (releaseScope_steady after held id),
    whole.spares.releaseScope idle (stays.spares.busy id busy) apart held, ?_, ?_⟩
  · exact (congrArg List.tail same).trans whole.outer
  · exact fun other listed => whole.top other (same ▸ listed)

/-! Frames. -/

theorem openFrame_tidy {machine : Machine Code} (tidy : machine.Tidy) (id file : String)
    (scope : ScopeId) : (machine.openFrame id file scope).Tidy :=
  ⟨tidy.pool_nodup, tidy.pool_old, tidy.blocks_nodup, tidy.blocks_busy⟩

theorem annotate_staysInFrame {machine : Machine Code} (tidy : machine.Tidy) (failure : Failure) :
    machine.StaysInFrame (machine.annotate failure).2 := by
  unfold annotate
  split
  next => exact .refl tidy
  next =>
    dsimp only
    split
    next => exact .of_heap tidy (.of_scopes rfl (.refl _))
    next => exact .refl tidy

/-- What a whole frame does: the arena's bookkeeping and the block lists are back as they were, and
every scope in use is in place, one in the arena below the watermark with its very slice. -/
structure Restores (before after : Machine Code) : Prop where
  marks : after.frames.marks = before.frames.marks
  bounds : after.bounds = before.bounds
  limits : after.limits = before.limits
  blocks : after.blocks = before.blocks
  spares : Spares before.watermark before after

theorem Restores.refl {machine : Machine Code} (tidy : machine.Tidy) : machine.Restores machine :=
  ⟨rfl, rfl, rfl, rfl, .refl tidy⟩

theorem Restores.staysInFrame {before after : Machine Code} (orderly : before.Orderly)
    (restores : before.Restores after) : before.StaysInFrame after where
  steady := ⟨restores.marks, .of_eq restores.bounds, restores.limits⟩
  spares := restores.spares.mono orderly.inRange.floor_le
  outer := congrArg List.tail restores.blocks
  top := fun _ listed => .inl (restores.blocks ▸ listed)

/-- The frame that goes takes its own blocks with it, and none of them was in use before. -/
theorem closeFrame_restores {machine inner : Machine Code} (orderly : machine.Orderly)
    {id file : String} {scope : ScopeId}
    (stays : (machine.openFrame id file scope).StaysInFrame inner)
    (held : List Handle) : machine.Restores (inner.closeFrame held) := by
  have ⟨marks, bounds, limits⟩ := closeFrame_openFrame orderly stays.steady held
  have shape : inner.frames.marks = machine.watermark :: machine.frames.marks := stays.steady.frames
  obtain ⟨top, outer, popped, -, -⟩ := FrameStack.pop?_of_marks shape
  have blocks : inner.blocks = top.blocks :: outer.blockLists :=
    FrameStack.blockLists_of_pop? popped
  have outerBlocks : outer.blockLists = machine.blocks := by
    have tail := stays.outer
    rw [blocks] at tail
    exact tail
  have listed : ∀ other, other ∈ top.blocks ∨ other ∈ outer.blockLists.flatten →
      other ∈ inner.blocks.flatten := by
    intro other there
    rw [blocks, List.flatten_cons]
    exact List.mem_append.mpr there
  have tidy := stays.spares.tidy
  have nodup : top.blocks.Nodup ∧ outer.blockLists.flatten.Nodup ∧
      ∀ other ∈ top.blocks, ∀ further ∈ outer.blockLists.flatten, other ≠ further := by
    have nodup := tidy.blocks_nodup
    rw [blocks, List.flatten_cons] at nodup
    exact List.nodup_append.mp nodup
  have popping : Spares machine.watermark machine { inner with frames := outer } :=
    ⟨⟨tidy.pool_nodup, tidy.pool_old, nodup.2.1,
        fun other there => tidy.blocks_busy other (listed other (.inr there))⟩,
      stays.spares.busy, stays.spares.scope⟩
  have idle : ∀ other ∈ top.blocks, ¬ machine.Busy other := by
    intro other there
    refine (stays.top other ?_).resolve_left List.not_mem_nil
    rw [blocks]
    exact there
  obtain ⟨spares, frames⟩ := popping.releaseBlocks held top.blocks nodup.1 idle
    (fun other there => tidy.blocks_busy other (listed other (.inl there)))
    (fun other there further => nodup.2.2 other there other further rfl)
  have closed : inner.closeFrame held =
      (releaseBlocks held top.blocks { inner with frames := outer }).withMemory
        ((releaseBlocks held top.blocks { inner with frames := outer }).heap.memory.closeFrame
          (releaseBlocks held top.blocks { inner with frames := outer }).host.shares top.mark) := by
    unfold closeFrame
    rw [popped]
    rfl
  refine ⟨marks, bounds, limits, ?_, ?_⟩
  · rw [closed]
    exact (congrArg FrameStack.blockLists frames).trans outerBlocks
  · rw [closed]
    exact spares.trans (.of_memory spares.tidy _)

theorem inFrame_restoring {machine : Machine Code} (orderly : machine.Orderly)
    (tidy : machine.Tidy) (id file : String) (scope : ScopeId) {body : Action Code Value}
    (held : List Handle)
    (stays : machine.depth < machine.limits.maxDepth →
      (machine.openFrame id file scope).StaysInFrame
        (machineLeft (body (.scope scope :: held) (machine.openFrame id file scope)))) :
    machine.Restores (machineLeft (inFrame id file scope body held machine)) := by
  unfold inFrame
  split
  next => exact .refl tidy
  next room =>
    have inner := stays (Nat.lt_of_not_le room)
    dsimp only
    split
    next result after ran =>
      rw [ran] at inner
      exact closeFrame_restores orderly inner _
    next failure after ran =>
      rw [ran] at inner
      exact closeFrame_restores orderly
        (inner.trans (annotate_staysInFrame inner.spares.tidy failure)) _
    next after ran =>
      rw [ran] at inner
      exact closeFrame_restores orderly inner _

end Machine

end ScopeMachine
