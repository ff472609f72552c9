import ScopeMachine.Proofs.Frames.Escaping
import ScopeMachine.Proofs.Liveness.Evolution

/-!
Which blocks of a frame return to the pool when the frame is closed. Blocks are released in the
order in which they were allocated, so an enclosing block has its turn while the blocks inside it,
which come later, still hold it.
-/

namespace ScopeMachine

open ScopeMachine.Action Relation

variable {Code : Type}

/-! The order of blocks. -/

namespace Heap

variable {heap heap' : Heap Code}

/-- One scope is directly inside the other. -/
def Encloses (heap : Heap Code) (id inner : ScopeId) : Prop :=
  (heap.scope inner).previous = some id

instance (heap : Heap Code) (id inner : ScopeId) : Decidable (heap.Encloses id inner) :=
  inferInstanceAs (Decidable ((heap.scope inner).previous = some id))

private theorem Encloses.holds {id inner : ScopeId} (encloses : heap.Encloses id inner) :
    heap.Holds (.scope inner) (.scope id) :=
  Machine.Guarded.holds_of_links (.inl encloses)

private theorem encloses_of_holds {id inner : ScopeId} (basic : (heap.scope inner).kind = .basic)
    (holds : heap.Holds (.scope inner) (.scope id)) : heap.Encloses id inner := by
  rw [holds_scope, Scope.holds, basic] at holds
  have cells : (heap.scope inner).members.heapCells.any (Handle.isCell (.scope id)) = false :=
    Array.any_eq_false.mpr fun _ _ => Bool.false_ne_true
  have linked : (heap.scope inner).previous.any (Handle.isScope (.scope id)) = true := by
    simpa [cells, ScopeKind.holds] using holds
  obtain ⟨other, previous, same⟩ := (Option.any_eq_true ..).mp linked
  cases Handle.eq_of_isScope same
  exact previous

structure Layered (heap : Heap Code) (blocks : List ScopeId) : Prop where
  order : blocks.Pairwise fun earlier later => earlier ≠ later ∧ ¬ heap.Encloses later earlier
  basic : ∀ id ∈ blocks, (heap.scope id).kind = .basic

namespace Layered

private theorem nil : heap.Layered [] := ⟨.nil, nofun⟩

private theorem nodup {blocks : List ScopeId} (layered : heap.Layered blocks) : blocks.Nodup :=
  layered.order.imp And.left

private theorem later {blocks : List ScopeId} (layered : heap.Layered blocks)
    (evolves : ∀ id ∈ blocks, (heap.scope id).Evolves (heap'.scope id)) :
    heap'.Layered blocks := by
  refine ⟨layered.order.imp_of_mem fun {earlier other} listed _ apart => ?_, fun id listed => ?_⟩
  · refine ⟨apart.1, fun encloses => apart.2 ?_⟩
    exact (evolves earlier listed).previous.symm.trans encloses
  · have basic := layered.basic id listed
    have uncalled : (heap.scope id).variant ≠ .function := by
      unfold Scope.variant
      rw [basic]
      nofun
    exact ((evolves id listed).kind_eq uncalled).trans basic

private theorem concat {blocks : List ScopeId} (layered : heap.Layered blocks) {id : ScopeId}
    (basic : (heap.scope id).kind = .basic)
    (apart : ∀ earlier ∈ blocks, earlier ≠ id ∧ ¬ heap.Encloses id earlier) :
    heap.Layered (blocks ++ [id]) := by
  refine ⟨List.pairwise_append.mpr ⟨layered.order, List.pairwise_singleton .., ?_⟩, ?_⟩
  · intro earlier listed other new
    exact List.mem_singleton.mp new ▸ apart earlier listed
  · intro other listed
    rcases List.mem_append.mp listed with old | new
    · exact layered.basic other old
    · exact List.mem_singleton.mp new ▸ basic

end Layered

private theorem holds_scope_of_detach {id other : ScopeId} {holder : Handle}
    (holds : (heap.detach id).Holds holder (.scope other)) :
    heap.Holds holder (.scope other) := by
  let moved : Handle → Prop := fun handle => ∀ scope, handle ≠ .scope scope
  have serves : heap.memory.Serves moved := ⟨fun _ _ => nofun, fun _ => nofun⟩
  have kept : (heap.scope id).members.Kept moved := fun _ _ => nofun
  exact ((detach_grows_of_kept serves kept).holds holds).resolve_right fun apart => apart other rfl

end Heap

namespace Machine

variable {machine before after : Machine Code} {known kept : List Handle}

def Tiered (machine : Machine Code) : Prop :=
  ∀ blocks ∈ machine.blocks, machine.heap.Layered blocks

private theorem lists_iff {id : ScopeId} : machine.Lists id ↔ ∃ blocks ∈ machine.blocks,
    id ∈ blocks := by
  simp [Lists, blocks, FrameStack.blockLists]

private theorem Guarded.apart_of_idle (guarded : machine.Guarded known) {id other : ScopeId}
    (idle : id ∈ machine.pool ∨ machine.heap.scopes.size ≤ id.index)
    (live : machine.Live known (.scope other)) :
    other ≠ id ∧ ¬ machine.heap.Encloses id other := by
  rcases idle with pooled | new
  · refine ⟨?_, fun encloses => ?_⟩
    · rintro rfl
      exact guarded.not_pooled live pooled
    · exact live.found ((guarded.pool_lost id pooled).holder encloses.holds)
  · refine ⟨?_, fun encloses => ?_⟩
    · rintro rfl
      exact Nat.not_lt_of_le new (live.there rfl)
    · exact Nat.not_lt_of_le new (guarded.held_there encloses.holds)

inductive Relists (before after : Machine Code) : Prop where
  | same (blocks : after.blocks = before.blocks)
  | added {top : List ScopeId} {outer : List (List ScopeId)} {id : ScopeId}
      (was : before.blocks = top :: outer) (blocks : after.blocks = (top ++ [id]) :: outer)
      (new : id ∈ before.pool ∨ before.heap.scopes.size ≤ id.index)
      (basic : (after.heap.scope id).kind = .basic)
  | opened (blocks : after.blocks = [] :: before.blocks)
  | closed {top : List ScopeId} (blocks : before.blocks = top :: after.blocks)

private theorem Tiered.later (tiered : before.Tiered) (guarded : before.Guarded known)
    (guarded' : after.Guarded kept) (evolves : before.Evolves after)
    (relists : before.Relists after) :
    after.Tiered := by
  have scope {blocks : List ScopeId} (was : blocks ∈ before.blocks)
      (is : ∀ id ∈ blocks, after.Lists id) (id : ScopeId) (listed : id ∈ blocks) :
      (before.heap.scope id).Evolves (after.heap.scope id) := by
    have live := guarded.live_of_lists (lists_iff.mpr ⟨blocks, was, listed⟩)
    have live' := guarded'.live_of_lists (is id listed)
    exact evolves.heap.scope (live.there rfl) ⟨guarded.not_pooled live, guarded'.not_pooled live'⟩
  have still {blocks : List ScopeId} (was : blocks ∈ before.blocks) (is : blocks ∈ after.blocks) :
      after.heap.Layered blocks :=
    (tiered blocks was).later (scope was fun id listed => lists_iff.mpr ⟨blocks, is, listed⟩)
  cases relists with
  | same same => exact fun blocks listed => still (same ▸ listed) listed
  | opened opened =>
      intro blocks listed
      rcases List.mem_cons.mp (opened ▸ listed) with rfl | old
      · exact .nil
      · exact still old listed
  | closed closed =>
      exact fun blocks listed => still (closed ▸ List.mem_cons_of_mem _ listed) listed
  | @added top outer id was added new basic =>
      intro blocks listed
      rcases List.mem_cons.mp (added ▸ listed) with rfl | old
      · have member : top ∈ before.blocks := was ▸ List.mem_cons_self
        have evolves := scope member fun other old =>
          lists_iff.mpr ⟨_, listed, List.mem_append_left _ old⟩
        refine ((tiered top member).later evolves).concat basic fun earlier old => ?_
        have live := guarded.live_of_lists (lists_iff.mpr ⟨top, member, old⟩)
        obtain ⟨apart, outside⟩ := guarded.apart_of_idle new live
        exact ⟨apart, fun encloses =>
          outside ((evolves earlier old).previous.symm.trans encloses)⟩
      · exact still (was ▸ List.mem_cons_of_mem _ old) listed

/-! How the steps change the lists. -/

private theorem allocateBlock_lists (guarded : machine.Guarded known) {held : List Handle}
    {previous id : ScopeId} {index : Index} (uncaptured : index.captures = false)
    (framed : machine.frames.isEmpty = false)
    (made : allocateBlock previous index held machine = .ok id after) :
    ∃ top outer, machine.blocks = top :: outer ∧ after.blocks = (top ++ [id]) :: outer ∧
      (id ∈ machine.pool ∨ machine.heap.scopes.size ≤ id.index) ∧
      (after.heap.scope id).kind = .basic := by
  obtain ⟨top, outer, was, appended⟩ := FrameStack.blockLists_modifyTop_append id framed
  have arena : ¬ (index.captures || machine.frames.isEmpty) = true := by
    simp [uncaptured, framed]
  refine ⟨top, outer, was, ?_⟩
  rw [run_allocateBlock, if_neg arena] at made
  obtain ⟨memory, -, left⟩ := @allocateTable_evolves _ machine held index.size
  cases ran : allocateTable index.size held machine with
  | error abort middle =>
      rw [ran] at made
      cases made
  | ok members middle =>
      rw [ran, machineLeft_ok] at left
      subst left
      rw [ran, andThen_ok, run_pooledScope] at made
      cases pool : machine.pool with
      | nil =>
          simp only [pool] at made
          cases made
          refine ⟨appended, .inr (Nat.le_refl _), ?_⟩
          exact congrArg Scope.kind (Heap.scope_newScope_self ..)
      | cons first rest =>
          simp only [pool] at made
          cases made
          have old := (guarded.pool_lost _ (pool ▸ List.mem_cons_self)).allocated
          refine ⟨appended, .inl List.mem_cons_self, ?_⟩
          exact congrArg Scope.kind (Heap.scope_modifyScope_self old _)

private theorem allocateBlock_relists (guarded : machine.Guarded known) (held : List Handle)
    (previous : ScopeId) (index : Index) :
    machine.Relists (machineLeft (allocateBlock previous index held machine)) := by
  by_cases heap : index.captures = true ∨ machine.frames.isEmpty = true
  · rw [run_allocateBlock, if_pos (Bool.or_eq_true _ _ |>.mpr heap)]
    exact .same rfl
  · obtain ⟨uncaptured, framed⟩ := not_or.mp heap
    cases made : allocateBlock previous index held machine with
    | ok id after =>
        obtain ⟨top, outer, was, is, new, basic⟩ := allocateBlock_lists guarded
          (Bool.eq_false_iff.mpr uncaptured) (Bool.eq_false_iff.mpr framed) made
        exact .added was is new basic
    | error abort after =>
        refine .same (congrArg FrameStack.blockLists ?_)
        rw [run_allocateBlock, if_neg (by simp_all)] at made
        obtain ⟨memory, -, left⟩ := @allocateTable_evolves _ machine held index.size
        cases ran : allocateTable index.size held machine with
        | error abort middle =>
            rw [ran] at made left
            cases left
            cases made
            rfl
        | ok members middle =>
            rw [ran, andThen_ok, run_pooledScope] at made
            cases pool : middle.pool <;> simp only [pool] at made <;> cases made

private theorem allocateCallScope_frames (held : List Handle) (previous : ScopeId) (index : Index)
    (members : Table) (invocation : Invocation) :
    (machineLeft (allocateCallScope previous index members invocation held machine)).frames =
      machine.frames := by
  unfold allocateCallScope
  rw [run_bind, run_onMemory, andThen_ok]
  generalize members.ensureCapacity index.size machine.heap.memory = result
  obtain ⟨table, memory⟩ := result
  dsimp only
  rw [run_ite]
  split
  next =>
    obtain ⟨id, after, taken, -, frames, -⟩ :=
      @pooledScope_evolves _ { machine with heap := { machine.heap with memory } } held
        ⟨some previous, index, table, .function invocation, table.isArena⟩
    rw [taken]
    exact frames
  next => rfl

private theorem closeFrame_relists (held : List Handle) :
    machine.Relists (machine.closeFrame held) := by
  cases popped : machine.frames.pop? with
  | none =>
      unfold closeFrame
      rw [popped]
      exact .same rfl
  | some frames =>
      obtain ⟨top, outer⟩ := frames
      have left : (machine.closeFrame held).frames = outer := by
        rw [closeFrame_of_pop? popped]
        exact frames_releaseBlocks ..
      have blocks : machine.blocks = top.blocks :: (machine.closeFrame held).blocks := by
        unfold blocks
        rw [left]
        exact FrameStack.blockLists_of_pop? popped
      exact .closed blocks

end Machine

private theorem Request.relists {known held : List Handle} {machine : Machine Code}
    (guarded : machine.Guarded known) {α : Type} {action : Action Code α}
    {gain : α → List Handle} (asked : Request known action gain) :
    machine.Relists (machineLeft (action held machine)) := by
  have reported {change : Frame → Frame} (keeps : ∀ frame, (change frame).blocks = frame.blocks) :
      machine.Relists (machine.modifyTop change) :=
    .same (FrameStack.blockLists_modifyTop keeps machine.frames)
  have worked (heap : Heap Code) : machine.Relists { machine with heap } := .same rfl
  cases asked with
  | assign | changeArray =>
      rw [run_tryHeap]
      split <;> exact .same rfl
  | allocateTable size =>
      obtain ⟨memory, -, left⟩ := @Machine.allocateTable_evolves _ machine held size
      rw [left]
      exact .same rfl
  | allocateBlock _ index => exact Machine.allocateBlock_relists guarded ..
  | allocateCallScope =>
      exact .same (congrArg FrameStack.blockLists (Machine.allocateCallScope_frames ..))
  | setScopeAndLine | setLine => exact reported fun _ => rfl
  | newGlobal | resetGlobal => exact worked _
  | _ => exact .same rfl

namespace Client

variable {before after client : Client Code}

private theorem Move.relists (move : Move before after)
    (guarded : before.machine.Guarded before.known) :
    before.machine.Relists after.machine := by
  cases move with
  | @request _ action gain asked held =>
      have relists := @Request.relists _ _ held _ guarded _ _ _ asked
      unfold Client.after
      cases ending : action held before.machine with
      | ok result machine =>
          rw [ending] at relists
          exact relists
      | error abort machine =>
          rw [ending] at relists
          exact relists
  | openFrame => exact .opened rfl
  | closeFrame => exact Machine.closeFrame_relists _
  | releaseScope =>
      exact .same (congrArg FrameStack.blockLists (Machine.frames_releaseScope ..))
  | follow | take | forget | host => exact .same rfl

private theorem Reachable.tiered {limits : Limits} {choice : GlobalChoice}
    (reachable : Reachable limits choice client) : client.machine.Tiered := by
  induction reachable with
  | refl => exact fun _ listed => (List.not_mem_nil listed).elim
  | tail earlier move tiered =>
      have orderly := Reachable.orderly earlier
      exact tiered.later orderly.guarded (move.guarded orderly.guarded)
        (move.evolves orderly.sound) (move.relists orderly.guarded)

end Client

/-! The release of blocks. -/

namespace Machine

variable {machine : Machine Code} {known kept : List Handle}

/-- The blocks of the innermost frame, in the order in which they were allocated. -/
def innermost (machine : Machine Code) : List ScopeId := machine.blocks.headD []

def unframed (machine : Machine Code) : Machine Code :=
  match machine.frames.pop? with
  | none => machine
  | some (_, outer) => { machine with frames := outer }

private theorem innermost_of_pop? {top : Frame} {outer : FrameStack}
    (popped : machine.frames.pop? = some (top, outer)) : machine.innermost = top.blocks := by
  unfold innermost blocks
  rw [FrameStack.blockLists_of_pop? popped]
  rfl

private theorem unframed_of_pop? {top : Frame} {outer : FrameStack}
    (popped : machine.frames.pop? = some (top, outer)) :
    machine.unframed = { machine with frames := outer } := by
  unfold unframed
  rw [popped]

/-- Apart from the records of the innermost frame, nothing refers to the scope but blocks of that
frame. -/
@[mk_iff]
structure Confined (machine : Machine Code) (kept : List Handle) (id : ScopeId) : Prop where
  rootless : machine.unframed.isRoot kept (.scope id) = false
  holders : ∀ holder ∈ machine.heap.holders (.scope id),
    machine.heap.isAlive (machine.unframed.isRoot (machine.innermost.map .scope ++ kept)) holder =
      true → ∃ block ∈ machine.innermost, holder = .scope block

instance (machine : Machine Code) (kept : List Handle) (id : ScopeId) :
    Decidable (machine.Confined kept id) :=
  decidable_of_iff _ (confined_iff machine kept id).symm

private theorem isRoot_releaseBlocks (held : List Handle) (blocks : List ScopeId) (id : ScopeId) :
    (releaseBlocks held blocks machine).isRoot kept (.scope id) =
      machine.isRoot kept (.scope id) := by
  induction blocks generalizing machine with
  | nil => rfl
  | cons first rest induction =>
      rw [Workspace.releaseBlocks_cons, induction]
      split <;> rfl

private theorem size_releaseBlocks (held : List Handle) (blocks : List ScopeId) :
    (releaseBlocks held blocks machine).heap.scopes.size = machine.heap.scopes.size := by
  induction blocks generalizing machine with
  | nil => rfl
  | cons first rest induction =>
      rw [Workspace.releaseBlocks_cons, induction]
      split
      next => exact Heap.size_detach ..
      next => exact Heap.size_modifyScope ..

private theorem holds_scope_of_releaseBlocks {held : List Handle} {blocks : List ScopeId}
    {id : ScopeId}
    {holder : Handle} (holds : (releaseBlocks held blocks machine).heap.Holds holder (.scope id)) :
    machine.heap.Holds holder (.scope id) := by
  induction blocks generalizing machine with
  | nil => exact holds
  | cons first rest induction =>
      rw [Workspace.releaseBlocks_cons] at holds
      have earlier := induction holds
      split at earlier
      next => exact Heap.holds_scope_of_detach earlier
      next => exact holds_of_recycle earlier

private theorem exists_pool_releaseBlocks (held : List Handle) (blocks : List ScopeId) :
    ∃ recycled : List ScopeId, recycled.Sublist blocks ∧
      (releaseBlocks held blocks machine).pool = recycled.reverse ++ machine.pool := by
  induction blocks generalizing machine with
  | nil => exact ⟨[], .slnil, rfl⟩
  | cons first rest induction =>
      rw [Workspace.releaseBlocks_cons]
      split
      next =>
        obtain ⟨recycled, sublist, pool⟩ := @induction (machine.promote first)
        exact ⟨recycled, sublist.cons _, pool⟩
      next =>
        obtain ⟨recycled, sublist, pool⟩ := @induction (machine.recycle first)
        refine ⟨first :: recycled, sublist.cons_cons _, pool.trans ?_⟩
        rw [List.reverse_cons, List.append_assoc]
        rfl

private theorem length_pool_releaseBlocks (held : List Handle) {blocks : List ScopeId}
    (nodup : blocks.Nodup) (idle : ∀ id ∈ blocks, id ∉ machine.pool) :
    let pool := (releaseBlocks held blocks machine).pool
    pool.length = machine.pool.length + (blocks.filter (pool.contains ·)).length := by
  intro pool
  obtain ⟨recycled, sublist, made⟩ := @exists_pool_releaseBlocks _ machine held blocks
  have same : (blocks.filter (pool.contains ·)).Perm recycled := by
    refine (List.perm_ext_iff_of_nodup (nodup.filter _) (nodup.sublist sublist)).mpr fun id => ?_
    rw [List.mem_filter, List.contains_iff_mem, show pool = _ from made, List.mem_append,
      List.mem_reverse]
    constructor
    · rintro ⟨listed, here | waits⟩
      · exact here
      · exact absurd waits (idle id listed)
    · exact fun here => ⟨sublist.subset here, .inl here⟩
  rw [same.length_eq, show pool = _ from made, List.length_append, List.length_reverse,
    Nat.add_comm]

private theorem mem_pool_releaseBlocks {first rest : List ScopeId} {id : ScopeId}
    (fresh : id ∉ first)
    (apart : id ∉ rest) (idle : id ∉ machine.pool) :
    id ∈ (releaseBlocks kept (first ++ id :: rest) machine).pool ↔
      (releaseBlocks ((id :: rest).map .scope ++ kept) first machine).isHeld
        (rest.map .scope ++ kept) id = false := by
  have waiting : id ∉ (releaseBlocks ((id :: rest).map .scope ++ kept) first machine).pool :=
    fun pooled => (pool_releaseBlocks _ first pooled).elim idle fresh
  rw [(releaseBlocks_append ..).1, Workspace.releaseBlocks_cons]
  generalize releaseBlocks ((id :: rest).map .scope ++ kept) first machine = turn at waiting ⊢
  cases held : turn.isHeld (rest.map .scope ++ kept) id with
  | true =>
      refine iff_of_false (fun pooled => ?_) Bool.noConfusion
      exact (pool_releaseBlocks _ rest pooled).elim waiting apart
  | false => exact iff_of_true (pool_subset_releaseBlocks _ rest List.mem_cons_self) rfl

section Turns

variable {first rest : List ScopeId} {id : ScopeId} (old : id.index < machine.heap.scopes.size)

include old

private theorem lost_at_turn
    (basic : ∀ block ∈ first ++ id :: rest, (machine.heap.scope block).kind = .basic)
    (apart : id ∉ rest) (rootless : machine.isRoot kept (.scope id) = false)
    (holders : ∀ holder ∈ machine.heap.holders (.scope id),
      machine.heap.isAlive (machine.isRoot ((first ++ id :: rest).map .scope ++ kept)) holder =
        true → ∃ block ∈ first ++ id :: rest, holder = .scope block)
    (encloses : ∀ block ∈ first ++ id :: rest, ¬ machine.heap.Encloses id block) :
    (releaseBlocks ((id :: rest).map .scope ++ kept) first machine).Lost (rest.map .scope ++ kept)
      (.scope id) := by
  refine .intro (Nat.lt_of_lt_of_eq old (size_releaseBlocks ..).symm) ?_ fun holder holds => ?_
  · rw [isRoot_releaseBlocks]
    refine Bool.eq_false_iff.mpr fun root => ?_
    rcases isRoot_iff.mp root with listed | pinned
    · rcases List.mem_append.mp listed with later | mine
      · exact apart (by simpa using later)
      · exact nomatch rootless.symm.trans (isRoot_iff.mpr (.inl mine))
    · exact nomatch rootless.symm.trans (isRoot_iff.mpr (.inr pinned))
  · have earlier := holds_scope_of_releaseBlocks holds
    cases alive : machine.heap.isAlive
        (machine.isRoot ((first ++ id :: rest).map .scope ++ kept)) holder with
    | true =>
        obtain ⟨block, listed, rfl⟩ := holders holder (Heap.mem_holders.mpr earlier) alive
        exact absurd (Heap.encloses_of_holds (basic block listed) earlier) (encloses block listed)
    | false =>
        have lost : machine.Lost ((first ++ id :: rest).map .scope ++ kept) holder :=
          (Heap.isAlive_eq_false_iff earlier.has).mp alive
        rw [List.map_append, List.append_assoc] at lost
        exact lost_of_fewer (fun _ => List.mem_cons_of_mem _) (lost_releaseBlocks lost)

private theorem held_at_turn {inner : ScopeId} (later : inner ∈ rest) (unseen : inner ∉ first)
    (encloses : machine.heap.Encloses id inner) :
    (releaseBlocks ((id :: rest).map .scope ++ kept) first machine).isHeld
      (rest.map .scope ++ kept) id = true := by
  have size := @size_releaseBlocks _ machine ((id :: rest).map .scope ++ kept) first
  have scope := @scope_releaseBlocks _ ((id :: rest).map .scope ++ kept) first inner unseen machine
  generalize releaseBlocks ((id :: rest).map .scope ++ kept) first machine = turn at size scope ⊢
  refine Bool.of_not_eq_false fun idle => ?_
  have encloses : turn.heap.Encloses id inner := by
    unfold Heap.Encloses
    rwa [scope]
  have lost := (lost_of_not_held (Nat.lt_of_lt_of_eq old size.symm) idle).holder encloses.holds
  have root : turn.isRoot (rest.map .scope ++ kept) (.scope inner) = true :=
    isRoot_iff.mpr (.inl (List.mem_append_left _ (List.mem_map_of_mem later)))
  exact nomatch root.symm.trans lost.rootless

end Turns

/-! The innermost frame is closed. -/

@[simp] theorem heap_unframed (machine : Machine Code) : machine.unframed.heap = machine.heap := by
  unfold unframed
  split <;> rfl

@[simp] theorem pool_unframed (machine : Machine Code) : machine.unframed.pool = machine.pool := by
  unfold unframed
  split <;> rfl

private theorem lists_of_innermost {id : ScopeId} (listed : id ∈ machine.innermost) :
    machine.Lists id := by
  unfold innermost at listed
  refine lists_iff.mpr ?_
  cases blocks : machine.blocks with
  | nil =>
      rw [blocks] at listed
      cases listed
  | cons top outer =>
      rw [blocks] at listed
      exact ⟨top, List.mem_cons_self, listed⟩

private theorem Tiered.innermost (tiered : machine.Tiered) :
    machine.heap.Layered machine.innermost := by
  unfold Machine.innermost
  cases blocks : machine.blocks with
  | nil => exact .nil
  | cons top outer => exact tiered top (blocks ▸ List.mem_cons_self)

private theorem pool_closeFrame (held : List Handle) :
    (machine.closeFrame held).pool =
      (releaseBlocks held machine.innermost machine.unframed).pool := by
  cases popped : machine.frames.pop? with
  | none =>
      have bare : machine.innermost = [] := by
        obtain ⟨heap, ⟨_ | _, depth, counted⟩⟩ := machine
        · rfl
        · cases popped
      unfold closeFrame unframed
      rw [popped, bare]
      rfl
  | some frames =>
      obtain ⟨top, outer⟩ := frames
      rw [closeFrame_of_pop? popped, innermost_of_pop? popped, unframed_of_pop? popped]
      rfl

section Closing

variable (guarded : machine.Guarded known) (tiered : machine.Tiered)

include guarded tiered

private theorem length_pool_closeFrame (held : List Handle) :
    let pool := (machine.closeFrame held).pool
    pool.length =
      machine.pool.length + (machine.innermost.filter (pool.contains ·)).length := by
  have idle (id : ScopeId) (listed : id ∈ machine.innermost) : id ∉ machine.unframed.pool := by
    rw [pool_unframed]
    exact guarded.not_pooled (guarded.live_of_lists (lists_of_innermost listed))
  have grown := length_pool_releaseBlocks held tiered.innermost.nodup idle
  rwa [← pool_closeFrame, pool_unframed] at grown

private theorem mem_pool_closeFrame {id : ScopeId}
    (listed : id ∈ machine.innermost) (confined : machine.Confined kept id) :
    id ∈ (machine.closeFrame kept).pool ↔
      ∀ inner ∈ machine.innermost, ¬ machine.heap.Encloses id inner := by
  have live := guarded.live_of_lists (lists_of_innermost listed)
  have idle : id ∉ machine.unframed.pool := by
    rw [pool_unframed]
    exact guarded.not_pooled live
  have grounded := guarded.grounded (live.there rfl) live.found
  have layered := tiered.innermost
  have old := live.there rfl
  obtain ⟨rootless, holders⟩ := confined
  rw [pool_closeFrame]
  obtain ⟨first, rest, blocks, fresh⟩ := List.eq_append_cons_of_mem listed
  rw [blocks] at layered holders ⊢
  rw [← heap_unframed] at layered holders old grounded ⊢
  obtain ⟨-, turn, before⟩ := List.pairwise_append.mp layered.order
  have apart : id ∉ rest := fun again => (List.rel_of_pairwise_cons turn again).1 rfl
  rw [mem_pool_releaseBlocks fresh apart idle]
  constructor
  · intro gone inner member encloses
    rcases List.mem_append.mp member with earlier | here
    · exact (before inner earlier id List.mem_cons_self).2 encloses
    · rcases List.mem_cons.mp here with rfl | later
      · exact grounded.acyclic (.single (.inl encloses))
      · have unseen : inner ∉ first := fun seen =>
          (before inner seen inner (List.mem_cons_of_mem _ later)).1 rfl
        exact nomatch gone.symm.trans (held_at_turn old later unseen encloses)
  · intro encloses
    exact not_held_of_lost (lost_at_turn old layered.basic apart rootless holders encloses)

end Closing

private theorem depth_eq_length_blocks (machine : Machine Code) :
    machine.depth = machine.blocks.length := by
  unfold depth blocks FrameStack.blockLists
  rw [machine.frames.depth_eq, List.length_map]

end Machine

namespace Client

open Machine

variable {limits : Limits} {choice : GlobalChoice} {depth : Nat} {ids : List ScopeId}
  {client : Client Code}

/-- The time for which a frame has been open over `depth` others, with some of the blocks that were
allocated in it so far, of shapes that no nested function captures. -/
inductive Episode (limits : Limits) (choice : GlobalChoice) (depth : Nat) :
    List ScopeId → Client Code → Prop where
  | opened {client : Client Code} {scope : ScopeId} (reachable : Reachable limits choice client)
      (listed : .scope scope ∈ client.known) (around : client.machine.depth = depth)
      (id file : String) :
      Episode limits choice depth [] ⟨client.machine.openFrame id file scope, client.known⟩
  | allocated {client : Client Code} {ids : List ScopeId} {held : List Handle}
      {previous id : ScopeId} {index : Index} {machine : Machine Code}
      (episode : Episode limits choice depth ids client)
      (innermost : client.machine.depth = depth + 1) (listed : .scope previous ∈ client.known)
      (uncaptured : index.captures = false)
      (made : allocateBlock previous index held client.machine = .ok id machine) :
      Episode limits choice depth (ids ++ [id]) ⟨machine, .scope id :: client.known⟩
  | goesOn {client after : Client Code} {ids : List ScopeId}
      (episode : Episode limits choice depth ids client) (move : Move client after)
      (still : depth < after.machine.depth) : Episode limits choice depth ids after

namespace Episode

private theorem reachable (episode : Episode limits choice depth ids client) :
    Reachable limits choice client := by
  induction episode with
  | opened reachable listed around id file => exact reachable.tail (.openFrame listed id file)
  | @allocated client ids held previous id index machine _ _ listed _ made reachable =>
      have asked : Move client (after client.known (fun id => [.scope id])
          (allocateBlock previous index held client.machine)) :=
        .request (.allocateBlock listed index) held
      rw [made] at asked
      exact reachable.tail asked
  | goesOn _ move _ reachable => exact reachable.tail move

private theorem exists_listed (episode : Episode limits choice depth ids client) :
    ∃ inner top outer, client.machine.blocks = inner ++ top :: outer ∧ outer.length = depth ∧
      ids.Sublist top := by
  induction episode with
  | @opened client scope _ _ around =>
      exact ⟨[], [], client.machine.blocks, rfl,
        (depth_eq_length_blocks _).symm.trans around, .slnil⟩
  | @allocated client ids held previous id index machine episode innermost _ uncaptured made
      induction =>
      obtain ⟨inner, top, outer, blocks, length, sublist⟩ := induction
      rw [depth_eq_length_blocks, blocks, List.length_append, List.length_cons, length] at innermost
      have nothing : inner = [] := List.eq_nil_of_length_eq_zero (by omega)
      subst nothing
      have framed : client.machine.frames.isEmpty = false := by
        unfold Machine.blocks FrameStack.blockLists at blocks
        unfold FrameStack.isEmpty
        cases frames : client.machine.frames.toList with
        | nil =>
            rw [frames] at blocks
            cases blocks
        | cons => rfl
      obtain ⟨top', outer', was, is, -⟩ :=
        allocateBlock_lists episode.reachable.guarded uncaptured framed made
      obtain ⟨rfl, rfl⟩ := List.cons.inj (was.symm.trans blocks)
      exact ⟨[], _, _, is, length, sublist.append (.refl _)⟩
  | @goesOn client after ids episode move still induction =>
      obtain ⟨inner, top, outer, blocks, length, sublist⟩ := induction
      rw [depth_eq_length_blocks] at still
      cases move.relists episode.reachable.guarded with
      | same same => exact ⟨inner, top, outer, same.trans blocks, length, sublist⟩
      | opened opened =>
          refine ⟨[] :: inner, top, outer, ?_, length, sublist⟩
          rw [opened, blocks]
          rfl
      | @added first rest id was added =>
          cases inner with
          | nil =>
              obtain ⟨rfl, rfl⟩ := List.cons.inj (was.symm.trans blocks)
              exact ⟨[], _, _, added, length, sublist.trans (List.sublist_append_left ..)⟩
          | cons innermost inner =>
              obtain ⟨rfl, rfl⟩ := List.cons.inj (was.symm.trans blocks)
              exact ⟨_ :: inner, top, outer, added, length, sublist⟩
      | closed closed =>
          cases inner with
          | nil =>
              obtain ⟨-, rfl⟩ := List.cons.inj (closed.symm.trans blocks)
              exact absurd length (Nat.ne_of_gt still)
          | cons innermost inner =>
              obtain ⟨-, rest⟩ := List.cons.inj (closed.symm.trans blocks)
              exact ⟨inner, top, outer, rest, length, sublist⟩

private theorem sublist_innermost (episode : Episode limits choice depth ids client)
    (innermost : client.machine.depth = depth + 1) : ids.Sublist client.machine.innermost := by
  obtain ⟨inner, top, outer, blocks, length, sublist⟩ := episode.exists_listed
  rw [depth_eq_length_blocks, blocks, List.length_append, List.length_cons, length] at innermost
  have nothing : inner = [] := List.eq_nil_of_length_eq_zero (by omega)
  subst nothing
  unfold Machine.innermost
  rw [blocks]
  exact sublist

end Episode

/-- Whatever code does with a machine: the blocks that are allocated in a frame are listed by it,
each once, until it is closed, which may happen at any time and whatever the code keeps. Those that
only blocks of the frame refer to by then go to the pool exactly if they enclose no other block of
the frame, and the pool grows by as many blocks of the frame as are in it afterwards. -/
theorem blocks_pooled_iff (episode : Episode limits choice depth ids client)
    (innermost : client.machine.depth = depth + 1) {kept : List Handle}
    (confined : ∀ id ∈ ids, client.machine.Confined kept id) :
    let blocks := client.machine.innermost
    let closed := client.machine.closeFrame kept
    blocks.Nodup ∧ ids.Sublist blocks ∧
      (∀ id ∈ ids, id ∈ closed.pool ↔
        ∀ inner ∈ blocks, ¬ client.machine.heap.Encloses id inner) ∧
      closed.pool.length =
        client.machine.pool.length + (blocks.filter (closed.pool.contains ·)).length := by
  intro blocks closed
  have guarded := episode.reachable.guarded
  have tiered := episode.reachable.tiered
  have sublist := episode.sublist_innermost innermost
  refine ⟨tiered.innermost.nodup, sublist, fun id listed => ?_,
    length_pool_closeFrame guarded tiered kept⟩
  exact mem_pool_closeFrame guarded tiered (sublist.subset listed) (confined id listed)

/-- A second block, over the scope given, in the frame that has one. -/
def withinBlock (previous : ScopeId) : Client Script :=
  after withBlock.known (fun id => [.scope id])
    (allocateBlock previous .empty [] withBlock.machine)

private theorem Episode.allocate (episode : Episode limits choice depth ids client)
    (innermost : client.machine.depth = depth + 1) {previous id : ScopeId} {index : Index}
    {held : List Handle} (listed : .scope previous ∈ client.known)
    (uncaptured : index.captures = false)
    (gained : (after client.known (fun id => [.scope id])
      (allocateBlock previous index held client.machine)).known = .scope id :: client.known) :
    Episode limits choice depth (ids ++ [id])
      (after client.known (fun id => [.scope id])
        (allocateBlock previous index held client.machine)) := by
  cases made : allocateBlock previous index held client.machine with
  | ok other machine =>
      rw [made] at gained
      cases gained
      exact episode.allocated innermost listed uncaptured made
  | error abort machine =>
      rw [made] at gained
      exact absurd (congrArg List.length gained) (Nat.ne_of_lt (Nat.lt_succ_self _))

private theorem withBlock_episode : Episode ⟨2, 8, true, true⟩ .empty 0 [⟨2⟩] withBlock := by
  have gained : withBlock.known =
      [.scope ⟨2⟩, .scope (Machine.new ⟨2, 8, true, true⟩ .empty : Machine Script).global] := by
    decide +kernel
  have bare : (Machine.new ⟨2, 8, true, true⟩ .empty : Machine Script).depth = 0 := rfl
  unfold withBlock at gained ⊢
  have new : Reachable ⟨2, 8, true, true⟩ .empty
      (⟨.new ⟨2, 8, true, true⟩ .empty, []⟩ : Client Script) := .refl
  generalize (Machine.new ⟨2, 8, true, true⟩ .empty : Machine Script) = machine
    at gained bare new ⊢
  have taken : Move ⟨machine, []⟩ ⟨machine, [.scope machine.global]⟩ :=
    .take (Machine.isRoot_iff.mpr (.inr (.inr (.inl rfl))))
  have opened := Episode.opened (new.tail taken) List.mem_cons_self bare "main" ""
  exact opened.allocate (congrArg Nat.succ bare) List.mem_cons_self rfl gained

private theorem withinBlock_episode {previous : ScopeId}
    (listed : .scope previous ∈ withBlock.known)
    (gained : (withinBlock previous).known = .scope ⟨3⟩ :: withBlock.known) :
    Episode ⟨2, 8, true, true⟩ .empty 0 [⟨2⟩, ⟨3⟩] (withinBlock previous) :=
  withBlock_episode.allocate (by decide +kernel) listed rfl gained

theorem blocks_pooled_siblings :
    let client := withinBlock ⟨1⟩
    let closed := client.machine.closeFrame []
    Episode ⟨2, 8, true, true⟩ .empty 0 [⟨2⟩, ⟨3⟩] client ∧ client.machine.depth = 0 + 1 ∧
      (∀ id ∈ [⟨2⟩, ⟨3⟩], client.machine.Confined [] id) ∧
      (∀ id ∈ [⟨2⟩, ⟨3⟩], id ∈ closed.pool) ∧
      closed.pool.length = client.machine.pool.length + 2 := by
  intro client closed
  have episode : Episode ⟨2, 8, true, true⟩ .empty 0 [⟨2⟩, ⟨3⟩] client :=
    withinBlock_episode (by decide +kernel) (by decide +kernel)
  have depth : client.machine.depth = 0 + 1 := by decide +kernel
  have confined : ∀ id ∈ [⟨2⟩, ⟨3⟩], client.machine.Confined [] id := by decide +kernel
  have unnested : ∀ id ∈ [⟨2⟩, ⟨3⟩], ∀ inner ∈ client.machine.innermost,
      ¬ client.machine.heap.Encloses id inner := by decide +kernel
  obtain ⟨-, -, pooled, -⟩ := blocks_pooled_iff episode depth confined
  refine ⟨episode, depth, confined, fun id listed => ?_, by decide +kernel⟩
  exact (pooled id listed).mpr (unnested id listed)

/-- Of two blocks, one inside the other, the outer one is still held when its turn comes. -/
theorem nested_blocks_unpooled :
    let client := withinBlock ⟨2⟩
    let closed := client.machine.closeFrame []
    Episode ⟨2, 8, true, true⟩ .empty 0 [⟨2⟩, ⟨3⟩] client ∧ client.machine.depth = 0 + 1 ∧
      (∀ id ∈ [⟨2⟩, ⟨3⟩], client.machine.Confined [] id) ∧
      ⟨2⟩ ∉ closed.pool ∧ closed.pool.length = client.machine.pool.length + 1 := by
  intro client closed
  have episode : Episode ⟨2, 8, true, true⟩ .empty 0 [⟨2⟩, ⟨3⟩] client :=
    withinBlock_episode (by decide +kernel) (by decide +kernel)
  exact ⟨episode, by decide +kernel, by decide +kernel, by decide +kernel, by decide +kernel⟩

end Client

end ScopeMachine
