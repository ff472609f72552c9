import ScopeMachine.Proofs.Liveness.Guarded
import ScopeMachine.Proofs.Running

namespace ScopeMachine

theorem FrameStack.toList_of_pop? {stack outer : FrameStack} {top : Frame}
    (popped : stack.pop? = some (top, outer)) : stack.toList = top :: outer.toList := by
  obtain ⟨frames, depth, depth_eq⟩ := stack
  cases frames with
  | nil => cases popped
  | cons first rest =>
      cases popped
      rfl

namespace Machine

open ScopeMachine.Action

variable {Code : Type} {known kept : List Handle} {machine : Machine Code}

/-- A scope that is not held, as far as is known, is lost. -/
theorem lost_of_not_held {id : ScopeId} (present : id.index < machine.heap.scopes.size)
    (idle : machine.isHeld known id = false) : machine.Lost known (.scope id) :=
  (Heap.isAlive_eq_false_iff (show machine.heap.Has (.scope id) from present)).mp idle

theorem not_held_of_lost {id : ScopeId} (lost : machine.Lost known (.scope id)) :
    machine.isHeld known id = false :=
  (Heap.isAlive_eq_false_iff lost.allocated).mpr lost

section Lost

variable {handle : Handle}

theorem lost_of_fewer (fewer : ∀ handle ∈ kept, handle ∈ known)
    (gone : machine.Lost known handle) : machine.Lost kept handle := by
  have same : machine.heap.Grows (fun _ => False) machine.heap := .refl _
  refine lost_of_grows False.elim same (fun root => ?_) gone
  rcases isRoot_iff.mp root with listed | pinned
  · exact .inl (isRoot_iff.mpr (.inl (fewer _ listed)))
  · exact .inl (isRoot_iff.mpr (.inr pinned))

theorem serves_of_reachable (machine : Machine Code) (known : List Handle) :
    machine.heap.Serves fun handle => ¬ machine.Lost known handle where
  fresh absent _ := fun gone => absurd gone.allocated absent
  named {position id} named := fun gone => by
    have root : machine.isRoot known (.cell id) = true :=
      isRoot_iff.mpr (.inr (.inr ⟨position, named⟩))
    exact nomatch root.symm.trans gone.rootless
  closed reached holds := fun gone => reached (gone.holder holds)

theorem root_of_grows {live : Handle → Prop} {heap : Heap Code}
    (grows : machine.heap.Grows live heap)
    {handle : Handle} (root : ({ machine with heap } : Machine Code).isRoot known handle = true) :
    machine.isRoot known handle = true ∨ live handle := by
  rcases isRoot_iff.mp root with listed | host | pinned
  · exact .inl (isRoot_iff.mpr (.inl listed))
  · exact .inl (isRoot_iff.mpr (.inr (.inl host)))
  · cases handle with
    | cell id =>
        obtain ⟨position, named⟩ := pinned
        exact (grows.named named).imp_left fun earlier => isRoot_iff.mpr (.inr (.inr earlier))
    | _ => exact .inl (isRoot_iff.mpr (.inr (.inr pinned)))

theorem lost_promote {id : ScopeId} (held : machine.isHeld known id = true)
    (gone : machine.Lost known handle) : (machine.promote id).Lost known handle := by
  have reached : ¬ machine.Lost known (.scope id) := fun gone =>
    nomatch held.symm.trans (not_held_of_lost gone)
  have grows := Heap.detach_grows (serves_of_reachable machine known) reached
  exact lost_of_grows (fun found => found) grows (root_of_grows grows) gone

theorem lost_onMemory {memory : Memory}
    (grows : machine.heap.memory.Grows (fun _ => False) memory)
    (gone : machine.Lost known handle) :
    ({ machine with heap := { machine.heap with memory } } : Machine Code).Lost known handle := by
  have grows : machine.heap.Grows _ { machine.heap with memory } := .of_memory _ grows
  exact lost_of_grows False.elim grows (root_of_grows grows) gone

theorem lost_releaseBlocks {blocks : List ScopeId}
    (gone : machine.Lost (blocks.map .scope ++ kept) handle) :
    (Machine.releaseBlocks kept blocks machine).Lost kept handle := by
  induction blocks generalizing machine with
  | nil => exact gone
  | cons id rest induction =>
      have fewer : machine.Lost (rest.map .scope ++ kept) handle :=
        lost_of_fewer (fun _ => List.mem_cons_of_mem _) gone
      unfold Machine.releaseBlocks
      refine induction ?_
      cases held : machine.isHeld (rest.map .scope ++ kept) id with
      | true => exact lost_promote held fewer
      | false => exact lost_recycle fewer

end Lost

def shelve (shelf : List ScopeId) (machine : Machine Code) : Machine Code :=
  { machine with pool := machine.pool ++ shelf }

theorem shelve_nil (machine : Machine Code) : machine.shelve [] = machine := by
  unfold shelve
  rw [List.append_nil]

theorem releaseBlocks_shelve (shelf : List ScopeId) (held : List Handle) (blocks : List ScopeId) :
    Machine.releaseBlocks held blocks (machine.shelve shelf) =
      (Machine.releaseBlocks held blocks machine).shelve shelf := by
  induction blocks generalizing machine with
  | nil => rfl
  | cons first rest induction =>
      have same : (machine.shelve shelf).isHeld (rest.map .scope ++ held) first =
          machine.isHeld (rest.map .scope ++ held) first := rfl
      unfold Machine.releaseBlocks
      rw [same]
      dsimp only
      split
      next => exact @induction (machine.promote first)
      next => exact @induction (machine.recycle first)

theorem closeFrame_shelve (shelf : List ScopeId) (held : List Handle) :
    (machine.shelve shelf).closeFrame held = (machine.closeFrame held).shelve shelf := by
  have same : (machine.shelve shelf).frames = machine.frames := rfl
  unfold Machine.closeFrame
  rw [same]
  cases machine.frames.pop? with
  | none => rfl
  | some frames =>
      obtain ⟨top, outer⟩ := frames
      have released := @releaseBlocks_shelve _ { machine with frames := outer } shelf held
        top.blocks
      change Machine.releaseBlocks held top.blocks { machine.shelve shelf with frames := outer } = _
        at released
      dsimp only
      rw [released]
      rfl

theorem releaseScope_shelve (shelf : List ScopeId) (held : List Handle) (id : ScopeId) :
    (machine.shelve shelf).releaseScope held id = (machine.releaseScope held id).shelve shelf := by
  have same : (machine.shelve shelf).isHeld held id = machine.isHeld held id := rfl
  unfold Machine.releaseScope
  rw [same]
  dsimp only [shelve]
  split
  next => rfl
  next => split <;> rfl

namespace Guarded

theorem grounded_of_held (guarded : machine.Guarded known) {id : ScopeId}
    (held : machine.isHeld known id = true) : machine.heap.Grounded id := by
  have present : id.index < machine.heap.scopes.size := by
    refine Nat.lt_of_not_le fun absent => ?_
    have rootless : machine.isRoot known (.scope id) = false := by
      refine Bool.eq_false_iff.mpr fun root => ?_
      exact Nat.not_lt_of_le absent (guarded.root_there root)
    have unheld (holder : Handle) : ¬ machine.heap.Holds holder (.scope id) := fun holds =>
      Nat.not_lt_of_le absent (guarded.held_there holds)
    exact nomatch held.symm.trans (Heap.not_alive_of_unheld rootless unheld)
  exact guarded.grounded present fun lost => nomatch held.symm.trans (not_held_of_lost lost)

theorem retire (guarded : machine.Guarded known) (fewer : ∀ handle ∈ kept, handle ∈ known)
    {id : ScopeId} (live : machine.Live known (.scope id)) :
    (if machine.isHeld kept id then machine.promote id else machine.recycle id).Guarded kept := by
  cases held : machine.isHeld kept id with
  | true => exact (guarded.promote live).forget fewer
  | false =>
      exact (guarded.forget fewer).recycle (guarded.not_pooled live)
        (lost_of_not_held (live.there rfl) held)

theorem releaseBlocks {blocks : List ScopeId}
    (guarded : machine.Guarded (blocks.map .scope ++ kept)) :
    (Machine.releaseBlocks kept blocks machine).Guarded kept := by
  induction blocks generalizing machine with
  | nil => exact guarded
  | cons id rest induction =>
      unfold Machine.releaseBlocks
      refine induction (guarded.retire (fun handle listed => ?_) ?_)
      · exact List.mem_cons_of_mem _ listed
      · exact guarded.live_of_known List.mem_cons_self

theorem closeFrame (guarded : machine.Guarded known) (fewer : ∀ handle ∈ kept, handle ∈ known) :
    (machine.closeFrame kept).Guarded kept := by
  unfold Machine.closeFrame
  cases popped : machine.frames.pop? with
  | none => exact guarded.forget fewer
  | some frames =>
      obtain ⟨top, outer⟩ := frames
      have listed := FrameStack.toList_of_pop? popped
      have dropped : ({ machine with frames := outer } : Machine Code).Guarded
          (top.blocks.map .scope ++ kept) := by
        refine guarded.shrink rfl rfl fun {handle} root => isRoot_iff.mpr ?_
        rcases isRoot_iff.mp root with mine | host | pinned
        · rcases List.mem_append.mp mine with block | still
          · obtain ⟨id, member, rfl⟩ := List.mem_map.mp block
            refine .inr (.inr (.inr (.inr ⟨top, listed ▸ List.mem_cons_self, ?_⟩)))
            simp [Frame.holds, member]
          · exact .inl (fewer handle still)
        · exact .inr (.inl host)
        · refine .inr (.inr ?_)
          cases handle with
          | scope id =>
              rcases pinned with global | shared | ⟨frame, member, holds⟩
              · exact .inl global
              · exact .inr (.inl shared)
              · exact .inr (.inr ⟨frame, listed ▸ List.mem_cons_of_mem _ member, holds⟩)
          | _ => exact pinned
      exact dropped.releaseBlocks.onMemory (Memory.closeFrame_grows ..)

theorem openFrame (guarded : machine.Guarded known) {scope : ScopeId}
    (listed : .scope scope ∈ known) (id file : String) :
    (machine.openFrame id file scope).Guarded known := by
  have opened : ({ machine with heap := { machine.heap with
      memory := machine.heap.memory.modifyArena (·.openFrame) } } : Machine Code).Guarded known :=
    guarded.onMemory (.of_slots rfl rfl)
  refine opened.shrink rfl rfl fun {handle} root => isRoot_iff.mpr ?_
  rcases isRoot_iff.mp root with mine | host | pinned
  · exact .inl mine
  · exact .inr (.inl host)
  · cases handle with
    | scope other =>
        rcases pinned with global | shared | ⟨frame, member, holds⟩
        · exact .inr (.inr (.inl global))
        · exact .inr (.inr (.inr (.inl shared)))
        · rcases List.mem_cons.mp member with rfl | member
          · have same : scope = other := by simpa [Frame.holds] using holds
            exact .inl (same ▸ listed)
          · exact .inr (.inr (.inr (.inr ⟨frame, member, holds⟩)))
    | _ => exact .inr (.inr pinned)

theorem releaseScope (guarded : machine.Guarded known)
    (fewer : ∀ handle ∈ kept, handle ∈ known) {id : ScopeId} (listed : .scope id ∈ known) :
    (machine.releaseScope kept id).Guarded kept := by
  have retired := guarded.retire fewer (guarded.live_of_known listed)
  unfold Machine.releaseScope
  dsimp only
  split
  next => exact guarded.forget fewer
  next =>
    split
    next held =>
      rw [if_pos held] at retired
      exact retired
    next idle =>
      rw [if_neg idle] at retired
      exact retired.onMemory (Table.free_grows ..)

theorem modifyTop (guarded : machine.Guarded known) {change : Frame → Frame}
    (reports : ∀ frame id, (change frame).holds id = true →
      frame.holds id = true ∨ .scope id ∈ known) : (machine.modifyTop change).Guarded known := by
  refine guarded.shrink rfl rfl fun {handle} root => isRoot_iff.mpr ?_
  rcases isRoot_iff.mp root with mine | host | pinned
  · exact .inl mine
  · exact .inr (.inl host)
  · cases handle with
    | scope id =>
        rcases pinned with global | shared | ⟨frame, member, holds⟩
        · exact .inr (.inr (.inl global))
        · exact .inr (.inr (.inr (.inl shared)))
        · have pinned (frame : Frame) (member : frame ∈ machine.frames.toList)
              (holds : frame.holds id = true) : machine.Pins (.scope id) :=
            .inr (.inr ⟨frame, member, holds⟩)
          unfold Machine.modifyTop FrameStack.modifyTop at member
          cases frames : machine.frames with
          | mk list depth depth_eq =>
              rw [frames] at pinned member
              cases list with
              | nil => cases member
              | cons top outer =>
                  rcases List.mem_cons.mp member with rfl | member
                  · rcases reports top id holds with earlier | mine
                    · exact .inr (.inr (pinned top List.mem_cons_self earlier))
                    · exact .inl mine
                  · exact .inr (.inr (pinned frame (List.mem_cons_of_mem _ member) holds))
    | _ => exact .inr (.inr pinned)

variable {shelf : List ScopeId}

theorem allocateTable (guarded : (machine.shelve shelf).Guarded known) (held : List Handle)
    (size : Nat) :
    ((machineLeft (Action.allocateTable size held machine)).shelve shelf).Guarded known := by
  rw [run_allocateTable, run_ofExcept]
  split
  next => exact guarded
  next =>
    cases allocated : machine.heap.memory.arena.allocate size with
    | error fault => exact guarded
    | ok result =>
        obtain ⟨offset, arena⟩ := result
        obtain ⟨-, -, rfl⟩ := Arena.allocate_eq_ok allocated
        exact guarded.onMemory (.of_slots rfl rfl)

theorem pooledScope (guarded : (machine.shelve shelf).Guarded known) (held : List Handle)
    {scope : Scope} (kept : scope.Kept ((machine.shelve shelf).Live known))
    (inner : scope.previous.isSome = true) :
    ∃ id after, Action.pooledScope scope held machine = .ok id after ∧
      (after.shelve shelf).Guarded (.scope id :: known) := by
  have outermost (last : scope.previous = none) : scope.variant = .global := by
    rw [last] at inner
    cases inner
  rw [run_pooledScope]
  cases pool : machine.pool with
  | nil => exact ⟨_, _, rfl, guarded.newScope kept outermost⟩
  | cons id rest =>
      have shelved : (machine.shelve shelf).pool = id :: (rest ++ shelf) :=
        congrArg (· ++ shelf) pool
      exact ⟨_, _, rfl, guarded.reuse shelved kept outermost⟩

end Guarded

end Machine

end ScopeMachine
