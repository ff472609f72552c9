import ScopeMachine.Proofs.Storage.MemberBounds

namespace ScopeMachine

open Arena

def FrameStack.marks (stack : FrameStack) : List Nat := stack.toList.map (·.mark)

theorem FrameStack.marks_modifyTop {change : Frame → Frame}
    (keeps : ∀ frame, (change frame).mark = frame.mark) (stack : FrameStack) :
    (stack.modifyTop change).marks = stack.marks := by
  obtain ⟨frames, depth, depth_eq⟩ := stack
  cases frames with
  | nil => rfl
  | cons top outer => simp [FrameStack.modifyTop, FrameStack.marks, keeps]

theorem FrameStack.depth_eq_length_marks (stack : FrameStack) :
    stack.depth = stack.marks.length := by
  rw [stack.depth_eq, FrameStack.marks, List.length_map]

theorem FrameStack.pop?_of_marks {stack : FrameStack} {mark : Nat} {marks : List Nat}
    (shape : stack.marks = mark :: marks) :
    ∃ top outer, stack.pop? = some (top, outer) ∧ top.mark = mark ∧ outer.marks = marks := by
  obtain ⟨frames, depth, depth_eq⟩ := stack
  cases frames with
  | nil => cases shape
  | cons top outer =>
      obtain ⟨markEq, marksEq⟩ := List.cons.inj shape
      exact ⟨top, _, rfl, markEq, marksEq⟩

namespace Machine

variable {Code : Type}

def bounds (machine : Machine Code) : Bounds := machine.heap.bounds

/-- Every open frame has its mark recorded, and the marks, the watermark and the capacity stand in
order. -/
structure Orderly (machine : Machine Code) : Prop where
  marks : machine.bounds.marks = machine.frames.marks
  sorted : machine.bounds.marks.Pairwise (· ≥ ·)
  inRange : machine.bounds.InRange
  capacity : machine.bounds.capacity = machine.limits.arenaCapacity
  depth_le : machine.depth ≤ machine.limits.maxDepth

/-- What may happen while the same frames are open. -/
structure Steady (before after : Machine Code) : Prop where
  frames : after.frames.marks = before.frames.marks
  bounds : before.bounds.Shifts after.bounds
  limits : after.limits = before.limits

namespace Steady

theorem refl (machine : Machine Code) : Steady machine machine := ⟨rfl, .refl _, rfl⟩

theorem trans {first second third : Machine Code} (left : Steady first second)
    (right : Steady second third) : Steady first third :=
  ⟨right.frames.trans left.frames, left.bounds.trans right.bounds,
    right.limits.trans left.limits⟩

theorem of_heap {machine : Machine Code} {heap : Heap Code}
    (shifts : machine.heap.Shifts heap) : Steady machine { machine with heap } :=
  ⟨rfl, shifts, rfl⟩

theorem depth {before after : Machine Code} (steady : Steady before after) :
    after.depth = before.depth := by
  unfold Machine.depth
  rw [FrameStack.depth_eq_length_marks, steady.frames, ← FrameStack.depth_eq_length_marks]

theorem orderly {before after : Machine Code} (steady : Steady before after)
    (orderly : before.Orderly) : after.Orderly where
  marks := by rw [steady.bounds.marks, steady.frames, orderly.marks]
  sorted := by rw [steady.bounds.marks]; exact orderly.sorted
  inRange := steady.bounds.inRange orderly.inRange
  capacity := by rw [steady.bounds.capacity, steady.limits, orderly.capacity]
  depth_le := by rw [steady.depth, steady.limits]; exact orderly.depth_le

end Steady

theorem openFrame_orderly {machine : Machine Code} (orderly : machine.Orderly)
    (room : machine.depth < machine.limits.maxDepth) (id file : String) (scope : ScopeId) :
    (machine.openFrame id file scope).Orderly where
  marks := congrArg (machine.watermark :: ·) orderly.marks
  sorted := by
    refine List.pairwise_cons.mpr ⟨fun mark member => ?_, orderly.sorted⟩
    have floor_le := orderly.inRange.floor_le
    have sorted := orderly.sorted
    unfold Bounds.floor at floor_le
    change mark ∈ machine.bounds.marks at member
    change mark ≤ machine.bounds.watermark
    generalize machine.bounds.marks = marks at floor_le sorted member
    cases member with
    | head => exact floor_le
    | tail _ deeper =>
        exact Nat.le_trans (List.rel_of_pairwise_cons sorted deeper) floor_le
  inRange := ⟨Nat.le_refl _, orderly.inRange.le_capacity⟩
  capacity := orderly.capacity
  depth_le := room

private theorem promote_steady (machine : Machine Code) (id : ScopeId) :
    machine.Steady (machine.promote id) :=
  .of_heap (Heap.detach_shifts ..)

private theorem recycle_steady (machine : Machine Code) (id : ScopeId) :
    machine.Steady (machine.recycle id) :=
  ⟨rfl, .refl _, rfl⟩

private theorem releaseBlocks_steady (held : List Handle) (blocks : List ScopeId)
    (machine : Machine Code) : machine.Steady (releaseBlocks held blocks machine) := by
  induction blocks generalizing machine with
  | nil => exact .refl _
  | cons id rest induction =>
      unfold releaseBlocks
      dsimp only
      split
      · exact (promote_steady machine id).trans (induction _)
      · exact (recycle_steady machine id).trans (induction _)

theorem releaseScope_steady (machine : Machine Code) (held : List Handle) (id : ScopeId) :
    machine.Steady (machine.releaseScope held id) := by
  unfold releaseScope
  dsimp only
  split
  · exact .refl _
  split
  · exact promote_steady ..
  · exact (recycle_steady machine id).trans
      (.of_heap (Table.free_shifts machine.host.shares _ machine.heap.memory))

theorem annotate_steady (machine : Machine Code) (failure : Failure) :
    machine.Steady (machine.annotate failure).2 := by
  unfold annotate
  split
  · exact .refl _
  · dsimp only
    split
    · exact .of_heap (.refl _)
    · exact .refl _

/-- Closing a frame undoes opening it, whatever happened in between. -/
theorem closeFrame_openFrame {machine inner : Machine Code} (orderly : machine.Orderly)
    {id file : String} {scope : ScopeId}
    (steady : (machine.openFrame id file scope).Steady inner) (held : List Handle) :
    (inner.closeFrame held).frames.marks = machine.frames.marks ∧
      (inner.closeFrame held).bounds = machine.bounds ∧
      (inner.closeFrame held).limits = machine.limits := by
  have shape : inner.frames.marks = machine.watermark :: machine.frames.marks := steady.frames
  obtain ⟨top, outer, popped, topMark, outerMarks⟩ := FrameStack.pop?_of_marks shape
  have released := releaseBlocks_steady held top.blocks { inner with frames := outer }
  have shifts : (machine.openFrame id file scope).bounds.Shifts
      (releaseBlocks held top.blocks { inner with frames := outer }).bounds :=
    steady.bounds.trans released.bounds
  have inRange := shifts.inRange ⟨Nat.le_refl _, orderly.inRange.le_capacity⟩
  have floor_le := inRange.floor_le
  unfold Bounds.floor at floor_le
  rw [shifts.marks] at floor_le
  unfold closeFrame
  rw [popped]
  dsimp only
  refine ⟨released.frames.trans outerMarks, ?_, released.limits.trans steady.limits⟩
  refine (Memory.bounds_closeFrame ..).trans ?_
  have lowest : min (releaseBlocks held top.blocks { inner with frames := outer }).bounds.watermark
      top.mark = machine.watermark := by
    rw [topMark]
    exact Nat.min_eq_right floor_le
  have marks := congrArg List.tail shifts.marks
  exact congr (congr (congrArg Bounds.mk lowest) marks) shifts.capacity

end Machine

end ScopeMachine
