import ScopeMachine.Proofs.Frames.Routine
import ScopeMachine.Proofs.Running

/-!
Frames are balanced: a frame leaves depth and watermark as it found them, whatever routine runs in
it and however the routine ends.
-/

namespace ScopeMachine

open Arena ScopeMachine.Action

namespace Machine

variable {Code α : Type}

theorem attempt_snd (machine : Machine Code) (held : List Handle) (action : Action Code α) :
    (machine.attempt held action).2 = machineLeft (action held machine) := by
  unfold attempt
  cases action held machine <;> rfl

private theorem onHeap_steady (machine : Machine Code) {step : Heap Code → α × Heap Code}
    (shifts : machine.heap.Shifts (step machine.heap).2) :
    machine.Steady (machine.onHeap step).2 :=
  .of_heap shifts

private theorem onMemory_steady (machine : Machine Code) {step : Memory → α × Memory}
    (shifts : machine.heap.memory.bounds.Shifts (step machine.heap.memory).2.bounds) :
    machine.Steady (machine.onMemory step).2 :=
  .of_heap shifts

theorem modifyTop_steady (machine : Machine Code) {change : Frame → Frame}
    (keeps : ∀ frame, (change frame).mark = frame.mark) :
    machine.Steady (machine.modifyTop change) :=
  ⟨FrameStack.marks_modifyTop keeps _, .refl _, rfl⟩

private theorem allocateTable_steady (machine : Machine Code) (held : List Handle) (size : Nat) :
    machine.Steady (machineLeft (allocateTable size held machine)) := by
  rw [run_allocateTable]
  split
  next => exact .refl _
  next =>
    cases allocated : machine.heap.memory.arena.allocate size with
    | error fault => exact .refl _
    | ok result => exact .of_heap (allocate_shifts allocated)

private theorem pooledScope_steady (machine : Machine Code) (held : List Handle) (scope : Scope) :
    machine.Steady (machineLeft (pooledScope scope held machine)) := by
  rw [run_pooledScope]
  split
  next => exact .of_heap (.of_eq (Heap.bounds_newScope ..))
  next => exact ⟨rfl, .of_eq (Heap.bounds_modifyScope ..), rfl⟩

private theorem andThen_steady {before : Machine Code} {β : Type} {ending : Ending Code α}
    {next : α → Machine Code → Ending Code β} (first : before.Steady (machineLeft ending))
    (second : ∀ result (machine : Machine Code),
      machine.Steady (machineLeft (next result machine))) :
    before.Steady (machineLeft (andThen ending next)) := by
  cases ending with
  | ok result machine => exact first.trans (second result machine)
  | error abort machine => exact first

private theorem allocateBlock_steady (machine : Machine Code) (held : List Handle)
    (previous : ScopeId) (index : Index) :
    machine.Steady (machineLeft (allocateBlock previous index held machine)) := by
  rw [run_allocateBlock]
  split
  next => exact .of_heap (.of_eq (Heap.bounds_newScope ..))
  next =>
    refine andThen_steady (allocateTable_steady ..) fun members machine => ?_
    refine andThen_steady (pooledScope_steady ..) fun id machine => ?_
    exact modifyTop_steady machine fun _ => rfl

end Machine

open Machine in
private theorem Operation.perform_steady {Code α : Type} (operation : Operation Code α)
    (machine : Machine Code) : machine.Steady (operation.perform machine).2 := by
  cases operation with
  | ask question => exact .refl _
  | keep change => exact ⟨rfl, .refl _, rfl⟩
  | setLine line => exact modifyTop_steady machine fun _ => rfl
  | setScopeAndLine scope line => exact modifyTop_steady machine fun _ => rfl
  | allocateTable size =>
      exact (attempt_snd machine [] (Action.allocateTable size)).symm ▸
        allocateTable_steady machine [] size
  | allocateBlock previous index =>
      exact (attempt_snd machine [] (Action.allocateBlock previous index)).symm ▸
        allocateBlock_steady machine [] previous index
  | releaseScope held scope => exact releaseScope_steady machine held scope
  | tableOfValues values => exact onMemory_steady machine (.of_eq (Table.bounds_ofValues ..))
  | cellAt table slot => exact onMemory_steady machine (Table.cellAt_shifts ..)
  | ensureCapacity table capacity =>
      exact onMemory_steady machine (Table.ensureCapacity_shifts ..)
  | safeCopy table => exact onMemory_steady machine (Table.safeCopy_shifts ..)
  | resetTable table => exact onMemory_steady machine (.of_eq (Table.bounds_reset ..))
  | freeTable table => exact onMemory_steady machine (Table.free_shifts ..)
  | reinit table capacity => exact onMemory_steady machine (Table.reinit_shifts ..)
  | truncate table length => exact onMemory_steady machine (.of_eq (Table.bounds_truncate ..))
  | push table value => exact onMemory_steady machine (Table.push_shifts ..)
  | pushTogether table values => exact onMemory_steady machine (Table.pushTogether_shifts ..)
  | newCell cell => exact onMemory_steady machine (.of_eq (Memory.bounds_new ..))
  | changeCell cell change => exact onHeap_steady machine (.of_eq (Heap.bounds_modifyCell ..))
  | newBasic previous index => exact onHeap_steady machine (.of_eq (Heap.bounds_newScope ..))
  | newEmptyGlobal => exact onHeap_steady machine (.of_eq (Heap.bounds_newScope ..))
  | newGlobal => exact onHeap_steady machine (Heap.newGlobal_shifts ..)
  | ownMember scope name => exact onHeap_steady machine (Heap.shifts_law.ownMember ..)
  | lookup scope name => exact onHeap_steady machine (Heap.shifts_law.lookup ..)
  | scopeMember scope name => exact onHeap_steady machine (Heap.shifts_law.scopeMember ..)
  | createMember scope name permission =>
      exact onHeap_steady machine (Heap.shifts_law.createMember ..)

namespace Machine

variable {Code : Type}

/-- The ending of a frame that could not be opened. -/
def overflow (machine : Machine Code) : Ending Code Value :=
  .error (.failure
    { fault := .stackOverflow machine.limits.maxDepth, backtrace := some machine.capture })
    machine

private theorem inFrame_restores {machine : Machine Code} (orderly : machine.Orderly)
    (id file : String) (scope : ScopeId) {body : Action Code Value} (held : List Handle)
    (steady : machine.depth < machine.limits.maxDepth →
      (machine.openFrame id file scope).Steady
        (machineLeft (body (.scope scope :: held) (machine.openFrame id file scope)))) :
    (machineLeft (inFrame id file scope body held machine)).frames.marks =
        machine.frames.marks ∧
      (machineLeft (inFrame id file scope body held machine)).bounds = machine.bounds ∧
      (machineLeft (inFrame id file scope body held machine)).limits = machine.limits := by
  unfold inFrame
  split
  next => exact ⟨rfl, rfl, rfl⟩
  next room =>
    have inner := steady (Nat.lt_of_not_le room)
    dsimp only
    split
    next result after ran =>
      rw [ran] at inner
      exact closeFrame_openFrame orderly inner _
    next failure after ran =>
      rw [ran] at inner
      exact closeFrame_openFrame orderly (inner.trans (annotate_steady after failure)) _
    next after ran =>
      rw [ran] at inner
      exact closeFrame_openFrame orderly inner _

private theorem inFrame_steady {machine : Machine Code} (orderly : machine.Orderly)
    (id file : String) (scope : ScopeId) {body : Action Code Value} (held : List Handle)
    (steady : machine.depth < machine.limits.maxDepth →
      (machine.openFrame id file scope).Steady
        (machineLeft (body (.scope scope :: held) (machine.openFrame id file scope)))) :
    machine.Steady (machineLeft (inFrame id file scope body held machine)) :=
  have ⟨frames, bounds, limits⟩ := inFrame_restores orderly id file scope held steady
  ⟨frames, .of_eq bounds, limits⟩

theorem inFrame_of_full {machine : Machine Code}
    (full : machine.limits.maxDepth ≤ machine.depth) (id file : String) (scope : ScopeId)
    (body : Action Code Value) (held : List Handle) :
    inFrame id file scope body held machine = machine.overflow :=
  if_pos full

private theorem new_shifts (limits : Limits) (choice : GlobalChoice) :
    (Heap.ofCapacity limits.arenaCapacity).Shifts
      (Machine.new limits choice : Machine Code).heap := by
  have shared := Heap.newGlobal_shifts (Heap.ofCapacity limits.arenaCapacity : Heap Code)
  unfold Machine.new
  generalize (Heap.ofCapacity limits.arenaCapacity : Heap Code).newGlobal = result at shared ⊢
  obtain ⟨sharedGlobal, heap⟩ := result
  cases choice with
  | fresh =>
      have own := Heap.newGlobal_shifts heap
      dsimp only
      generalize heap.newGlobal = result at own ⊢
      exact shared.trans own
  | empty => exact shared.trans (.of_eq (Heap.bounds_newScope ..))
  | shared => exact shared

theorem new_orderly (limits : Limits) (choice : GlobalChoice) :
    (Machine.new limits choice : Machine Code).Orderly := by
  have shifts : (Heap.ofCapacity limits.arenaCapacity).Shifts
      (Machine.new limits choice : Machine Code).heap := new_shifts limits choice
  have marks : (Machine.new limits choice : Machine Code).bounds.marks = [] := shifts.marks
  constructor
  · exact marks
  · rw [marks]
    exact .nil
  · exact shifts.inRange ⟨Nat.le_refl _, Nat.zero_le _⟩
  · exact shifts.capacity
  · exact Nat.zero_le _

end Machine

namespace Routine

variable {Code : Type}

private theorem run_steady (routine : Routine Code) (held : List Handle) {machine : Machine Code}
    (orderly : machine.Orderly) : machine.Steady (machineLeft (routine.run held machine)) := by
  induction routine generalizing held machine with
  | done value => exact .refl _
  | abort cause => exact .refl _
  | step operation next induction =>
      have first := operation.perform_steady machine
      exact first.trans (induction _ held (first.orderly orderly))
  | frame id file scope kept body next bodyInduction nextInduction =>
      have framed :
          machine.Steady (machineLeft (inFrame id file scope body.run (kept ++ held) machine)) :=
        Machine.inFrame_steady orderly id file scope (kept ++ held) fun room =>
          bodyInduction _ (Machine.openFrame_orderly orderly room id file scope)
      rw [← Machine.attempt_snd] at framed
      exact framed.trans (nextInduction _ held (framed.orderly orderly))

private theorem reaches_orderly {routine : Routine Code} {held : List Handle}
    {machine reached : Machine Code} (orderly : machine.Orderly)
    (reaches : routine.Reaches held machine reached) : reached.Orderly := by
  induction reaches with
  | here => exact orderly
  | afterStep _ induction =>
      exact induction ((Operation.perform_steady _ _).orderly orderly)
  | inside room _ induction =>
      exact induction (Machine.openFrame_orderly orderly room _ _ _)
  | @afterFrame id file scope kept body next held machine reached _ induction =>
      refine induction ?_
      rw [Machine.attempt_snd]
      exact (Machine.inFrame_steady orderly id file scope (kept ++ held) fun room =>
        run_steady body _ (Machine.openFrame_orderly orderly room id file scope)).orderly orderly

end Routine

/-- In every machine that a routine reaches, the marks, the watermark, the capacity and the depth
are in order, and a further frame leaves depth and watermark as they are, whatever routine it runs
and however that routine ends. At the depth ceiling the frame is refused and nothing changes. -/
theorem Routine.frame_balance {Code : Type} (limits : Limits) (choice : GlobalChoice)
    {routine : Routine Code} {held : List Handle} {machine : Machine Code}
    (reached : routine.Reaches held (Machine.new limits choice) machine)
    (id file : String) (scope : ScopeId) (body : Routine Code) (kept : List Handle) :
    machine.Orderly ∧
      (machineLeft (inFrame id file scope body.run kept machine)).depth = machine.depth ∧
      (machineLeft (inFrame id file scope body.run kept machine)).watermark =
        machine.watermark ∧
      (machine.limits.maxDepth ≤ machine.depth →
        inFrame id file scope body.run kept machine = machine.overflow) := by
  have orderly := reaches_orderly (Machine.new_orderly limits choice) reached
  have bodySteady : machine.depth < machine.limits.maxDepth →
      (machine.openFrame id file scope).Steady
        (machineLeft (body.run (.scope scope :: kept) (machine.openFrame id file scope))) :=
    fun room => body.run_steady _ (Machine.openFrame_orderly orderly room id file scope)
  refine ⟨orderly, ?_, ?_, fun full => Machine.inFrame_of_full full ..⟩
  · exact (Machine.inFrame_steady orderly id file scope kept bodySteady).depth
  · have ⟨_, bounds, _⟩ := Machine.inFrame_restores orderly id file scope kept bodySteady
    exact congrArg Bounds.watermark bounds

def Routine.leaking : Routine Unit :=
  .step (.allocateTable 2) fun lower =>
    .step (.allocateTable 3) fun _ =>
      .step (.freeTable (lower.toOption.getD .empty)) fun _ => .abort .crash

def Routine.twice (body : Routine Unit) : Routine Unit :=
  .frame "outer" "" ⟨0⟩ [] body fun _ => body

theorem Routine.frame_balance_leaking :
    let fresh : Machine Unit := Machine.new ⟨2, 8, true, true⟩ .empty
    let outer := fresh.openFrame "outer" "" ⟨0⟩
    (twice leaking).Reaches [] fresh outer ∧
      outer.Orderly ∧
      (machineLeft (inFrame "inner" "" ⟨1⟩ leaking.run [] outer)).depth = outer.depth ∧
      (machineLeft (inFrame "inner" "" ⟨1⟩ leaking.run [] outer)).watermark =
        outer.watermark ∧
      (outer.limits.maxDepth ≤ outer.depth →
        inFrame "inner" "" ⟨1⟩ leaking.run [] outer = outer.overflow) := by
  intro fresh outer
  have reached : (twice leaking).Reaches [] fresh outer := .inside (Nat.zero_lt_succ 1) .here
  exact ⟨reached, frame_balance _ _ reached "inner" "" ⟨1⟩ leaking []⟩

end ScopeMachine
