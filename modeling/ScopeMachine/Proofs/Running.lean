import ScopeMachine.Machine.Calls

namespace ScopeMachine

namespace Action

section Endings

variable {Code α β : Type}

/-- How an action ended, with the machine it left. -/
abbrev Ending (Code α : Type) : Type := EStateM.Result Abort (Machine Code) α

def machineLeft : Ending Code α → Machine Code
  | .ok _ machine | .error _ machine => machine

/-- Goes on after a result; an abort stands. -/
def andThen (ending : Ending Code α) (next : α → Machine Code → Ending Code β) : Ending Code β :=
  match ending with
  | .ok result machine => next result machine
  | .error abort machine => .error abort machine

@[simp] theorem machineLeft_ok (result : α) (machine : Machine Code) :
    machineLeft (.ok result machine) = machine := rfl

@[simp] theorem machineLeft_error (abort : Abort) (machine : Machine Code) :
    machineLeft (.error abort machine : Ending Code α) = machine := rfl

@[simp] theorem andThen_ok (result : α) (machine : Machine Code)
    (next : α → Machine Code → Ending Code β) :
    andThen (.ok result machine) next = next result machine := rfl

@[simp] theorem andThen_error (abort : Abort) (machine : Machine Code)
    (next : α → Machine Code → Ending Code β) :
    andThen (.error abort machine) next = .error abort machine := rfl

end Endings

variable {Code α β : Type} (held : List Handle) (machine : Machine Code)

@[simp] theorem run_pure (result : α) :
    (pure result : Action Code α) held machine = .ok result machine := rfl

@[simp] theorem run_bind (first : Action Code α) (next : α → Action Code β) :
    (first >>= next) held machine =
      andThen (first held machine) fun result machine => next result held machine := by
  change EStateM.bind (first held) (fun result => next result held) machine = _
  unfold EStateM.bind
  cases first held machine <;> rfl

theorem eq_ok_of_run' {held : List Handle} {machine : Machine Code} {action : Action Code α}
    {result : α}
    (gives : (action held).run' machine = some result) :
    action held machine = .ok result (machineLeft (action held machine)) := by
  unfold EStateM.run' EStateM.run at gives
  cases ended : action held machine with
  | ok value after =>
      rw [ended] at gives
      cases gives
      rfl
  | error abort after =>
      rw [ended] at gives
      cases gives

@[simp] theorem run_get : (get : Action Code (Machine Code)) held machine = .ok machine machine :=
  rfl

@[simp] theorem run_modify (change : Machine Code → Machine Code) :
    (modify change : Action Code Unit) held machine = .ok () (change machine) := rfl

@[simp] theorem run_ite (condition : Prop) [Decidable condition] (yes no : Action Code α) :
    (if condition then yes else no) held machine =
      if condition then yes held machine else no held machine := by
  split <;> rfl

@[simp] theorem run_fail (fault : Fault) :
    (fail fault : Action Code α) held machine = .error (.failure { fault }) machine := rfl

@[simp] theorem run_ofExcept (outcome : Except Fault α) :
    (ofExcept outcome : Action Code α) held machine =
      match outcome with
      | .ok result => .ok result machine
      | .error fault => .error (.failure { fault }) machine := by
  cases outcome <;> rfl

@[simp] theorem run_readHeap (question : Heap Code → α) :
    readHeap question held machine = .ok (question machine.heap) machine := rfl

@[simp] theorem run_onHeap (step : Heap Code → α × Heap Code) :
    onHeap step held machine =
      .ok (step machine.heap).1 { machine with heap := (step machine.heap).2 } := rfl

@[simp] theorem run_onMemory (step : Memory → α × Memory) :
    onMemory step held machine =
      .ok (step machine.heap.memory).1
        { machine with heap := { machine.heap with memory := (step machine.heap.memory).2 } } :=
  rfl

@[simp] theorem run_releasing (step : (CellId → Bool) → Memory → α × Memory) :
    releasing step held machine =
      .ok (step machine.host.shares machine.heap.memory).1
        { machine with heap := { machine.heap with
          memory := (step machine.host.shares machine.heap.memory).2 } } := rfl

@[simp] theorem run_tryHeap (step : Heap Code → Except Fault α × Heap Code) :
    tryHeap step held machine =
      match (step machine.heap).1 with
      | .ok result => .ok result { machine with heap := (step machine.heap).2 }
      | .error fault =>
          .error (.failure { fault }) { machine with heap := (step machine.heap).2 } := by
  simp [tryHeap]

@[simp] theorem run_holding (handles : List Handle) (action : Action Code α) :
    holding handles action held machine = action (handles ++ held) machine := rfl

@[simp] theorem run_newScope (scope : Scope) :
    newScope scope held machine =
      .ok (machine.heap.newScope scope).1
        { machine with heap := (machine.heap.newScope scope).2 } := rfl

@[simp] theorem run_allocateTable (size : Nat) :
    allocateTable size held machine =
      if machine.frames.isEmpty then .ok .empty machine
      else
        andThen (ofExcept (machine.heap.memory.arena.allocate size) held machine)
          fun (offset, arena) machine =>
            .ok (.inArena ⟨offset, size⟩ 0)
              { machine with heap := { machine.heap with
                memory := { machine.heap.memory with arena } } } := by
  unfold allocateTable
  simp only [run_bind, run_get, run_ite, run_pure, run_onMemory, andThen_ok]

theorem run_pooledScope (scope : Scope) :
    pooledScope scope held machine =
      match machine.pool with
      | [] => newScope scope held machine
      | id :: rest =>
          .ok id { machine with heap := machine.heap.setScope id scope, pool := rest } := by
  unfold pooledScope
  simp only [run_bind, run_get, andThen_ok]
  cases machine.pool <;> rfl

theorem run_allocateBlock (previous : ScopeId) (index : Index) :
    allocateBlock previous index held machine =
      if index.captures || machine.frames.isEmpty then
        newScope (.onHeap (some previous) index .basic) held machine
      else
        andThen (allocateTable index.size held machine) fun members machine =>
          andThen
            (pooledScope ⟨some previous, index, members, .basic, true⟩ held machine)
            fun id machine =>
              .ok id
                (machine.modifyTop fun frame =>
                  { frame with blocks := frame.blocks ++ [id] }) := by
  unfold allocateBlock
  simp only [run_bind, run_get, run_ite, run_modify, run_pure, andThen_ok]

theorem getFunction_eq {held : List Handle} {machine : Machine Code} {id : FunctionId}
    {function : Function Code} (found : machine.heap.function? id = some function) :
    getFunction id held machine = .ok function machine := by
  unfold getFunction
  rw [run_bind, run_get, andThen_ok, found]
  rfl

end Action

namespace Machine

variable {Code : Type}

@[simp] theorem frames_releaseBlocks (held : List Handle) (blocks : List ScopeId)
    (machine : Machine Code) : (releaseBlocks held blocks machine).frames = machine.frames := by
  induction blocks generalizing machine with
  | nil => rfl
  | cons id rest induction =>
      unfold releaseBlocks
      dsimp only
      split
      next => exact induction _
      next => exact induction _

theorem functions_releaseBlocks (held : List Handle) (blocks : List ScopeId)
    (machine : Machine Code) :
    (releaseBlocks held blocks machine).heap.functions = machine.heap.functions := by
  induction blocks generalizing machine with
  | nil => rfl
  | cons id rest induction =>
      unfold releaseBlocks
      refine (induction _).trans ?_
      split <;> rfl

theorem functions_closeFrame (machine : Machine Code) (held : List Handle) :
    (machine.closeFrame held).heap.functions = machine.heap.functions := by
  unfold closeFrame
  split
  next => rfl
  next => exact functions_releaseBlocks ..

theorem functions_releaseScope (machine : Machine Code) (held : List Handle) (id : ScopeId) :
    (machine.releaseScope held id).heap.functions = machine.heap.functions := by
  unfold releaseScope
  dsimp only
  split
  next => rfl
  next => split <;> rfl

end Machine

end ScopeMachine
