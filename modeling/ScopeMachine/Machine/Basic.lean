import ScopeMachine.Heap.Members
import ScopeMachine.Host
import ScopeMachine.Limits
import ScopeMachine.Machine.FrameStack

namespace ScopeMachine

/-- The state of a running system. -/
structure Machine (Code : Type) where
  heap : Heap Code
  frames : FrameStack
  /-- Scopes waiting to be used again. -/
  pool : List ScopeId
  limits : Limits
  global : ScopeId
  /-- The global scope that machines share unless they are given their own. -/
  sharedGlobal : ScopeId
  host : Host

/-- Why an action ended early. A crash is no failure: nothing can catch or annotate it. -/
inductive Abort where
  | failure (cause : Failure)
  | crash

def Abort.handles : Abort → List Handle
  | .failure cause => cause.handles
  | .crash => []

/-- A step of a machine. It is told what its callers hold on to meanwhile. -/
abbrev Action (Code : Type) (α : Type) : Type :=
  ReaderT (List Handle) (EStateM Abort (Machine Code)) α

namespace Machine

variable {Code : Type} {α : Type}

def depth (machine : Machine Code) : Nat := machine.frames.depth

def watermark (machine : Machine Code) : Nat := machine.heap.memory.arena.watermark

def frameView (machine : Machine Code) (frame : Frame) : FrameView :=
  ⟨frame.id, frame.file, frame.line, (machine.heap.scope frame.scope).variant⟩

/-- The open frames, innermost first. -/
def capture (machine : Machine Code) : Backtrace :=
  ⟨machine.frames.toList.map fun frame => ⟨frame.id, frame.file, frame.line⟩⟩

def modifyHost (machine : Machine Code) (change : Host → Host) : Machine Code :=
  { machine with host := change machine.host }

def observe (machine : Machine Code) (observation : Observation) : Machine Code :=
  machine.modifyHost fun host => { host with log := observation :: host.log }

def modifyTop (machine : Machine Code) (change : Frame → Frame) : Machine Code :=
  { machine with frames := machine.frames.modifyTop change }

def debugText (machine : Machine Code) : String :=
  Text.partialRecord "CallStack"
    [("depth", toString machine.depth), ("members_watermark", toString machine.watermark),
      ("pooled_scopes", toString machine.pool.length), ("config", machine.limits.debugText)]

end Machine

namespace Action

variable {Code : Type} {α : Type}

def failWith (failure : Failure) : Action Code α := throw (.failure failure)

def fail (fault : Fault) : Action Code α := failWith { fault }

def crash : Action Code α := throw .crash

def ofExcept : Except Fault α → Action Code α
  | .ok result => pure result
  | .error fault => fail fault

/-- A step that reads the heap. -/
def readHeap (read : Heap Code → α) : Action Code α := do
  return read (← get).heap

/-- A step on the heap. -/
def onHeap (step : Heap Code → α × Heap Code) : Action Code α :=
  modifyGet fun machine =>
    let (result, heap) := step machine.heap
    (result, { machine with heap })

def tryHeap (step : Heap Code → Except Fault α × Heap Code) : Action Code α := do
  ofExcept (← onHeap step)

def onMemory (step : Memory → α × Memory) : Action Code α :=
  onHeap fun heap =>
    let (result, memory) := step heap.memory
    (result, { heap with memory })

def releasing (step : (CellId → Bool) → Memory → α × Memory) : Action Code α :=
  modifyGet fun machine =>
    let (result, memory) := step machine.host.shares machine.heap.memory
    (result, { machine with heap := { machine.heap with memory } })

def observe (observation : Observation) : Action Code Unit :=
  modify (·.observe observation)

def holding (handles : List Handle) (action : Action Code α) : Action Code α :=
  fun held => action (handles ++ held)

end Action

end ScopeMachine
