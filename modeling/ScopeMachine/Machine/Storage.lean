import ScopeMachine.Machine.Holders

namespace ScopeMachine

def Heap.detach {Code : Type} (heap : Heap Code) (id : ScopeId) : Heap Code :=
  let members := (heap.scope id).members
  let (members, memory) :=
    if members.isArena then
      let (copy, _, memory) := members.safeCopy heap.memory
      (copy, memory)
    else (members, heap.memory)
  { heap with memory }.modifyScope id fun scope => { scope with members, pooled := false }

namespace Machine

variable {Code : Type}

/-- Takes a scope out of the pool's reach: it keeps its members, which move to the heap. -/
def promote (machine : Machine Code) (id : ScopeId) : Machine Code :=
  { machine with heap := machine.heap.detach id }

def recycle (machine : Machine Code) (id : ScopeId) : Machine Code :=
  { machine with
    heap := machine.heap.modifyScope id fun scope => .vacant scope.index
    pool := id :: machine.pool }

def releaseBlocks (held : List Handle) : List ScopeId → Machine Code → Machine Code
  | [], machine => machine
  | id :: rest, machine =>
      let machine :=
        if machine.isHeld (rest.map .scope ++ held) id then machine.promote id
        else machine.recycle id
      releaseBlocks held rest machine

def openFrame (machine : Machine Code) (id file : String) (scope : ScopeId) : Machine Code :=
  { machine with
    heap := { machine.heap with memory := machine.heap.memory.modifyArena (·.openFrame) }
    frames := machine.frames.push ⟨id, file, scope, 0, machine.watermark, []⟩ }

/-- Closes the top frame: its blocks are released, then everything it allocated in the arena. -/
def closeFrame (machine : Machine Code) (held : List Handle) : Machine Code :=
  match machine.frames.pop? with
  | none => machine
  | some (top, outer) =>
      let machine := releaseBlocks held top.blocks { machine with frames := outer }
      { machine with
        heap := { machine.heap with
          memory := machine.heap.memory.closeFrame machine.host.shares top.mark } }

def annotate (machine : Machine Code) (failure : Failure) : Failure × Machine Code :=
  match failure.backtrace with
  | some _ => (failure, machine)
  | none =>
      let trace := machine.capture
      let machine :=
        match failure.fault with
        | .thrown (.exception id) =>
            { machine with heap := machine.heap.preserveBacktrace id trace }
        | _ => machine
      (failure.withBacktrace trace, machine)

def releaseScope (machine : Machine Code) (held : List Handle) (id : ScopeId) :
    Machine Code :=
  let scope := machine.heap.scope id
  if !scope.pooled || scope.variant == .basic then machine
  else if machine.isHeld held id then machine.promote id
  else
    let members := scope.members
    let machine := machine.recycle id
    { machine with
      heap := { machine.heap with
        memory := members.free machine.host.shares machine.heap.memory } }

end Machine

namespace Action

variable {Code : Type}

/-- Runs a body in a new frame, which is closed however the body ends. -/
def inFrame (id file : String) (scope : ScopeId) (body : Action Code Value) :
    Action Code Value :=
  fun held machine =>
    if machine.limits.maxDepth ≤ machine.depth then
      .error (.failure
        { fault := .stackOverflow machine.limits.maxDepth, backtrace := some machine.capture })
        machine
    else
      let held := .scope scope :: held
      match body held (machine.openFrame id file scope) with
      | .ok result machine =>
          .ok result (machine.closeFrame (result.handles ++ held))
      | .error (.failure failure) machine =>
          let (failure, machine) := machine.annotate failure
          .error (.failure failure) (machine.closeFrame (failure.handles ++ held))
      | .error .crash machine => .error .crash (machine.closeFrame held)

/-- Runs a body, then ends the extent of its scope however the body ended. -/
def releasingScope (scope : ScopeId) (body : Action Code Value) : Action Code Value :=
  fun held machine =>
    match body held machine with
    | .ok result machine =>
        .ok result (machine.releaseScope (result.handles ++ held) scope)
    | .error abort machine => .error abort (machine.releaseScope (abort.handles ++ held) scope)

def newScope (scope : Scope) : Action Code ScopeId := onHeap (·.newScope scope)

def allocateTable (size : Nat) : Action Code Table := do
  let machine ← get
  if machine.frames.isEmpty then return .empty
  let (offset, arena) ← ofExcept (machine.heap.memory.arena.allocate size)
  onMemory fun memory => ((), { memory with arena })
  return .inArena ⟨offset, size⟩ 0

def pooledScope (scope : Scope) : Action Code ScopeId := do
  match (← get).pool with
  | [] => newScope scope
  | id :: rest =>
      modify fun machine => { machine with heap := machine.heap.setScope id scope, pool := rest }
      return id

/-- A block scope. It lives in the arena until the frame is closed, unless a nested function may
capture it. -/
def allocateBlock (previous : ScopeId) (index : Index) : Action Code ScopeId := do
  if index.captures || (← get).frames.isEmpty then
    newScope (.onHeap (some previous) index .basic)
  else
    let members ← allocateTable index.size
    let id ← pooledScope ⟨some previous, index, members, .basic, true⟩
    modify (·.modifyTop fun frame => { frame with blocks := frame.blocks ++ [id] })
    return id

def allocateCallScope (previous : ScopeId) (index : Index) (members : Table)
    (invocation : Invocation) : Action Code ScopeId := do
  let members ← onMemory (members.ensureCapacity index.size)
  let scope : Scope :=
    ⟨some previous, index, members, .function invocation, members.isArena⟩
  if members.isArena then pooledScope scope else newScope scope

def freeTable (table : Table) : Action Code Unit :=
  releasing fun shared memory => ((), table.free shared memory)

def declareMember (scope : ScopeId) (name : String) (permission : Permission) (value : Value) :
    Action Code Unit := do
  let cell ← onHeap (·.createMember scope name permission)
  tryHeap (·.assign cell name value)

end Action

end ScopeMachine
