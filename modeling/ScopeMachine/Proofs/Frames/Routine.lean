import ScopeMachine.Proofs.Frames.Steady

namespace ScopeMachine

inductive Operation (Code : Type) : Type → Type 1 where
  /-- Anything that is only read. -/
  | ask {α : Type} (question : Machine Code → α) : Operation Code α
  /-- What the code holds on to from now on. -/
  | keep (change : Host → Host) : Operation Code Unit
  | setLine (line : Nat) : Operation Code Unit
  | setScopeAndLine (scope : ScopeId) (line : Nat) : Operation Code Unit
  | allocateTable (size : Nat) : Operation Code (Except Abort Table)
  | allocateBlock (previous : ScopeId) (index : Index) : Operation Code (Except Abort ScopeId)
  | releaseScope (held : List Handle) (scope : ScopeId) : Operation Code Unit
  | tableOfValues (values : List Value) : Operation Code Table
  | cellAt (table : Table) (slot : Nat) : Operation Code (CellId × Table)
  | ensureCapacity (table : Table) (capacity : Nat) : Operation Code Table
  | safeCopy (table : Table) : Operation Code (Table × Table)
  | resetTable (table : Table) : Operation Code Unit
  | freeTable (table : Table) : Operation Code Unit
  | reinit (table : Table) (capacity : Nat) : Operation Code Table
  | truncate (table : Table) (length : Nat) : Operation Code Table
  | push (table : Table) (value : Value) : Operation Code Table
  | pushTogether (table : Table) (values : List Value) : Operation Code Table
  | newCell (cell : Cell) : Operation Code CellId
  | changeCell (cell : CellId) (change : Cell → Cell) : Operation Code Unit
  | newBasic (previous : ScopeId) (index : Index) : Operation Code ScopeId
  | newEmptyGlobal : Operation Code ScopeId
  | newGlobal : Operation Code ScopeId
  | ownMember (scope : ScopeId) (name : String) : Operation Code (Option CellId)
  | lookup (scope : ScopeId) (name : String) : Operation Code (Option CellId)
  | scopeMember (scope : ScopeId) (name : String) : Operation Code (Option CellId)
  | createMember (scope : ScopeId) (name : String) (permission : Permission) :
      Operation Code CellId

namespace Machine

variable {Code α : Type}

def onHeap (machine : Machine Code) (step : Heap Code → α × Heap Code) : α × Machine Code :=
  ((step machine.heap).1, { machine with heap := (step machine.heap).2 })

def onMemory (machine : Machine Code) (step : Memory → α × Memory) : α × Machine Code :=
  machine.onHeap fun heap => ((step heap.memory).1, { heap with memory := (step heap.memory).2 })

def attempt (machine : Machine Code) (held : List Handle) (action : Action Code α) :
    Except Abort α × Machine Code :=
  match action held machine with
  | .ok result machine => (.ok result, machine)
  | .error abort machine => (.error abort, machine)

end Machine

def Operation.perform {Code α : Type} :
    Operation Code α → Machine Code → α × Machine Code
  | .ask question, machine => (question machine, machine)
  | .keep change, machine => ((), machine.modifyHost change)
  | .setLine line, machine => ((), machine.modifyTop fun frame => { frame with line })
  | .setScopeAndLine scope line, machine =>
      ((), machine.modifyTop fun frame => { frame with scope, line })
  | .allocateTable size, machine => machine.attempt [] (Action.allocateTable size)
  | .allocateBlock previous index, machine =>
      machine.attempt [] (Action.allocateBlock previous index)
  | .releaseScope held scope, machine => ((), machine.releaseScope held scope)
  | .tableOfValues values, machine => machine.onMemory (Table.ofValues values)
  | .cellAt table slot, machine =>
      machine.onMemory fun memory =>
        let (cell, table, memory) := table.cellAt slot memory
        ((cell, table), memory)
  | .ensureCapacity table capacity, machine => machine.onMemory (table.ensureCapacity capacity)
  | .safeCopy table, machine =>
      machine.onMemory fun memory =>
        let (copy, table, memory) := table.safeCopy memory
        ((copy, table), memory)
  | .resetTable table, machine => machine.onMemory fun memory => ((), table.reset memory)
  | .freeTable table, machine =>
      machine.onMemory fun memory => ((), table.free machine.host.shares memory)
  | .reinit table capacity, machine =>
      machine.onMemory (table.reinit machine.host.shares capacity)
  | .truncate table length, machine =>
      machine.onMemory (table.truncate machine.host.shares length)
  | .push table value, machine => machine.onMemory (table.push value)
  | .pushTogether table values, machine => machine.onMemory (table.pushTogether values)
  | .newCell cell, machine => machine.onMemory (·.new cell)
  | .changeCell cell change, machine => machine.onHeap fun heap => ((), heap.modifyCell cell change)
  | .newBasic previous index, machine =>
      machine.onHeap (·.newScope (.onHeap (some previous) index .basic))
  | .newEmptyGlobal, machine => machine.onHeap (·.newEmptyGlobal)
  | .newGlobal, machine => machine.onHeap (·.newGlobal)
  | .ownMember scope name, machine => machine.onHeap (·.ownMember scope name)
  | .lookup scope name, machine => machine.onHeap (·.lookup scope name)
  | .scopeMember scope name, machine => machine.onHeap (·.scopeMember scope name)
  | .createMember scope name permission, machine =>
      machine.onHeap (·.createMember scope name permission)

/-- A finite tree of operations and nested frames. It ends in a value, a failure or a crash, and
goes on after a nested frame however that frame ended. -/
inductive Routine (Code : Type) : Type 1 where
  | done (value : Value)
  | abort (cause : Abort)
  | step {α : Type} (operation : Operation Code α) (next : α → Routine Code)
  | frame (id file : String) (scope : ScopeId) (kept : List Handle) (body : Routine Code)
      (next : Except Abort Value → Routine Code)

namespace Routine

variable {Code : Type}

def run : Routine Code → Action Code Value
  | .done value => fun _ machine => .ok value machine
  | .abort cause => fun _ machine => .error cause machine
  | .step operation next => fun held machine =>
      (next (operation.perform machine).1).run held (operation.perform machine).2
  | .frame id file scope kept body next => fun held machine =>
      let ended := machine.attempt (kept ++ held) (Action.inFrame id file scope body.run)
      (next ended.1).run held ended.2

/-- The machines a routine passes through: between its operations, inside its frames, and after
them. -/
inductive Reaches : Routine Code → List Handle → Machine Code → Machine Code → Prop where
  | here {routine : Routine Code} {held : List Handle} {machine : Machine Code} :
      Reaches routine held machine machine
  | afterStep {α : Type} {operation : Operation Code α} {next : α → Routine Code}
      {held : List Handle} {machine reached : Machine Code}
      (later : Reaches (next (operation.perform machine).1) held
        (operation.perform machine).2 reached) :
      Reaches (.step operation next) held machine reached
  | inside {id file : String} {scope : ScopeId} {kept : List Handle} {body : Routine Code}
      {next : Except Abort Value → Routine Code} {held : List Handle}
      {machine reached : Machine Code} (room : machine.depth < machine.limits.maxDepth)
      (within : Reaches body (.scope scope :: (kept ++ held))
        (machine.openFrame id file scope) reached) :
      Reaches (.frame id file scope kept body next) held machine reached
  | afterFrame {id file : String} {scope : ScopeId} {kept : List Handle} {body : Routine Code}
      {next : Except Abort Value → Routine Code} {held : List Handle}
      {machine reached : Machine Code}
      (later : Reaches
        (next (machine.attempt (kept ++ held) (Action.inFrame id file scope body.run)).1) held
        (machine.attempt (kept ++ held) (Action.inFrame id file scope body.run)).2 reached) :
      Reaches (.frame id file scope kept body next) held machine reached

end Routine

end ScopeMachine
