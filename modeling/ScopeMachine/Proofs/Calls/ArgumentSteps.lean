import ScopeMachine.Proofs.Running

namespace ScopeMachine

namespace Table

variable {Code : Type}

/-- The table that a call works on, with the memory it leaves. -/
def settled (table : Table) (definition : Definition Code) (memory : Memory) : Table × Memory :=
  if definition.captures then ((table.safeCopy memory).1, (table.safeCopy memory).2.2)
  else (table, memory)

/-- The arguments past the parameters. -/
def trailing (table : Table) (definition : Definition Code) (memory : Memory) : List Value :=
  (table.values memory).drop definition.arity

/-- The layout of the body: the arguments past the parameters make way for the array of the rest. -/
def fitted (table : Table) (definition : Definition Code) (shared : CellId → Bool) (rest : ArrayId)
    (memory : Memory) : Table × Memory :=
  let (table, memory) := table.truncate shared definition.arity memory
  table.push (.array rest) memory

end Table

namespace Machine

variable {Code : Type}

def withMemory (machine : Machine Code) (memory : Memory) : Machine Code :=
  { machine with heap := { machine.heap with memory } }

def withHeap (machine : Machine Code) (heap : Heap Code) : Machine Code := { machine with heap }

end Machine

namespace Action

variable {Code : Type} (held : List Handle) (machine : Machine Code)

@[simp] theorem run_freeTable (table : Table) :
    freeTable table held machine =
      .ok () (machine.withMemory (table.free machine.host.shares machine.heap.memory)) := rfl

theorem run_allocateTable_zero :
    ∃ table memory, allocateTable 0 held machine = .ok table (machine.withMemory memory) ∧
      table.length = 0 ∧ memory.cells = machine.heap.memory.cells := by
  rw [run_allocateTable]
  split
  next => exact ⟨.empty, machine.heap.memory, rfl, rfl, rfl⟩
  next => exact ⟨_, _, rfl, rfl, rfl⟩

@[simp] theorem run_newArray (elements : List Value) :
    newArray elements held machine =
      .ok (.array (machine.heap.newArray elements false).1)
        (machine.withHeap (machine.heap.newArray elements false).2) := by
  unfold newArray
  simp only [run_bind, run_onHeap, andThen_ok, run_pure]
  rfl

@[simp] theorem run_settleArguments (definition : Definition Code) (arguments : Table) :
    settleArguments definition arguments held machine =
      .ok (arguments.settled definition machine.heap.memory).1
        (machine.withMemory (arguments.settled definition machine.heap.memory).2) := by
  unfold settleArguments Table.settled
  split <;> rfl

theorem run_mapArguments (definition : Definition Code) (arguments : Table) :
    mapArguments definition arguments held machine =
      let (table, memory) := arguments.settled definition machine.heap.memory
      let trailing := table.trailing definition memory
      if definition.accepts table.length then
        if definition.isVariadic then
          let (rest, heap) := (machine.withMemory memory).heap.newArray trailing false
          let (table, memory) := table.fitted definition machine.host.shares rest memory
          .ok (table, trailing) ((machine.withHeap heap).withMemory memory)
        else .ok (table, trailing) (machine.withMemory memory)
      else
        .error (.failure { fault := arityMismatch definition table.length })
          (machine.withMemory (table.free machine.host.shares memory)) := by
  unfold mapArguments
  simp only [run_bind, run_settleArguments, andThen_ok]
  generalize arguments.settled definition machine.heap.memory = settled
  obtain ⟨table, memory⟩ := settled
  cases accepted : definition.accepts table.length with
  | false => rfl
  | true =>
      cases variadic : definition.isVariadic <;> rfl

@[simp] theorem run_takeValues (arguments : Option Table) :
    takeValues arguments held machine =
      .ok ((arguments.elim [] fun table => table.values machine.heap.memory))
        (arguments.elim machine fun table =>
          machine.withMemory (table.free machine.host.shares machine.heap.memory)) := by
  cases arguments <;> rfl

end Action

end ScopeMachine
