import ScopeMachine.Machine.Storage
import ScopeMachine.Proofs.Frames.Routine

namespace ScopeMachine

/-- Things at hand under numbers that are given out in order. -/
structure Numbered (α : Type) where
  items : List (Option α)

namespace Numbered

variable {α : Type}

def empty : Numbered α := ⟨[]⟩

def size (numbered : Numbered α) : Nat := numbered.items.length

def get? (numbered : Numbered α) (number : Nat) : Option α := numbered.items[number]?.join

def put (numbered : Numbered α) (number : Nat) (item : Option α) :
    Numbered α := ⟨numbered.items.set number item⟩

def add (numbered : Numbered α) (item : α) : Numbered α := ⟨numbered.items ++ [some item]⟩

def has [BEq α] (numbered : Numbered α) (item : α) : Bool := numbered.items.contains (some item)

end Numbered

inductive TableTask where
  /-- A reference to the cell at the slot is kept from now on. -/
  | refer (slot : Nat)
  | push (value : Value)
  | pushTogether (values : List Value)
  | ensureCapacity (capacity : Nat)
  | truncate (length : Nat)
  | reinit (capacity : Nat)
  | reset
  /-- The copy is a further table. -/
  | safeCopy
  | free
  | drop
  | valueAt (slot : Nat)
  | values
  | length

inductive CellTask where
  | read
  | assign (name : String) (value : Value)
  | alter (change : Cell → Cell)
  | same (other : Nat)
  | letGo

inductive Task where
  | allocate (size : Nat)
  | table (number : Nat) (task : TableTask)
  | cell (number : Nat) (task : CellTask)

inductive Answer where
  /-- There is no such table or reference any more. -/
  | absent
  | done
  | value (value : Option Value)
  | values (values : List Value)
  | length (length : Nat)
  | cell (cell : Cell)
  | assigned (outcome : Except Fault Unit)
  | same (same : Bool)

/-- A machine, with the tables and references of the code that runs on it. -/
structure TaskState (Code : Type) where
  machine : Machine Code
  tables : Numbered Table
  references : Numbered CellId

namespace TaskState

variable {Code : Type}

/-- Nothing is at hand yet. -/
def start (machine : Machine Code) : TaskState Code := ⟨machine, .empty, .empty⟩

def memory (state : TaskState Code) : Memory := state.machine.heap.memory

/-- Something besides a table or a slot holds the cell. -/
def shares (state : TaskState Code) (id : CellId) : Bool :=
  state.machine.host.shares id || state.references.has id

def withMemory (state : TaskState Code) (memory : Memory) : TaskState Code :=
  { state with machine := { state.machine with heap := { state.machine.heap with memory } } }

/-- One table has become another one, or none. -/
def place (state : TaskState Code) (number : Nat) (table : Option Table) (memory : Memory) :
    TaskState Code :=
  { state.withMemory memory with tables := state.tables.put number table }

def addTable (state : TaskState Code) (table : Table) : TaskState Code :=
  { state with tables := state.tables.add table }

def addReference (state : TaskState Code) (id : CellId) : TaskState Code :=
  { state with references := state.references.add id }

def onTable (state : TaskState Code) (number : Nat) (table : Table) :
    TableTask → Answer × TaskState Code
  | .refer slot =>
      let (id, table, memory) := table.cellAt slot state.memory
      (.done, (state.place number table memory).addReference id)
  | .push value =>
      let (table, memory) := table.push value state.memory
      (.done, state.place number table memory)
  | .pushTogether values =>
      let (table, memory) := table.pushTogether values state.memory
      (.done, state.place number table memory)
  | .ensureCapacity capacity =>
      let (table, memory) := table.ensureCapacity capacity state.memory
      (.done, state.place number table memory)
  | .truncate length =>
      let (table, memory) := table.truncate state.shares length state.memory
      (.done, state.place number table memory)
  | .reinit capacity =>
      let (table, memory) := table.reinit state.shares capacity state.memory
      (.done, state.place number table memory)
  | .reset => (.done, state.withMemory (table.reset state.memory))
  | .safeCopy =>
      let (copy, table, memory) := table.safeCopy state.memory
      (.done, (state.place number table memory).addTable copy)
  | .free => (.done, state.place number none (table.free state.shares state.memory))
  | .drop => (.done, state.place number none state.memory)
  | .valueAt slot => (.value (table.value? slot state.memory), state)
  | .values => (.values (table.values state.memory), state)
  | .length => (.length table.length, state)

def onCell (state : TaskState Code) (number : Nat) (id : CellId) :
    CellTask → Answer × TaskState Code
  | .read => (.cell (state.memory.cell id), state)
  | .assign name value =>
      let (outcome, memory) := state.memory.assign id name value
      (.assigned outcome, state.withMemory memory)
  | .alter change => (.done, state.withMemory (state.memory.modifyCell id change))
  | .same other =>
      match state.references.get? other with
      | none => (.absent, state)
      | some other => (.same (id == other), state)
  | .letGo => (.done, { state with references := state.references.put number none })

def act (state : TaskState Code) : Task → Except Abort (Answer × TaskState Code)
  | .allocate size =>
      match state.machine.attempt [] (Action.allocateTable size) with
      | (.ok table, machine) => .ok (.done, { state with machine }.addTable table)
      | (.error abort, _) => .error abort
  | .table number task =>
      match state.tables.get? number with
      | none => .ok (.absent, state)
      | some table => .ok (state.onTable number table task)
  | .cell number task =>
      match state.references.get? number with
      | none => .ok (.absent, state)
      | some id => .ok (state.onCell number id task)

/-- The answers to one task after the other, if no allocation fails. -/
def answers (state : TaskState Code) : List Task → Except Abort (List Answer)
  | [] => .ok []
  | task :: rest => do
      let (answer, state) ← state.act task
      let later ← state.answers rest
      return answer :: later

end TaskState

/-- Tables as lists of names, and a cell for every name. -/
structure TableModel where
  cells : List Cell
  tables : Numbered (List Nat)
  references : Numbered Nat

namespace TableModel

def start : TableModel := ⟨[], .empty, .empty⟩

def cell (model : TableModel) (name : Nat) : Cell := model.cells.getD name .blank

def change (model : TableModel) (name : Nat) (change : Cell → Cell) : TableModel :=
  { model with cells := model.cells.modify name change }

/-- New names, each with a blank cell. -/
def fresh (model : TableModel) (count : Nat) : List Nat := List.range' model.cells.length count

/-- A table keeps its first names and gets new ones. -/
def adjust (model : TableModel) (number : Nat) (names : List Nat) (kept count : Nat) : TableModel :=
  { model with
    cells := model.cells ++ List.replicate count .blank
    tables := model.tables.put number (some (names.take kept ++ model.fresh count)) }

def extend (model : TableModel) (number : Nat) (names : List Nat) (length : Nat) : TableModel :=
  model.adjust number names names.length (length - names.length)

def push (model : TableModel) (number : Nat) (value : Value) : TableModel :=
  match model.tables.get? number with
  | none => model
  | some names =>
      (model.extend number names (names.length + 1)).change model.cells.length (·.reset value)

def valueAt (model : TableModel) (names : List Nat) (slot : Nat) : Option Value :=
  names[slot]?.map fun name => (model.cell name).value

def onTable (model : TableModel) (number : Nat) (names : List Nat) : TableTask → Answer × TableModel
  | .refer slot =>
      let extended := model.extend number names (slot + 1)
      let name := (names ++ model.fresh (slot + 1 - names.length)).getD slot 0
      (.done, { extended with references := model.references.add name })
  | .push value => (.done, model.push number value)
  | .pushTogether values => (.done, values.foldl (·.push number ·) model)
  | .ensureCapacity _ => (.done, model)
  | .truncate length => (.done, model.adjust number names length 0)
  | .reinit _ => (.done, model.adjust number names 0 0)
  | .reset => (.done, names.foldl (fun model name => model.change name (·.reset .null)) model)
  | .safeCopy => (.done, { model with tables := model.tables.add names })
  | .free | .drop => (.done, { model with tables := model.tables.put number none })
  | .valueAt slot => (.value (model.valueAt names slot), model)
  | .values => (.values ((List.range names.length).filterMap (model.valueAt names)), model)
  | .length => (.length names.length, model)

def onCell (model : TableModel) (number name : Nat) : CellTask → Answer × TableModel
  | .read => (.cell (model.cell name), model)
  | .assign label value =>
      match (model.cell name).assign label value with
      | .ok cell => (.assigned (.ok ()), model.change name fun _ => cell)
      | .error fault => (.assigned (.error fault), model)
  | .alter change => (.done, model.change name change)
  | .same other =>
      match model.references.get? other with
      | none => (.absent, model)
      | some other => (.same (name == other), model)
  | .letGo => (.done, { model with references := model.references.put number none })

def act (model : TableModel) : Task → Answer × TableModel
  | .allocate _ => (.done, { model with tables := model.tables.add [] })
  | .table number task =>
      match model.tables.get? number with
      | none => (.absent, model)
      | some names => model.onTable number names task
  | .cell number task =>
      match model.references.get? number with
      | none => (.absent, model)
      | some name => model.onCell number name task

def answers (model : TableModel) : List Task → List Answer
  | [] => []
  | task :: rest => (model.act task).1 :: (model.act task).2.answers rest

end TableModel

end ScopeMachine
