import ScopeMachine.Proofs.Frames.Routine

namespace ScopeMachine

open Arena

inductive Table.Work where
  | touch (slot : Nat)
  | write (slot : Nat) (change : Cell → Cell)
  | push (value : Value)
  | ensureCapacity (capacity : Nat)
  | truncate (length : Nat)

namespace Table

namespace Work

def run (shared : CellId → Bool) : Work → Table → Memory → Table × Memory
  | .touch slot, table, memory => (table.cellAt slot memory).2
  | .write slot change, table, memory =>
      let (id, table, memory) := table.cellAt slot memory
      (table, memory.modifyCell id change)
  | .push value, table, memory => table.push value memory
  | .ensureCapacity capacity, table, memory => table.ensureCapacity capacity memory
  | .truncate length, table, memory => table.truncate shared length memory

def written? : Work → Table → Memory → Option CellId
  | .write slot _, table, memory => some (table.cellAt slot memory).1
  | .push _, table, memory => some (table.cellAt table.length memory).1
  | _, _, _ => none

def demand : Work → Table → Nat
  | .touch slot, table | .write slot _, table => if slot < table.length then 0 else slot + 1
  | .push _, table => table.length + 1
  | .ensureCapacity capacity, _ => capacity
  | .truncate _, _ => 0

end Work

/-- Room is made for the table by moving the watermark. -/
def growsInPlace (table : Table) (capacity : Nat) (memory : Memory) : Bool :=
  match table with
  | .onHeap .. => false
  | .inArena slice _ =>
      slice.capacity < capacity &&
        (memory.arena.grow? slice.offset slice.capacity (capacity - slice.capacity)).isSome

end Table

def hostAmong? (id : ScopeId) : List Frame → Option Nat
  | [] => none
  | top :: outer =>
      if top.blocks.contains id then some (outer.length + 1) else hostAmong? id outer

/-- A table at hand, with the number of frames open when it was allocated. -/
structure Workspace.Entry where
  table : Table
  birth : Nat

/-- A machine with the tables that the code it runs has at hand, by number. -/
structure Workspace (Code : Type) where
  machine : Machine Code
  entries : List (Option Workspace.Entry)

namespace Workspace

variable {Code : Type}

/-- A table: one at hand, or the members of a scope. -/
inductive Key where
  | entry (number : Nat)
  | scope (id : ScopeId)
  deriving DecidableEq

/-- One public operation, made from the innermost open frame. -/
inductive Move where
  | keep (change : Host → Host)
  | openFrame (id file : String) (scope : ScopeId)
  | closeFrame (held : List Handle)
  | allocateTable (size : Nat)
  | allocateBlock (previous : ScopeId) (index : Index)
  | work (number : Nat) (work : Table.Work)
  | safeCopy (number : Nat)
  | free (number : Nat)
  | createMember (scope : ScopeId) (name : String) (permission : Permission)
  | writeMember (scope : ScopeId) (slot : Nat) (change : Cell → Cell)

def fresh (limits : Limits) (choice : GlobalChoice) :
    Workspace Code := ⟨Machine.new limits choice, []⟩

def depth (state : Workspace Code) : Nat := state.machine.depth

def memory (state : Workspace Code) : Memory := state.machine.heap.memory

def entryAt? (state : Workspace Code) (number : Nat) : Option Entry := (state.entries[number]?).join

def onHeap (state : Workspace Code) (step : Heap Code → Heap Code) : Workspace Code :=
  { state with machine := { state.machine with heap := step state.machine.heap } }

def withMemory (state : Workspace Code) (memory : Memory) : Workspace Code :=
  state.onHeap fun heap => { heap with memory }

def setEntry (state : Workspace Code) (number : Nat) (entry : Option Entry) : Workspace Code :=
  { state with entries := state.entries.set number entry }

def addEntry (state : Workspace Code) (table : Table) : Workspace Code :=
  { state with entries := state.entries ++ [some ⟨table, state.depth⟩] }

def dropEntries (state : Workspace Code) : Workspace Code :=
  { state with
    entries := state.entries.map fun entry =>
      entry.filter fun entry => entry.birth ≤ state.depth }

def workOnScope (state : Workspace Code) (id : ScopeId) (work : Table.Work) : Workspace Code :=
  state.onHeap fun heap =>
    let (members, memory) :=
      work.run state.machine.host.shares (heap.scope id).members heap.memory
    { heap with memory }.modifyScope id fun scope => { scope with members }

/-- A move that is refused, or that names no table at hand, changes nothing. -/
def step (state : Workspace Code) : Move → Workspace Code
  | .keep change => { state with machine := state.machine.modifyHost change }
  | .openFrame id file scope =>
      if state.machine.limits.maxDepth ≤ state.depth then state
      else { state with machine := state.machine.openFrame id file scope }
  | .closeFrame held => dropEntries { state with machine := state.machine.closeFrame held }
  | .allocateTable size =>
      match state.machine.attempt [] (Action.allocateTable size) with
      | (.ok table, machine) => addEntry { state with machine } table
      | (.error _, machine) => { state with machine }
  | .allocateBlock previous index =>
      { state with machine := (state.machine.attempt [] (Action.allocateBlock previous index)).2 }
  | .work number work =>
      match state.entryAt? number with
      | none => state
      | some ⟨table, birth⟩ =>
          let (table, memory) := work.run state.machine.host.shares table state.memory
          (state.withMemory memory).setEntry number (some ⟨table, birth⟩)
  | .safeCopy number =>
      match state.entryAt? number with
      | none => state
      | some ⟨table, birth⟩ =>
          let (copy, table, memory) := table.safeCopy state.memory
          ((state.withMemory memory).setEntry number (some ⟨table, birth⟩)).addEntry copy
  | .free number =>
      match state.entryAt? number with
      | none => state
      | some ⟨table, _⟩ =>
          (state.withMemory (table.free state.machine.host.shares state.memory)).setEntry
            number none
  | .createMember scope name permission =>
      state.onHeap fun heap => (heap.createMember scope name permission).2
  | .writeMember scope slot change => state.workOnScope scope (.write slot change)

/-- The workspaces that a list of moves passes through, both ends included. -/
def trace (state : Workspace Code) : List Move → List (Workspace Code)
  | [] => [state]
  | move :: rest => state :: (state.step move).trace rest

def run (state : Workspace Code) (moves : List Move) : Workspace Code := moves.foldl step state

def host? (state : Workspace Code) (id : ScopeId) : Option Nat :=
  hostAmong? id state.machine.frames.toList

def tableOf (state : Workspace Code) : Key → Option (Table × Nat)
  | .entry number => (state.entryAt? number).map fun entry => (entry.table, entry.birth)
  | .scope id =>
      let members := (state.machine.heap.scope id).members
      match state.host? id with
      | some birth => some (members, birth)
      | none => some (.onHeap members.heapCells none, 0)

end Workspace

end ScopeMachine
