import ScopeMachine.Memory
import ScopeMachine.Text.Record

namespace ScopeMachine

/-- A contiguous run of arena slots. -/
structure Slice where
  offset : Nat
  capacity : Nat
  deriving DecidableEq, Repr, Inhabited

def Slice.stop (slice : Slice) : Nat := slice.offset + slice.capacity

/-- The members behind a scope or an argument list, by slot. A table starts in the arena or on the
heap; one that must outlive or outgrow its slice moves to the heap with the same cells, and holds
on to the slice if it could not be handed back at that moment. -/
inductive Table where
  | onHeap (cells : Array CellId) (reserved : Option Slice)
  | inArena (slice : Slice) (length : Nat)
  deriving DecidableEq, Repr

namespace Table

def empty : Table := .onHeap #[] none

instance : Inhabited Table := ⟨empty⟩

def length : Table → Nat
  | .onHeap cells _ => cells.size
  | .inArena _ length => length

def isEmpty (table : Table) : Bool := table.length == 0

def isArena : Table → Bool
  | .onHeap .. => false
  | .inArena .. => true

/-- Cells the table itself keeps alive; those of a slice belong to the arena. -/
def heapCells : Table → Array CellId
  | .onHeap cells _ => cells
  | .inArena .. => #[]

def slice? : Table → Option Slice
  | .onHeap _ reserved => reserved
  | .inArena slice _ => some slice

def ofValues (values : List Value) (memory : Memory) : Table × Memory :=
  let (cells, memory) := memory.newAll (values.map .holding)
  (.onHeap cells none, memory)

/-- The cell at a slot, if there is one already. -/
def cell? (table : Table) (slot : Nat) (memory : Memory) : Option CellId :=
  match table with
  | .onHeap cells _ => cells[slot]?
  | .inArena slice length =>
      if slot < length then memory.arena.peek (slice.offset + slot) else none

def value? (table : Table) (slot : Nat) (memory : Memory) : Option Value :=
  if slot < table.length then
    some (match table.cell? slot memory with
      | some id => memory.value id
      | none => .null)
  else none

def values (table : Table) (memory : Memory) : List Value :=
  (List.range table.length).filterMap fun slot => table.value? slot memory

def copyOut (table : Table) (memory : Memory) : Table × Memory :=
  match table with
  | .onHeap .. => (table, memory)
  | .inArena slice length =>
      let (cells, memory) := memory.take slice.offset length
      match memory.arena.popTop? slice.offset slice.capacity with
      | some arena => (.onHeap cells none, { memory with arena })
      | none => (.onHeap cells (some slice), memory)

/-- Makes room without changing the length: a slice on top grows in place, any other table moves
to the heap. -/
def ensureCapacity (table : Table) (capacity : Nat) (memory : Memory) : Table × Memory :=
  match table with
  | .onHeap .. => (table, memory)
  | .inArena slice length =>
      if capacity ≤ slice.capacity then (table, memory)
      else
        match memory.arena.grow? slice.offset slice.capacity (capacity - slice.capacity) with
        | some arena => (.inArena ⟨slice.offset, capacity⟩ length, { memory with arena })
        | none => table.copyOut memory

def extendTo (table : Table) (length : Nat) (memory : Memory) : Table × Memory :=
  match table with
  | .onHeap cells reserved =>
      let (fresh, memory) := memory.newAll (List.replicate (length - cells.size) .blank)
      (.onHeap (cells ++ fresh) reserved, memory)
  | .inArena slice _ => (.inArena slice length, memory)

/-- The cell at a slot. A table that is too short grows, its new slots holding null. -/
def cellAt (table : Table) (slot : Nat) (memory : Memory) : CellId × Table × Memory :=
  let (table, memory) :=
    if slot < table.length then (table, memory)
    else
      let (table, memory) := table.ensureCapacity (slot + 1) memory
      table.extendTo (slot + 1) memory
  match table with
  | .onHeap cells _ => (cells.getD slot ⟨0⟩, table, memory)
  | .inArena slice _ =>
      let (id, memory) := memory.slot (slice.offset + slot)
      (id, table, memory)

def safeCopy (table : Table) (memory : Memory) : Table × Table × Memory :=
  let (table, memory) := table.copyOut memory
  (.onHeap table.heapCells none, table, memory)

def reset (table : Table) (memory : Memory) : Memory :=
  match table with
  | .onHeap cells _ => cells.foldl (fun memory id => memory.modifyCell id (·.reset .null)) memory
  | .inArena slice length => memory.resetSlice slice.offset length

/-- Gives the table's slice back, lowering the watermark if the slice is on top. -/
def free (shared : CellId → Bool) (table : Table) (memory : Memory) : Memory :=
  match table.slice? with
  | none => memory
  | some slice =>
      let memory := memory.release shared slice.offset slice.stop
      match memory.arena.popTop? slice.offset slice.capacity with
      | some arena => { memory with arena }
      | none => memory

def truncate (shared : CellId → Bool) (table : Table) (length : Nat) (memory : Memory) :
    Table × Memory :=
  if table.length ≤ length then (table, memory)
  else
    match table with
    | .onHeap cells reserved => (.onHeap (cells.take length) reserved, memory)
    | .inArena slice oldLength =>
        (.inArena slice length,
          memory.release shared (slice.offset + length) (slice.offset + oldLength))

def reinit (shared : CellId → Bool) (table : Table) (capacity : Nat) (memory : Memory) :
    Table × Memory :=
  let (table, memory) := table.truncate shared 0 memory
  table.ensureCapacity capacity memory

def push (table : Table) (value : Value) (memory : Memory) : Table × Memory :=
  let (id, table, memory) := table.cellAt table.length memory
  (table, memory.modifyCell id (·.reset value))

def pushEach (table : Table) (values : List Value) (memory : Memory) : Table × Memory :=
  values.foldl (fun (table, memory) value => push table value memory) (table, memory)

/-- Makes room for all the values at once, then appends them. -/
def pushTogether (table : Table) (values : List Value) (memory : Memory) : Table × Memory :=
  let (table, memory) := table.ensureCapacity (table.length + values.length) memory
  table.pushEach values memory

def debugText : Table → String
  | .onHeap cells _ => Text.record "MemberTable" [("len", toString cells.size)]
  | .inArena slice length =>
      Text.record "MemberTable"
        [("len", toString length), ("off", toString slice.offset),
          ("cap", toString slice.capacity)]

end Table

end ScopeMachine
