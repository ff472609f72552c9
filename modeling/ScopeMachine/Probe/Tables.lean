import ScopeMachine.Probe.Basic

namespace ScopeMachine

open ScopeMachine.Action Probe

inductive TableProbe where
  | new
  | ofValues
  | allocate (size : Nat)
  | at (slot : Nat) (reference : String)
  | set (slot : Nat)
  | ensure (capacity : Nat)
  | copyOf (other : String)
  | reset
  | reinit (capacity : Nat)
  | truncate (length : Nat)
  | push
  | free
  | drop
  | value (slot : Nat)
  | values
  | info
  | debug

def TableProbe.perform {Code : Type} (name : String) :
    TableProbe → List Value → Action Code Value
  | .new, [] => unit (putTable name .empty)
  | .ofValues, operands => unit do putTable name (← onMemory (Table.ofValues operands))
  | .allocate size, [] => unit do putTable name (← allocateTable size)
  | .at slot reference, [] => unit do putReference reference (← cellAt slot)
  | .set slot, [operand] => unit do
      let cell ← cellAt slot
      tryHeap (·.assign cell "" operand)
  | .ensure capacity, [] => unit do
      let table ← getTable name
      putTable name (← onMemory (table.ensureCapacity capacity))
  | .copyOf other, [] => unit do
      let table ← getTable other
      let (copy, table) ← onMemory fun memory =>
        let (copy, table, memory) := table.safeCopy memory
        ((copy, table), memory)
      putTable other table
      putTable name copy
  | .reset, [] => unit do
      let table ← getTable name
      onMemory fun memory => ((), table.reset memory)
  | .reinit capacity, [] => unit do
      let table ← getTable name
      putTable name (← releasing fun shared => table.reinit shared capacity)
  | .truncate length, [] => unit do
      let table ← getTable name
      putTable name (← releasing fun shared => table.truncate shared length)
  | .push, operands => unit do
      let table ← getTable name
      let together := 2 ≤ operands.length && operands.length ≤ 4
      putTable name
        (← onMemory
          (if together then table.pushTogether operands else table.pushEach operands))
  | .free, [] => unit do freeTable (← takeTable name)
  | .drop, [] => unit (dropTable name)
  | .value slot, [] => do
      let table ← getTable name
      let value ← readHeap fun heap => table.value? slot heap.memory
      return value.getD (.text "out of range")
  | .values, [] => do
      let table ← getTable name
      newArray (← readHeap fun heap => table.values heap.memory)
  | .info, [] => emit do
      let table ← getTable name
      let contents ← readHeap fun heap => table.values heap.memory
      return .table table.length table.isArena (← contents.mapM snapshot) (← get).watermark
  | .debug, [] => emit do return .text (← getTable name).debugText
  | _, _ => unexpectedOperands
where
  cellAt (slot : Nat) : Action Code CellId := do
    let table ← getTable name
    let (cell, table) ← onMemory fun memory =>
      let (cell, table, memory) := table.cellAt slot memory
      ((cell, table), memory)
    putTable name table
    return cell

end ScopeMachine
