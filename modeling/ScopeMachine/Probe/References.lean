import ScopeMachine.Probe.Basic
import ScopeMachine.Value.Inspection

namespace ScopeMachine

open ScopeMachine.Action Probe

inductive ReferenceProbe where
  | newBlank
  | new
  | withPermission (permission : Permission)
  | constant
  | copyOf (other : String)
  | drop
  | get
  | info
  | debug
  | declare (permission : Permission)
  | assign (name : String)
  | install
  | reset
  | invalidate
  | same (other : String)

def ReferenceProbe.perform {Code : Type} (name : String) :
    ReferenceProbe → List Value → Action Code Value
  | .newBlank, [] => keep .blank
  | .new, [value] => keep (.holding value)
  | .withPermission permission, [value] => keep (.withPermission value permission)
  | .constant, [value] => keep (.constant value)
  | .copyOf other, [] => unit do putReference name (← getReference other)
  | .drop, [] => unit (dropReference name)
  | .get, [] => do
      let cell ← getReference name
      readHeap (·.memory.value cell)
  | .info, [] => emit do
      let id ← getReference name
      let cell ← readHeap (·.cell id)
      return .cell (← snapshot cell.value) cell.permission cell.declared
  | .debug, [] => emit do
      let cell ← getReference name
      return .text (← readHeap (·.cellDebugText cell))
  | .declare permission, [] => change (·.declare permission)
  | .assign member, [value] => unit do
      let cell ← getReference name
      tryHeap (·.assign cell member value)
  | .install, [value] => change (·.install value)
  | .reset, [value] => change (·.reset value)
  | .reset, [] => change (·.reset .null)
  | .invalidate, [] => change (·.invalidate)
  | .same other, [] => do
      return .bool ((← getReference name) == (← getReference other))
  | _, _ => unexpectedOperands
where
  keep (cell : Cell) : Action Code Value := unit do
    putReference name (← onHeap (·.newCell cell))
  change (step : Cell → Cell) : Action Code Value := unit do
    let cell ← getReference name
    onHeap fun heap => ((), heap.modifyCell cell step)

end ScopeMachine
