import ScopeMachine.Evaluation
import ScopeMachine.Probe.Failures
import ScopeMachine.Probe.Frames
import ScopeMachine.Probe.Functions
import ScopeMachine.Probe.References
import ScopeMachine.Probe.Scopes
import ScopeMachine.Probe.Tables
import ScopeMachine.Probe.Values

namespace ScopeMachine

open ScopeMachine.Action Probe

inductive Probe where
  | value (op : ValueProbe)
  | failure (op : FailureProbe)
  | frame (op : FrameProbe)
  | reference (name : String) (op : ReferenceProbe)
  | table (name : String) (op : TableProbe)
  | scope (name : String) (op : ScopeProbe)
  | function (op : FunctionProbe)
  /-- Calls a function with a receiver. -/
  | callThis
  /-- Runs a constructor on an object. -/
  | extend
  /-- Runs a constructor on the scope of a name, as it is before the arguments are evaluated. -/
  | extendScope (scope : String)
  | callTable (table : String)
  | constructTable (table : String)
  /-- Evaluates one of two operands. -/
  | choose
  | catchInto (name : String)
  | guard
  /-- Evaluates its operand in a frame of its own. -/
  | inFrame (id file scope : String)
  | inScope (scope : String)

namespace Probe

def operandValues (scope : ScopeId) : List (Operand Probe) → Action (Expr Probe) (List Value)
  | [] => pure []
  | first :: rest => do
      let value ← first scope
      return value :: (← holding value.handles (operandValues scope rest))

def strict (run : Runner (Expr Probe)) (scope : ScopeId) :
    Probe → List Value → Action (Expr Probe) Value
  | .value op, values => op.perform values
  | .failure op, values => op.perform values
  | .frame op, [] => op.perform
  | .reference name op, values => op.perform name values
  | .table name op, values => op.perform name values
  | .scope name op, values => op.perform name scope values
  | .function op, values => op.perform values
  | .callThis, .function id :: receiver :: arguments =>
      holding [.function id] do
        callFunction run id (← argumentTable arguments) (some receiver)
  | .extend, callee :: .object object :: arguments => unit do
      holding (.scope object :: callee.handles) do
        extendValue run callee object (← argumentTable arguments)
  | .callTable name, [callee] => do
      holding callee.handles (callValue run callee (some (← takeTable name)))
  | .constructTable name, [callee] => do
      holding callee.handles (constructValue run callee (some (← takeTable name)))
  | _, _ => unexpectedOperands

def perform (run : Runner (Expr Probe)) (probe : Probe) (operands : List (Operand Probe))
    (scope : ScopeId) : Action (Expr Probe) Value :=
  match probe, operands with
  | .choose, [condition, yes, no] => do
      if ← cast Heap.toBool (← condition scope) then yes scope else no scope
  | .catchInto name, [operand] => keepingFailure name (operand scope)
  | .guard, [operand] => survivingCrash (operand scope)
  | .extendScope name, callee :: arguments => unit do
      let callee ← callee scope
      let object ← getScope scope name
      holding (.scope object :: callee.handles) do
        let arguments ← operandValues scope arguments
        extendValue run callee object (← argumentTable arguments)
  | .inFrame id file name, [operand] => do
      let target ← getScope scope name
      Action.inFrame id file target (operand target)
  | .inScope name, [operand] => do
      let target ← getScope scope name
      holding [.scope target] (operand target)
  | probe, operands => do probe.strict run scope (← operandValues scope operands)

end Probe

instance : Operations Probe := ⟨Probe.perform⟩

end ScopeMachine
