import ScopeMachine.Probe.Basic

namespace ScopeMachine

open ScopeMachine.Action Probe

inductive FunctionProbe where
  | info
  | findStatic (name : String) (throwing : Bool) (reference : String)
  | parent
  | overridden

def FunctionProbe.summary {Code : Type} (id : FunctionId) : Action Code FunctionSummary := do
  let function ← getFunction id
  let definition := function.definition
  return {
    name := function.name
    comment := definition.comment
    arity := definition.arity
    variadic := definition.isVariadic
    arguments := definition.argumentNames
    permissions := definition.params.map (·.permission)
    text := ← readHeap (·.text (.function id))
    parent := ← snapshot function.parent
    overridden := ← function.overridden.mapM snapshot
    hasStatics := function.statics.isSome
    hasSuperArguments := definition.superArguments.isSome
    captures := definition.captures
    blockLocals := definition.blockLocals
    implicitBindings := definition.implicitBindings
    bodyId := definition.body.id
    bodyFile := definition.body.file }

def FunctionProbe.perform {Code : Type} : FunctionProbe → List Value → Action Code Value
  | .info, [.function id] => emit do return .function (← summary id)
  | .findStatic name throwing reference, [.function id] => do
      keepFound reference (← insist throwing name (← onHeap (·.staticMember id name)))
  | .parent, [.function id] => do return (← getFunction id).parent
  | .overridden, [.function id] => do return (← getFunction id).overridden.getD .null
  | _, _ => unexpectedOperands

end ScopeMachine
