import ScopeMachine.Machine.Arguments
import ScopeMachine.Value.Protocol

namespace ScopeMachine.Action

variable {Code : Type}

def cast {α : Type} (convert : Heap Code → Value → Except Fault α) (value : Value) :
    Action Code α := do
  ofExcept (convert (← get).heap value)

def single (type : BuiltinType) : List Value → Action Code Value
  | [value] => pure value
  | values => fail (.arityMismatch type.name 1 false values.length)

def convert (type : BuiltinType) (values : List Value) : Action Code Value :=
  match type with
  | .string => do return .text (← readHeap (·.text (← single type values)))
  | .boolean => do return .bool (← cast Heap.toBool (← single type values))
  | .exactNumber => do return .exact (← cast Heap.toExact (← single type values))
  | .inexactNumber => do return .inexact (← cast Heap.toInexact (← single type values))
  | .array => newArray values
  | _ => fail (.unsupportedOperation (type.name ++ ": cannot call as function"))

def callType (type : BuiltinType) (arguments : Option Table) : Action Code Value := do
  convert type (← takeValues arguments)

def newException (type : BuiltinType) (values : List Value) : Action Code Value := do
  if 2 < values.length then
    fail (.arityMismatch type.name 2 false values.length)
  let heap := (← get).heap
  let message := (values.head?.map heap.text).getD ""
  return .exception (← onHeap (·.newException { type, message, cause := values[1]? }))

def constructType (type : BuiltinType) (arguments : Option Table) : Action Code Value := do
  if type.isException then
    newException type (← takeValues arguments)
  else
    match type with
    | .object =>
        let values ← takeValues arguments
        if !values.isEmpty then
          fail (.arityMismatch type.name 0 false values.length)
        let global := (← get).global
        return .object (← newScope (.onHeap (some global) .empty (.object none)))
    | .function | .null =>
        fail (.unsupportedOperation (type.name ++ ": cannot call as constructor"))
    | _ => callType type arguments

end ScopeMachine.Action
