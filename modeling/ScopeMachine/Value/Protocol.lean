import ScopeMachine.Decimal.Reader
import ScopeMachine.Heap.Members
import ScopeMachine.Text.Blank
import ScopeMachine.Value.Rendering

namespace ScopeMachine.Heap

variable {Code : Type}

def classOf (heap : Heap Code) (value : Value) : Value :=
  match value with
  | .object scope =>
      match heap.constructedBy? scope with
      | some function => .function function
      | none => .type .object
  | value => .type (heap.typeOf value)

def isInstance (heap : Heap Code) (value type : Value) : Bool :=
  match value with
  | .object scope =>
      match heap.constructedBy? scope with
      | some function => heap.extends? function type
      | none =>
          match type with
          | .type .object => true
          | _ => false
  | .function function =>
      (match type with
        | .type type => BuiltinType.function.isSubtype type
        | _ => false) || heap.extends? function type
  | value =>
      match type with
      | .type type => (heap.typeOf value).isSubtype type
      | _ => false

def unsupported (heap : Heap Code) (value : Value) (operation : String) : Fault :=
  .unsupportedOperation (heap.typeName value ++ ": " ++ operation)

def toBool (heap : Heap Code) : Value → Except Fault Bool
  | .bool value => .ok value
  | value => .error (heap.unsupported value "castToBoolean")

def toExact (heap : Heap Code) : Value → Except Fault Int64
  | .exact value => .ok value
  | .inexact value => .ok value.toInt64
  | .text value =>
      match Decimal.readExact? (Text.trimmed value) with
      | some number => .ok number
      | none => .error (.illegalArgument ("not an exact number: " ++ value))
  | value => .error (heap.unsupported value "castToExactNumber")

def toInexact (heap : Heap Code) : Value → Except Fault Float
  | .exact value => .ok value.toFloat
  | .inexact value => .ok value
  | .text value =>
      match Decimal.readInexact? (Text.trimmed value) with
      | some number => .ok number
      | none => .error (.illegalArgument ("not an inexact number: " ++ value))
  | value => .error (heap.unsupported value "castToInexactNumber")

/-- Access to a member of any value; members that are computed are constants. -/
def member (heap : Heap Code) (value : Value) (name : String) : Option CellId × Heap Code :=
  let constant (content : Value) : Option CellId × Heap Code :=
    let (cell, heap) := heap.newCell (.constant content)
    (some cell, heap)
  match value with
  | .object scope => heap.scopeMember scope name
  | .function function => heap.staticMember function name
  | .exception id =>
      let exception := heap.exception id
      if name == "message" then constant (.text exception.message)
      else if name == "cause" then constant (exception.cause.getD .null)
      else (none, heap)
  | .array id =>
      if name == "length" then constant (.ofCount (heap.array id).elements.size)
      else (none, heap)
  | .text text =>
      if name == "length" then constant (.ofCount text.length) else (none, heap)
  | _ => (none, heap)

/-- The value a script binds when it catches a failure. A thrown value comes back unchanged; any
other fault a script may see becomes an exception with the failure's backtrace. -/
def caught (heap : Heap Code) (failure : Failure) : Option Value × Heap Code :=
  match failure.fault with
  | .thrown value => (some value, heap)
  | fault =>
      match fault.exceptionType? with
      | none => (none, heap)
      | some type =>
          let (id, heap) := heap.newException
            { type, message := heap.faultMessage fault, backtrace := failure.backtrace }
          (some (.exception id), heap)

def thrown (heap : Heap Code) (value : Value) : Failure :=
  { fault := .thrown value
    backtrace := match value with
      | .exception id => (heap.exception id).backtrace
      | _ => none }

end ScopeMachine.Heap
