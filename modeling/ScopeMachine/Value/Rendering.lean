import ScopeMachine.Decimal.Style
import ScopeMachine.Heap.Walk
import ScopeMachine.Text.Record

namespace ScopeMachine.Heap

variable {Code : Type}

def typeOf (heap : Heap Code) : Value → BuiltinType
  | .null => .null
  | .bool _ => .boolean
  | .exact _ => .exactNumber
  | .inexact _ => .inexactNumber
  | .text _ => .string
  | .array _ => .array
  | .function _ | .type _ => .function
  | .object _ => .object
  | .exception id => (heap.exception id).type

def typeName (heap : Heap Code) (value : Value) : String := (heap.typeOf value).name

def maxLinks : Nat := 5

def unknownMessage : String := "<<unknown exception message>>"

def leafText (heap : Heap Code) : Value → String
  | .bool value => Text.truth value
  | .exact value => toString value.toInt
  | .inexact value => Decimal.floatText .plain value
  | .text value => value
  | .function id => "[function: " ++ heap.functionName id ++ "]"
  | .object scope =>
      match heap.constructedBy? scope with
      | some function => "[object: " ++ heap.functionName function ++ "]"
      | none => "[object]"
  | .type type => type.name
  | _ => "null"

def textWithin (heap : Heap Code) : Nat → Nat → List ArrayId → Value → String
  | 0, _, _, _ => ""
  | budget + 1, links, opened, value =>
      if maxLinks < links then unknownMessage
      else
        match value with
        | .array id =>
            if opened.contains id then "[...]"
            else
              "[" ++ ", ".intercalate
                ((heap.elements id).map (heap.textWithin budget links (id :: opened))) ++ "]"
        | .exception id =>
            let exception := heap.exception id
            let head := exception.type.name ++ ": " ++ exception.message
            match exception.cause with
            | none => head
            | some cause =>
                head ++ "\ncaused by: " ++ heap.textWithin budget (links + 1) opened cause
        | leaf => heap.leafText leaf

/-- Every step either opens another array or follows another link. -/
def text (heap : Heap Code) (value : Value) : String :=
  heap.textWithin (heap.arrays.size + maxLinks + 2) 0 [] value

def faultMessage (heap : Heap Code) (fault : Fault) : String := fault.messageWith heap.text

def failureMessage (heap : Heap Code) (failure : Failure) : String :=
  heap.faultMessage failure.fault ++ String.join (failure.notes.map ("\n  note: " ++ ·))

end ScopeMachine.Heap
