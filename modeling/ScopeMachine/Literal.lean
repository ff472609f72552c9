import ScopeMachine.Heap.Basic

namespace ScopeMachine

inductive Literal where
  | null
  | bool (value : Bool)
  | exact (value : Int64)
  | inexact (value : Float)
  | text (value : String)
  | type (builtin : BuiltinType)
  | array (frozen : Bool) (elements : List Literal)
  deriving Inhabited

namespace Literal

variable {Code : Type}

mutual

def build : Literal → Heap Code → Value × Heap Code
  | .null, heap => (.null, heap)
  | .bool value, heap => (.bool value, heap)
  | .exact value, heap => (.exact value, heap)
  | .inexact value, heap => (.inexact value, heap)
  | .text value, heap => (.text value, heap)
  | .type builtin, heap => (.type builtin, heap)
  | .array frozen elements, heap =>
      let (values, heap) := buildEach elements heap
      let (id, heap) := heap.newArray values frozen
      (.array id, heap)

def buildEach : List Literal → Heap Code → List Value × Heap Code
  | [], heap => ([], heap)
  | first :: rest, heap =>
      let (value, heap) := first.build heap
      let (values, heap) := buildEach rest heap
      (value :: values, heap)

end

end Literal

end ScopeMachine
