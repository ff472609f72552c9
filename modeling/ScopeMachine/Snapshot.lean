import ScopeMachine.Heap.Members
import ScopeMachine.Value.Rendering

namespace ScopeMachine

/-- A value written out in full at one moment. Something met again while it is being written is
given by its position among those being written, the outermost first. -/
inductive Snapshot where
  | null
  | bool (value : Bool)
  | exact (value : Int64)
  | inexact (value : Float)
  | text (value : String)
  | type (type : BuiltinType)
  | array (frozen : Bool) (elements : List Snapshot)
  | function (name : String)
  | object (maker : Option String) (members : List (String × Snapshot))
  | exception (type : BuiltinType) (message : String) (cause : Option Snapshot)
  | cycle (position : Nat)
  deriving Inhabited

structure FailureSnapshot where
  fault : Fault
  message : String
  severity : Severity
  backtrace : Option Backtrace
  notes : List String
  thrown : Option Snapshot

namespace Heap

variable {Code : Type}

def memberValues (heap : Heap Code) (id : ScopeId) : List (String × Value) :=
  let scope := heap.scope id
  (heap.memberNames id).filterMap fun name => do
    let slot ← scope.index.slot? name
    let cell ← scope.members.cell? slot heap.memory
    pure (name, (heap.cell cell).value)

def snapshotWithin (heap : Heap Code) : Nat → List Handle → Value → Snapshot
  | 0, _, _ => .null
  | budget + 1, opened, value =>
      let nested (handle : Handle) (content : (Value → Snapshot) → Snapshot) : Snapshot :=
        match opened.reverse.findIdx? (· == handle) with
        | some position => .cycle position
        | none => content (heap.snapshotWithin budget (handle :: opened))
      match value with
      | .null => .null
      | .bool value => .bool value
      | .exact value => .exact value
      | .inexact value => .inexact value
      | .text value => .text value
      | .type type => .type type
      | .function id => .function (heap.functionName id)
      | .array id =>
          nested (.array id) fun inner =>
            .array (heap.array id).frozen ((heap.elements id).map inner)
      | .object scope =>
          nested (.scope scope) fun inner =>
            .object ((heap.constructedBy? scope).map heap.functionName)
              ((heap.memberValues scope).map fun (name, value) => (name, inner value))
      | .exception id =>
          nested (.exception id) fun inner =>
            let exception := heap.exception id
            .exception exception.type exception.message (exception.cause.map inner)

def snapshot (heap : Heap Code) (value : Value) : Snapshot :=
  heap.snapshotWithin
    (heap.arrays.size + heap.scopes.size + heap.exceptions.size + 1) [] value

def failureSnapshot (heap : Heap Code) (failure : Failure) : FailureSnapshot where
  fault := failure.fault
  message := heap.failureMessage failure
  severity := failure.severity
  backtrace := failure.backtrace
  notes := failure.notes
  thrown := match failure.fault with
    | .thrown value => some (heap.snapshot value)
    | _ => none

end Heap

end ScopeMachine
