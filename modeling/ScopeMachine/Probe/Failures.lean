import ScopeMachine.Probe.Basic
import ScopeMachine.Value.Equality

namespace ScopeMachine

open ScopeMachine.Action Probe

def Fault.kindName : Fault → String
  | .thrown _ => "Thrown"
  | .illegalArgument _ => "IllegalArgument"
  | .arityMismatch .. => "ArityMismatch"
  | .noSuchMember _ => "NoSuchMember"
  | .unsupportedOperation _ => "UnsupportedOperation"
  | .constReassignment _ => "ConstReassignment"
  | .notCallable _ => "NotCallable"
  | .stackOverflow _ => "StackOverflow"
  | .arenaExhausted .. => "ArenaExhausted"
  | .internalInvariant _ => "InternalInvariant"
  | .exit _ => "Exit"

inductive FailureProbe where
  | newException (type : BuiltinType) (message : String)
  | setCause
  | preserve (trace : Backtrace)
  | exceptionBacktrace
  | raise (fault : Fault)
  | info (name : String)
  | note (name text : String)
  | backtrace (name : String) (trace : Backtrace)
  | rethrow (name : String)
  | value (name : String)
  | equal (left right : String)
  | drop (name : String)

def FailureProbe.perform {Code : Type} : FailureProbe → List Value → Action Code Value
  | .newException type message, causes => do
      return .exception
        (← onHeap (·.newException { type, message, cause := causes.head? }))
  | .setCause, [.exception id, cause] => do
      onHeap fun heap => ((), heap.modifyException id ({ · with cause := some cause }))
      return .exception id
  | .preserve trace, [.exception id] => do
      onHeap fun heap => ((), heap.preserveBacktrace id trace)
      return .exception id
  | .exceptionBacktrace, [.exception id] => emit do
      return .backtrace (← readHeap (·.exception id)).backtrace
  | .raise fault, [] => fail fault
  | .info name, [] => emit do
      let failure ← getFailure name
      let caught ← onHeap (·.caught failure)
      return .failure (← readHeap (·.failureSnapshot failure)) (← caught.mapM snapshot)
  | .note name text, [] => unit do
      putFailure name ((← getFailure name).withNote text)
  | .backtrace name trace, [] => unit do
      putFailure name ((← getFailure name).withBacktrace trace)
  | .rethrow name, [] => do failWith (← getFailure name)
  | .value name, [] => do
      let failure ← getFailure name
      return (← onHeap (·.caught failure)).getD .null
  | .equal left right, [] => do
      let left ← getFailure left
      let right ← getFailure right
      return .bool (← readHeap (·.failureEqual left right))
  | .drop name, [] => unit (dropFailure name)
  | _, _ => unexpectedOperands

def Action.keepingFailure {Code : Type} (name : String) (action : Action Code Value) :
    Action Code Value :=
  fun held machine =>
    match action held machine with
    | .ok value machine =>
        holding value.handles (do dropFailure name; return value) held machine
    | .error (.failure failure) machine =>
        (do
          putFailure name failure
          return .text failure.fault.kindName : Action Code Value) held machine
    | .error .crash machine => .error .crash machine

def Action.survivingCrash {Code : Type} (action : Action Code Value) : Action Code Value :=
  fun held machine =>
    match action held machine with
    | .error .crash machine => .ok (.text "panic: evaluator panicked") machine
    | outcome => outcome

end ScopeMachine
