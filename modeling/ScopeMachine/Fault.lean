import ScopeMachine.Backtrace
import ScopeMachine.Value.Basic

namespace ScopeMachine

/-- What went wrong. -/
inductive Fault where
  | thrown (value : Value)
  | illegalArgument (message : String)
  | arityMismatch (name : String) (expected : Nat) (variadic : Bool) (got : Nat)
  | noSuchMember (name : String)
  | unsupportedOperation (operation : String)
  /-- The name is empty when the member is not known by name. -/
  | constReassignment (name : String)
  | notCallable (typeName : String)
  | stackOverflow (depth : Nat)
  | arenaExhausted (requested available capacity : Nat)
  | internalInvariant (message : String)
  | exit (code : Int)
  deriving Repr, Inhabited

inductive Severity where
  | script
  | fatal
  | exit
  deriving DecidableEq, Repr

namespace Fault

def severity : Fault → Severity
  | .stackOverflow _ | .arenaExhausted .. | .internalInvariant _ => .fatal
  | .exit _ => .exit
  | _ => .script

def exceptionType? : Fault → Option BuiltinType
  | .illegalArgument _ | .arityMismatch .. | .constReassignment _ => some .illegalArgument
  | .noSuchMember _ => some .noSuchMember
  | .unsupportedOperation _ | .notCallable _ => some .unsupportedOperation
  | _ => none

def messageWith (describe : Value → String) : Fault → String
  | .thrown value => describe value
  | .illegalArgument message => "illegal argument: " ++ message
  | .arityMismatch name expected variadic got =>
      "wrong number of args! " ++ name ++ " expects " ++
        (if variadic then "at least " else "") ++ toString expected ++ ", got " ++ toString got
  | .noSuchMember name => "no such member: " ++ name
  | .unsupportedOperation operation => operation ++ ": unsupported operation"
  | .constReassignment name =>
      "cannot reassign const member" ++ (if name.isEmpty then "" else " " ++ name)
  | .notCallable typeName => typeName ++ " is not callable"
  | .stackOverflow depth => "stack overflow: more than " ++ toString depth ++ " frames"
  | .arenaExhausted requested available capacity =>
      "members arena exhausted: " ++ toString requested ++ " slots requested, " ++
        toString available ++ " of " ++ toString capacity ++ " free"
  | .internalInvariant message => "internal invariant violated: " ++ message
  | .exit code => "exit requested with code " ++ toString code

end Fault

/-- A fault on its way out, with the frames it left and notes added underway. -/
structure Failure where
  fault : Fault
  backtrace : Option Backtrace := none
  notes : List String := []
  deriving Repr, Inhabited

namespace Failure

def severity (failure : Failure) : Severity := failure.fault.severity

def isCatchable (failure : Failure) : Bool := failure.severity == .script

def handles (failure : Failure) : List Handle :=
  match failure.fault with
  | .thrown value => value.handles
  | _ => []

def withNote (failure : Failure) (note : String) : Failure :=
  { failure with notes := failure.notes ++ [note] }

def withBacktrace (failure : Failure) (backtrace : Backtrace) : Failure :=
  { failure with backtrace := some backtrace }

end Failure

end ScopeMachine
