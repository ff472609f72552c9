import ScopeMachine.Limits

namespace ScopeMachine

inductive BackendError where
  | codeTooLarge (name : String)
  | unsupported (backend construct : String)
  deriving DecidableEq, Repr

def BackendError.message : BackendError → String
  | .codeTooLarge name => "generated code too large: " ++ name
  | .unsupported backend construct => backend ++ " backend cannot handle " ++ construct

abbrev Factory (Source Runnable : Type) : Type :=
  Source → Except BackendError (Option Runnable)

structure Backends (Source Runnable : Type) where
  compiler : Option (Factory Source Runnable)
  interpreter : Factory Source Runnable

namespace Backends

variable {Source Runnable : Type}

def interpret (backends : Backends Source Runnable) (source : Source) :
    Except BackendError Runnable :=
  match backends.interpreter source with
  | .ok (some runnable) => .ok runnable
  | .ok none => .error (.unsupported "interpreter" "node")
  | .error error => .error error

def create (backends : Backends Source Runnable) (limits : Limits) (source : Source) :
    Except BackendError Runnable :=
  match backends.compiler with
  | some compiler =>
      if limits.useCompiler then
        match compiler source with
        | .ok (some runnable) => .ok runnable
        | _ => backends.interpret source
      else backends.interpret source
  | none => backends.interpret source

end Backends

end ScopeMachine
