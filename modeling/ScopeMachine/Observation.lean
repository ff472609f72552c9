import ScopeMachine.Snapshot

namespace ScopeMachine

structure FrameView where
  id : String
  file : String
  line : Nat
  scope : ScopeVariant

structure FunctionSummary where
  name : String
  comment : Option String
  arity : Nat
  variadic : Bool
  arguments : List String
  permissions : List Permission
  text : String
  parent : Snapshot
  overridden : Option Snapshot
  hasStatics : Bool
  hasSuperArguments : Bool
  captures : Bool
  blockLocals : Bool
  implicitBindings : Bool
  bodyId : String
  bodyFile : String

/-- Something a host looked at and wrote to its log. -/
inductive Observation where
  | value (value : Snapshot)
  | text (text : String)
  | array (length : Nat) (frozen : Bool)
  | backtrace (trace : Option Backtrace)
  | failure (failure : FailureSnapshot) (caught : Option Snapshot)
  | frames (frames : List FrameView)
  | state (depth watermark : Nat) (top : Option FrameView)
  | pool (count : Nat)
  | cell (value : Snapshot) (permission : Permission) (declared : Bool)
  | table (length : Nat) (inArena : Bool) (values : List Snapshot) (watermark : Nat)
  | scope (variant : ScopeVariant) (inArena : Bool) (count : Nat) (names : List String)
      (maker : Option String) (isRoot : Bool)
  | chain (variants : List ScopeVariant)
  | function (summary : FunctionSummary)

end ScopeMachine
