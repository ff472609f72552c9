import ScopeMachine.Shape
import ScopeMachine.Value.Basic

namespace ScopeMachine

/-- A piece of code as the machine sees it: the name and file it reports, the shape of the scope
it runs in, and the code itself, which only a front end can read. -/
structure Node (Code : Type) where
  id : String
  file : String
  shape : Shape
  code : Code

/-- What every function made from one definition shares. The shape of the body places the
parameters in its first slots, followed by the rest parameter if there is one. -/
structure Definition (Code : Type) where
  name : String
  body : Node Code
  /-- Runs once, when the function is made. -/
  statics : Option (Node Code) := none
  /-- Evaluates to the arguments for the super constructor. -/
  superArguments : Option (Node Code) := none
  params : List Declaration := []
  /-- Collects the arguments past the declared parameters. -/
  rest : Option Declaration := none
  /-- A nested function may close over a call's members, so they stay off the arena. -/
  captures : Bool := false
  blockLocals : Bool := false
  /-- The body names `callee` or `super`. -/
  implicitBindings : Bool := false
  comment : Option String := none

namespace Definition

variable {Code : Type}

def arity (definition : Definition Code) : Nat := definition.params.length

def isVariadic (definition : Definition Code) : Bool := definition.rest.isSome

def skipsScope (definition : Definition Code) : Bool :=
  !definition.blockLocals && !definition.implicitBindings && definition.params.isEmpty &&
    definition.rest.isNone

def accepts (definition : Definition Code) (count : Nat) : Bool :=
  count == definition.arity || (definition.isVariadic && definition.arity ≤ count)

def argumentNames (definition : Definition Code) : List String :=
  (definition.params ++ definition.rest.toList).map (·.name)

end Definition

/-- A function value: a definition closed over the scope it was made in. -/
structure Function (Code : Type) where
  enclosing : ScopeId
  parent : Value
  definition : Definition Code
  statics : Option ScopeId
  /-- The member this function replaced on the object under construction. -/
  overridden : Option Value

namespace Function

variable {Code : Type}

def name (function : Function Code) : String := function.definition.name

def holds (handle : Handle) (function : Function Code) : Bool :=
  handle.isScope function.enclosing || function.statics.any handle.isScope ||
    function.parent.holds handle || function.overridden.any (Value.holds handle)

end Function

end ScopeMachine
