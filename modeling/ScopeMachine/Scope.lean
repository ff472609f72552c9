import ScopeMachine.Shape
import ScopeMachine.Table

namespace ScopeMachine

/-- One call of a function, as its scope remembers it. -/
structure Invocation where
  function : FunctionId
  /-- A receiver given by the caller in place of the lexical one. -/
  receiver : Option Value
  /-- Arguments past the declared parameters. -/
  trailing : List Value
  /-- The binding of `in`, made on first use. -/
  trailingCell : Option CellId := none
  deriving Repr

/-- How a scope resolves `this`, `super` and `callee`, and where new members land. -/
inductive ScopeKind where
  | global
  | basic
  | function (invocation : Invocation)
  | constructor (maker : FunctionId)
  | object (maker : Option FunctionId)
  | fork (target : ScopeId)
  deriving Repr

inductive ScopeVariant where
  | global
  | basic
  | function
  | constructor
  | object
  | fork
  deriving DecidableEq, Repr

def ScopeVariant.name : ScopeVariant → String
  | .global => "Global"
  | .basic => "Basic"
  | .function => "Function"
  | .constructor => "Constructor"
  | .object => "Object"
  | .fork => "Fork"

namespace ScopeKind

def variant : ScopeKind → ScopeVariant
  | .global => .global
  | .basic => .basic
  | .function _ => .function
  | .constructor _ => .constructor
  | .object _ => .object
  | .fork _ => .fork

def holds (handle : Handle) : ScopeKind → Bool
  | .global | .basic | .object none => false
  | .function invocation =>
      handle.isFunction invocation.function || invocation.receiver.any (Value.holds handle) ||
        invocation.trailing.any (Value.holds handle) ||
        invocation.trailingCell.any handle.isCell
  | .constructor maker | .object (some maker) => handle.isFunction maker
  | .fork target => handle.isScope target

end ScopeKind

/-- One environment: members by slot, the names of the slots, and the scope further out. -/
structure Scope where
  previous : Option ScopeId
  index : Index
  members : Table
  kind : ScopeKind
  /-- Returns to the pool when it is released. -/
  pooled : Bool
  deriving Repr

namespace Scope

/-- A scope on the heap with no members yet. -/
def onHeap (previous : Option ScopeId) (index : Index) (kind : ScopeKind) : Scope :=
  ⟨previous, index, .empty, kind, false⟩

def vacant (index : Index) : Scope := onHeap none index .basic

instance : Inhabited Scope := ⟨vacant .empty⟩

def variant (scope : Scope) : ScopeVariant := scope.kind.variant

def holds (handle : Handle) (scope : Scope) : Bool :=
  scope.previous.any handle.isScope || scope.members.heapCells.any handle.isCell ||
    scope.kind.holds handle

def debugText (scope : Scope) : String :=
  Text.record "ScopeRef"
    [("variant", scope.variant.name), ("members", toString scope.members.length)]

end Scope

end ScopeMachine
