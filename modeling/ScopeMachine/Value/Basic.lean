import ScopeMachine.BuiltinType

namespace ScopeMachine

structure CellId where
  index : Nat
  deriving DecidableEq, Repr, Inhabited

structure ArrayId where
  index : Nat
  deriving DecidableEq, Repr, Inhabited

structure ExceptionId where
  index : Nat
  deriving DecidableEq, Repr, Inhabited

structure FunctionId where
  index : Nat
  deriving DecidableEq, Repr, Inhabited

structure ScopeId where
  index : Nat
  deriving DecidableEq, Repr, Inhabited

/-- A script value. An object is the scope that holds its members. -/
inductive Value where
  | null
  | bool (value : Bool)
  | exact (value : Int64)
  | inexact (value : Float)
  | text (value : String)
  | array (id : ArrayId)
  | function (id : FunctionId)
  | object (scope : ScopeId)
  | type (type : BuiltinType)
  | exception (id : ExceptionId)
  deriving Repr, Inhabited

/-- Whatever keeps an allocated thing alive. -/
inductive Handle where
  | cell (id : CellId)
  | array (id : ArrayId)
  | exception (id : ExceptionId)
  | function (id : FunctionId)
  | scope (id : ScopeId)
  deriving DecidableEq, Repr

namespace Handle

def isCell (handle : Handle) (id : CellId) : Bool :=
  match handle with
  | .cell wanted => wanted == id
  | _ => false

def isFunction (handle : Handle) (id : FunctionId) : Bool :=
  match handle with
  | .function wanted => wanted == id
  | _ => false

def isScope (handle : Handle) (id : ScopeId) : Bool :=
  match handle with
  | .scope wanted => wanted == id
  | _ => false

end Handle

namespace Value

def handles : Value → List Handle
  | .array id => [.array id]
  | .function id => [.function id]
  | .object scope => [.scope scope]
  | .exception id => [.exception id]
  | _ => []

def holds (handle : Handle) (value : Value) : Bool :=
  match handle, value with
  | .array wanted, .array id => wanted == id
  | .exception wanted, .exception id => wanted == id
  | .function wanted, .function id => wanted == id
  | .scope wanted, .object scope => wanted == scope
  | _, _ => false

def isNull : Value → Bool
  | .null => true
  | _ => false

/-- A count as an exact number; counts past 63 bits stop at the largest. -/
def ofCount (count : Nat) : Value := .exact (.ofNat (min count 0x7FFFFFFFFFFFFFFF))

end Value

end ScopeMachine
