import ScopeMachine.Function
import ScopeMachine.Scope

namespace ScopeMachine

structure ArrayObject where
  elements : Array Value
  frozen : Bool
  deriving Repr, Inhabited

/-- An instance of a built-in exception type. The backtrace is that of its first throw. -/
structure ExceptionObject where
  type : BuiltinType
  message : String
  cause : Option Value := none
  backtrace : Option Backtrace := none
  deriving Repr, Inhabited

/-- Everything allocated. Things are numbered in order of allocation. -/
structure Heap (Code : Type) where
  memory : Memory
  arrays : Array ArrayObject
  exceptions : Array ExceptionObject
  functions : Array (Function Code)
  scopes : Array Scope

namespace Heap

variable {Code : Type}

def ofCapacity (capacity : Nat) : Heap Code := ⟨.ofCapacity capacity, #[], #[], #[], #[]⟩

instance : Inhabited (Heap Code) := ⟨ofCapacity 0⟩

def cell (heap : Heap Code) (id : CellId) : Cell := heap.memory.cell id

def array (heap : Heap Code) (id : ArrayId) : ArrayObject := heap.arrays.getD id.index default

def elements (heap : Heap Code) (id : ArrayId) : List Value := (heap.array id).elements.toList

theorem index_lt_of_mem_elements {heap : Heap Code} {id : ArrayId} {value : Value}
    (listed : value ∈ heap.elements id) : id.index < heap.arrays.size := by
  refine Nat.lt_of_not_le fun beyond => ?_
  have absent : heap.arrays[id.index]? = none := Array.getElem?_eq_none beyond
  have empty : heap.elements id = [] := by
    rw [elements, array, Array.getD_eq_getD_getElem?, absent]
    rfl
  rw [empty] at listed
  cases listed

def exception (heap : Heap Code) (id : ExceptionId) : ExceptionObject :=
  heap.exceptions.getD id.index default

def function? (heap : Heap Code) (id : FunctionId) : Option (Function Code) :=
  heap.functions[id.index]?

def functionName (heap : Heap Code) (id : FunctionId) : String :=
  (heap.function? id).elim "" (·.name)

def scope (heap : Heap Code) (id : ScopeId) : Scope := heap.scopes.getD id.index default

def newCell (heap : Heap Code) (cell : Cell) : CellId × Heap Code :=
  let (id, memory) := heap.memory.new cell
  (id, { heap with memory })

def newArray (heap : Heap Code) (elements : List Value) (frozen : Bool) :
    ArrayId × Heap Code :=
  (⟨heap.arrays.size⟩, { heap with arrays := heap.arrays.push ⟨elements.toArray, frozen⟩ })

def newException (heap : Heap Code) (exception : ExceptionObject) :
    ExceptionId × Heap Code :=
  (⟨heap.exceptions.size⟩, { heap with exceptions := heap.exceptions.push exception })

def newFunction (heap : Heap Code) (function : Function Code) : FunctionId × Heap Code :=
  (⟨heap.functions.size⟩, { heap with functions := heap.functions.push function })

def newScope (heap : Heap Code) (scope : Scope) : ScopeId × Heap Code :=
  (⟨heap.scopes.size⟩, { heap with scopes := heap.scopes.push scope })

def modifyCell (heap : Heap Code) (id : CellId) (change : Cell → Cell) : Heap Code :=
  { heap with memory := heap.memory.modifyCell id change }

def modifyException (heap : Heap Code) (id : ExceptionId)
    (change : ExceptionObject → ExceptionObject) : Heap Code :=
  { heap with exceptions := heap.exceptions.modify id.index change }

def modifyScope (heap : Heap Code) (id : ScopeId) (change : Scope → Scope) : Heap Code :=
  { heap with scopes := heap.scopes.modify id.index change }

def setScope (heap : Heap Code) (id : ScopeId) (scope : Scope) : Heap Code :=
  heap.modifyScope id fun _ => scope

/-- A script's write to a cell. -/
def assign (heap : Heap Code) (id : CellId) (name : String) (value : Value) :
    Except Fault Unit × Heap Code :=
  let (outcome, memory) := heap.memory.assign id name value
  (outcome, { heap with memory })

/-- A frozen array refuses every change. -/
def modifyArray (heap : Heap Code) (id : ArrayId)
    (change : Array Value → Array Value) : Except Fault Unit × Heap Code :=
  if (heap.array id).frozen then
    (.error (.unsupportedOperation "write to a read-only array"), heap)
  else
    (.ok (), { heap with
      arrays := heap.arrays.modify id.index fun array =>
        { array with elements := change array.elements } })

def pushElement (heap : Heap Code) (id : ArrayId) (value : Value) :
    Except Fault Unit × Heap Code :=
  heap.modifyArray id (·.push value)

def setElement (heap : Heap Code) (id : ArrayId) (position : Nat) (value : Value) :
    Except Fault Unit × Heap Code :=
  heap.modifyArray id fun elements =>
    (elements ++ Array.replicate (position + 1 - elements.size) Value.null).setIfInBounds
      position value

/-- Only the first backtrace is kept. -/
def preserveBacktrace (heap : Heap Code) (id : ExceptionId) (backtrace : Backtrace) :
    Heap Code :=
  heap.modifyException id fun exception =>
    { exception with backtrace := exception.backtrace <|> some backtrace }

end Heap

end ScopeMachine
