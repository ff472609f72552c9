import ScopeMachine.Machine.Storage

namespace ScopeMachine

namespace Heap

variable {Code : Type}

def installBuiltins (heap : Heap Code) (scope : ScopeId) : Heap Code :=
  BuiltinType.globals.foldl
    (fun heap type =>
      let (cell, heap) := heap.createMember scope type.name (.union .publicTier .const)
      heap.modifyCell cell (·.install (.type type)))
    heap

def newEmptyGlobal (heap : Heap Code) : ScopeId × Heap Code :=
  heap.newScope (.onHeap none .empty .global)

def newGlobal (heap : Heap Code) : ScopeId × Heap Code :=
  let (scope, heap) := heap.newEmptyGlobal
  (scope, heap.installBuiltins scope)

def resetGlobal (heap : Heap Code) (scope : ScopeId) : Heap Code :=
  (heap.modifyScope scope fun data =>
    { data with index := .empty, members := .empty }).installBuiltins scope

end Heap

/-- Which global scope a machine runs against. -/
inductive GlobalChoice where
  | fresh
  | empty
  | shared
  deriving DecidableEq, Repr

namespace Machine

variable {Code : Type}

/-- A machine with nothing running. -/
def new (limits : Limits) (choice : GlobalChoice) : Machine Code :=
  let (sharedGlobal, heap) := (Heap.ofCapacity limits.arenaCapacity : Heap Code).newGlobal
  let (global, heap) :=
    match choice with
    | .fresh => heap.newGlobal
    | .empty => heap.newEmptyGlobal
    | .shared => (sharedGlobal, heap)
  { heap, frames := .empty, pool := [], limits, global, sharedGlobal, host := {} }

end Machine

end ScopeMachine
