import ScopeMachine.Heap.Walk

namespace ScopeMachine.Heap

variable {Code : Type}

/-- The cell at a slot of a scope's table, which grows as needed. -/
def slotCell (heap : Heap Code) (id : ScopeId) (slot : Nat) : CellId × Heap Code :=
  let (cell, members, memory) := (heap.scope id).members.cellAt slot heap.memory
  (cell, { heap with memory }.modifyScope id fun scope => { scope with members })

/-- The binding of `in`: the trailing arguments as a frozen array. -/
def trailingCell (heap : Heap Code) (id : ScopeId) (invocation : Invocation) :
    CellId × Heap Code :=
  match invocation.trailingCell with
  | some cell => (cell, heap)
  | none =>
      let (array, heap) := heap.newArray invocation.trailing true
      let (cell, heap) := heap.newCell (.constant (.array array))
      (cell, heap.modifyScope id fun scope =>
        { scope with kind := .function { invocation with trailingCell := some cell } })

def storedMember (heap : Heap Code) (id : ScopeId) (name : String) :
    Option CellId × Heap Code :=
  let scope := heap.scope id
  match scope.kind, scope.index.slot? name with
  | .function _, some slot =>
      let (cell, heap) := heap.slotCell id slot
      (if (heap.cell cell).isInvalid then none else some cell, heap)
  | .function invocation, none =>
      if name == "in" then
        let (cell, heap) := heap.trailingCell id invocation
        (some cell, heap)
      else (none, heap)
  | _, some slot =>
      ((scope.members.cell? slot heap.memory).filter fun cell => (heap.cell cell).isVisible,
        heap)
  | _, none => (none, heap)

def forkedWithin (heap : Heap Code) : Nat → ScopeId → ScopeId
  | 0, id => id
  | budget + 1, id =>
      match (heap.scope id).kind with
      | .fork object => heap.forkedWithin budget object
      | _ => id

def forked (heap : Heap Code) (id : ScopeId) : ScopeId :=
  heap.forkedWithin heap.scopes.size id

/-- A member bound directly in a scope. -/
def ownMember (heap : Heap Code) (id : ScopeId) (name : String) : Option CellId × Heap Code :=
  heap.storedMember (heap.forked id) name

def memberNames (heap : Heap Code) (id : ScopeId) : List String :=
  let scope := heap.scope id
  (List.range scope.index.size).filterMap fun slot =>
    match scope.members.cell? slot heap.memory with
    | some cell => if (heap.cell cell).isVisible then scope.index.nameAt? slot else none
    | none => none

def landingWithin (heap : Heap Code) (permission : Permission) : Nat → ScopeId → ScopeId
  | 0, id => id
  | budget + 1, id =>
      let scope := heap.scope id
      match scope.kind, scope.previous with
      | .constructor _, some previous =>
          if permission.declared.isPrivate then id
          else heap.landingWithin permission budget previous
      | .fork object, _ => heap.landingWithin permission budget object
      | _, _ => id

def landing (heap : Heap Code) (permission : Permission) (id : ScopeId) : ScopeId :=
  heap.landingWithin permission heap.scopes.size id

/-- Declares a member and returns its cell. A name outside the shape joins this scope's own copy
of the index. -/
def createMember (heap : Heap Code) (id : ScopeId) (name : String) (permission : Permission) :
    CellId × Heap Code :=
  let target := heap.landing permission id
  let (slot, index) := (heap.scope target).index.insert name permission
  let heap := heap.modifyScope target fun scope => { scope with index }
  let (cell, heap) := heap.slotCell target slot
  (cell, heap.modifyCell cell (·.declare permission))

def orElse {α : Type} (found : Option α × Heap Code) (next : Heap Code → Option α × Heap Code) :
    Option α × Heap Code :=
  match found with
  | (some result, heap) => (some result, heap)
  | (none, heap) => next heap

def firstFound {α Place : Type} (ask : Place → Heap Code → Option α × Heap Code) :
    List Place → Heap Code → Option α × Heap Code
  | [], heap => (none, heap)
  | place :: others, heap => orElse (ask place heap) (firstFound ask others)

def lookupAlong (heap : Heap Code) (name : String) (chain : List ScopeId) :
    Option CellId × Heap Code :=
  firstFound (fun id heap => heap.ownMember id name) chain heap

/-- Resolves a name lexically: this scope, then each scope further out. -/
def lookup (heap : Heap Code) (id : ScopeId) (name : String) : Option CellId × Heap Code :=
  heap.lookupAlong name (heap.chain id)

def staticMember (heap : Heap Code) (id : FunctionId) (name : String) :
    Option CellId × Heap Code :=
  match (heap.function? id).bind (·.statics) with
  | none => (none, heap)
  | some scope => heap.ownMember scope name

def firstStatic (heap : Heap Code) (name : String) (functions : List FunctionId) :
    Option CellId × Heap Code :=
  firstFound (fun id heap => heap.staticMember id name) functions heap

def typeMember (heap : Heap Code) (id : FunctionId) (name : String) :
    Option CellId × Heap Code :=
  heap.firstStatic name (heap.lineage id).functions.reverse

def sharedMember (heap : Heap Code) (id : ScopeId) (name : String) : Option CellId × Heap Code :=
  match heap.constructedBy? id with
  | some function => heap.typeMember function name
  | none => (none, heap)

def scopeMember (heap : Heap Code) (id : ScopeId) (name : String) :
    Option CellId × Heap Code :=
  orElse (heap.ownMember id name) (·.sharedMember id name)

end ScopeMachine.Heap
