import ScopeMachine.Heap.Basic

namespace ScopeMachine.Heap

variable {Code : Type}

inductive Step (α : Type) where
  | stop (result : Option α)
  | outward
  | jump (next : ScopeId)

def walkWithin {α : Type} (heap : Heap Code) (step : ScopeId → Scope → Step α) :
    Nat → ScopeId → Option α
  | 0, _ => none
  | budget + 1, id =>
      let scope := heap.scope id
      match step id scope with
      | .stop result => result
      | .jump next => heap.walkWithin step budget next
      | .outward =>
          match scope.previous with
          | none => none
          | some next => heap.walkWithin step budget next

def walk {α : Type} (heap : Heap Code) (step : ScopeId → Scope → Step α) (id : ScopeId) :
    Option α :=
  heap.walkWithin step heap.scopes.size id

/-- The function that constructed an object. -/
def constructedBy? (heap : Heap Code) (id : ScopeId) : Option FunctionId :=
  heap.walk (fun _ scope =>
    match scope.kind with
    | .object function => .stop function
    | .fork object => .jump object
    | _ => .stop none) id

/-- The receiver `this` names. -/
def this? (heap : Heap Code) (id : ScopeId) : Option Value :=
  heap.walk (fun id scope =>
    match scope.kind with
    | .function { receiver := some receiver, .. } => .stop (some receiver)
    | .object _ => .stop (some (.object id))
    | .fork object => .stop (some (.object object))
    | .global => .stop none
    | _ => .outward) id

/-- What `super` names: the member a method replaced, or the super function of the class. -/
def super? (heap : Heap Code) (id : ScopeId) : Option Value :=
  heap.walk (fun _ scope =>
    match scope.kind with
    | .function invocation =>
        match (heap.function? invocation.function).bind (·.overridden) with
        | some overridden => .stop (some overridden)
        | none => .outward
    | .constructor function | .object (some function) =>
        .stop ((heap.function? function).map (·.parent))
    | .fork object => .jump object
    | .global | .object none => .stop none
    | .basic => .outward) id

def callee? (heap : Heap Code) (id : ScopeId) : Option Value :=
  heap.walk (fun _ scope =>
    match scope.kind with
    | .function invocation => .stop (some (.function invocation.function))
    | .constructor function => .stop (some (.function function))
    | .basic => .outward
    | _ => .stop none) id

def chainWithin (heap : Heap Code) : Nat → ScopeId → List ScopeId
  | 0, _ => []
  | budget + 1, id =>
      id :: match (heap.scope id).previous with
        | none => []
        | some next => heap.chainWithin budget next

def chain (heap : Heap Code) (id : ScopeId) : List ScopeId :=
  heap.chainWithin heap.scopes.size id

/-- A function with its super functions, nearest first, and the value the chain ends in. -/
structure Lineage where
  functions : List FunctionId
  root : Value
  deriving Repr

def lineageWithin (heap : Heap Code) : Nat → FunctionId → Lineage
  | 0, _ => ⟨[], .null⟩
  | budget + 1, id =>
      match heap.function? id with
      | none => ⟨[], .null⟩
      | some function =>
          match function.parent with
          | .function parent =>
              let rest := heap.lineageWithin budget parent
              ⟨id :: rest.functions, rest.root⟩
          | root => ⟨[id], root⟩

def lineage (heap : Heap Code) (id : FunctionId) : Lineage :=
  heap.lineageWithin heap.functions.size id

def extends? (heap : Heap Code) (id : FunctionId) (type : Value) : Bool :=
  let lineage := heap.lineage id
  match type with
  | .function other => lineage.functions.contains other
  | .type type =>
      match lineage.root with
      | .type root => root.isSubtype type
      | _ => false
  | _ => false

end ScopeMachine.Heap
