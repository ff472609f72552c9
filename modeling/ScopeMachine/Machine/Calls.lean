import ScopeMachine.Machine.Conversions

namespace ScopeMachine.Action

variable {Code : Type}

/-- Executes the code of a node in a scope. -/
abbrev Runner (Code : Type) : Type := Code → ScopeId → Action Code Value

def runNode (run : Runner Code) (node : Node Code) (scope : ScopeId) : Action Code Value :=
  inFrame node.id node.file scope (run node.code scope)

def getFunction (id : FunctionId) : Action Code (Function Code) := do
  match (← get).heap.function? id with
  | some function => return function
  | none => fail (.internalInvariant "unknown function")

def replacedMember (constructor : ScopeId) (name : String) : Action Code (Option Value) := do
  match (← get).heap.this? constructor with
  | some (.object object) =>
      let cell ← onHeap (·.ownMember object name)
      return cell.map (← get).heap.memory.value
  | _ => return none

/-- Makes a function in a scope and runs its static part. The super function is `Object` unless
another is given. -/
def makeFunction (run : Runner Code) (enclosing : ScopeId) (parent : Option Value)
    (definition : Definition Code) : Action Code FunctionId := do
  let inConstructor := ((← get).heap.scope enclosing).variant == .constructor
  let overridden ←
    if inConstructor && definition.name != "anon" then replacedMember enclosing definition.name
    else pure none
  let statics ← match definition.statics with
    | none => pure none
    | some node =>
        let scope ← newScope (.onHeap (some enclosing) (node.shape.table .all) .basic)
        let kept := (parent.toList ++ overridden.toList).flatMap Value.handles
        let _ ← holding kept (runNode run node scope)
        pure (some scope)
  onHeap (·.newFunction
    ⟨enclosing, parent.getD (.type .object), definition, statics, overridden⟩)

/-- Calls a function, with a receiver if one is given. A class with a super class of its own is
no function. A call that needs no scope runs its body in the enclosing one. -/
def callFunction (run : Runner Code) (id : FunctionId) (arguments : Option Table)
    (receiver : Option Value) : Action Code Value := do
  let function ← getFunction id
  let definition := function.definition
  match function.parent with
  | .type .object =>
      if arguments.isNone && receiver.isNone && function.overridden.isNone &&
          definition.skipsScope && (← get).limits.skipScope then
        runNode run definition.body function.enclosing
      else
        let arguments ← match arguments with
          | some arguments => pure arguments
          | none => allocateTable 0
        let (members, trailing) ← mapArguments definition arguments
        let scope ← allocateCallScope function.enclosing (definition.body.shape.table .all)
          members { function := id, receiver, trailing }
        releasingScope scope (runNode run definition.body scope)
  | _ =>
      if let some arguments := arguments then freeTable arguments
      fail (.unsupportedOperation (function.name ++ ": cannot call as function"))

def callValue (run : Runner Code) (callee : Value) (arguments : Option Table) :
    Action Code Value :=
  match callee with
  | .function id => callFunction run id arguments none
  | .type type => callType type arguments
  | other => do fail (.notCallable (← readHeap (·.typeName other)))

def superArgumentTable : Value → Action Code (Option Table)
  | .null => pure none
  | .array id => do
      let values ← readHeap (·.elements id)
      return some (← onMemory (Table.ofValues values))
  | other => do
      let typeName ← readHeap (·.typeName other)
      fail (.internalInvariant ("superclass arguments evaluated to " ++ typeName))

def extendRoot (root : Value) (arguments : Option Table) : Action Code Unit :=
  match root with
  | .type .object => do
      if let some arguments := arguments then freeTable arguments
  | .type type => fail (.unsupportedOperation (type.name ++ ": cannot extend"))
  | other => do fail (.notCallable (← readHeap (·.typeName other)))

def constructorScope (function : Function Code) (id : FunctionId) (previous : ScopeId) :
    Action Code ScopeId :=
  newScope
    (.onHeap (some previous) (function.definition.body.shape.table .privateOnly)
      (.constructor id))

def constructAlong (run : Runner Code) (object : ScopeId) (root : Value) :
    List FunctionId → ScopeId → Option Table → Action Code Unit
  | [], _, arguments => extendRoot root arguments
  | id :: supers, scope, arguments => do
      let function ← getFunction id
      let definition := function.definition
      bindArguments definition scope arguments
      let superArguments ← match definition.superArguments with
        | none => pure none
        | some node => superArgumentTable (← runNode run node scope)
      match supers with
      | [] => constructAlong run object root [] scope superArguments
      | parent :: more => do
          let parentFunction ← getFunction parent
          let fork ← newScope (.onHeap (some parentFunction.enclosing) .empty (.fork object))
          let inner ← constructorScope parentFunction parent fork
          holding [.scope inner]
            (constructAlong run object root (parent :: more) inner superArguments)
      let _ ← runNode run definition.body scope

def extendFunction (run : Runner Code) (id : FunctionId) (object : ScopeId)
    (arguments : Option Table) : Action Code Unit := do
  let function ← getFunction id
  let lineage := (← get).heap.lineage id
  let fork ← newScope (.onHeap (some function.enclosing) .empty (.fork object))
  let scope ← constructorScope function id fork
  holding [.scope scope] (constructAlong run object lineage.root lineage.functions scope arguments)

def extendValue (run : Runner Code) (callee : Value) (object : ScopeId)
    (arguments : Option Table) : Action Code Unit :=
  match callee with
  | .function id => extendFunction run id object arguments
  | root => extendRoot root arguments

/-- Makes an object and runs the constructors on it. -/
def constructFunction (run : Runner Code) (id : FunctionId) (arguments : Option Table) :
    Action Code Value := do
  let function ← getFunction id
  let lineage := (← get).heap.lineage id
  let index := function.definition.body.shape.table .publicProtected
  let object ← newScope (.onHeap (some function.enclosing) index (.object (some id)))
  let scope ← constructorScope function id object
  holding [.scope object, .scope scope]
    (constructAlong run object lineage.root lineage.functions scope arguments)
  return .object object

def constructValue (run : Runner Code) (callee : Value) (arguments : Option Table) :
    Action Code Value :=
  match callee with
  | .function id => constructFunction run id arguments
  | .type type => constructType type arguments
  | other => do fail (.notCallable (← readHeap (·.typeName other)))

end ScopeMachine.Action
