import ScopeMachine.Machine.Storage

namespace ScopeMachine.Action

variable {Code : Type}

def arityMismatch (definition : Definition Code) (got : Nat) : Fault :=
  .arityMismatch definition.name definition.arity definition.isVariadic got

def newArray (elements : List Value) : Action Code Value := do
  return .array (← onHeap (·.newArray elements false))

def settleArguments (definition : Definition Code) (arguments : Table) : Action Code Table :=
  if definition.captures then
    onMemory fun memory =>
      let (copy, _, memory) := arguments.safeCopy memory
      (copy, memory)
  else pure arguments

/-- Brings the arguments of a call into the layout of the body: one slot for each parameter, then
one for the array of the rest. Also gives the arguments past the parameters. -/
def mapArguments (definition : Definition Code) (arguments : Table) :
    Action Code (Table × List Value) := do
  let arguments ← settleArguments definition arguments
  if !definition.accepts arguments.length then
    freeTable arguments
    fail (arityMismatch definition arguments.length)
  let trailing := (arguments.values (← get).heap.memory).drop definition.arity
  if definition.isVariadic then
    let rest ← newArray trailing
    let arguments ← releasing fun shared => arguments.truncate shared definition.arity
    return (← onMemory (arguments.push rest), trailing)
  return (arguments, trailing)

def takeValues : Option Table → Action Code (List Value)
  | none => pure []
  | some arguments => do
      let values := arguments.values (← get).heap.memory
      freeTable arguments
      return values

def declareParams (scope : ScopeId) : List Declaration → List Value → Action Code Unit
  | [], _ => pure ()
  | param :: params, values => do
      declareMember scope param.name param.permission (values.headD .null)
      declareParams scope params values.tail

/-- Declares the parameters in a scope and gives them the arguments. -/
def bindArguments (definition : Definition Code) (scope : ScopeId)
    (arguments : Option Table) : Action Code Unit := do
  let got := (arguments.getD .empty).length
  let values ← takeValues arguments
  if !definition.accepts got then
    fail (arityMismatch definition got)
  declareParams scope definition.params values
  if let some rest := definition.rest then
    let collected ← newArray (values.drop definition.arity)
    declareMember scope rest.name rest.permission collected

def argumentTable (values : List Value) : Action Code (Option Table) := do
  if values.isEmpty then return none
  let table ← allocateTable values.length
  return some (← onMemory (table.pushEach values))

end ScopeMachine.Action
