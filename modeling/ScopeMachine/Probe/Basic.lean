import ScopeMachine.Literal
import ScopeMachine.Machine.Calls

namespace ScopeMachine.Probe

open ScopeMachine.Action

variable {Code : Type} {α : Type}

def unexpectedOperands : Action Code α := fail (.internalInvariant "unexpected operands")

def kept (kind name : String) : Option α → Action Code α
  | some item => pure item
  | none => fail (.internalInvariant ("no " ++ kind ++ " named " ++ name))

def modifyHost (change : Host → Host) : Action Code Unit := modify (·.modifyHost change)

def unit (action : Action Code Unit) : Action Code Value := do
  action
  return .null

def emit (observation : Action Code Observation) : Action Code Value := do
  observe (← observation)
  return .null

def snapshot (value : Value) : Action Code Snapshot := readHeap (·.snapshot value)

def getReference (name : String) : Action Code CellId := do
  kept "reference" name ((← get).host.references.get? name)

def putReference (name : String) (cell : CellId) : Action Code Unit :=
  modifyHost fun host => { host with references := host.references.put name cell }

def dropReference (name : String) : Action Code Unit :=
  modifyHost fun host => { host with references := host.references.remove name }

def keepFound (name : String) : Option CellId → Action Code Value
  | some cell => do
      putReference name cell
      return .bool true
  | none => do
      dropReference name
      return .bool false

def insist (throwing : Bool) (name : String) (cell : Option CellId) :
    Action Code (Option CellId) :=
  if throwing && cell.isNone then fail (.noSuchMember name) else pure cell

def getTable (name : String) : Action Code Table := do
  kept "table" name ((← get).host.tables.get? name)

def putTable (name : String) (table : Table) : Action Code Unit :=
  modifyHost fun host => { host with tables := host.tables.put name table }

def dropTable (name : String) : Action Code Unit :=
  modifyHost fun host => { host with tables := host.tables.remove name }

def takeTable (name : String) : Action Code Table := do
  let table ← getTable name
  dropTable name
  return table

def getScope (current : ScopeId) (name : String) : Action Code ScopeId := do
  if name == "." then return current
  kept "scope" name ((← get).host.scopes.get? name)

def putScope (name : String) (scope : ScopeId) : Action Code Unit :=
  modifyHost fun host => { host with scopes := host.scopes.put name scope }

def dropScope (name : String) : Action Code Unit :=
  modifyHost fun host => { host with scopes := host.scopes.remove name }

def getFailure (name : String) : Action Code Failure := do
  kept "failure" name ((← get).host.failures.get? name)

def putFailure (name : String) (failure : Failure) : Action Code Unit :=
  modifyHost fun host => { host with failures := host.failures.put name failure }

def dropFailure (name : String) : Action Code Unit :=
  modifyHost fun host => { host with failures := host.failures.remove name }

end ScopeMachine.Probe
