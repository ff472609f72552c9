import ScopeMachine.Machine.Global
import ScopeMachine.Probe.Basic

namespace ScopeMachine

open ScopeMachine.Action Probe

inductive ScopeProbe where
  | here
  | basic (parent : String) (index : Index)
  | allocate (parent : String) (index : Index)
  | emptyGlobal
  | newGlobal
  | sharedGlobal
  | machineGlobal
  | ofObject
  | enclosing
  | current
  | previousOf (other : String)
  | statics
  | drop
  | info
  | chain
  | debug
  | own (name reference : String)
  | lookup (name reference : String)
  | find (name : String) (throwing : Bool) (reference : String)
  | create (name : String) (permission : Permission) (reference : String)
  | this
  | super
  | callee
  | same (other : String)
  | free
  | setLine (line : Nat)

def ScopeProbe.perform {Code : Type} (name : String) (current : ScopeId) :
    ScopeProbe → List Value → Action Code Value
  | .here, [] => unit (putScope name current)
  | .basic parent index, [] => unit do
      let parent ← getScope current parent
      putScope name (← newScope (.onHeap (some parent) index .basic))
  | .allocate parent index, [] => unit do
      putScope name (← allocateBlock (← getScope current parent) index)
  | .emptyGlobal, [] => unit do putScope name (← onHeap (·.newEmptyGlobal))
  | .newGlobal, [] => unit do putScope name (← onHeap (·.newGlobal))
  | .sharedGlobal, [] => unit do putScope name (← get).sharedGlobal
  | .machineGlobal, [] => unit do putScope name (← get).global
  | .ofObject, [.object scope] => unit (putScope name scope)
  | .enclosing, [.function id] => unit do putScope name (← getFunction id).enclosing
  | .current, [] => do
      match (← get).frames.top? with
      | none =>
          dropScope name
          return .bool false
      | some top =>
          putScope name top.scope
          return .bool true
  | .previousOf other, [] => do
      let other ← getScope current other
      keepIfAny (← readHeap (·.scope other)).previous
  | .statics, [.function id] => do keepIfAny (← getFunction id).statics
  | .drop, [] => unit (dropScope name)
  | .info, [] => emit do
      let id ← target
      let heap := (← get).heap
      let scope := heap.scope id
      return .scope scope.variant scope.members.isArena scope.members.length
        (heap.memberNames id) ((heap.constructedBy? id).map heap.functionName)
        scope.previous.isNone
  | .chain, [] => emit do
      let id ← target
      return .chain (← readHeap fun heap =>
        (heap.chain id).map fun id => (heap.scope id).variant)
  | .debug, [] => emit do
      let id ← target
      return .text (← readHeap (·.scope id)).debugText
  | .own member reference, [] => do
      let id ← target
      keepFound reference (← onHeap (·.ownMember id member))
  | .lookup member reference, [] => do
      let id ← target
      keepFound reference (← onHeap (·.lookup id member))
  | .find member throwing reference, [] => do
      let id ← target
      let cell ← onHeap (·.scopeMember id member)
      keepFound reference (← insist throwing member cell)
  | .create member permission reference, [] => unit do
      let id ← target
      putReference reference (← onHeap (·.createMember id member permission))
  | .this, [] => do
      let id ← target
      return (← readHeap (·.this? id)).getD .null
  | .super, [] => do
      let id ← target
      return (← readHeap (·.super? id)).getD .null
  | .callee, [] => do
      let id ← target
      return (← readHeap (·.callee? id)).getD .null
  | .same other, [] => do
      return .bool ((← target) == (← getScope current other))
  | .free, [] => unit do
      let id ← target
      let held ← read
      modify (·.releaseScope held id)
  | .setLine line, [] => unit do
      let id ← target
      modify (·.modifyTop fun frame => { frame with scope := id, line })
  | _, _ => unexpectedOperands
where
  target : Action Code ScopeId := getScope current name
  keepIfAny : Option ScopeId → Action Code Value
    | some scope => do
        putScope name scope
        return .bool true
    | none => return .bool false

end ScopeMachine
