import ScopeMachine.Expr
import ScopeMachine.Machine.Calls

namespace ScopeMachine

open ScopeMachine.Action

abbrev Operand (Op : Type) : Type := ScopeId → Action (Expr Op) Value

/-- A host's own operations. -/
class Operations (Op : Type) where
  perform : Runner (Expr Op) → Op → List (Operand Op) → ScopeId → Action (Expr Op) Value

namespace Expr

variable {Op : Type}

def found (name : String) : Option CellId → Action (Expr Op) CellId
  | some cell => pure cell
  | none => fail (.noSuchMember name)

def valueOf (cell : CellId) : Action (Expr Op) Value := readHeap (·.memory.value cell)

def memberOf (object : Value) (name : String) : Action (Expr Op) Value := do
  valueOf (← found name (← onHeap (·.member object name)))

def sum (left right : Value) : Action (Expr Op) Value := do
  let heap := (← get).heap
  match left, right with
  | .exact a, .exact b => return .exact (a + b)
  | .text _, _ | _, .text _ => return .text (heap.text left ++ heap.text right)
  | _, _ =>
      let a ← ofExcept (heap.toInexact left)
      let b ← ofExcept (heap.toInexact right)
      return .inexact (a + b)

def callMember (run : Runner (Expr Op)) (receiver method : Value)
    (arguments : Option Table) : Action (Expr Op) Value :=
  match method with
  | .function id => callFunction run id arguments (some receiver)
  | other => callValue run other arguments

def catching (scope : ScopeId) (name : String) (body : Action (Expr Op) Value)
    (handler : ScopeId → Action (Expr Op) Value) : Action (Expr Op) Value :=
  fun held machine =>
    match body held machine with
    | .error (.failure failure) machine =>
        if failure.isCatchable then
          holding failure.handles (bindAndHandle failure) held machine
        else .error (.failure failure) machine
    | outcome => outcome
where
  bindAndHandle (failure : Failure) : Action (Expr Op) Value := do
    let caught ← onHeap (·.caught failure)
    let inner ← newScope (.onHeap (some scope) .empty .basic)
    let cell ← onHeap (·.createMember inner name .publicTier)
    onHeap fun heap => ((), heap.modifyCell cell (·.install (caught.getD .null)))
    holding [.scope inner] (handler inner)

variable [Operations Op]

mutual

def eval (run : Runner (Expr Op)) : Expr Op → ScopeId → Action (Expr Op) Value
  | .lit value, _ => pure value
  | .var name, scope => do
      valueOf (← found name (← onHeap (·.lookup scope name)))
  | .declare name permission init, scope => do
      let value ← init.eval run scope
      declareMember scope name permission value
      return value
  | .assign name value, scope => do
      let value ← value.eval run scope
      let cell ← found name (← onHeap (·.lookup scope name))
      tryHeap (·.assign cell name value)
      return value
  | .setMember object name value, scope => do
      let object ← object.eval run scope
      let value ← holding object.handles (value.eval run scope)
      match object with
      | .object target => declareMember target name .publicTier value
      | other => fail (← readHeap (·.unsupported other "member assignment"))
      return value
  | .block index body, scope => do
      let inner ← allocateBlock scope index
      holding [.scope inner] (evalSeq run body .null inner)
  | .seq body, scope => evalSeq run body .null scope
  | .define definition none, scope =>
      return .function (← makeFunction run scope none definition)
  | .define definition (some parent), scope => do
      let parent ← parent.eval run scope
      return .function (← makeFunction run scope (some parent) definition)
  | .call callee arguments, scope => do
      let callee ← callee.eval run scope
      holding callee.handles do
        let arguments ← evalEach run arguments scope
        callValue run callee (← argumentTable arguments)
  | .callMethod object name arguments, scope => do
      let receiver ← object.eval run scope
      let method ← memberOf receiver name
      let arguments ← holding (receiver.handles ++ method.handles)
        (evalEach run arguments scope)
      holding method.handles do
        callMember run receiver method (← argumentTable arguments)
  | .construct callee arguments, scope => do
      let callee ← callee.eval run scope
      holding callee.handles do
        let arguments ← evalEach run arguments scope
        constructValue run callee (← argumentTable arguments)
  | .member object name, scope => do
      memberOf (← object.eval run scope) name
  | .thisValue, scope => return (← readHeap (·.this? scope)).getD .null
  | .superValue, scope => return (← readHeap (·.super? scope)).getD .null
  | .calleeValue, scope => return (← readHeap (·.callee? scope)).getD .null
  | .add left right, scope => do
      let left ← left.eval run scope
      let right ← holding left.handles (right.eval run scope)
      sum left right
  | .throw value, scope => do
      let value ← value.eval run scope
      failWith (← readHeap (·.thrown value))
  | .attempt body name handler, scope =>
      catching scope name (body.eval run scope) fun inner => handler.eval run inner
  | .array elements, scope => do
      newArray (← evalEach run elements scope)
  | .line number, _ => do
      modify (·.modifyTop fun frame => { frame with line := number })
      return .null
  | .crash, _ => Action.crash
  | .perform op operands, scope => Operations.perform run op (delayEach run operands) scope

def evalEach (run : Runner (Expr Op)) : List (Expr Op) → ScopeId →
    Action (Expr Op) (List Value)
  | [], _ => pure []
  | first :: rest, scope => do
      let value ← first.eval run scope
      return value :: (← holding value.handles (evalEach run rest scope))

def evalSeq (run : Runner (Expr Op)) : List (Expr Op) → Value → ScopeId →
    Action (Expr Op) Value
  | [], last, _ => pure last
  | first :: rest, last, scope => do
      let value ← holding last.handles (first.eval run scope)
      evalSeq run rest value scope

def delayEach (run : Runner (Expr Op)) : List (Expr Op) → List (Operand Op)
  | [] => []
  | first :: rest => (fun scope => first.eval run scope) :: delayEach run rest

end

/-- The runner that is left when so many frames can still be opened. -/
def runnerAt : Nat → Runner (Expr Op)
  | 0 => fun _ _ => do fail (.stackOverflow (← get).limits.maxDepth)
  | frames + 1 => fun code scope => code.eval (runnerAt frames) scope

def evaluate (expr : Expr Op) (scope : ScopeId) : Action (Expr Op) Value := do
  expr.eval (runnerAt (← get).limits.maxDepth) scope

end Expr

end ScopeMachine
