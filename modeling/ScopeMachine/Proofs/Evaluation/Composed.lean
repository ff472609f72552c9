import ScopeMachine.Evaluation
import ScopeMachine.Proofs.Running
import ScopeMachine.Script

namespace ScopeMachine

open ScopeMachine.Action

def Fault.isThrown : Fault → Bool
  | .thrown _ => true
  | _ => false

/-- The code that a function made from the definition may come to run. -/
def Definition.nodes {Code : Type} (definition : Definition Code) : List (Node Code) :=
  definition.body :: (definition.statics.toList ++ definition.superArguments.toList)

/-- The steps on the heap that an evaluation takes. -/
inductive Heap.Deed {Code : Type} : {α : Type} → (Heap Code → α × Heap Code) → Prop where
  | lookup (scope : ScopeId) (name : String) : Deed (·.lookup scope name)
  | ownMember (scope : ScopeId) (name : String) : Deed (·.ownMember scope name)
  | member (value : Value) (name : String) : Deed (·.member value name)
  | createMember (scope : ScopeId) (name : String) (permission : Permission) :
      Deed (·.createMember scope name permission)
  | assign (cell : CellId) (name : String) (value : Value) : Deed (·.assign cell name value)
  | install (cell : CellId) (value : Value) :
      Deed fun heap => ((), heap.modifyCell cell (·.install value))
  | newArray (elements : List Value) (frozen : Bool) : Deed (·.newArray elements frozen)
  | newException (exception : ExceptionObject) : Deed (·.newException exception)
  | newFunction (function : Function Code) : Deed (·.newFunction function)
  | newScope (previous : ScopeId) (index : Index) (kind : ScopeKind) :
      Deed (·.newScope (.onHeap (some previous) index kind))
  | caught (failure : Failure) : Deed (·.caught failure)
  | ofValues (values : List Value) :
      Deed fun heap =>
        ((Table.ofValues values heap.memory).1,
          { heap with memory := (Table.ofValues values heap.memory).2 })

namespace Action

variable {Code : Type} {α : Type}

/-- Brings a function's arguments into the layout of its body and makes the scope of the call. -/
def enterCall (function : Function Code) (id : FunctionId) (arguments : Table)
    (receiver : Option Value) : Action Code ScopeId := do
  let (members, trailing) ← mapArguments function.definition arguments
  allocateCallScope function.enclosing (function.definition.body.shape.table .all) members
    { function := id, receiver, trailing }

theorem enterCall_bind (function : Function Code) (id : FunctionId) (arguments : Table)
    (receiver : Option Value) (next : ScopeId → Action Code α) :
    enterCall function id arguments receiver >>= next =
      mapArguments function.definition arguments >>= fun (members, trailing) =>
        allocateCallScope function.enclosing (function.definition.body.shape.table .all) members
          { function := id, receiver, trailing } >>= next := by
  unfold enterCall
  rw [bind_assoc]

/-- Goes on after a failure that a script may catch. -/
def rescuing (body : Action Code Value) (rescue : Failure → Action Code Value) :
    Action Code Value :=
  fun held machine =>
    match body held machine with
    | .error (.failure failure) machine =>
        if failure.isCatchable then holding failure.handles (rescue failure) held machine
        else .error (.failure failure) machine
    | outcome => outcome

/-- Binds a caught value in a scope of its own. -/
def catchScope (scope : ScopeId) (name : String) (failure : Failure) : Action Code ScopeId := do
  let caught ← onHeap (·.caught failure)
  let inner ← newScope (.onHeap (some scope) .empty .basic)
  let cell ← onHeap (·.createMember inner name .publicTier)
  onHeap fun heap => ((), heap.modifyCell cell (·.install (caught.getD .null)))
  return inner

/-- Only a constant refuses a write, and nothing is written then. -/
theorem assign_refused {heap heap' : Heap Code} {cell : CellId} {name : String} {value : Value}
    {fault : Fault} (refused : heap.assign cell name value = (.error fault, heap')) :
    fault = .constReassignment name ∧ heap' = heap := by
  unfold Heap.assign Memory.assign at refused
  cases stated : (heap.memory.cell cell).assign name value with
  | ok written =>
      rw [stated] at refused
      cases refused
  | error fault =>
      rw [stated] at refused
      cases refused
      unfold Cell.assign at stated
      split at stated
      next => exact ⟨(Except.error.inj stated).symm, rfl⟩
      next => cases stated

theorem tryAssign_eq (cell : CellId) (name : String) (value : Value) :
    (tryHeap (·.assign cell name value) : Action Code Unit) =
      (get : Action Code (Machine Code)) >>= fun machine =>
        match (machine.heap.assign cell name value).1 with
        | .ok () => onHeap (·.assign cell name value) >>= fun _ => pure ()
        | .error fault => fail fault := by
  funext held machine
  simp only [run_tryHeap, run_bind, run_get, andThen_ok]
  cases written : machine.heap.assign cell name value with
  | mk outcome heap =>
      cases outcome with
      | ok => simp [written]
      | error fault =>
          obtain ⟨-, rfl⟩ := assign_refused written
          rfl

theorem readHeap_fail (question : Heap Code → Fault) :
    (readHeap question >>= fail : Action Code α) =
      (get : Action Code (Machine Code)) >>= fun machine => fail (question machine.heap) := rfl

inductive Composed {Code : Type} : {α : Type} → Action Code α → Prop where
  | pure {α : Type} (result : α) : Composed (pure result)
  | fail {α : Type} (fault : Fault) (unthrown : fault.isThrown = false) :
      Composed (fail fault : Action Code α)
  | throw {α : Type} (value : Value) :
      Composed (readHeap (·.thrown value) >>= failWith : Action Code α)
  | crash {α : Type} : Composed (crash : Action Code α)
  | get : Composed (get : Action Code (Machine Code))
  | bind {α β : Type} {first : Action Code α} {next : α → Action Code β}
      (former : Composed first) (latter : ∀ result, Composed (next result)) :
      Composed (first >>= next)
  | holding {α : Type} {action : Action Code α} (handles : List Handle)
      (inner : Composed action) : Composed (holding handles action)
  | onHeap {α : Type} {step : Heap Code → α × Heap Code} (deed : Heap.Deed step) :
      Composed (onHeap step)
  | setLine (line : Nat) : Composed (modify (·.modifyTop fun frame => { frame with line }))
  | freeTable (table : Table) : Composed (freeTable table)
  | allocateTable (size : Nat) : Composed (allocateTable size)
  | pushEach (table : Table) (values : List Value) :
      Composed (onMemory (table.pushEach values))
  | allocateBlock (previous : ScopeId) (index : Index) :
      Composed (allocateBlock previous index)
  | inFrame {body : Action Code Value} (id file : String) (scope : ScopeId)
      (inner : Composed body) : Composed (inFrame id file scope body)
  | call {body : ScopeId → Action Code Value} (function : Function Code) (id : FunctionId)
      (arguments : Table) (receiver : Option Value) (inner : ∀ scope, Composed (body scope)) :
      Composed (enterCall function id arguments receiver >>= fun scope =>
        releasingScope scope (body scope))
  | rescuing {body : Action Code Value} {rescue : Failure → Action Code Value}
      (inner : Composed body) (handler : ∀ failure, Composed (rescue failure)) :
      Composed (rescuing body rescue)

namespace Composed

theorem toBool_unthrown (heap : Heap Code) (value : Value) (fault : Fault)
    (refused : heap.toBool value = .error fault) : fault.isThrown = false := by
  cases value <;> cases refused <;> rfl

theorem toExact_unthrown (heap : Heap Code) (value : Value) (fault : Fault)
    (refused : heap.toExact value = .error fault) : fault.isThrown = false := by
  unfold Heap.toExact at refused
  split at refused
  next => cases refused
  next => cases refused
  next => split at refused <;> cases refused; rfl
  next => cases refused; rfl

theorem toInexact_unthrown (heap : Heap Code) (value : Value) (fault : Fault)
    (refused : heap.toInexact value = .error fault) : fault.isThrown = false := by
  unfold Heap.toInexact at refused
  split at refused
  next => cases refused
  next => cases refused
  next => split at refused <;> cases refused; rfl
  next => cases refused; rfl

end Composed

/-- A property that the parts of evaluations have, and that putting them together keeps. The host's
write is one of the parts only where a caught value is bound. -/
structure Compositional {Code : Type} (Holds : {α : Type} → Action Code α → Prop) : Prop where
  pure : ∀ {α : Type} (result : α), Holds (pure result)
  fail : ∀ {α : Type} (fault : Fault), fault.isThrown = false → Holds (fail fault : Action Code α)
  throw : ∀ {α : Type} (value : Value),
    Holds (readHeap (·.thrown value) >>= failWith : Action Code α)
  crash : ∀ {α : Type}, Holds (crash : Action Code α)
  get : Holds (get : Action Code (Machine Code))
  bind : ∀ {α β : Type} {first : Action Code α} {next : α → Action Code β},
    Holds first → (∀ result, Holds (next result)) → Holds (first >>= next)
  holding : ∀ {α : Type} {action : Action Code α} (handles : List Handle),
    Holds action → Holds (holding handles action)
  lookup : ∀ scope name, Holds (onHeap (·.lookup scope name))
  ownMember : ∀ scope name, Holds (onHeap (·.ownMember scope name))
  member : ∀ value name, Holds (onHeap (·.member value name))
  createMember : ∀ scope name permission, Holds (onHeap (·.createMember scope name permission))
  assign : ∀ cell name value, Holds (onHeap (·.assign cell name value))
  makeArray : ∀ elements frozen, Holds (onHeap (·.newArray elements frozen))
  makeException : ∀ exception, Holds (onHeap (·.newException exception))
  newFunction : ∀ function, Holds (onHeap (·.newFunction function))
  newScope : ∀ previous index kind, Holds (newScope (.onHeap (some previous) index kind))
  ofValues : ∀ values, Holds (onHeap fun heap =>
    ((Table.ofValues values heap.memory).1,
      { heap with memory := (Table.ofValues values heap.memory).2 }))
  catchScope : ∀ scope name failure, Holds (catchScope scope name failure)
  setLine : ∀ line, Holds (modify (·.modifyTop fun frame => { frame with line }))
  freeTable : ∀ table, Holds (freeTable table)
  allocateTable : ∀ size, Holds (allocateTable size)
  pushEach : ∀ (table : Table) values, Holds (onMemory (table.pushEach values))
  allocateBlock : ∀ previous index, Holds (allocateBlock previous index)
  inFrame : ∀ {body : Action Code Value} (id file : String) (scope : ScopeId),
    Holds body → Holds (inFrame id file scope body)
  call : ∀ {body : ScopeId → Action Code Value} (function : Function Code) (id : FunctionId)
    (arguments : Table) (receiver : Option Value), (∀ scope, Holds (body scope)) →
    Holds (enterCall function id arguments receiver >>= fun scope =>
      releasingScope scope (body scope))
  rescuing : ∀ {body : Action Code Value} {rescue : Failure → Action Code Value},
    Holds body → (∀ failure, Holds (rescue failure)) → Holds (rescuing body rescue)

theorem Composed.rules : Compositional (@Composed Code) where
  pure := .pure
  fail := .fail
  throw := .throw
  crash := .crash
  get := .get
  bind := .bind
  holding := .holding
  lookup scope name := .onHeap (.lookup scope name)
  ownMember scope name := .onHeap (.ownMember scope name)
  member value name := .onHeap (.member value name)
  createMember scope name permission := .onHeap (.createMember scope name permission)
  assign cell name value := .onHeap (.assign cell name value)
  makeArray elements frozen := .onHeap (.newArray elements frozen)
  makeException exception := .onHeap (.newException exception)
  newFunction function := .onHeap (.newFunction function)
  newScope previous index kind := .onHeap (.newScope previous index kind)
  ofValues values := .onHeap (.ofValues values)
  catchScope _ _ failure :=
    .bind (.onHeap (.caught failure)) fun _ => .bind (.onHeap (.newScope ..)) fun _ =>
      .bind (.onHeap (.createMember ..)) fun _ => .bind (.onHeap (.install ..)) fun _ => .pure _
  setLine := .setLine
  freeTable := .freeTable
  allocateTable := .allocateTable
  pushEach := .pushEach
  allocateBlock := .allocateBlock
  inFrame := .inFrame
  call := .call
  rescuing := .rescuing

namespace Compositional

variable {Holds : {α : Type} → Action Code α → Prop} (rules : Compositional Holds)

include rules

private theorem readHeap (question : Heap Code → α) : Holds (readHeap question) :=
  rules.bind rules.get fun _ => rules.pure _

private theorem ofExcept {outcome : Except Fault α}
    (unthrown : ∀ fault, outcome = .error fault → fault.isThrown = false) :
    Holds (ofExcept outcome : Action Code α) := by
  cases outcome with
  | ok result => exact rules.pure result
  | error fault => exact rules.fail fault (unthrown fault rfl)

private theorem tryAssign (cell : CellId) (name : String) (value : Value) :
    Holds (tryHeap (·.assign cell name value) : Action Code Unit) := by
  rw [tryAssign_eq]
  refine rules.bind rules.get fun machine => ?_
  cases written : machine.heap.assign cell name value with
  | mk outcome heap =>
      cases outcome with
      | ok => exact rules.bind (rules.assign cell name value) fun _ => rules.pure _
      | error fault =>
          obtain ⟨rfl, -⟩ := assign_refused written
          exact rules.fail _ rfl

private theorem failAfter {question : Heap Code → Fault}
    (unthrown : ∀ heap, (question heap).isThrown = false) :
    Holds (Action.readHeap question >>= Action.fail : Action Code α) := by
  rw [readHeap_fail]
  exact rules.bind rules.get fun machine => rules.fail _ (unthrown machine.heap)

private theorem newArray (elements : List Value) : Holds (newArray elements : Action Code Value) :=
  rules.bind (rules.makeArray elements false) fun _ => rules.pure _

theorem getFunction (id : FunctionId) : Holds (getFunction id : Action Code _) := by
  refine rules.bind rules.get fun machine => ?_
  split
  next function _ => exact rules.pure function
  next => exact rules.fail _ rfl

theorem declareMember (scope : ScopeId) (name : String) (permission : Permission)
    (value : Value) : Holds (declareMember scope name permission value : Action Code Unit) :=
  rules.bind (rules.createMember ..) fun cell => rules.tryAssign cell name value

private theorem declareParams (scope : ScopeId) (params : List Declaration) (values : List Value) :
    Holds (declareParams scope params values : Action Code Unit) := by
  induction params generalizing values with
  | nil => exact rules.pure ()
  | cons param params induction =>
      exact rules.bind (rules.declareMember ..) fun _ => induction values.tail

private theorem takeValues (arguments : Option Table) :
    Holds (takeValues arguments : Action Code (List Value)) := by
  cases arguments with
  | none => exact rules.pure []
  | some table =>
      exact rules.bind rules.get fun _ =>
        rules.bind (rules.freeTable table) fun _ => rules.pure _

private theorem either {β : Type} {condition : Prop} [Decidable condition] {yes no : Action Code β}
    {next : β → Action Code α} (taken : Holds yes) (other : Holds no)
    (latter : ∀ result, Holds (next result)) :
    Holds (if condition then yes >>= next else no >>= next) := by
  split
  next => exact rules.bind taken latter
  next => exact rules.bind other latter

private theorem guarded {condition : Prop} [Decidable condition] {first : Action Code Unit}
    {next : Unit → Action Code α} (former : Holds first)
    (latter : ∀ result, Holds (next result)) :
    Holds (if condition then first >>= next else next ()) :=
  rules.either former (rules.pure ()) latter

theorem bindArguments (definition : Definition Code) (scope : ScopeId)
    (arguments : Option Table) : Holds (bindArguments definition scope arguments) := by
  refine rules.bind (rules.takeValues arguments) fun values =>
    rules.guarded (rules.fail _ rfl) fun _ => ?_
  refine rules.bind (rules.declareParams ..) fun _ => ?_
  split
  next => exact rules.bind (rules.newArray _) fun _ => rules.declareMember ..
  next => exact rules.pure ()

theorem argumentTable (values : List Value) :
    Holds (argumentTable values : Action Code (Option Table)) := by
  unfold Action.argumentTable
  split
  next => exact rules.pure none
  next =>
    exact rules.bind (rules.allocateTable values.length) fun table =>
      rules.bind (rules.pushEach table values) fun _ => rules.pure _

/-! The call protocols. -/

section Calls

variable {run : Runner Code} (holds : ∀ code scope, Holds (run code scope))

include holds

theorem runNode (node : Node Code) (scope : ScopeId) : Holds (runNode run node scope) :=
  rules.inFrame node.id node.file scope (holds node.code scope)

theorem makeFunction (enclosing : ScopeId) (parent : Option Value)
    (definition : Definition Code) : Holds (makeFunction run enclosing parent definition) := by
  refine rules.bind rules.get fun machine => ?_
  have replaced : Holds (replacedMember enclosing definition.name : Action Code _) := by
    refine rules.bind rules.get fun machine => ?_
    split
    next =>
      exact rules.bind (rules.ownMember ..) fun _ => rules.bind rules.get fun _ => rules.pure _
    next => exact rules.pure none
  refine rules.either replaced (rules.pure none) fun overridden => ?_
  have last (statics : Option ScopeId) : Holds (Action.onHeap (·.newFunction
      ⟨enclosing, parent.getD (.type .object), definition, statics, overridden⟩)) :=
    rules.newFunction _
  cases definition.statics with
  | none => exact rules.bind (rules.pure none) last
  | some node =>
      exact rules.bind (rules.newScope ..) fun scope =>
        rules.bind (rules.holding _ (rules.runNode holds node scope)) fun _ =>
          rules.bind (rules.pure _) last

private theorem callFunction (id : FunctionId) (arguments : Option Table)
    (receiver : Option Value) :
    Holds (callFunction run id arguments receiver) := by
  refine rules.bind (rules.getFunction id) fun function => ?_
  have entered (table : Table) := rules.call function id table receiver
    (rules.runNode holds function.definition.body)
  simp only [enterCall_bind] at entered
  dsimp only
  split
  next =>
    refine rules.bind rules.get fun machine => ?_
    split
    next => exact rules.runNode holds function.definition.body function.enclosing
    next =>
      cases arguments with
      | none => exact rules.bind (rules.allocateTable 0) entered
      | some table => exact rules.bind (rules.pure table) entered
  next =>
    cases arguments with
    | none => exact rules.fail _ rfl
    | some table => exact rules.bind (rules.freeTable table) fun _ => rules.fail _ rfl

omit holds in
private theorem single (type : BuiltinType) (values : List Value) :
    Holds (single type values : Action Code Value) := by
  unfold Action.single
  split
  next => exact rules.pure _
  next => exact rules.fail _ rfl

omit holds in
private theorem cast {convert : Heap Code → Value → Except Fault α}
    (unthrown : ∀ heap value fault, convert heap value = .error fault → fault.isThrown = false)
    (value : Value) : Holds (cast convert value) :=
  rules.bind rules.get fun machine => rules.ofExcept (unthrown machine.heap value)

omit holds in
private theorem convert (type : BuiltinType) (values : List Value) :
    Holds (convert type values : Action Code Value) := by
  cases type with
  | string =>
      exact rules.bind (rules.single ..) fun _ => rules.bind (rules.readHeap _) fun _ =>
        rules.pure _
  | boolean =>
      exact rules.bind (rules.single ..) fun _ =>
        rules.bind (rules.cast Composed.toBool_unthrown _) fun _ => rules.pure _
  | exactNumber =>
      exact rules.bind (rules.single ..) fun _ =>
        rules.bind (rules.cast Composed.toExact_unthrown _) fun _ => rules.pure _
  | inexactNumber =>
      exact rules.bind (rules.single ..) fun _ =>
        rules.bind (rules.cast Composed.toInexact_unthrown _) fun _ => rules.pure _
  | array => exact rules.newArray values
  | _ => exact rules.fail _ rfl

omit holds in
private theorem callType (type : BuiltinType) (arguments : Option Table) :
    Holds (callType type arguments : Action Code Value) :=
  rules.bind (rules.takeValues arguments) fun values => rules.convert type values

omit holds in
private theorem newException (type : BuiltinType) (values : List Value) :
    Holds (newException type values : Action Code Value) := by
  unfold Action.newException
  exact rules.guarded (rules.fail _ rfl) fun _ =>
    rules.bind rules.get fun _ => rules.bind (rules.makeException _) fun _ => rules.pure _

omit holds in
private theorem constructType (type : BuiltinType) (arguments : Option Table) :
    Holds (constructType type arguments : Action Code Value) := by
  unfold Action.constructType
  split
  next => exact rules.bind (rules.takeValues arguments) fun values => rules.newException type values
  next =>
    split
    next =>
      refine rules.bind (rules.takeValues arguments) fun values =>
        rules.guarded (rules.fail _ rfl) fun _ => ?_
      exact rules.bind rules.get fun _ => rules.bind (rules.newScope ..) fun _ => rules.pure _
    next => exact rules.fail _ rfl
    next => exact rules.fail _ rfl
    next => exact rules.callType ..

private theorem callValue (callee : Value) (arguments : Option Table) :
    Holds (callValue run callee arguments) := by
  cases callee with
  | function id => exact rules.callFunction holds id arguments none
  | type type => exact rules.callType type arguments
  | _ => exact rules.bind (rules.readHeap _) fun _ => rules.fail _ rfl

omit holds in
theorem superArgumentTable (value : Value) :
    Holds (superArgumentTable value : Action Code (Option Table)) := by
  cases value with
  | null => exact rules.pure none
  | array id =>
      exact rules.bind (rules.readHeap _) fun values =>
        rules.bind (rules.ofValues values) fun _ => rules.pure _
  | _ => exact rules.bind (rules.readHeap _) fun _ => rules.fail _ rfl

omit holds in
theorem extendRoot (root : Value) (arguments : Option Table) :
    Holds (extendRoot root arguments : Action Code Unit) := by
  unfold Action.extendRoot
  split
  next =>
    cases arguments with
    | none => exact rules.pure ()
    | some table => exact rules.freeTable table
  next => exact rules.fail _ rfl
  next => exact rules.bind (rules.readHeap _) fun _ => rules.fail _ rfl

theorem constructAlong (object : ScopeId) (root : Value) (supers : List FunctionId)
    (scope : ScopeId) (arguments : Option Table) :
    Holds (constructAlong run object root supers scope arguments) := by
  induction supers generalizing scope arguments with
  | nil => exact rules.extendRoot root arguments
  | cons id supers induction =>
      unfold Action.constructAlong
      refine rules.bind (rules.getFunction id) fun function => ?_
      refine rules.bind (rules.bindArguments ..) fun _ => ?_
      have body : Holds (do
          let _ ← Action.runNode run function.definition.body scope : Action Code Unit) :=
        rules.bind (rules.runNode holds ..) fun _ => rules.pure ()
      cases supers with
      | nil =>
          have onward (superArguments : Option Table) :=
            rules.bind (induction scope superArguments) fun _ => body
          cases function.definition.superArguments with
          | none => exact rules.bind (rules.pure none) onward
          | some node =>
              exact rules.bind (rules.runNode holds node scope) fun _ =>
                rules.bind (rules.superArgumentTable _) onward
      | cons parent more =>
          have descend (inner : ScopeId) (superArguments : Option Table) :=
            rules.bind (rules.holding [.scope inner] (induction inner superArguments)) fun _ => body
          cases function.definition.superArguments with
          | none =>
              exact rules.bind (rules.pure none) fun _ =>
                rules.bind (rules.getFunction parent) fun _ =>
                  rules.bind (rules.newScope ..) fun _ =>
                    rules.bind (rules.newScope ..) fun _ => descend _ _
          | some node =>
              exact rules.bind (rules.runNode holds node scope) fun _ =>
                rules.bind (rules.superArgumentTable _) fun _ =>
                  rules.bind (rules.getFunction parent) fun _ =>
                    rules.bind (rules.newScope ..) fun _ =>
                      rules.bind (rules.newScope ..) fun _ => descend _ _

theorem constructFunction (id : FunctionId) (arguments : Option Table) :
    Holds (constructFunction run id arguments) :=
  rules.bind (rules.getFunction id) fun _ => rules.bind rules.get fun _ =>
    rules.bind (rules.newScope ..) fun _ => rules.bind (rules.newScope ..) fun _ =>
      rules.bind (rules.holding _ (rules.constructAlong holds ..)) fun _ => rules.pure _

private theorem constructValue (callee : Value) (arguments : Option Table) :
    Holds (constructValue run callee arguments) := by
  cases callee with
  | function id => exact rules.constructFunction holds id arguments
  | type type => exact rules.constructType type arguments
  | _ => exact rules.bind (rules.readHeap _) fun _ => rules.fail _ rfl

end Calls

end Compositional

end Action

/-! Evaluation. -/

def Operations.Compositional {Op : Type} [Operations Op]
    (Holds : {α : Type} → Action (Expr Op) α → Prop) : Prop :=
  ∀ (run : Runner (Expr Op)) (op : Op) (operands : List (Operand Op)) (scope : ScopeId),
    (∀ code scope, Holds (run code scope)) →
    (∀ operand ∈ operands, ∀ scope, Holds (operand scope)) →
    Holds (Operations.perform run op operands scope)

def Operations.Composed (Op : Type) [Operations Op] : Prop :=
  ∀ (run : Runner (Expr Op)) (op : Op) (operands : List (Operand Op)) (scope : ScopeId),
    (∀ code scope, Action.Composed (run code scope)) →
    (∀ operand ∈ operands, ∀ scope, Action.Composed (operand scope)) →
    Action.Composed (Operations.perform run op operands scope)

namespace Expr

variable {Op : Type}

/-- All literals of an expression are good, and so are those in the code of its functions. -/
inductive Literals (good : Value → Prop) : Expr Op → Prop where
  | lit {value : Value} (literal : good value) : Literals good (.lit value)
  | var (name : String) : Literals good (.var name)
  | declare (name : String) (permission : Permission) {init : Expr Op} (inner :
      Literals good init) :
      Literals good (.declare name permission init)
  | assign (name : String) {value : Expr Op} (inner : Literals good value) :
      Literals good (.assign name value)
  | setMember {object : Expr Op} (name : String) {value : Expr Op} (target : Literals good object)
      (inner : Literals good value) : Literals good (.setMember object name value)
  | block (index : Index) {body : List (Expr Op)} (inner : ∀ expr ∈ body, Literals good expr) :
      Literals good (.block index body)
  | seq {body : List (Expr Op)} (inner : ∀ expr ∈ body, Literals good expr) :
      Literals good (.seq body)
  | define {definition : Definition (Expr Op)} {parent : Option (Expr Op)}
      (code : ∀ node ∈ definition.nodes, Literals good node.code)
      (superior : ∀ expr, parent = some expr → Literals good expr) :
      Literals good (.define definition parent)
  | call {callee : Expr Op} {arguments : List (Expr Op)} (called : Literals good callee)
      (inner : ∀ expr ∈ arguments, Literals good expr) : Literals good (.call callee arguments)
  | callMethod {object : Expr Op} (name : String) {arguments : List (Expr Op)}
      (target : Literals good object) (inner : ∀ expr ∈ arguments, Literals good expr) :
      Literals good (.callMethod object name arguments)
  | construct {callee : Expr Op} {arguments : List (Expr Op)} (called : Literals good callee)
      (inner : ∀ expr ∈ arguments, Literals good expr) : Literals good (.construct callee arguments)
  | member {object : Expr Op} (name : String) (target : Literals good object) :
      Literals good (.member object name)
  | thisValue : Literals good .thisValue
  | superValue : Literals good .superValue
  | calleeValue : Literals good .calleeValue
  | add {left right : Expr Op} (former : Literals good left) (latter : Literals good right) :
      Literals good (.add left right)
  | throw {value : Expr Op} (inner : Literals good value) : Literals good (.throw value)
  | attempt {body : Expr Op} (name : String) {handler : Expr Op} (inner : Literals good body)
      (rescue : Literals good handler) : Literals good (.attempt body name handler)
  | array {elements : List (Expr Op)} (inner : ∀ expr ∈ elements, Literals good expr) :
      Literals good (.array elements)
  | line (number : Nat) : Literals good (.line number)
  | crash : Literals good .crash
  | perform (op : Op) {operands : List (Expr Op)} (inner : ∀ expr ∈ operands, Literals good expr) :
      Literals good (.perform op operands)

theorem catching_eq (scope : ScopeId) (name : String) (body : Action (Expr Op) Value)
    (handler : ScopeId → Action (Expr Op) Value) :
    catching scope name body handler =
      Action.rescuing body (catching.bindAndHandle scope name handler) := by
  funext held machine
  unfold catching Action.rescuing
  cases body held machine with
  | ok result machine => rfl
  | error abort machine => cases abort <;> rfl

theorem bindAndHandle_eq (scope : ScopeId) (name : String)
    (handler : ScopeId → Action (Expr Op) Value) (failure : Failure) :
    catching.bindAndHandle scope name handler failure =
      catchScope scope name failure >>= fun inner => holding [.scope inner] (handler inner) := rfl

section Walk

variable {Holds : {α : Type} → Action (Expr Op) α → Prop} (rules : Action.Compositional Holds)

include rules

private theorem found_holds (name : String) (cell : Option CellId) : Holds (found name cell) := by
  cases cell with
  | none => exact rules.fail _ rfl
  | some cell => exact rules.pure cell

private theorem memberOf_holds (object : Value) (name : String) : Holds (memberOf object name) :=
  rules.bind (rules.member ..) fun _ => rules.bind (found_holds rules ..) fun _ => rules.readHeap _

private theorem sum_holds (left right : Value) : Holds (sum left right) := by
  refine rules.bind rules.get fun machine => ?_
  dsimp only
  split
  next => exact rules.pure _
  next => exact rules.pure _
  next => exact rules.pure _
  next =>
    exact rules.bind (rules.ofExcept (Composed.toInexact_unthrown _ _)) fun _ =>
      rules.bind (rules.ofExcept (Composed.toInexact_unthrown _ _)) fun _ => rules.pure _

private theorem bindAndHandle_holds (scope : ScopeId) (name : String)
    {handler : ScopeId → Action (Expr Op) Value} (handling : ∀ scope, Holds (handler scope))
    (failure : Failure) : Holds (catching.bindAndHandle scope name handler failure) := by
  rw [bindAndHandle_eq]
  exact rules.bind (rules.catchScope ..) fun _ => rules.holding _ (handling _)

private theorem catching_holds (scope : ScopeId) (name : String) {body : Action (Expr Op) Value}
    {handler : ScopeId → Action (Expr Op) Value} (inner : Holds body)
    (handling : ∀ scope, Holds (handler scope)) : Holds (catching scope name body handler) := by
  rw [catching_eq]
  exact rules.rescuing inner (bindAndHandle_holds rules scope name handling)

variable [Operations Op] {run : Runner (Expr Op)} {exprs : List (Expr Op)}

private theorem evalEach_holds (each : ∀ expr ∈ exprs, ∀ scope, Holds (expr.eval run scope))
    (scope : ScopeId) : Holds (evalEach run exprs scope) := by
  induction exprs with
  | nil => exact rules.pure []
  | cons first rest induction =>
      obtain ⟨here, there⟩ := List.forall_mem_cons.mp each
      exact rules.bind (here scope) fun _ =>
        rules.bind (rules.holding _ (induction there)) fun _ => rules.pure _

private theorem evalSeq_holds (each : ∀ expr ∈ exprs, ∀ scope, Holds (expr.eval run scope))
    (last : Value) (scope : ScopeId) : Holds (evalSeq run exprs last scope) := by
  induction exprs generalizing last with
  | nil => exact rules.pure last
  | cons first rest induction =>
      obtain ⟨here, there⟩ := List.forall_mem_cons.mp each
      exact rules.bind (rules.holding _ (here scope)) fun value => induction there value

omit rules in
private theorem delayEach_holds (each : ∀ expr ∈ exprs, ∀ scope, Holds (expr.eval run scope)) :
    ∀ operand ∈ delayEach run exprs, ∀ scope, Holds (operand scope) := by
  induction exprs with
  | nil => exact List.forall_mem_nil _
  | cons first rest induction =>
      obtain ⟨here, there⟩ := List.forall_mem_cons.mp each
      exact List.forall_mem_cons.mpr ⟨here, induction there⟩

variable (holds : ∀ code scope, Holds (run code scope))

include holds

omit [Operations Op] in
private theorem callMember_holds (receiver method : Value) (arguments : Option Table) :
    Holds (callMember run receiver method arguments) := by
  unfold callMember
  split
  next id => exact rules.callFunction holds id arguments (some receiver)
  next => exact rules.callValue holds method arguments

variable (closed : Operations.Compositional Holds)

include closed

private theorem eval_holds : ∀ (expr : Expr Op) (scope : ScopeId), Holds (expr.eval run scope)
  | .lit value, _ => rules.pure value
  | .var name, scope =>
      rules.bind (rules.lookup scope name) fun _ =>
        rules.bind (found_holds rules ..) fun _ => rules.readHeap _
  | .declare name permission init, scope =>
      rules.bind (eval_holds init scope) fun value =>
        rules.bind (rules.declareMember ..) fun _ => rules.pure value
  | .assign name value, scope =>
      rules.bind (eval_holds value scope) fun value =>
        rules.bind (rules.lookup scope name) fun _ =>
          rules.bind (found_holds rules ..) fun cell =>
            rules.bind (rules.tryAssign cell name value) fun _ => rules.pure value
  | .setMember object name value, scope => by
      refine rules.bind (eval_holds object scope) fun object => ?_
      refine rules.bind (rules.holding _ (eval_holds value scope)) fun value => ?_
      dsimp only
      split
      next => exact rules.bind (rules.declareMember ..) fun _ => rules.pure value
      next =>
        rw [← bind_assoc]
        exact rules.bind (rules.failAfter fun _ => rfl) fun _ => rules.pure value
  | .block index body, scope =>
      rules.bind (rules.allocateBlock scope index) fun inner =>
        rules.holding _ (evalSeq_holds rules (fun expr _ => eval_holds expr) .null inner)
  | .seq body, scope => evalSeq_holds rules (fun expr _ => eval_holds expr) .null scope
  | .define definition none, scope =>
      rules.bind (rules.makeFunction holds scope none definition) fun _ => rules.pure _
  | .define definition (some parent), scope =>
      rules.bind (eval_holds parent scope) fun parent =>
        rules.bind (rules.makeFunction holds scope (some parent) definition) fun _ => rules.pure _
  | .call callee arguments, scope =>
      rules.bind (eval_holds callee scope) fun callee => rules.holding _
        (rules.bind (evalEach_holds rules (fun expr _ => eval_holds expr) scope) fun values =>
          rules.bind (rules.argumentTable values) fun table =>
            rules.callValue holds callee table)
  | .callMethod object name arguments, scope =>
      rules.bind (eval_holds object scope) fun receiver =>
        rules.bind (memberOf_holds rules receiver name) fun method =>
          rules.bind (rules.holding _ (evalEach_holds rules (fun expr _ => eval_holds expr) scope))
            fun values =>
            rules.holding _ (rules.bind (rules.argumentTable values) fun table =>
              callMember_holds rules holds receiver method table)
  | .construct callee arguments, scope =>
      rules.bind (eval_holds callee scope) fun callee => rules.holding _
        (rules.bind (evalEach_holds rules (fun expr _ => eval_holds expr) scope) fun values =>
          rules.bind (rules.argumentTable values) fun table =>
            rules.constructValue holds callee table)
  | .member object name, scope =>
      rules.bind (eval_holds object scope) fun _ => memberOf_holds rules _ name
  | .thisValue, _ => rules.bind (rules.readHeap _) fun _ => rules.pure _
  | .superValue, _ => rules.bind (rules.readHeap _) fun _ => rules.pure _
  | .calleeValue, _ => rules.bind (rules.readHeap _) fun _ => rules.pure _
  | .add left right, scope =>
      rules.bind (eval_holds left scope) fun _ =>
        rules.bind (rules.holding _ (eval_holds right scope)) fun _ => sum_holds rules ..
  | .throw value, scope => rules.bind (eval_holds value scope) rules.throw
  | .attempt body name handler, scope =>
      catching_holds rules scope name (eval_holds body scope) (eval_holds handler)
  | .array elements, scope =>
      rules.bind (evalEach_holds rules (fun expr _ => eval_holds expr) scope) fun values =>
        rules.newArray values
  | .line number, _ => rules.bind (rules.setLine number) fun _ => rules.pure Value.null
  | .crash, _ => rules.crash
  | .perform op operands, scope =>
      closed run op _ scope holds (delayEach_holds fun expr _ => eval_holds expr)

omit holds in
theorem runnerAt_holds : ∀ (frames : Nat) (code : Expr Op) (scope : ScopeId),
    Holds (runnerAt frames code scope)
  | 0, _, _ => rules.bind rules.get fun _ => rules.fail _ rfl
  | frames + 1, code, scope =>
      eval_holds rules (runnerAt_holds frames) closed code scope

end Walk

theorem bindAndHandle_composed (scope : ScopeId) (name : String)
    {handler : ScopeId → Action (Expr Op) Value} (handling : ∀ scope, Composed (handler scope))
    (failure : Failure) : Composed (catching.bindAndHandle scope name handler failure) :=
  bindAndHandle_holds Composed.rules scope name handling failure

section Composed

variable [Operations Op] (closed : Operations.Composed Op)

include closed

variable {run : Runner (Expr Op)} (composed : ∀ code scope, Composed (run code scope))

include composed

theorem eval_composed (expr : Expr Op) (scope : ScopeId) : Composed (expr.eval run scope) :=
  eval_holds Composed.rules composed closed expr scope

omit composed in
theorem runnerAt_composed (frames : Nat) (code : Expr Op) (scope : ScopeId) :
    Composed (runnerAt frames code scope) :=
  runnerAt_holds Composed.rules closed frames code scope

end Composed

end Expr

/-! Scripts. -/

theorem Native.perform_holds {Holds : {α : Type} → Action Script α → Prop}
    (rules : Action.Compositional Holds) : Operations.Compositional Holds := by
  intro run native operands scope _ _
  have watermark : Holds (watermarkValue : Action Script Value) :=
    rules.bind rules.get fun _ => rules.pure _
  change Holds (native.perform scope)
  unfold Native.perform
  cases native with
  | frames => exact rules.bind rules.get fun _ => rules.newArray _
  | callee => exact rules.bind (rules.readHeap _) fun _ => rules.pure _
  | arguments =>
      exact rules.bind watermark fun _ => rules.bind (rules.argumentTable []) fun _ =>
        rules.bind (rules.argumentTable _) fun _ => rules.bind watermark fun _ =>
          rules.bind rules.get fun _ => rules.bind (rules.newArray _) fun _ => rules.newArray _

theorem Native.perform_composed : Operations.Composed Native :=
  Native.perform_holds Action.Composed.rules

private theorem Script.run_holds {Holds : {α : Type} → Action Script α → Prop}
    (rules : Action.Compositional Holds) (script : Script) : Holds script.run := by
  refine rules.bind rules.get fun _ => rules.bind (rules.newScope ..) fun scope =>
    rules.inFrame _ _ scope (rules.bind rules.get fun _ => ?_)
  have closed := Native.perform_holds rules
  exact Expr.eval_holds rules (Expr.runnerAt_holds rules closed _) closed script scope

theorem Script.run_composed (script : Script) : Action.Composed script.run :=
  script.run_holds Action.Composed.rules

end ScopeMachine
