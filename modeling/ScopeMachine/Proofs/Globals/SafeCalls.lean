import ScopeMachine.Proofs.Globals.Safe

namespace ScopeMachine

open Action

variable {Code : Type} {trusted : Code → Prop} {origin : Machine Code}

namespace Action.Safe

private theorem inner_enclosing {function : Function Code}
    (trusts : Trusts trusted origin function) :
    ¬ origin.heap.Global function.enclosing :=
  trusts.1 (.scope function.enclosing) (by simp [Function.holds, Handle.isScope]) _ rfl

private theorem asking {α : Type} (question : Heap Code → α) :
    Safe trusted origin (fun _ => True) (Action.readHeap question) :=
  .readHeap fun _ => trivial

private theorem constructType (type : BuiltinType) (arguments : Option Table) :
    Safe trusted origin origin.Clear (constructType type arguments : Action Code Value) := by
  unfold Action.constructType
  split
  next => exact .bind (.takeValues arguments) fun _ clear => .newException type clear
  next =>
    split
    next =>
      have made : Safe trusted origin origin.Clear (do
          let global := (← MonadState.get).global
          return .object (← Action.newScope (.onHeap (some global) .empty (.object none))) :
            Action Code Value) :=
        .bind .get fun machine _ => .bind (.newScope ⟨fun _ => nofun, nofun⟩) fun _ inner =>
          .pure (Heap.kept_object inner)
      refine .bind (.takeValues arguments) fun values _ => ?_
      dsimp only
      split
      next => exact .refused rfl _
      next => exact made
    next => exact .fail rfl
    next => exact .fail rfl
    next => exact .callType type arguments

private theorem superArgumentTable {value : Value} (clear : origin.Clear value) :
    Safe trusted origin (fun _ => True)
      (superArgumentTable value : Action Code (Option Table)) := by
  cases value with
  | null => exact .pure trivial
  | array id =>
      exact .bind (.readHeap fun shields value member => shields.arrays member) fun values clear =>
        .bind (.ofValues clear) fun _ _ => .pure trivial
  | _ => exact .bind (asking _) fun _ _ => .fail rfl

private theorem extendRoot (root : Value) (arguments : Option Table) :
    Safe trusted origin (fun _ => True) (extendRoot root arguments : Action Code Unit) := by
  unfold Action.extendRoot
  split
  next =>
    cases arguments with
    | none => exact .pure trivial
    | some table => exact .freeTable table
  next => exact .fail rfl
  next => exact .bind (asking _) fun _ _ => .fail rfl

private theorem replacedMember (constructor : ScopeId) (name : String) :
    Safe trusted origin (fun replaced => ∀ value, replaced = some value → origin.Clear value)
      (replacedMember constructor name : Action Code (Option Value)) := by
  refine .bind .get fun machine _ => ?_
  split
  next object _ =>
    refine .bind (.onHeap fun shields => ⟨shields.ownMember object name, trivial⟩)
      fun cell (_ : True) => .bind .get fun after shields => .pure ?_
    intro value given
    obtain ⟨id, -, rfl⟩ := Option.map_eq_some_iff.mp given
    exact shields.cell id
  next => exact .pure nofun

private theorem constructorScope (function : Function Code) (id : FunctionId) {previous : ScopeId}
    (inner : ¬ origin.heap.Global previous) :
    Safe trusted origin (fun scope => ¬ origin.heap.Global scope)
      (constructorScope function id previous) := by
  refine .newScope ⟨fun handle holds => ?_, ?_⟩
  · cases handle with
    | scope => cases holds
    | _ => nofun
  · rintro maker _ ⟨⟩ ⟨⟩
    exact inner

private theorem forkScope {object : ScopeId} (inner : ¬ origin.heap.Global object)
    (previous : Option ScopeId) :
    Safe trusted origin (fun scope => ¬ origin.heap.Global scope)
      (Action.newScope (.onHeap previous .empty (.fork object)) : Action Code ScopeId) := by
  refine .newScope ⟨fun handle holds => ?_, nofun⟩
  exact Handle.eq_of_isScope holds ▸ Heap.inner_scope inner

section Calls

variable (shut : origin.heap.Sealed) {run : Runner Code}
  (serves : ∀ (code : Code) (scope : ScopeId), trusted code → ¬ origin.heap.Global scope →
    Safe trusted origin origin.Clear (run code scope))

include serves

private theorem runNode {node : Node Code} (trusting : trusted node.code) {scope : ScopeId}
    (inner : ¬ origin.heap.Global scope) :
    Safe trusted origin origin.Clear (runNode run node scope) :=
  .inFrame node.id node.file scope (serves node.code scope trusting inner)

private theorem superArguments {function : Function Code} (trusts : Trusts trusted origin function)
    {node : Node Code} (given : function.definition.superArguments = some node) {scope : ScopeId}
    (inner : ¬ origin.heap.Global scope) :
    Safe trusted origin origin.Clear (Action.runNode run node scope) :=
  runNode serves (trusts.2 node (by simp [Definition.nodes, given])) inner

theorem makeFunction {enclosing : ScopeId} (inner : ¬ origin.heap.Global enclosing)
    {parent : Option Value} (parental : ∀ value, parent = some value → origin.Clear value)
    {definition : Definition Code} (trusting : ∀ node ∈ definition.nodes, trusted node.code) :
    Safe trusted origin (fun _ => True) (makeFunction run enclosing parent definition) := by
  have last {overridden : Option Value}
      (replaced : ∀ value, overridden = some value → origin.Clear value) {statics : Option ScopeId}
      (made : ∀ scope, statics = some scope → ¬ origin.heap.Global scope) :
      Safe trusted origin (fun _ => True) (Action.onHeap (·.newFunction
        ⟨enclosing, parent.getD (.type .object), definition, statics, overridden⟩)) := by
    have superior : origin.Clear (parent.getD (.type .object)) := by
      cases parent with
      | none => exact Heap.kept_of_no_object fun scope same => by cases same
      | some value => exact parental value rfl
    exact .onHeap fun shields =>
      ⟨shields.newFunction (Function.kept_of (Heap.inner_scope inner)
        (fun scope given => Heap.inner_scope (made scope given)) superior replaced) trusting,
        trivial⟩
  refine .bind .get fun machine _ => ?_
  have overriding {inConstructor : Bool} {next : Option Value → Action Code FunctionId}
      (rest : ∀ overridden, (∀ value, overridden = some value → origin.Clear value) →
        Safe trusted origin (fun _ => True) (next overridden)) :
      Safe trusted origin (fun _ => True)
        (if inConstructor then Action.replacedMember enclosing definition.name >>= next
          else Pure.pure none >>= next) := by
    split
    next => exact .bind (.replacedMember enclosing definition.name) rest
    next => exact .bind (.pure fun value given => by cases given) rest
  refine overriding fun overridden replaced => ?_
  split
  next => exact .bind (.pure fun scope given => by cases given) fun _ => last replaced
  next node static =>
    have listed : node ∈ definition.nodes := by
      simp [Definition.nodes, static]
    refine .bind (.newScope (inward_basic ..)) fun scope inside =>
      .bind (.holding _ (runNode serves (trusting node listed) inside)) fun _ _ =>
        .bind (.pure ?_) fun _ => last replaced
    rintro _ ⟨⟩
    exact inside

include shut

/-- A call leads to its function, its receiver and the arguments past its parameters. -/
theorem callFunction (id : FunctionId) (arguments : Option Table) {receiver : Option Value}
    (receiving : ∀ value, receiver = some value → origin.Clear value) :
    Safe trusted origin origin.Clear (callFunction run id arguments receiver) := by
  refine .bind (.getFunction id) fun function trusts => ?_
  have body {scope : ScopeId} (inner : ¬ origin.heap.Global scope) :=
    runNode serves (trusts.2 function.definition.body List.mem_cons_self) inner
  have entered (table : Table) : Safe trusted origin origin.Clear (do
      let mapped ← Action.mapArguments function.definition table
      let scope ← Action.allocateCallScope function.enclosing
        (function.definition.body.shape.table .all) mapped.1
        { function := id, receiver, trailing := mapped.2 }
      Action.releasingScope scope (Action.runNode run function.definition.body scope)) := by
    refine .bind (.mapArguments ..) fun mapped clear => .bind (.allocateCallScope _ _ _ ?_)
      fun scope inner => .releasingScope shut scope (body inner)
    exact ScopeKind.kept_function (fun scope same => by cases same) receiving clear rfl
  dsimp only
  split
  next =>
    refine .bind .get fun machine _ => ?_
    split
    next => exact body (inner_enclosing trusts)
    next =>
      cases arguments with
      | none => exact .bind (.allocateTable 0) fun table _ => entered table
      | some _ => exact .bind (.pure trivial) fun table (_ : True) => entered table
  next =>
    cases arguments with
    | none => exact .fail rfl
    | some table => exact .bind (.freeTable table) fun _ _ => .fail rfl

theorem callValue (callee : Value) (arguments : Option Table) :
    Safe trusted origin origin.Clear (callValue run callee arguments) := by
  cases callee with
  | function id => exact callFunction shut serves id arguments nofun
  | type type => exact .callType type arguments
  | _ => exact .bind (asking _) fun _ _ => .fail rfl

private theorem constructAlong {object : ScopeId} (building : ¬ origin.heap.Global object)
    (root : Value)
    (supers : List FunctionId) {scope : ScopeId} (inner : ¬ origin.heap.Global scope)
    (arguments : Option Table) :
    Safe trusted origin (fun _ => True)
      (constructAlong run object root supers scope arguments) := by
  induction supers generalizing scope arguments with
  | nil => exact .extendRoot root arguments
  | cons id supers induction =>
      unfold Action.constructAlong
      refine .bind (.getFunction id) fun function trusts => ?_
      refine .bind (.bindArguments shut _ inner arguments) fun _ _ => ?_
      have body : Safe trusted origin (fun _ => True) (do
          let _ ← Action.runNode run function.definition.body scope : Action Code Unit) :=
        .bind (runNode serves (trusts.2 _ List.mem_cons_self) inner) fun _ _ => .pure trivial
      cases supers with
      | nil =>
          have onward (superArguments : Option Table) :=
            bind (induction inner superArguments) fun _ _ => body
          cases given : function.definition.superArguments with
          | none => exact .bind (.pure trivial) fun table (_ : True) => onward table
          | some node =>
              exact .bind (superArguments serves trusts given inner) fun _ clear =>
                .bind (.superArgumentTable clear) fun table _ => onward table
      | cons parent more =>
          have descend (superArguments : Option Table) : Safe trusted origin (fun _ => True) (do
              let parentFunction ← Action.getFunction parent
              let fork ← Action.newScope
                (.onHeap (some parentFunction.enclosing) .empty (.fork object))
              let inner ← Action.constructorScope parentFunction parent fork
              Action.holding [.scope inner]
                (Action.constructAlong run object root (parent :: more) inner superArguments)
              let _ ← Action.runNode run function.definition.body scope : Action Code Unit) :=
            .bind (.getFunction parent) fun parentFunction _ =>
              .bind (forkScope building _) fun fork forked =>
                .bind (constructorScope parentFunction parent forked) fun constructor within =>
                  .bind (.holding _ (induction within superArguments)) fun _ _ => body
          cases given : function.definition.superArguments with
          | none => exact .bind (.pure trivial) fun table (_ : True) => descend table
          | some node =>
              exact .bind (superArguments serves trusts given inner) fun _ clear =>
                .bind (.superArgumentTable clear) fun table _ => descend table

private theorem constructFunction (id : FunctionId) (arguments : Option Table) :
    Safe trusted origin origin.Clear (constructFunction run id arguments) := by
  have bare (function : Function Code) :
      (Scope.onHeap (some function.enclosing) (function.definition.body.shape.table
        .publicProtected) (.object (some id))).Inward origin.heap := by
    refine ⟨fun handle holds => ?_, nofun⟩
    cases handle with
    | scope => cases holds
    | _ => nofun
  exact .bind (.getFunction id) fun function _ => .bind .get fun _ _ =>
    .bind (.newScope (bare function)) fun object building =>
      .bind (constructorScope function id building) fun scope inner =>
        .bind (.holding _ (constructAlong shut serves building _ _ inner arguments)) fun _ _ =>
          .pure (Heap.kept_object building)

theorem constructValue (callee : Value) (arguments : Option Table) :
    Safe trusted origin origin.Clear (constructValue run callee arguments) := by
  cases callee with
  | function id => exact constructFunction shut serves id arguments
  | type type => exact .constructType type arguments
  | _ => exact .bind (asking _) fun _ _ => .fail rfl

end Calls

end Action.Safe

end ScopeMachine
