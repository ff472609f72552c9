import ScopeMachine.Proofs.Evaluation.Regimes

namespace ScopeMachine

open ScopeMachine.Action

inductive Stage where
  | binding
  | superArguments
  | body
  deriving DecidableEq, Repr

/-- Where in a construction an evaluator stands: the function it belongs to, and its scope. -/
structure Point where
  stage : Stage
  function : FunctionId
  scope : ScopeId
  deriving DecidableEq, Repr

/-- An evaluator that starts, with what its callers hold and the machine that it finds. -/
structure Visit (Code : Type) where
  point : Point
  held : List Handle
  machine : Machine Code

/-- An action that tells which evaluators it came by. -/
abbrev Journaled (Code α : Type) : Type :=
  List Handle → Machine Code → List (Visit Code) × Ending Code α

namespace Journaled

variable {Code α β : Type}

def quietly (action : Action Code α) : Journaled Code α :=
  fun held machine => ([], action held machine)

def visiting (point : Point) (action : Action Code α) : Journaled Code α :=
  fun held machine => ([⟨point, held, machine⟩], action held machine)

def andThen (first : Journaled Code α) (next : α → Journaled Code β) : Journaled Code β :=
  fun held machine =>
    match first held machine with
    | (visits, .ok result middle) =>
        (visits ++ (next result held middle).1, (next result held middle).2)
    | (visits, .error abort middle) => (visits, .error abort middle)

def holding (handles : List Handle) (journaled : Journaled Code α) : Journaled Code α :=
  fun held => journaled (handles ++ held)

variable (held : List Handle) (machine : Machine Code)

@[simp] theorem quietly_ending (action : Action Code α) :
    (quietly action held machine).2 = action held machine := rfl

@[simp] theorem visiting_ending (point : Point) (action : Action Code α) :
    (visiting point action held machine).2 = action held machine := rfl

@[simp] theorem andThen_ending (first : Journaled Code α) (next : α → Journaled Code β) :
    (first.andThen next held machine).2 =
      Action.andThen (first held machine).2 fun result middle => (next result held middle).2 := by
  unfold andThen
  rcases first held machine with ⟨visits, result | abort⟩ <;> rfl

theorem quietly_andThen {action : Action Code α} {next : α → Journaled Code β} {result : α}
    {held : List Handle} {machine middle : Machine Code}
    (succeeds : action held machine = .ok result middle) :
    (quietly action).andThen next held machine = next result held middle := by
  unfold andThen quietly
  rw [succeeds]
  rfl

theorem andThen_eq_ok {first : Journaled Code α} {next : α → Journaled Code β}
    {held : List Handle} {machine after : Machine Code} {result : β}
    (succeeds : (first.andThen next held machine).2 = .ok result after) :
    ∃ former middle, (first held machine).2 = .ok former middle ∧
      (next former held middle).2 = .ok result after ∧
      (first.andThen next held machine).1 =
        (first held machine).1 ++ (next former held middle).1 := by
  unfold andThen at succeeds ⊢
  rcases ran : first held machine with ⟨visits, former | abort⟩ <;> rw [ran] at succeeds
  case ok middle => exact ⟨former, middle, rfl, succeeds, rfl⟩
  case error => cases succeeds

@[simp] theorem holding_ending (handles : List Handle) (journaled : Journaled Code α) :
    (journaled.holding handles held machine).2 = (journaled (handles ++ held) machine).2 := rfl

end Journaled

namespace Action

variable {Code : Type} (run : Runner Code) (object : ScopeId) (root : Value)

def superArgumentsOf (definition : Definition Code) (scope : ScopeId) :
    Action Code (Option Table) :=
  match definition.superArguments with
  | none => pure none
  | some node => do superArgumentTable (← runNode run node scope)

def superScope (parent : FunctionId) : Action Code ScopeId := do
  let function ← getFunction parent
  let fork ← newScope (.onHeap (some function.enclosing) .empty (.fork object))
  constructorScope function parent fork

/-- `constructAlong` with a journal. -/
def journalAlong : List FunctionId → ScopeId → Option Table → Journaled Code Unit
  | [], _, arguments => .quietly (extendRoot root arguments)
  | id :: supers, scope, arguments =>
      (Journaled.quietly (getFunction id)).andThen fun function =>
        (Journaled.visiting ⟨.binding, id, scope⟩
          (bindArguments function.definition scope arguments)).andThen fun _ =>
        (Journaled.visiting ⟨.superArguments, id, scope⟩
          (superArgumentsOf run function.definition scope)).andThen fun superArguments =>
        (match supers with
          | [] => journalAlong [] scope superArguments
          | parent :: more =>
              (Journaled.quietly (superScope object parent)).andThen fun inner =>
                (journalAlong (parent :: more) inner superArguments).holding
                  [.scope inner]).andThen fun _ =>
        (Journaled.visiting ⟨.body, id, scope⟩
          (runNode run function.definition.body scope)).andThen fun _ => .quietly (pure ())

/-- The object, the scope of the first constructor and the super chain of a construction. -/
structure Site where
  object : ScopeId
  scope : ScopeId
  lineage : Heap.Lineage

def prepareSite (id : FunctionId) : Action Code Site := do
  let function ← getFunction id
  let lineage := (← get).heap.lineage id
  let index := function.definition.body.shape.table .publicProtected
  let object ← newScope (.onHeap (some function.enclosing) index (.object (some id)))
  let scope ← constructorScope function id object
  return ⟨object, scope, lineage⟩

/-- `constructFunction` with a journal. -/
def journalConstruct (id : FunctionId) (arguments : Option Table) : Journaled Code Value :=
  (Journaled.quietly (prepareSite id)).andThen fun site =>
    ((journalAlong run site.object site.lineage.root site.lineage.functions site.scope
      arguments).holding [.scope site.object, .scope site.scope]).andThen fun _ =>
    .quietly (pure (.object site.object))

theorem journalAlong_ending (functions : List FunctionId) (scope : ScopeId)
    (arguments : Option Table) (held : List Handle) (machine : Machine Code) :
    (journalAlong run object root functions scope arguments held machine).2 =
      constructAlong run object root functions scope arguments held machine := by
  induction functions generalizing scope arguments held machine with
  | nil => rfl
  | cons id supers induction =>
      unfold journalAlong constructAlong
      simp only [Journaled.andThen_ending, Journaled.quietly_ending, Journaled.visiting_ending,
        run_bind]
      congr 1
      funext function middle
      congr 1
      funext _ bound
      cases supers with
      | nil =>
          have last (superArguments : Option Table) (evaluated : Machine Code) :=
            induction scope superArguments held evaluated
          unfold superArgumentsOf
          cases function.definition.superArguments with
          | none => simp only [run_bind, run_pure, andThen_ok, last]
          | some node =>
              simp only [run_bind, last]
              cases runNode run node scope held bound <;> rfl
      | cons parent more =>
          have further (superArguments : Option Table) (evaluated : Machine Code) :
              (((Journaled.quietly (superScope object parent)).andThen fun inner =>
                (journalAlong run object root (parent :: more) inner superArguments).holding
                  [.scope inner]) held evaluated).2 =
              andThen (getFunction parent held evaluated) fun parentFunction middle =>
                (newScope (.onHeap (some parentFunction.enclosing) .empty (.fork object)) >>=
                  fun fork => constructorScope parentFunction parent fork >>= fun inner =>
                    holding [.scope inner] (constructAlong run object root (parent :: more) inner
                      superArguments)) held middle := by
            simp only [Journaled.andThen_ending, Journaled.quietly_ending,
              Journaled.holding_ending, superScope, run_bind]
            cases getFunction parent held evaluated with
            | error abort after => rfl
            | ok parentFunction after => exact induction _ superArguments _ _
          unfold superArgumentsOf
          cases function.definition.superArguments with
          | none =>
              simp only [run_bind, run_pure, andThen_ok, further]
              cases getFunction parent held bound <;> rfl
          | some node =>
              simp only [run_bind, further]
              cases runNode run node scope held bound with
              | error abort after => rfl
              | ok value after =>
                  simp only [andThen_ok]
                  cases superArgumentTable value held after with
                  | error abort last => rfl
                  | ok superArguments last =>
                      simp only [andThen_ok]
                      cases getFunction parent held last <;> rfl

theorem journalConstruct_ending (id : FunctionId) (arguments : Option Table)
    (held : List Handle) (machine : Machine Code) :
    (journalConstruct run id arguments held machine).2 =
      constructFunction run id arguments held machine := by
  unfold journalConstruct constructFunction prepareSite
  simp only [Journaled.andThen_ending, Journaled.quietly_ending, Journaled.holding_ending,
    journalAlong_ending, run_bind, run_get, run_newScope, run_pure, andThen_ok]
  cases getFunction id held machine with
  | error abort after => rfl
  | ok function after => rfl

end Action

/-- The evaluators that a construction comes by, in turn. -/
def Action.visits {Code : Type} (run : Runner Code) (id : FunctionId) (arguments : Option Table)
    (held : List Handle) (machine : Machine Code) : List (Visit Code) :=
  (journalConstruct run id arguments held machine).1

namespace Action.Compositional

variable {Code : Type} {Holds : {α : Type} → Action Code α → Prop} (rules : Compositional Holds)

include rules

theorem superScope (object : ScopeId) (parent : FunctionId) :
    Holds (superScope object parent : Action Code ScopeId) :=
  rules.bind (rules.getFunction parent) fun _ =>
    rules.bind (rules.newScope ..) fun _ => rules.newScope ..

theorem superArgumentsOf {run : Runner Code} (holds : ∀ code scope, Holds (run code scope))
    (definition : Definition Code) (scope : ScopeId) :
    Holds (superArgumentsOf run definition scope) := by
  unfold Action.superArgumentsOf
  cases definition.superArguments with
  | none => exact rules.pure none
  | some node =>
      exact rules.bind (rules.runNode holds node scope) fun _ => rules.superArgumentTable _

end Action.Compositional

end ScopeMachine
