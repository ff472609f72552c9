import ScopeMachine.Proofs.Calls.Entering
import ScopeMachine.Proofs.Construction.Redeclaring

/-!
Override chains. Along a super chain each constructor that declares a method replaces the one that
the constructors further up have declared, so the links between the methods follow the classes.
-/

namespace ScopeMachine

open ScopeMachine.Action

variable {Code : Type}

namespace Heap

variable {heap : Heap Code} {links : List FunctionId} {definitions : List (Definition Code)}

/-- Functions made of the definitions, each of which has replaced the next one, and the last none.
-/
inductive Overrides (heap : Heap Code) : List FunctionId → List (Definition Code) → Prop where
  | nil : Overrides heap [] []
  | cons {id : FunctionId} {function : Function Code} {replaced : List FunctionId}
      {definitions : List (Definition Code)} (found : heap.function? id = some function)
      (replaces : function.overridden = replaced.head?.map .function)
      (rest : Overrides heap replaced definitions) :
      Overrides heap (id :: replaced) (function.definition :: definitions)

namespace Overrides

theorem mono (overrides : heap.Overrides links definitions) {heap' : Heap Code}
    (stays : ∀ {id function}, heap.function? id = some function →
      heap'.function? id = some function) : heap'.Overrides links definitions := by
  induction overrides with
  | nil => exact .nil
  | cons found replaces rest induction => exact .cons (stays found) replaces induction

private theorem length_eq (overrides : heap.Overrides links definitions) :
    links.length = definitions.length := by
  induction overrides with
  | nil => rfl
  | cons _ _ _ induction => exact congrArg Nat.succ induction

private theorem found (overrides : heap.Overrides links definitions)
    {method overridden : FunctionId}
    {nearer farther : List FunctionId} (split : links = nearer ++ method :: overridden :: farther) :
    ∃ function, heap.function? method = some function ∧
      function.overridden = some (.function overridden) := by
  induction overrides generalizing nearer with
  | nil => exact absurd split (by simp)
  | cons found replaces rest induction =>
      cases nearer with
      | nil =>
          obtain ⟨rfl, rfl⟩ := List.cons.inj split
          exact ⟨_, found, replaces⟩
      | cons first nearer => exact induction (List.cons.inj split).2

end Overrides

end Heap

/-- In a call of the method, and in the blocks within it, `super` is the member that the method
overrides. Unless it fails beforehand, a call runs the body in a scope of its own. -/
structure Machine.Supersedes (machine : Machine Code) (method overridden : FunctionId) : Prop where
  super? : ∀ {scope inner : ScopeId} {invocation : Invocation} {path : List ScopeId},
    (machine.heap.scope scope).kind = .function invocation → invocation.function = method →
      machine.heap.Nested scope inner path →
        machine.heap.super? inner = some (.function overridden)
  call : ∀ given receiver held,
    (∃ abort last, ∀ run : Runner Code,
      callFunction run method given receiver held machine = .error abort last) ∨
    ∃ scope entered trailing body, machine.Sustains entered ∧
      (entered.heap.scope scope).kind = .function ⟨method, receiver, trailing, none⟩ ∧
      ∀ run : Runner Code, callFunction run method given receiver held machine =
        releasingScope scope (runNode run body scope) held entered

private theorem Heap.Overrides.supersedes {machine : Machine Code} (sane : machine.Sane)
    {links : List FunctionId} {definitions : List (Definition Code)}
    (overrides : machine.heap.Overrides links definitions) {method overridden : FunctionId}
    {nearer farther : List FunctionId} (split : links = nearer ++ method :: overridden :: farther) :
    machine.Supersedes method overridden := by
  obtain ⟨function, found, replaces⟩ := overrides.found split
  refine ⟨fun kind same nested => nested.super?_eq kind (same ▸ found) replaces,
    fun given receiver held => ?_⟩
  have enters : function.Enters machine.limits given receiver := by
    rintro ⟨-, -, plain, -⟩
    rw [replaces] at plain
    cases plain
  refine (callFunction_cases sane held found enters).imp_right ?_
  rintro ⟨scope, entered, trailing, sustains, kind, called⟩
  exact ⟨scope, entered, trailing, _, sustains, kind, called⟩

def Visit.left (run : Runner Code) (visit : Visit Code) : Machine Code :=
  machineLeft ((getFunction visit.point.function >>= fun function =>
    runNode run function.definition.body visit.point.scope) visit.held visit.machine)

private theorem Visit.left_eq {run : Runner Code} {id : FunctionId} {scope : ScopeId}
    {held : List Handle}
    {machine after : Machine Code} {function : Function Code} {value : Value}
    (found : machine.heap.function? id = some function)
    (ran : runNode run function.definition.body scope held machine = .ok value after) :
    Visit.left run ⟨⟨.body, id, scope⟩, held, machine⟩ = after := by
  unfold Visit.left
  rw [run_bind, getFunction_eq found, andThen_ok, ran, machineLeft_ok]

namespace Action

variable {run : Runner Code} {object : ScopeId} {name : String}
  {declares : FunctionId → Option (Definition Code)}

/-- The bodies of a construction, run from the farthest function to the nearest. The first of them
finds no member of that name on the object. Those of some functions declare it, each with a
definition of its own, and nothing else is written to it. -/
structure Overriding (run : Runner Code) (object : ScopeId) (name : String)
    (declares : FunctionId → Option (Definition Code)) (functions : List FunctionId)
    (visits : List (Visit Code)) : Prop where
  fresh : ∀ visit ∈ visits, visit.point.stage = .body →
    functions.getLast? = some visit.point.function →
      visit.machine.heap.method? object name = none
  silent : ∀ visit ∈ visits, visit.point.stage = .body → declares visit.point.function = none →
    (visit.left run).heap.method? object name = visit.machine.heap.method? object name
  declaring : ∀ visit ∈ visits, visit.point.stage = .body →
    ∀ definition, declares visit.point.function = some definition →
      Redeclares visit.point.scope object name definition visit.machine (visit.left run)

private theorem Overriding.fewer {functions supers : List FunctionId}
    {visits visits' : List (Visit Code)}
    (overriding : Overriding run object name declares functions visits)
    (last : supers.getLast? = functions.getLast?) (fewer : visits' ⊆ visits) :
    Overriding run object name declares supers visits' :=
  ⟨fun visit listed body root => overriding.fresh visit (fewer listed) body (last ▸ root),
    fun visit listed => overriding.silent visit (fewer listed),
    fun visit listed => overriding.declaring visit (fewer listed)⟩

/-- The body of a constructor runs and succeeds. No other one is in the journal but those that have
run before it. -/
inductive RunsBody (run : Runner Code) (object : ScopeId) (id : FunctionId)
    (former visits : List (Visit Code)) (before after : Machine Code) : Prop where
  | intro {scope enclosing : ScopeId} {held : List Handle} {function : Function Code}
      {value : Value}
      (sane : before.Sane) (targets : before.Targets scope object enclosing id)
      (found : before.heap.function? id = some function)
      (ran : runNode run function.definition.body scope held before = .ok value after)
      (visited : ⟨⟨.body, id, scope⟩, held, before⟩ ∈ visits)
      (listed : ∀ visit ∈ visits, visit.point.stage = .body →
        visit = ⟨⟨.body, id, scope⟩, held, before⟩ ∨ visit ∈ former)

/-- The bodies of constructors run one after the other, that of the farthest function first. -/
inductive RunsBodies (run : Runner Code) (object : ScopeId) :
    List FunctionId → List (Visit Code) → Machine Code → Machine Code → Prop where
  | root {id : FunctionId} {visits : List (Visit Code)} {start before after : Machine Code}
      (sustains : start.Sustains before) (body : RunsBody run object id [] visits before after) :
      RunsBodies run object [id] visits start after
  | further {id parent : FunctionId} {more : List FunctionId} {former visits : List (Visit Code)}
      {start opened before after : Machine Code} (opens : start.Sustains opened)
      (supers : RunsBodies run object (parent :: more) former opened before)
      (within : former ⊆ visits) (body : RunsBody run object id former visits before after) :
      RunsBodies run object (id :: parent :: more) visits start after

variable (obeys : ∀ code scope, Obeys Machine.Sustains (run code scope))

def journalSupers (run : Runner Code) (object : ScopeId) (root : Value) :
    List FunctionId → ScopeId → Option Table → Journaled Code Unit
  | [], scope, arguments => journalAlong run object root [] scope arguments
  | parent :: more, _, arguments =>
      (Journaled.quietly (superScope object parent)).andThen fun inner =>
        (journalAlong run object root (parent :: more) inner arguments).holding [.scope inner]

omit obeys in
private theorem journalAlong_cons (root : Value) (id : FunctionId) (supers : List FunctionId)
    (scope : ScopeId) (arguments : Option Table) :
    journalAlong run object root (id :: supers) scope arguments =
      (Journaled.quietly (getFunction id)).andThen fun function =>
        (Journaled.visiting ⟨.binding, id, scope⟩
          (bindArguments function.definition scope arguments)).andThen fun _ =>
        (Journaled.visiting ⟨.superArguments, id, scope⟩
          (superArgumentsOf run function.definition scope)).andThen fun superArguments =>
        (journalSupers run object root supers scope superArguments).andThen fun _ =>
        (Journaled.visiting ⟨.body, id, scope⟩
          (runNode run function.definition.body scope)).andThen fun _ => .quietly (pure ()) := by
  cases supers <;> rfl

include obeys

omit obeys in
private theorem superScope_opens {scope enclosing inner : ScopeId} {id parent : FunctionId}
    {held : List Handle} {machine after : Machine Code} (sane : machine.Sane)
    (targets : machine.Targets scope object enclosing id)
    (made : superScope object parent held machine = .ok inner after) :
    machine.Sustains after ∧ ∃ enclosing, after.Targets inner object enclosing parent := by
  refine ⟨(sustains_regime.rules.superScope object parent).of_ok made, ?_⟩
  cases found : machine.heap.function? parent with
  | none => simp [superScope, getFunction, found] at made
  | some function => exact ⟨_, (superScope_targets sane targets found made).1⟩

private theorem journalAlong_eq_ok {root : Value} {id : FunctionId} {supers : List FunctionId}
    {scope : ScopeId} {arguments : Option Table} {held : List Handle} {machine after : Machine Code}
    (succeeds : (journalAlong run object root (id :: supers) scope arguments held machine).2 =
      .ok () after) :
    let visits := (journalAlong run object root (id :: supers) scope arguments held machine).1
    ∃ function superArguments evaluated returned value,
      machine.heap.function? id = some function ∧ machine.Sustains evaluated ∧
      (journalSupers run object root supers scope superArguments held evaluated).2 =
        .ok () returned ∧
      (journalSupers run object root supers scope superArguments held evaluated).1 ⊆ visits ∧
      runNode run function.definition.body scope held returned = .ok value after ∧
      ⟨⟨.body, id, scope⟩, held, returned⟩ ∈ visits ∧
      ∀ visit ∈ visits, visit.point.stage = .body →
        visit = ⟨⟨.body, id, scope⟩, held, returned⟩ ∨
          visit ∈ (journalSupers run object root supers scope superArguments held evaluated).1 := by
  intro visits
  have all : visits =
    (journalAlong run object root (id :: supers) scope arguments held machine).1 := rfl
  rw [journalAlong_cons] at succeeds all
  obtain ⟨function, start, got, succeeds, story⟩ := Journaled.andThen_eq_ok succeeds
  rw [story] at all
  obtain ⟨_, bound, binding, succeeds, story⟩ := Journaled.andThen_eq_ok succeeds
  rw [story] at all
  obtain ⟨superArguments, evaluated, evaluating, succeeds, story⟩ :=
    Journaled.andThen_eq_ok succeeds
  rw [story] at all
  obtain ⟨_, returned, constructing, succeeds, story⟩ := Journaled.andThen_eq_ok succeeds
  rw [story] at all
  obtain ⟨value, _, running, succeeds, story⟩ := Journaled.andThen_eq_ok succeeds
  rw [story] at all
  cases succeeds
  have bound := (sustains_regime.rules.bindArguments _ _ _).of_ok binding
  have evaluated := (sustains_regime.rules.superArgumentsOf obeys _ _).of_ok evaluating
  cases found : machine.heap.function? id with
  | none => simp [getFunction, found] at got
  | some known =>
      rw [Journaled.quietly_ending, getFunction_eq found] at got
      cases got
      refine ⟨_, superArguments, _, returned, value, rfl, bound.trans evaluated, constructing, ?_,
        running, ?_, ?_⟩
      · rw [all]
        exact fun visit listed => List.mem_append_right _ <| List.mem_append_right _ <|
          List.mem_append_right _ <| List.mem_append_left _ listed
      · rw [all]
        exact List.mem_append_right _ <| List.mem_append_right _ <| List.mem_append_right _ <|
          List.mem_append_right _ <| List.mem_append_left _ List.mem_cons_self
      · rw [all]
        intro visit listed body
        simp only [Journaled.quietly, Journaled.visiting, List.nil_append, List.append_nil,
          List.mem_append, List.mem_singleton] at listed
        rcases listed with rfl | rfl | listed | rfl
        · cases body
        · cases body
        · exact .inr listed
        · exact .inl rfl

private theorem RunsBody.sustains {id : FunctionId} {former visits : List (Visit Code)}
    {before after : Machine Code} (runs : RunsBody run object id former visits before after) :
    before.Sustains after := by
  obtain ⟨-, -, -, ran, -, -⟩ := runs
  exact (sustains_regime.rules.runNode obeys _ _).of_ok ran

private theorem RunsBodies.sustains {functions : List FunctionId} {visits : List (Visit Code)}
    {start after : Machine Code} (runs : RunsBodies run object functions visits start after) :
    start.Sustains after := by
  induction runs with
  | root sustains body => exact sustains.trans (body.sustains obeys)
  | further opens _ _ body induction => exact opens.trans (induction.trans (body.sustains obeys))

omit obeys in
private theorem RunsBodies.earlier {functions : List FunctionId} {visits : List (Visit Code)}
    {first start after : Machine Code} (runs : RunsBodies run object functions visits start after)
    (onward : first.Sustains start) : RunsBodies run object functions visits first after := by
  cases runs with
  | root sustains body => exact .root (onward.trans sustains) body
  | further opens supers within body => exact .further (onward.trans opens) supers within body

private theorem journalAlong_runsBodies {root : Value} {id : FunctionId}
    {supers : List FunctionId} {scope enclosing : ScopeId} {arguments : Option Table}
    {held : List Handle} {machine after : Machine Code} (sane : machine.Sane)
    (targets : machine.Targets scope object enclosing id)
    (succeeds : (journalAlong run object root (id :: supers) scope arguments held machine).2 =
      .ok () after) :
    RunsBodies run object (id :: supers)
      (journalAlong run object root (id :: supers) scope arguments held machine).1 machine
        after := by
  have stays {later : Machine Code} (onward : machine.Sustains later) :
      later.Targets scope object enclosing id :=
    targets.stay fun lasting => ⟨(onward sane).lasting lasting, (onward sane).scope lasting⟩
  induction supers generalizing id scope enclosing arguments held machine after with
  | nil =>
      obtain ⟨function, superArguments, evaluated, returned, value, found, evaluating,
        constructing, -, ran, visited, listed⟩ := journalAlong_eq_ok obeys succeeds
      have sustains := evaluating.trans
        ((sustains_regime.rules.extendRoot root superArguments).of_ok constructing)
      exact .root sustains (.intro (sustains sane).sane (stays sustains)
        ((sustains sane).function? found) ran visited listed)
  | cons parent more induction =>
      obtain ⟨function, superArguments, evaluated, returned, value, found, evaluating,
        constructing, within, ran, visited, listed⟩ := journalAlong_eq_ok obeys succeeds
      unfold journalSupers at within listed
      obtain ⟨inner, opened, opening, constructing, story⟩ := Journaled.andThen_eq_ok constructing
      rw [story] at within listed
      obtain ⟨opens, _, there⟩ := superScope_opens (evaluating sane).sane (stays evaluating) opening
      have opens := evaluating.trans opens
      have supers := induction (opens sane).sane there constructing fun onward =>
        there.stay fun lasting =>
          ⟨(onward (opens sane).sane).lasting lasting, (onward (opens sane).sane).scope lasting⟩
      have sustains := opens.trans (supers.sustains obeys)
      exact .further opens supers within (.intro (sustains sane).sane (stays sustains)
        ((sustains sane).function? found) ran visited listed)

private theorem constructFunction_runsBodies {id : FunctionId} {functions : List FunctionId}
    {arguments : Option Table} {held : List Handle} {machine after : Machine Code}
    (sane : machine.Sane) (chain : machine.heap.SuperChain id functions)
    (succeeds : constructFunction run id arguments held machine = .ok (.object object) after) :
    RunsBodies run object functions (visits run id arguments held machine) machine after := by
  obtain ⟨function, found⟩ := chain.found chain.mem_self
  have ended := (journalConstruct_ending run id arguments held machine).trans succeeds
  unfold visits
  unfold journalConstruct at ended ⊢
  obtain ⟨site, start, prepared, ended, story⟩ := Journaled.andThen_eq_ok ended
  rw [story]
  obtain ⟨_, last, along, ended, story⟩ := Journaled.andThen_eq_ok ended
  rw [story]
  cases ended
  obtain ⟨lineage, opened, targets, -⟩ := prepareSite_opens sane found prepared
  rw [chain.lineage_eq] at lineage
  rw [lineage, Journaled.holding_ending] at along
  rw [lineage]
  obtain ⟨supers, rfl⟩ : ∃ supers, functions = id :: supers := by
    cases chain <;> exact ⟨_, rfl⟩
  have runs := journalAlong_runsBodies obeys (opened sane).sane targets along
  exact (List.append_nil _).symm ▸ runs.earlier opened

variable (spoken : name ≠ "anon")
  (named : ∀ {maker definition}, declares maker = some definition → definition.name = name)

include spoken named

private theorem RunsBody.overrides {functions : List FunctionId} {id : FunctionId}
    {former visits : List (Visit Code)} {before after : Machine Code}
    (runs : RunsBody run object id former visits before after)
    (overriding : Overriding run object name declares functions visits) {links : List FunctionId}
    {definitions : List (Definition Code)} (overrides : before.heap.Overrides links definitions)
    (shown : before.heap.method? object name = links.head?.map .function) :
    ∃ links', after.heap.Overrides links' ((declares id).toList ++ definitions) ∧
      after.heap.method? object name = links'.head?.map .function := by
  have sustains := runs.sustains obeys
  obtain ⟨sane, targets, found, ran, visited, -⟩ := runs
  have left := Visit.left_eq found ran
  have overrides := overrides.mono (sustains sane).function?
  cases declared : declares id with
  | none =>
      have silent := overriding.silent _ visited rfl declared
      rw [left] at silent
      exact ⟨links, overrides, silent.trans shown⟩
  | some definition =>
      have redeclares := overriding.declaring _ visited rfl definition declared
      rw [left] at redeclares
      obtain ⟨-, made, function, found, rfl, replaces, has⟩ :=
        redeclares.replaces sane targets (named declared) spoken
      exact ⟨made :: links, .cons found (replaces.trans shown) overrides, has⟩

private theorem RunsBodies.overrides {functions : List FunctionId} {visits : List (Visit Code)}
    {start after : Machine Code} (runs : RunsBodies run object functions visits start after)
    (overriding : Overriding run object name declares functions visits) :
    ∃ links, after.heap.Overrides links (functions.filterMap declares) ∧
      after.heap.method? object name = links.head?.map .function := by
  induction runs with
  | @root id visits start before after sustains body =>
      have fresh : before.heap.method? object name = none := by
        obtain ⟨-, -, -, -, visited, -⟩ := body
        exact overriding.fresh _ visited rfl rfl
      obtain ⟨links, overrides, shown⟩ :=
        body.overrides obeys spoken named overriding .nil fresh
      refine ⟨links, ?_, shown⟩
      cases declared : declares id <;> simpa [declared] using overrides
  | @further id parent more former visits start opened before after _ _ within body induction =>
      obtain ⟨links, overrides, shown⟩ := induction (overriding.fewer rfl within)
      obtain ⟨links, overrides, shown⟩ :=
        body.overrides obeys spoken named overriding overrides shown
      refine ⟨links, ?_, shown⟩
      cases declared : declares id <;> simpa [declared] using overrides

/-- A construction whose constructors declare a method, some of them, ends with the method of the
nearest one on the object. Each method is linked to the one of the next function towards the root
that declares it, and the last to none; and so they stay. What a method is linked to is `super`
wherever the method is called. -/
theorem overrides_follow_supers {id : FunctionId} {functions : List FunctionId}
    {arguments : Option Table} {held : List Handle} {machine after : Machine Code}
    (sane : machine.Sane) (chain : machine.heap.SuperChain id functions)
    (succeeds : constructFunction run id arguments held machine = .ok (.object object) after)
    (overriding : Overriding run object name declares functions
      (visits run id arguments held machine)) :
    ∃ links, after.heap.method? object name = links.head?.map .function ∧
      ∀ later, after.Sustains later →
        later.heap.Overrides links (functions.filterMap declares) ∧
        ∀ {nearer farther : List FunctionId} {method overridden : FunctionId},
          links = nearer ++ method :: overridden :: farther →
            later.Supersedes method overridden := by
  have runs := constructFunction_runsBodies obeys sane chain succeeds
  obtain ⟨links, overrides, shown⟩ := runs.overrides obeys spoken named overriding
  refine ⟨links, shown, fun later onward => ?_⟩
  have carries := onward (runs.sustains obeys sane).sane
  have overrides := overrides.mono carries.function?
  exact ⟨overrides, fun split => overrides.supersedes carries.sane split⟩

end Action

namespace Expr

variable {Op : Type} [Operations Op] {object : ScopeId} {name : String}
  {declares : FunctionId → Option (Definition (Expr Op))}

/-- The functions have bodies of that form, which declare their methods under the name. -/
def MethodBodies (name : String) (declares : FunctionId → Option (Definition (Expr Op)))
    (machine : Machine (Expr Op)) (functions : List FunctionId) : Prop :=
  ∀ maker ∈ functions, ∃ function, machine.heap.function? maker = some function ∧
    function.definition.body.code.isMethodBody name = true ∧
    declares maker = methodOf name function.definition.body.code

omit [Operations Op] in
private theorem MethodBodies.later {before after : Machine (Expr Op)}
    {functions supers : List FunctionId} (forms : MethodBodies name declares before functions)
    (onward : before.Carries after) (fewer : supers ⊆ functions) :
    MethodBodies name declares after supers := by
  intro maker listed
  obtain ⟨function, found, form⟩ := forms maker (fewer listed)
  exact ⟨function, onward.function? found, form⟩

private theorem runsBody_overriding (closed : Operations.Composed Op) (spoken : name ≠ "anon")
    {depth : Nat} {id : FunctionId} {functions supers : List FunctionId}
    {former visits : List (Visit (Expr Op))} {before after : Machine (Expr Op)}
    (runs : RunsBody (runnerAt (depth + 1)) object id former visits before after)
    (exhibits : before.heap.Exhibits object name)
    (forms : MethodBodies name declares before [id])
    (bare : ∀ visit ∈ visits, visit.point.stage = .body →
      functions.getLast? = some visit.point.function →
        (visit.machine.heap.scope object).members = .empty)
    (overriding : Overriding (runnerAt (depth + 1)) object name declares supers former)
    (last : supers.getLast? = functions.getLast?) :
    after.heap.Exhibits object name ∧
      Overriding (runnerAt (depth + 1)) object name declares functions visits := by
  obtain ⟨function, known, form, stated⟩ := forms id List.mem_cons_self
  obtain ⟨sane, targets, found, ran, visited, listed⟩ := runs
  cases known.symm.trans found
  obtain ⟨exhibits, silent, declaring⟩ := methodBody closed spoken ran sane targets exhibits form
  refine ⟨exhibits, fun visit among body root => ?_, fun visit among body undeclared => ?_,
    fun visit among body definition declared => ?_⟩
  all_goals rcases listed visit among body with rfl | earlier
  · obtain ⟨owner, kind⟩ := targets.targets.owned
    exact Heap.method?_of_empty kind (bare _ among rfl root) name
  · exact overriding.fresh visit earlier body (last.trans root)
  · rw [Visit.left_eq found ran]
    exact silent (stated.symm.trans undeclared)
  · exact overriding.silent visit earlier body undeclared
  · rw [Visit.left_eq found ran]
    exact declaring definition (stated.symm.trans declared)
  · exact overriding.declaring visit earlier body definition declared

private theorem runsBodies_overriding (closed : Operations.Composed Op) (spoken : name ≠ "anon")
    {depth : Nat} {functions : List FunctionId} {visits : List (Visit (Expr Op))}
    {start after : Machine (Expr Op)} (sane : start.Sane)
    (forms : MethodBodies name declares start functions)
    (bare : ∀ visit ∈ visits, visit.point.stage = .body →
      functions.getLast? = some visit.point.function →
        (visit.machine.heap.scope object).members = .empty)
    (runs : RunsBodies (runnerAt (depth + 1)) object functions visits start after) :
    after.heap.Exhibits object name ∧
      Overriding (runnerAt (depth + 1)) object name declares functions visits := by
  have obeys (code : Expr Op) (scope : ScopeId) :=
    sustains_regime.composed (runnerAt_composed closed (depth + 1) code scope)
  induction runs with
  | @root id visits start before after sustains body =>
      have exhibits : before.heap.Exhibits object name := by
        obtain ⟨-, targets, -, -, visited, -⟩ := body
        exact Heap.exhibits_of_empty targets.objectLasting.old (bare _ visited rfl rfl) name
      have nothing : Overriding (runnerAt (depth + 1)) object name declares [id] [] :=
        ⟨by simp, by simp, by simp⟩
      exact runsBody_overriding closed spoken body exhibits
        (forms.later (sustains sane) (List.Subset.refl _)) bare nothing rfl
  | @further id parent more former visits start opened before after opens supers within body
      induction =>
      obtain ⟨exhibits, overriding⟩ := induction (opens sane).sane
        (forms.later (opens sane) (List.subset_cons_self _ _))
        fun visit among => bare visit (within among)
      exact runsBody_overriding closed spoken body exhibits
        (forms.later (opens.trans (supers.sustains obeys) sane) (by simp)) bare overriding rfl

/-- Bodies that declare the method or do nothing make a construction an overriding one, if the
first of them finds an object without members. -/
theorem constructFunction_overriding (closed : Operations.Composed Op) (spoken : name ≠ "anon")
    {depth : Nat} {id : FunctionId} {functions : List FunctionId} {arguments : Option Table}
    {held : List Handle} {machine after : Machine (Expr Op)} (sane : machine.Sane)
    (chain : machine.heap.SuperChain id functions)
    (forms : MethodBodies name declares machine functions)
    (succeeds : constructFunction (runnerAt (depth + 1)) id arguments held machine =
      .ok (.object object) after)
    (bare : ∀ visit ∈ visits (runnerAt (depth + 1)) id arguments held machine,
      visit.point.stage = .body → functions.getLast? = some visit.point.function →
        (visit.machine.heap.scope object).members = .empty) :
    Overriding (runnerAt (depth + 1)) object name declares functions
      (visits (runnerAt (depth + 1)) id arguments held machine) := by
  have obeys (code : Expr Op) (scope : ScopeId) :=
    sustains_regime.composed (runnerAt_composed closed (depth + 1) code scope)
  exact (runsBodies_overriding closed spoken sane forms bare
    (constructFunction_runsBodies obeys sane chain succeeds)).2

end Expr

/-! A script with three classes, of which the first and the last declare a method. -/

namespace Script

def classes (name : String) (permission : Permission) : Script :=
  let define (name : String) (body : List Script) (parent : Option Script) : Script :=
    .define { name, body := ⟨name, FunctionSource.file, .empty, .seq body⟩ } parent
  let method (value : Int64) : Script :=
    .define { name, body := ⟨name, FunctionSource.file, .empty, .lit (.exact value)⟩ } none
  .seq [
    .declare "base" .publicTier (define "base" [.declare name permission (method 1)] none),
    .declare "middle" .publicTier (define "middle" [] (some (.var "base"))),
    define "derived" [.declare name permission (method 2)] (some (.var "middle"))]

/-- A new machine after it has run the script. -/
def classed (name : String) (permission : Permission) : Machine Script :=
  machineLeft (Script.run (classes name permission) [] (.new ⟨8, 8, true, true⟩ .empty))

theorem classed_sane (name : String) (permission : Permission) : (classed name permission).Sane :=
  (sustains_regime.composed (Script.run_composed (classes name permission)) [] _
    (Machine.new_sane ..)).sane

/-- The method that a class declares. -/
def declared (maker : FunctionId) : Option (Definition Script) :=
  ((classed "m" .publicTier).heap.function? maker).bind fun function =>
    Expr.methodOf "m" function.definition.body.code

theorem overrides_follow_supers_classed :
    ∃ after base derived,
      constructFunction (Expr.runnerAt 8) ⟨2⟩ none [] (classed "m" .publicTier) =
        .ok (.object ⟨3⟩) after ∧
      after.heap.method? ⟨3⟩ "m" = some (.function derived) ∧
      after.heap.Overrides [derived, base] ([⟨2⟩, ⟨1⟩, ⟨0⟩].filterMap declared) ∧
      after.Supersedes derived base := by
  have finishes : (match
        constructFunction (Expr.runnerAt 8) ⟨2⟩ none [] (classed "m" .publicTier) with
      | .ok value _ => value.holds (.scope ⟨3⟩)
      | .error _ _ => false) = true := by decide +kernel
  have lineage : ((classed "m" .publicTier).heap.lineage ⟨2⟩).functions = [⟨2⟩, ⟨1⟩, ⟨0⟩] := by
    decide +kernel
  have both : ([⟨2⟩, ⟨1⟩, ⟨0⟩].filterMap declared).length = 2 := by decide +kernel
  have forms : ∀ maker ∈ [(⟨2⟩ : FunctionId), ⟨1⟩, ⟨0⟩],
      ((classed "m" .publicTier).heap.function? maker).any
        (·.definition.body.code.isMethodBody "m") = true := by decide +kernel
  have bare : ∀ visit ∈ visits (Expr.runnerAt 8) ⟨2⟩ none [] (classed "m" .publicTier),
      visit.point.stage = .body → [⟨2⟩, ⟨1⟩, ⟨0⟩].getLast? = some visit.point.function →
        (visit.machine.heap.scope ⟨3⟩).members = .empty := by decide +kernel
  split at finishes
  next value after succeeds =>
    obtain rfl : value = .object ⟨3⟩ := by
      cases value with
      | object scope => exact congrArg Value.object (beq_iff_eq.mp finishes).symm
      | _ => cases finishes
    have chain := superChain_of_constructed succeeds
    rw [lineage] at chain
    have overriding : Overriding (Expr.runnerAt 8) ⟨3⟩ "m" declared [⟨2⟩, ⟨1⟩, ⟨0⟩]
        (visits (Expr.runnerAt 8) ⟨2⟩ none [] (classed "m" .publicTier)) := by
      refine Expr.constructFunction_overriding Native.perform_composed (by decide)
        (classed_sane "m" .publicTier) chain (fun maker listed => ?_) succeeds bare
      obtain ⟨function, found, form⟩ := (Option.any_eq_true ..).mp (forms maker listed)
      refine ⟨function, found, form, ?_⟩
      rw [declared, found, Option.bind_some]
    obtain ⟨links, shown, stays⟩ := overrides_follow_supers
      (fun code scope => sustains_regime.composed
        (Expr.runnerAt_composed Native.perform_composed 8 code scope)) (by decide)
      (fun declares => by
        obtain ⟨_, -, method⟩ := Option.bind_eq_some_iff.mp declares
        exact (Expr.methodOf_eq_some method).1)
      (classed_sane "m" .publicTier) chain succeeds overriding
    obtain ⟨overrides, supersedes⟩ := stays after (.refl after)
    obtain ⟨derived, base, rfl⟩ := List.length_eq_two.mp (overrides.length_eq.trans both)
    exact ⟨after, base, derived, succeeds, shown, overrides, @supersedes [] [] _ _ rfl⟩
  next => cases finishes

/-- The function that an object of the last class has as its method. -/
def methodMade (name : String) (permission : Permission) : Option (Function Script) :=
  match constructFunction (Expr.runnerAt 8) ⟨2⟩ none [] (classed name permission) with
  | .ok _ after =>
      match after.heap.method? ⟨3⟩ name with
      | some (.function id) => after.heap.function? id
      | _ => none
  | .error _ _ => none

/-- A function of the name that anonymous functions have replaces nothing, though another class
declares one under that name, and a member that is struck out is none of the object's. -/
theorem anonymous_function_replaces_nothing :
    (methodMade "m" .publicTier).any (·.overridden.isSome) = true ∧
      (methodMade "anon" .publicTier).any (·.overridden.isNone) = true ∧
      (methodMade "m" (.union .publicTier .invalid)).isNone = true := by
  decide +kernel

end Script

end ScopeMachine
