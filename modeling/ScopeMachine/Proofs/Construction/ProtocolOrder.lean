import ScopeMachine.Proofs.Construction.Journal
import ScopeMachine.Proofs.Construction.Targets
import ScopeMachine.Proofs.Liveness.Leading

namespace ScopeMachine

open ScopeMachine.Action

/-- The evaluators of a construction in their order, for the functions of a super chain with their
scopes, nearest first. -/
def protocol (seats : List (FunctionId × ScopeId)) : List Point :=
  seats.flatMap (fun (id, scope) => [⟨.binding, id, scope⟩, ⟨.superArguments, id, scope⟩]) ++
    seats.reverse.map fun (id, scope) => ⟨.body, id, scope⟩

private theorem protocol_cons (id : FunctionId) (scope : ScopeId)
    (seats : List (FunctionId × ScopeId)) :
    protocol ((id, scope) :: seats) =
      ⟨.binding, id, scope⟩ :: ⟨.superArguments, id, scope⟩ ::
        (protocol seats ++ [⟨.body, id, scope⟩]) := by
  simp [protocol]

namespace Heap

variable {Code : Type} {heap : Heap Code}

def Descends (heap : Heap Code) : List FunctionId → Prop
  | [] => True
  | [id] => ∃ function, heap.function? id = some function
  | id :: parent :: more =>
      (∃ function, heap.function? id = some function ∧ function.parent = .function parent) ∧
        Descends heap (parent :: more)

theorem Descends.mono {heap' : Heap Code} {functions : List FunctionId}
    (stays : ∀ {id function}, heap.function? id = some function →
      heap'.function? id = some function) (descends : heap.Descends functions) :
    heap'.Descends functions := by
  induction functions with
  | nil => trivial
  | cons id supers induction =>
      cases supers with
      | nil =>
          obtain ⟨function, found⟩ := descends
          exact ⟨function, stays found⟩
      | cons parent more =>
          obtain ⟨⟨function, found, super⟩, descends⟩ := descends
          exact ⟨⟨function, stays found, super⟩, induction descends⟩

private theorem head_lineageWithin {budget : Nat} {id : FunctionId} {function : Function Code}
    (found : heap.function? id = some function) :
    ∃ supers, (heap.lineageWithin (budget + 1) id).functions = id :: supers := by
  unfold lineageWithin
  rw [found]
  dsimp only
  split <;> exact ⟨_, rfl⟩

private theorem descends_lineageWithin (budget : Nat) (id : FunctionId) :
    heap.Descends (heap.lineageWithin budget id).functions := by
  induction budget generalizing id with
  | zero => trivial
  | succ budget induction =>
      unfold lineageWithin
      cases found : heap.function? id with
      | none => trivial
      | some function =>
          dsimp only
          split
          next parent super =>
            have rest := induction parent
            dsimp only
            cases further : (heap.lineageWithin budget parent).functions with
            | nil => exact ⟨function, found⟩
            | cons first more =>
                have same : first = parent := by
                  cases budget with
                  | zero => cases further
                  | succ budget =>
                      cases known : heap.function? parent with
                      | none => simp [lineageWithin, known] at further
                      | some parentFunction =>
                          obtain ⟨supers, listed⟩ := @head_lineageWithin _ heap budget _ _ known
                          rw [further] at listed
                          cases listed
                          rfl
                rw [further] at rest
                exact ⟨⟨function, found, same ▸ super⟩, rest⟩
          next => exact ⟨function, found⟩

end Heap

variable {Code : Type}

/-- Code after it has made the object of a construction and the scope of the first constructor. -/
structure Client.Opens (origin start : Client Code) (id : FunctionId) (object : ScopeId) :
    Prop where
  leads : origin.Leads start
  listed : .scope object ∈ start.known
  lasting : start.machine.Lasting object
  kind : (start.machine.heap.scope object).kind = .object (some id)
  fresh : object.index = origin.machine.heap.scopes.size
  blank : ∀ {other cell}, object.index < other.index →
    (start.machine.heap.scope other).holds (.cell cell) = false
  evolves : origin.machine.heap.Evolves (fun _ => True) start.machine.heap

/-- An evaluator of a construction: code comes to it with all that its callers hold, and its scope
is one that stands for the object. -/
structure Visit.Attends (start : Client Code) (object : ScopeId) (functions : List FunctionId)
    (visit : Visit Code) : Prop where
  leads : start.Leads ⟨visit.machine, visit.held⟩
  listed : .scope visit.point.scope ∈ visit.held
  member : visit.point.function ∈ functions
  later : object.index < visit.point.scope.index
  targets : ∃ function, visit.machine.heap.function? visit.point.function = some function ∧
    visit.machine.Targets visit.point.scope object function.enclosing visit.point.function

/-- Code goes on from one state of affairs to another and comes by these evaluators in turn. -/
def Client.Passes (start : Client Code) : List (Visit Code) → Client Code → Prop
  | [], after => start.Leads after
  | visit :: visits, after => ∃ hands, visit.held ⊆ hands ∧ start.Leads ⟨visit.machine, hands⟩ ∧
      Passes ⟨visit.machine, hands⟩ visits after

namespace Client.Passes

variable {start middle later : Client Code} {visits visits' : List (Visit Code)}

private theorem after (leads : start.Leads middle) (passes : middle.Passes visits later) :
    start.Passes visits later := by
  cases visits with
  | nil => exact leads.trans passes
  | cons visit visits =>
      obtain ⟨hands, holds, comes, onward⟩ := passes
      exact ⟨hands, holds, leads.trans comes, onward⟩

private theorem append (former : start.Passes visits middle)
    (latter : middle.Passes visits' later) :
    start.Passes (visits ++ visits') later := by
  induction visits generalizing start with
  | nil => exact .after former latter
  | cons visit visits induction =>
      obtain ⟨hands, holds, comes, onward⟩ := former
      exact ⟨hands, holds, comes, induction onward⟩

private theorem leads (passes : start.Passes visits later) : start.Leads later := by
  induction visits generalizing start with
  | nil => exact passes
  | cons visit visits induction =>
      obtain ⟨hands, -, comes, onward⟩ := passes
      exact comes.trans (induction onward)

end Client.Passes

namespace Journaled

variable {α β : Type} {trusted : Code → Prop} {good : Visit Code → Prop}
  {kept known : List Handle} {machine : Machine Code}

/-- A part of a construction: each evaluator that it comes by finds things as they should be, and if
it succeeds its journal is as told. -/
structure Goes (trusted : Code → Prop) (good : Visit Code → Prop) (kept known : List Handle)
    (machine : Machine Code) (outcome : List (Visit Code) × Ending Code α)
    (gain : α → List Handle) (tells : List Point → Prop) : Prop where
  visits : ∀ visit ∈ outcome.1, good visit
  passes : ∃ known', Client.Passes ⟨machine, known⟩ outcome.1 ⟨machineLeft outcome.2, known'⟩ ∧
    kept ⊆ known' ∧ yields gain outcome.2 ⊆ known'
  trusts : machine.heap.Trusts trusted → (machineLeft outcome.2).heap.Trusts trusted
  told : ∀ {result after}, outcome.2 = .ok result after → tells (outcome.1.map Visit.point)

namespace Goes

variable {gain : α → List Handle} {gain' : β → List Handle} {held : List Handle}

private theorem quietly {action : Action Code α} {tells : List Point → Prop}
    (works : Client.Works trusted kept known machine (action held machine) gain)
    (told : ∀ {result after}, action held machine = .ok result after → tells []) :
    Goes trusted good kept known machine (Journaled.quietly action held machine) gain tells := by
  obtain ⟨known', advances, keeps, gains⟩ := works
  exact ⟨nofun, ⟨known', advances.leads, keeps, gains⟩, advances.trusts, told⟩

private theorem visiting {point : Point} {action : Action Code α} (remembers : held ⊆ known)
    (here : good ⟨point, held, machine⟩)
    (works : Client.Works trusted kept known machine (action held machine) gain) :
    Goes trusted good kept known machine (Journaled.visiting point action held machine) gain
      (· = [point]) := by
  obtain ⟨known', advances, keeps, gains⟩ := works
  exact ⟨List.forall_mem_singleton.mpr here,
    ⟨known', ⟨known, remembers, .refl, advances.leads⟩, keeps, gains⟩, advances.trusts,
    fun _ => rfl⟩

private theorem andThen {first : Journaled Code α} {next : α → Journaled Code β}
    {tells story : List Point → Prop}
    (former : Goes trusted good kept known machine (first held machine) gain tells)
    (latter : ∀ {result middle between before}, tells before →
      Client.Advances trusted ⟨machine, known⟩ ⟨middle, between⟩ → kept ⊆ between →
      gain result ⊆ between →
      Goes trusted good kept between middle (next result held middle) gain'
        fun after => story (before ++ after)) :
    Goes trusted good kept known machine (first.andThen next held machine) gain' story := by
  obtain ⟨visits, ⟨between, passes, remembers, gains⟩, trusts, told⟩ := former
  unfold Journaled.andThen
  rcases ended : first held machine with ⟨earlier, result | abort⟩ <;>
    rw [ended] at visits told passes gains trusts
  case ok middle =>
    obtain ⟨more, ⟨known', onward, keeps, gains'⟩, trusts', goesOn⟩ :=
      @latter result middle between _ (told rfl) ⟨passes.leads, trusts⟩ remembers gains
    refine ⟨fun visit listed => ?_, ⟨known', passes.append onward, keeps, gains'⟩,
      trusts' ∘ trusts, fun ending => ?_⟩
    · exact (List.mem_append.mp listed).elim (visits visit) (more visit)
    · have story := goesOn ending
      rwa [← List.map_append] at story
  case error =>
    exact ⟨visits, ⟨between, passes, remembers, gains⟩, trusts, fun ending => nomatch ending⟩

private theorem fewer {kept' : List Handle} {tells tells' : List Point → Prop}
    {outcome : List (Visit Code) × Ending Code α} (forgets : kept' ⊆ kept)
    (retells : ∀ {points}, tells points → tells' points)
    (goes : Goes trusted good kept known machine outcome gain tells) :
    Goes trusted good kept' known machine outcome gain tells' := by
  obtain ⟨visits, ⟨known', passes, keeps, gains⟩, trusts, told⟩ := goes
  exact ⟨visits, ⟨known', passes, List.Subset.trans forgets keeps, gains⟩, trusts,
    fun ending => retells (told ending)⟩

private theorem after {middle : Machine Code} {between : List Handle} {tells : List Point → Prop}
    {outcome : List (Visit Code) × Ending Code α}
    (advances : Client.Advances trusted ⟨machine, known⟩ ⟨middle, between⟩)
    (goes : Goes trusted good kept between middle outcome gain tells) :
    Goes trusted good kept known machine outcome gain tells := by
  obtain ⟨visits, ⟨known', passes, keeps, gains⟩, trusts, told⟩ := goes
  exact ⟨visits, ⟨known', passes.after advances.leads, keeps, gains⟩, trusts ∘ advances.trusts,
    told⟩

theorem works {tells : List Point → Prop} {outcome : List (Visit Code) × Ending Code α}
    (goes : Goes trusted good kept known machine outcome gain tells) :
    Client.Works trusted kept known machine outcome.2 gain := by
  obtain ⟨-, ⟨known', passes, keeps, gains⟩, trusts, -⟩ := goes
  exact ⟨known', ⟨passes.leads, trusts⟩, keeps, gains⟩

end Goes

end Journaled

section Construction

variable {run : Runner Code} {trusted : Code → Prop} {owned held known : List Handle}
  {machine : Machine Code}

private theorem superArgumentsOf_works (serves : run.Serves trusted owned)
    (prepared : Client.Prepared trusted owned held ⟨machine, known⟩)
    {definition : Definition Code} (trusting : ∀ node ∈ definition.nodes, trusted node.code)
    {scope : ScopeId} (within : .scope scope ∈ held) :
    Client.Works trusted held known machine (superArgumentsOf run definition scope held machine)
      (·.toList.flatMap Table.cellHandles) := by
  unfold superArgumentsOf
  cases given : definition.superArguments with
  | none => exact .pure prepared.remembers (List.nil_subset _)
  | some node =>
      dsimp only
      rw [run_bind]
      refine (Client.Works.fewer (List.subset_cons_self ..) (.runNode serves prepared
        (trusting node (by simp [Definition.nodes, given])) (prepared.remembers within))).andThen ?_
      intro value middle between _ _ remembers gains
      exact (Client.Works.superArgumentTable gains).fewer remembers

private theorem superScope_works {object : ScopeId} {parent : FunctionId}
    (listed : .function parent ∈ known) (objectListed : .scope object ∈ known) :
    Client.Works trusted known known machine (superScope object parent held machine)
      fun id => [.scope id] := by
  unfold superScope constructorScope
  rw [run_bind]
  refine (Client.Works.getFunction listed).andThen ?_
  intro function middle between _ _ remembers gains
  rw [run_bind]
  refine .fewer remembers ((Client.Works.newScope (gains List.mem_cons_self)
    fun target holds => ?_).andThen ?_)
  · exact Handle.eq_of_isScope holds ▸ remembers objectListed
  · intro fork middle last _ _ remembers' gains
    refine .fewer remembers' (.newScope (gains List.mem_cons_self) fun target holds => ?_)
    exact Handle.eq_of_isFunction holds ▸ remembers' (remembers listed)

private theorem superScope_eq {object : ScopeId} {parent : FunctionId} {function : Function Code}
    (found : machine.heap.function? parent = some function) :
    superScope object parent held machine =
      let fork := machine.heap.newScope (.onHeap (some function.enclosing) .empty (.fork object))
      let inner := fork.2.newScope
        (.onHeap (some fork.1) (function.definition.body.shape.table .privateOnly)
          (.constructor parent))
      .ok inner.1 { machine with heap := inner.2 } := by
  unfold superScope constructorScope
  rw [run_bind, getFunction_eq found, andThen_ok, run_bind, run_newScope, andThen_ok, run_newScope]

/-- The scope that is made stands for the object. -/
theorem superScope_targets {object scope enclosing : ScopeId} {id parent : FunctionId}
    {inner : ScopeId} {function : Function Code} {after : Machine Code} (sane : machine.Sane)
    (targets : machine.Targets scope object enclosing id)
    (found : machine.heap.function? parent = some function)
    (made : superScope object parent held machine = .ok inner after) :
    after.Targets inner object function.enclosing parent ∧
      machine.heap.scopes.size ≤ inner.index := by
  rw [superScope_eq found] at made
  cases made
  refine ⟨sane.targets_of_new rfl rfl
    (.inr ⟨rfl, targets.objectLasting, targets.targets.owned⟩), ?_⟩
  simp [Heap.newScope]

/-- The next scope down the chain is made of moves: it is reached through the function and its
parent. -/
private theorem superScope_advances {object scope enclosing : ScopeId} {id parent : FunctionId}
    {function parentFunction : Function Code} (targets : machine.Targets scope object enclosing id)
    (found : machine.heap.function? id = some function)
    (super : function.parent = .function parent)
    (foundParent : machine.heap.function? parent = some parentFunction)
    (listed : .scope scope ∈ known) (objectListed : .scope object ∈ known) :
    ∃ inner after known', superScope object parent held machine = .ok inner after ∧
      Client.Advances trusted ⟨machine, known⟩ ⟨after, known'⟩ ∧ known ⊆ known' ∧
      [.scope inner] ⊆ known' := by
  have maker : machine.heap.Holds (.scope scope) (.function id) := by
    rw [Heap.holds_scope]
    simp [Scope.holds, targets.targets.kind, ScopeKind.holds, Handle.isFunction]
  have inherits : machine.heap.Holds (.function id) (.function parent) :=
    ⟨function, found, by simp [Function.holds, super, Value.holds]⟩
  have followed : Client.Leads ⟨machine, known⟩
      ⟨machine, .function parent :: .function id :: known⟩ :=
    .trans (Client.Leads.follow (List.forall_mem_singleton.mpr ⟨_, listed, maker⟩))
      (Client.Leads.follow (List.forall_mem_singleton.mpr ⟨_, List.mem_cons_self, inherits⟩))
  obtain ⟨inner, after, made⟩ : ∃ inner after,
      superScope object parent held machine = .ok inner after :=
    ⟨_, _, superScope_eq foundParent⟩
  have works := @superScope_works _ trusted held (.function parent :: .function id :: known)
    machine object parent List.mem_cons_self
    (List.mem_cons_of_mem _ (List.mem_cons_of_mem _ objectListed))
  obtain ⟨known', ran, keeps, gains⟩ := works
  rw [made] at ran gains
  exact ⟨inner, after, known', made, .trans (.of_leads followed) ran,
    fun handle old => keeps (List.mem_cons_of_mem _ (List.mem_cons_of_mem _ old)),
    gains⟩

/-- A super chain that is constructed along to its end goes back to `Object`. -/
theorem extendRoot_eq_ok {root : Value} {arguments : Option Table} {after : Machine Code}
    (ended : extendRoot root arguments held machine = .ok () after) : root = .type .object := by
  unfold extendRoot at ended
  split at ended
  next => rfl
  next => cases ended
  next => cases ended

private theorem step_goes (serves : run.Serves trusted owned) {start : Client Code}
    {object scope : ScopeId}
    {functions : List FunctionId} {id : FunctionId} {function : Function Code}
    {arguments : Option Table} (prepared : Client.Prepared trusted owned held ⟨machine, known⟩)
    (leads : start.Leads ⟨machine, known⟩) (listed : .scope scope ∈ held) (member : id ∈ functions)
    (later : object.index < scope.index)
    (found : machine.heap.function? id = some function)
    (targets : machine.Targets scope object function.enclosing id)
    (kept : ∀ table ∈ arguments, table.Kept (· ∈ known)) {rest : Option Table → Journaled Code Unit}
    (tells : List Point → Prop) {story : List Point → Prop}
    (retells : ∀ {inner}, tells inner → story
      (⟨.binding, id, scope⟩ :: ⟨.superArguments, id, scope⟩ :: (inner ++ [⟨.body, id, scope⟩])))
    (onward : ∀ {superArguments : Option Table} {middle : Machine Code} {between : List Handle},
      Client.Advances trusted ⟨machine, known⟩ ⟨middle, between⟩ → held ⊆ between →
      (∀ table ∈ superArguments, table.Kept (· ∈ between)) →
      Journaled.Goes trusted (Visit.Attends start object functions) held between middle
        (rest superArguments held middle) (fun _ => []) tells) :
    Journaled.Goes trusted (Visit.Attends start object functions) held known machine
      ((Journaled.quietly (getFunction id)).andThen (fun function =>
        (Journaled.visiting ⟨.binding, id, scope⟩
          (bindArguments function.definition scope arguments)).andThen fun _ =>
        (Journaled.visiting ⟨.superArguments, id, scope⟩
          (superArgumentsOf run function.definition scope)).andThen fun superArguments =>
        (rest superArguments).andThen fun _ =>
        (Journaled.visiting ⟨.body, id, scope⟩
          (runNode run function.definition.body scope)).andThen fun _ =>
        .quietly (pure ())) held machine) (fun _ => []) story := by
  have attends (stage : Stage) {middle : Machine Code} {between : List Handle}
      (led : Client.Leads ⟨machine, known⟩ ⟨middle, between⟩) (remembers : held ⊆ between) :
      Visit.Attends start object functions ⟨⟨stage, id, scope⟩, held, middle⟩ :=
    ⟨leads.trans (.trans led (Client.Leads.forget remembers)), listed, member, later, function,
      Client.Leads.function? led prepared.orderly found,
      Client.Leads.targets led prepared.orderly targets⟩
  have trusting : ∀ node ∈ function.definition.nodes, trusted node.code := prepared.trusts found
  rw [Journaled.quietly_andThen (getFunction_eq found)]
  have bound : Client.Works trusted held known machine
      (bindArguments function.definition scope arguments held machine) fun _ => [] :=
    (Client.Works.bindArguments function.definition (prepared.remembers listed) kept).fewer
      prepared.remembers
  refine .andThen (.visiting prepared.remembers (attends .binding .refl prepared.remembers)
    bound) ?_
  rintro _ middle between _ rfl made remembers -
  refine .andThen (.visiting remembers (attends .superArguments made.leads remembers)
    (superArgumentsOf_works serves (prepared.advance made remembers) trusting listed)) ?_
  rintro superArguments middle between _ rfl made' remembers gains
  have made := made.trans made'
  refine .andThen (onward made remembers fun table given id cell => gains ?_) ?_
  · exact List.mem_flatMap.mpr ⟨table, Option.mem_toList.mpr given,
      List.mem_map.mpr ⟨id, Array.mem_toList_iff.mpr cell, rfl⟩⟩
  · intro _ middle between inner told made' remembers _
    have made := made.trans made'
    refine .andThen (.visiting remembers (attends .body made.leads remembers)
      (Client.Works.fewer (List.subset_cons_self ..) (.runNode serves
        (prepared.advance made remembers) (trusting _ List.mem_cons_self)
        (remembers listed)))) ?_
    rintro _ middle between _ rfl - remembers -
    exact .quietly (.pure remembers (List.nil_subset _)) fun _ => retells told

private theorem journalAlong_goes (serves : run.Serves trusted owned) {start : Client Code}
    {object : ScopeId}
    {functions : List FunctionId} (root : Value) {id : FunctionId} {supers : List FunctionId}
    {scope : ScopeId} {function : Function Code} {arguments : Option Table}
    (prepared : Client.Prepared trusted owned held ⟨machine, known⟩)
    (leads : start.Leads ⟨machine, known⟩) (listed : .scope scope ∈ held)
    (objectListed : .scope object ∈ held) (among : id :: supers ⊆ functions)
    (later : object.index < scope.index) (descends : machine.heap.Descends (id :: supers))
    (found : machine.heap.function? id = some function)
    (targets : machine.Targets scope object function.enclosing id)
    (kept : ∀ table ∈ arguments, table.Kept (· ∈ known)) :
    Journaled.Goes trusted (Visit.Attends start object functions) held known machine
      (journalAlong run object root (id :: supers) scope arguments held machine) (fun _ => [])
      fun points => ∃ scopes, scopes.length = supers.length + 1 ∧ scopes.Nodup ∧
        (∀ other ∈ scopes, other = scope ∨ machine.heap.scopes.size ≤ other.index) ∧
        root = .type .object ∧ points = protocol ((id :: supers).zip scopes) := by
  induction supers generalizing id scope function arguments held known machine with
  | nil =>
      unfold journalAlong
      refine step_goes serves prepared leads listed (among List.mem_cons_self)
        later found
        targets kept
        (fun points => points = [] ∧ root = .type .object) ?_ fun led remembers _ => ?_
      · rintro _ ⟨rfl, based⟩
        exact ⟨[scope], rfl, List.nodup_singleton scope, fun other listed =>
          .inl (List.mem_singleton.mp listed), based, rfl⟩
      · unfold journalAlong
        refine .quietly ((Client.Works.extendRoot root _).fewer remembers) fun ended => ⟨rfl, ?_⟩
        exact extendRoot_eq_ok ended
  | cons parent more induction =>
      obtain ⟨⟨own, foundOwn, super⟩, rest⟩ := descends
      cases Option.some.inj (found.symm.trans foundOwn)
      obtain ⟨parentFunction, foundParent⟩ : ∃ function, machine.heap.function? parent =
          some function := by
        cases more with
        | nil => exact rest
        | cons => exact ⟨rest.1.choose, rest.1.choose_spec.1⟩
      unfold journalAlong
      refine step_goes serves prepared leads listed (among List.mem_cons_self)
        later found
        targets kept
        (fun points => ∃ scopes, scopes.length = more.length + 1 ∧ scopes.Nodup ∧
          (∀ other ∈ scopes, machine.heap.scopes.size ≤ other.index) ∧
          root = .type .object ∧ points = protocol ((parent :: more).zip scopes)) ?_
        fun {superArguments middle between} ran remembers given => ?_
      · rintro _ ⟨scopes, length, nodup, fresh, based, rfl⟩
        have apart : scope ∉ scopes := fun listed =>
          Nat.not_lt_of_le (fresh scope listed) targets.lasting.old
        refine ⟨scope :: scopes, congrArg (· + 1) length, List.nodup_cons.mpr ⟨apart, nodup⟩, ?_,
          based, ?_⟩
        · intro other listed
          exact (List.mem_cons.mp listed).imp_right (fresh other)
        · rw [List.zip_cons_cons, protocol_cons]
      · have led := ran.leads
        have orderly := prepared.orderly
        have within := prepared.advance ran remembers
        have orderly' := within.orderly
        have targets' := Client.Leads.targets led orderly targets
        have foundParent' := Client.Leads.function? led orderly foundParent
        obtain ⟨inner, after, known', made, ran', keeps, gains⟩ :=
          @superScope_advances _ trusted held between middle object scope _ id parent _ _ targets'
            (Client.Leads.function? led orderly foundOwn) super foundParent' (remembers listed)
            (remembers objectListed)
        have led' := ran'.leads
        have within' := within.advance ran' (List.Subset.trans remembers keeps)
        obtain ⟨innerTargets, new⟩ := superScope_targets orderly'.sane targets' foundParent' made
        dsimp only
        rw [Journaled.quietly_andThen made]
        have below := Client.Leads.size led orderly
        have below' := Client.Leads.size led' orderly'
        refine .after ran' (.fewer (List.subset_cons_self ..) ?_
          (induction (within'.holding gains) (leads.trans (led.trans led'))
            List.mem_cons_self (List.mem_cons_of_mem _ objectListed)
            (List.cons_subset.mp among).2
            (Nat.lt_of_lt_of_le targets'.objectLasting.old new)
            (rest.mono (Client.Leads.function? (led.trans led') orderly))
            (Client.Leads.function? led' orderly' foundParent') innerTargets
            fun table listed id cell => keeps (given table listed id cell)))
        rintro _ ⟨scopes, length, nodup, fresh, based, rfl⟩
        refine ⟨scopes, length, nodup, fun other listed => ?_, based, rfl⟩
        rcases fresh other listed with rfl | fresh
        · exact Nat.le_trans below new
        · exact Nat.le_trans below (Nat.le_trans below' fresh)

private theorem prepareSite_works {id : FunctionId} (listed : .function id ∈ known) :
    Client.Works trusted known known machine (prepareSite id held machine)
      fun site => [.scope site.object, .scope site.scope] := by
  have holds {maker : FunctionId} {known : List Handle} (known_maker : .function maker ∈ known)
      {kind : ScopeKind} (made : kind = .object (some maker) ∨ kind = .constructor maker)
      (target : Handle) (holds : kind.holds target = true) : target ∈ known := by
    have holds : target.isFunction maker = true := by
      rcases made with rfl | rfl <;> exact holds
    exact Handle.eq_of_isFunction holds ▸ known_maker
  unfold prepareSite constructorScope
  rw [run_bind]
  refine (Client.Works.getFunction listed).andThen ?_
  intro function middle between _ _ remembers gains
  rw [run_bind, run_get, andThen_ok, run_bind]
  refine .fewer remembers ((Client.Works.newScope (gains List.mem_cons_self)
    (holds (remembers listed) (.inl rfl))).andThen ?_)
  intro object middle last _ _ remembers' gains
  rw [run_bind]
  refine .fewer remembers' ((Client.Works.newScope (gains List.mem_cons_self)
    (holds (remembers' (remembers listed)) (.inr rfl))).andThen ?_)
  intro scope middle final _ _ remembers'' gains'
  exact .pure remembers'' (List.cons_subset.mpr
    ⟨remembers'' (gains List.mem_cons_self), List.cons_subset.mpr
      ⟨gains' List.mem_cons_self, List.nil_subset _⟩⟩)

theorem prepareSite_eq {id : FunctionId} {function : Function Code}
    (found : machine.heap.function? id = some function) :
    prepareSite id held machine =
      let object := machine.heap.newScope (.onHeap (some function.enclosing)
        (function.definition.body.shape.table .publicProtected) (.object (some id)))
      let scope := object.2.newScope (.onHeap (some object.1)
        (function.definition.body.shape.table .privateOnly) (.constructor id))
      .ok ⟨object.1, scope.1, machine.heap.lineage id⟩ { machine with heap := scope.2 } := by
  unfold prepareSite constructorScope
  rw [run_bind, getFunction_eq found, andThen_ok, run_bind, run_get, andThen_ok, run_bind,
    run_newScope, andThen_ok, run_bind, run_newScope, andThen_ok, run_pure]

private theorem Client.opens_of_new (orderly : Client.Orderly ⟨machine, known⟩) {outer : Scope}
    {index : Index} {id : FunctionId} {enclosing : ScopeId} {known' : List Handle}
    (previous : outer.previous = some enclosing) (unpooled : outer.pooled = false)
    (kind : outer.kind = .object (some id)) :
    let object := machine.heap.newScope outer
    let made := object.2.newScope (.onHeap (some object.1) index (.constructor id))
    Client.Leads ⟨machine, known⟩ ⟨{ machine with heap := made.2 }, known'⟩ →
      .scope object.1 ∈ known' →
        Client.Opens ⟨machine, known⟩ ⟨{ machine with heap := made.2 }, known'⟩ id object.1 := by
  intro object made leads listed
  have targets := @Machine.Sane.targets_of_new _ _ object.1 enclosing orderly.sane outer index id
    previous unpooled (.inl ⟨rfl, _, kind⟩)
  have size : object.2.scopes.size = machine.heap.scopes.size + 1 := by
    simp [object, Heap.newScope]
  have there : made.2.scope object.1 = outer := by
    rw [Heap.scope_newScope_ne, Heap.scope_newScope_self]
    rintro same
    have same : machine.heap.scopes.size = object.2.scopes.size := congrArg ScopeId.index same
    omega
  refine ⟨leads, listed, targets.objectLasting, there ▸ kind, rfl, fun {other cell} above => ?_,
    (Heap.newScope_evolves machine.heap _).trans orderly.sound (Heap.newScope_evolves _ _)⟩
  -- Past the object there is nothing but the new scope, and that is bare.
  change (made.2.scope other).holds (.cell cell) = false
  by_cases same : other = made.1
  · rw [same, Heap.scope_newScope_self]
    exact Heap.onHeap_holds_cell rfl
  · have above : machine.heap.scopes.size < other.index := above
    rw [Heap.scope_newScope_ne same, Heap.scope_of_size_le (by omega)]
    exact Heap.scope_default_holds _

/-- The whole construction: code comes to every evaluator with what its callers hold, and finds its
scope standing for one object; if all goes well that object is the result. -/
theorem journalConstruct_goes (serves : run.Serves trusted owned)
    (ready : Client.Prepared trusted owned held ⟨machine, known⟩) {id : FunctionId}
    {function : Function Code} (found : machine.heap.function? id = some function)
    (listed : .function id ∈ known) {arguments : Option Table}
    (kept : ∀ table ∈ arguments, table.Kept (· ∈ known)) :
    ∃ start object, Client.Opens ⟨machine, known⟩ start id object ∧
      Journaled.Goes trusted (Visit.Attends start object (machine.heap.lineage id).functions)
        held known machine (journalConstruct run id arguments held machine) Value.handles
        (fun points => ∃ scopes, scopes.length = (machine.heap.lineage id).functions.length ∧
          scopes.Nodup ∧ (machine.heap.lineage id).root = .type .object ∧
          points = protocol ((machine.heap.lineage id).functions.zip scopes)) ∧
      ∀ {value after}, constructFunction run id arguments held machine = .ok value after →
        value = .object object := by
  have works := @prepareSite_works _ trusted held known machine id listed
  obtain ⟨site, after, made, lineage, targets, later, opens⟩ : ∃ site after,
      prepareSite id held machine = .ok site after ∧ site.lineage = machine.heap.lineage id ∧
        after.Targets site.scope site.object function.enclosing id ∧
        site.object.index < site.scope.index ∧ ∀ {known'},
          Client.Leads ⟨machine, known⟩ ⟨after, known'⟩ → .scope site.object ∈ known' →
            Client.Opens ⟨machine, known⟩ ⟨after, known'⟩ id site.object := by
    refine ⟨_, _, prepareSite_eq found, rfl, ?_, ?_, fun led listed => ?_⟩
    · exact ready.orderly.sane.targets_of_new rfl rfl (.inl ⟨rfl, _, rfl⟩)
    · simp [Heap.newScope]
    · exact Client.opens_of_new ready.orderly rfl rfl rfl led listed
  rw [made] at works
  obtain ⟨known', prepared, keeps, gains⟩ := works
  rw [machineLeft_ok] at prepared
  have led := prepared.leads
  have gains : [.scope site.object, .scope site.scope] ⊆ known' := gains
  have within := (ready.advance prepared (List.Subset.trans ready.remembers keeps)).holding gains
  have descends := machine.heap.descends_lineageWithin machine.heap.functions.size id
  obtain ⟨supers, functions⟩ : ∃ supers, (machine.heap.lineage id).functions = id :: supers := by
    have old : id.index < machine.heap.functions.size := (Array.getElem?_eq_some_iff.mp found).1
    unfold Heap.lineage
    obtain ⟨budget, size⟩ := Nat.exists_eq_add_of_lt old
    rw [size]
    exact Heap.head_lineageWithin found
  change machine.heap.Descends (machine.heap.lineage id).functions at descends
  rw [functions] at descends ⊢
  have goes := journalAlong_goes @serves site.lineage.root within .refl
    (List.mem_cons_of_mem _ List.mem_cons_self) List.mem_cons_self (List.Subset.refl _) later
    (descends.mono (Client.Leads.function? led ready.orderly))
    (Client.Leads.function? led ready.orderly found) targets
    fun table listed id cell => keeps (kept table listed id cell)
  have whole : journalConstruct run id arguments held machine =
      (((journalAlong run site.object site.lineage.root (id :: supers) site.scope
        arguments).holding [.scope site.object, .scope site.scope]).andThen fun _ =>
          .quietly (pure (.object site.object))) held after := by
    unfold journalConstruct
    rw [Journaled.quietly_andThen made, lineage, functions]
  refine ⟨⟨after, known'⟩, site.object, opens led (gains List.mem_cons_self), ?_, fun ended => ?_⟩
  · rw [whole]
    refine .after prepared
      (.fewer (List.subset_append_right [.scope site.object, .scope site.scope] _)
      (fun told => told) (.andThen goes ?_))
    rintro _ middle between points ⟨scopes, length, nodup, -, based, rfl⟩ led remembers -
    refine .quietly (.pure remembers ?_) fun _ =>
      ⟨scopes, length, nodup, lineage ▸ based, List.append_nil _⟩
    exact List.cons_subset.mpr ⟨remembers List.mem_cons_self, List.nil_subset _⟩
  · rw [← journalConstruct_ending, whole, Journaled.andThen_ending] at ended
    unfold Action.andThen at ended
    split at ended
    next => exact (EStateM.Result.ok.inj ended).1.symm
    next => cases ended

end Construction

end ScopeMachine
