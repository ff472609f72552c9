import ScopeMachine.Proofs.Liveness.WorkOfCalls

namespace ScopeMachine

open ScopeMachine.Action

variable {Op : Type}

namespace Client.Works

variable {trusted : Expr Op → Prop} {known held : List Handle} {machine : Machine (Expr Op)}

private theorem lookup {scope : ScopeId} (listed : .scope scope ∈ known) (name : String) :
    Works trusted known known machine (onHeap (·.lookup scope name) held machine)
      fun cell => cell.toList.map .cell :=
  request (.lookup listed name) nofun (Heap.sameFunctions_law.lookup ..)

private theorem found (name : String) {cell : Option CellId}
    (listed : cell.toList.map .cell ⊆ known) :
    Works trusted known known machine (Expr.found name cell held machine)
      fun cell => [.cell cell] := by
  cases cell with
  | none => exact fail (List.Subset.refl _) rfl
  | some cell => exact pure (List.Subset.refl _) listed

private theorem valueOf {cell : CellId} (listed : .cell cell ∈ known) :
    Works trusted known known machine (Expr.valueOf cell held machine) Value.handles :=
  readHeap (within_value listed)

private theorem memberOf {object : Value} (listed : object.handles ⊆ known) (name : String) :
    Works trusted known known machine (Expr.memberOf object name held machine) Value.handles := by
  unfold Expr.memberOf
  rw [run_bind]
  refine (request (.member (Value.kept_iff.mpr listed) name) nofun
    (Heap.sameFunctions_law.member ..)).andThen ?_
  intro cell middle between _ _ remembers gains
  rw [run_bind]
  refine fewer remembers ((found name gains).andThen ?_)
  intro cell middle last _ _ remembers gains
  exact fewer remembers (valueOf (gains List.mem_cons_self))

private theorem inexact {heap : Heap (Expr Op)} {value : Value} :
    Works trusted known known machine
      ((ofExcept (heap.toInexact value) : Action (Expr Op) _) held machine) fun _ => [] := by
  rw [run_ofExcept]
  split
  next => exact pure (List.Subset.refl _) (List.nil_subset _)
  next fault refused =>
    exact fail (List.Subset.refl _) (Composed.toInexact_unthrown heap value fault refused)

private theorem named {walk : Heap (Expr Op) → Option Value}
    (within : ∀ {value}, walk machine.heap = some value →
      value.Kept (machine.heap.Within known)) :
    Works trusted known known machine
      ((do return (← Action.readHeap walk).getD .null : Action (Expr Op) Value) held machine)
      Value.handles := by
  rw [run_bind, run_readHeap, andThen_ok, run_pure]
  cases found : walk machine.heap with
  | none => exact pure (List.Subset.refl _) (List.nil_subset _)
  | some value =>
      exact after (.of_leads (Leads.reach (Value.kept_iff.mp (within found))))
        (pure (List.subset_append_right ..) (List.subset_append_left ..))

private theorem caught {failure : Failure} (listed : failure.handles ⊆ known) :
    Works trusted known known machine (onHeap (·.caught failure) held machine)
      (·.toList.flatMap Value.handles) := by
  unfold Failure.handles at listed
  rw [run_onHeap]
  unfold Heap.caught
  split
  next value thrown =>
    rw [thrown] at listed
    exact pure (List.Subset.refl _) (by simpa using listed)
  next =>
    split
    next => exact pure (List.Subset.refl _) (List.nil_subset _)
    next type _ =>
      have asked := @Request.newException (Expr Op) known
        { type, message := machine.heap.faultMessage failure.fault,
          backtrace := failure.backtrace } fun value given => by cases given
      obtain ⟨known', advances, remembers, gains⟩ :=
        @request _ _ known machine trusted _ held _ asked nofun rfl
      exact ⟨known', advances, remembers, gains⟩

private theorem catchScope {scope : ScopeId} (within : .scope scope ∈ known) (name : String)
    {failure : Failure} (listed : failure.handles ⊆ known) :
    Works trusted known known machine (catchScope scope name failure held machine)
      fun inner => [.scope inner] := by
  unfold Action.catchScope
  rw [run_bind]
  refine (caught listed).andThen ?_
  intro caught middle between _ _ remembers stored
  rw [run_bind]
  refine fewer remembers ((newScope (remembers within) fun _ holds => by cases holds).andThen ?_)
  intro inner middle last _ _ remembers gains
  rw [run_bind]
  refine fewer remembers ((request (.createMember (gains List.mem_cons_self) name .publicTier) nofun
    (Heap.sameFunctions_law.createMember ..)).andThen ?_)
  intro cell middle final _ _ remembers' _
  rw [run_bind]
  refine fewer remembers' ((request (.changeCell cell ?_) nofun rfl).andThen ?_)
  · have bound : (caught.getD .null).Kept (· ∈ between) := by
      cases caught with
      | none => exact Value.kept_null
      | some value => exact Value.kept_of_subset stored value (by simp)
    exact fun _ target holds => .inr (remembers' (remembers (bound target holds)))
  · intro _ middle final _ _ remembers'' _
    exact pure remembers'' (List.Subset.trans gains (List.Subset.trans remembers' remembers''))

end Client.Works

/-- Operations of a host that are made of moves if the code and the operands are. -/
def Operations.MadeOfMoves (Op : Type) [Operations Op] : Prop :=
  ∀ {trusted : Expr Op → Prop} {owned : List Handle} {run : Runner (Expr Op)},
    run.Serves trusted owned → ∀ (op : Op) {operands : List (Operand Op)},
      (∀ operand ∈ operands, ∀ {scope : ScopeId} {held : List Handle}, owned ⊆ held →
        .scope scope ∈ held →
        Action.MadeOfMoves trusted owned held [] (operand scope) Value.handles) →
      ∀ {scope : ScopeId} {held : List Handle}, owned ⊆ held → .scope scope ∈ held →
        Action.MadeOfMoves trusted owned held [] (Operations.perform run op operands scope)
          Value.handles

namespace Expr

open Action.MadeOfMoves

variable {trusted : Expr Op → Prop} {owned held asks : List Handle}

private theorem sum_madeOfMoves (left right : Value) :
    MadeOfMoves trusted owned held asks (sum left right) Value.handles := by
  refine .get fun machine => ?_
  dsimp only
  split
  next => exact .pure (List.nil_subset _)
  next => exact .pure (List.nil_subset _)
  next => exact .pure (List.nil_subset _)
  next =>
    exact .quietly (fun _ _ => .inexact) fun _ => .quietly (fun _ _ => .inexact) fun _ =>
      .pure (List.nil_subset _)

private theorem catching_madeOfMoves {scope : ScopeId} (within : .scope scope ∈ held)
    (name : String)
    {body : Action (Expr Op) Value} {handler : ScopeId → Action (Expr Op) Value}
    (made : MadeOfMoves trusted owned held [] body Value.handles)
    (rescue : ∀ {inner : ScopeId} {held' : List Handle}, held ⊆ held' → .scope inner ∈ held' →
      MadeOfMoves trusted owned held' [] (handler inner) Value.handles) :
    MadeOfMoves trusted owned held [] (catching scope name body handler) Value.handles := by
  have handling (failure : Failure) : MadeOfMoves trusted owned held failure.handles
      (holding failure.handles (catching.bindAndHandle scope name handler failure))
      Value.handles := by
    rw [bindAndHandle_eq]
    refine (holding (by simp) (.quietly (fun asked inHand => .catchScope
      (inHand (List.mem_append_right _ within)) name asked) fun inner => ?_)).giving
        fun _ => List.subset_append_right ..
    exact (holding (List.subset_append_of_subset_left _ (List.subset_append_left ..))
      ((rescue (List.subset_cons_of_subset _ (List.subset_append_right ..))
        List.mem_cons_self).asking (List.nil_subset _))).giving fun _ =>
          List.subset_append_right ..
  rw [catching_eq]
  refine ⟨fun {known machine} prepared _ => ?_⟩
  have works := made.works prepared (List.nil_subset _)
  unfold rescuing
  cases ended : body held machine with
  | ok result after =>
      rw [ended] at works
      exact works
  | error abort after =>
      rw [ended] at works
      cases abort with
      | crash => exact works
      | failure failure =>
          dsimp only
          split
          next =>
            obtain ⟨between, advances, remembers, gains⟩ := works
            exact .after advances
              ((handling failure).works (prepared.advance advances remembers) gains)
          next => exact works

private theorem callMember_madeOfMoves {run : Runner (Expr Op)} (serves : run.Serves trusted owned)
    (receiver method : Value) (arguments : Option Table) :
    MadeOfMoves trusted owned held
      (receiver.handles ++ method.handles ++ arguments.toList.flatMap Table.cellHandles)
      (callMember run receiver method arguments) Value.handles := by
  unfold callMember
  split
  next id =>
    exact (callFunction serves id arguments (some receiver)).asking (by
      simp [Value.handles]; grind)
  next => exact (callValue serves method arguments).asking (by grind)

private theorem named_madeOfMoves {walk : Heap (Expr Op) → Option Value} {scope : ScopeId}
    (within : .scope scope ∈ held)
    (leads : ∀ {heap : Heap (Expr Op)} {live : Handle → Prop},
      (∀ {holder target : Handle}, live holder → heap.Holds holder target → live target) →
      live (.scope scope) → ∀ {value : Value}, walk heap = some value → value.Kept live) :
    MadeOfMoves trusted owned held asks (do return (← readHeap walk).getD .null)
      Value.handles :=
  .of_works fun _ inHand => .named (leads Heap.Within.closed (.of_mem (inHand within)))

variable [Operations Op] {run : Runner (Expr Op)} {exprs : List (Expr Op)}

section Lists

variable (each : ∀ expr ∈ exprs, ∀ {scope : ScopeId} {held : List Handle}, owned ⊆ held →
  .scope scope ∈ held → MadeOfMoves trusted owned held [] (expr.eval run scope) Value.handles)

include each

private theorem evalEach_madeOfMoves {scope : ScopeId} (owns : owned ⊆ held)
    (within : .scope scope ∈ held) :
    MadeOfMoves trusted owned held [] (evalEach run exprs scope)
      (·.flatMap Value.handles) := by
  induction exprs generalizing held with
  | nil => exact .pure (List.nil_subset _)
  | cons first rest induction =>
      refine .bind (each first List.mem_cons_self owns within) fun value =>
        .bind (.holdingOn (induction (fun expr listed => each expr (List.mem_cons_of_mem _ listed))
          (List.subset_append_of_subset_right _ owns) (List.mem_append_right _ within)))
        fun values => .pure ?_
      simp

private theorem evalSeq_madeOfMoves (last : Value) {scope : ScopeId} (owns : owned ⊆ held)
    (within : .scope scope ∈ held) :
    MadeOfMoves trusted owned held last.handles (evalSeq run exprs last scope)
      Value.handles := by
  induction exprs generalizing last with
  | nil => exact .pure (List.subset_append_left ..)
  | cons first rest induction =>
      exact .bind ((holdingOn (each first List.mem_cons_self
        (List.subset_append_of_subset_right _ owns) (List.mem_append_right _ within))).giving
          fun _ => List.subset_append_right ..) fun value =>
        induction (fun expr listed => each expr (List.mem_cons_of_mem _ listed)) value

omit each in
private theorem delayEach_madeOfMoves
    (each : ∀ expr ∈ exprs, ∀ {scope : ScopeId} {held : List Handle},
      owned ⊆ held → .scope scope ∈ held →
      MadeOfMoves trusted owned held [] (expr.eval run scope) Value.handles) :
    ∀ operand ∈ delayEach run exprs, ∀ {scope : ScopeId} {held : List Handle}, owned ⊆ held →
      .scope scope ∈ held → MadeOfMoves trusted owned held [] (operand scope) Value.handles := by
  induction exprs with
  | nil => exact fun _ listed => absurd listed List.not_mem_nil
  | cons first rest induction =>
      intro operand listed
      rcases List.mem_cons.mp listed with rfl | listed
      · exact each first List.mem_cons_self
      · exact induction (fun expr listed => each expr (List.mem_cons_of_mem _ listed))
          operand listed

end Lists

/-- The code knows the values that stand in it. -/
abbrev Spells (owned : List Handle) : Expr Op → Prop := Literals (·.Kept (· ∈ owned))

theorem eval_madeOfMoves (hosted : Operations.MadeOfMoves Op) {owned : List Handle}
    (serves : run.Serves (Spells owned) owned) {expr : Expr Op} (spells : expr.Spells owned)
    {scope : ScopeId} {held : List Handle} (owns : owned ⊆ held) (within : .scope scope ∈ held) :
    MadeOfMoves (Spells owned) owned held [] (expr.eval run scope) Value.handles := by
  induction spells generalizing scope held with
  | lit stored =>
      exact .pure fun handle member => List.mem_append_right _
        (owns (Value.kept_iff.mp stored handle member))
  | var name =>
      exact .quietly (fun _ inHand => .lookup (inHand within) name) fun cell =>
        .quietly (fun asked _ => .found name (List.append_subset.mp asked).1) fun cell =>
          .of_works fun asked _ => .valueOf (asked List.mem_cons_self)
  | declare name permission _ init =>
      exact .bind (init owns within) fun value => .quietly (fun asked inHand =>
        .declareMember (inHand within) name permission (Value.kept_iff.mpr asked)) fun _ =>
          .pure (by simp)
  | assign name _ assigned =>
      refine .bind (assigned owns within) fun value =>
        .quietly (fun _ inHand => .lookup (inHand within) name) fun cell =>
          .quietly (fun asked _ => .found name (List.append_subset.mp asked).1) fun cell =>
            .quietly (fun asked _ => .assign cell name (Value.kept_iff.mpr ?_)) fun _ => .pure ?_
      · exact List.Subset.trans (by simp) asked
      · grind
  | setMember name _ _ target assigned =>
      refine .bind (target owns within) fun object =>
        .bind (.holdingOn (assigned (List.subset_append_of_subset_right _ owns)
          (List.mem_append_right _ within))) fun value => ?_
      dsimp only
      split
      next object =>
        refine .quietly (fun asked _ => .declareMember (asked (by simp [Value.handles])) name
          .publicTier (Value.kept_iff.mpr (List.append_subset.mp asked).2)) fun _ => .pure ?_
        grind
      next other _ =>
        exact ⟨fun prepared _ => .fail prepared.remembers rfl⟩
  | block index _ body =>
      exact .quietly (fun _ inHand => .allocateBlock (inHand within) index) fun block =>
        ((holdingOn (evalSeq_madeOfMoves (fun expr listed => body expr listed) .null
          (List.subset_append_of_subset_right _ owns) List.mem_cons_self)).giving
            fun _ => List.subset_append_right ..).asking (by simp)
  | seq _ body =>
      exact evalSeq_madeOfMoves (fun expr listed => body expr listed) .null owns within
  | @define definition parent code _ _ superior =>
      have made (parent : Option Value) : MadeOfMoves (Spells owned) owned held
          (parent.toList.flatMap Value.handles) (do
            return .function (← makeFunction run scope parent definition)) Value.handles :=
        .bind (makeFunction serves within parent code) fun _ => .pure (List.subset_append_left ..)
      cases parent with
      | none => exact made none
      | some parent =>
          exact .bind (superior parent rfl owns within) fun value =>
            (made (some value)).asking (by simp)
  | call _ _ called arguments =>
      exact .bind (called owns within) fun callee => (holdingOn
        (.bind (evalEach_madeOfMoves (fun expr listed => arguments expr listed)
          (List.subset_append_of_subset_right _ owns) (List.mem_append_right _ within))
            fun values =>
          .quietly (fun asked _ => .argumentTable asked) fun table =>
            (callValue serves callee table).asking (by grind))).giving
              fun _ => List.subset_append_right ..
  | callMethod name _ _ target arguments =>
      refine .bind (target owns within) fun receiver =>
        .quietly (fun asked _ => .memberOf asked name) fun method =>
          .bind ((holdingOn (evalEach_madeOfMoves (fun expr listed => arguments expr listed)
            (List.subset_append_of_subset_right _ owns) (List.mem_append_right _ within))).asking
              (by grind)) fun values => ?_
      refine ((holding ?_ (.quietly (fun asked _ =>
        .argumentTable (List.append_subset.mp asked).2) fun table =>
          (callMember_madeOfMoves serves receiver method table).asking (by grind))).giving
            fun _ => List.subset_append_right ..)
      grind
  | construct _ _ called arguments =>
      exact .bind (called owns within) fun callee => (holdingOn
        (.bind (evalEach_madeOfMoves (fun expr listed => arguments expr listed)
          (List.subset_append_of_subset_right _ owns) (List.mem_append_right _ within))
            fun values =>
          .quietly (fun asked _ => .argumentTable asked) fun table =>
            (constructValue serves callee table).asking (by grind))).giving
              fun _ => List.subset_append_right ..
  | member name _ target =>
      exact .bind (target owns within) fun object => .of_works fun asked _ => .memberOf asked name
  | thisValue => exact named_madeOfMoves within fun closed alive => Heap.live_this? closed alive
  | superValue => exact named_madeOfMoves within fun closed alive => Heap.live_super? closed alive
  | calleeValue => exact named_madeOfMoves within fun closed alive => Heap.live_callee? closed alive
  | add _ _ former latter =>
      exact .bind (former owns within) fun left => .bind (.holdingOn
        (latter (List.subset_append_of_subset_right _ owns) (List.mem_append_right _ within)))
          fun right => sum_madeOfMoves left right
  | throw _ thrown =>
      exact .bind (thrown owns within) fun value =>
        ⟨fun prepared asked => .abort prepared.remembers asked⟩
  | attempt name _ _ body rescue =>
      exact catching_madeOfMoves within name (body owns within) fun more inside =>
        rescue (List.Subset.trans owns more) inside
  | array _ elements =>
      exact .bind (evalEach_madeOfMoves (fun expr listed => elements expr listed) owns within)
        fun _ => .of_works fun asked _ => .newArray (Value.kept_of_subset asked)
  | line number =>
      exact .quietly (fun _ _ => .request (.setLine number) (by simp) rfl) fun _ =>
        .pure (List.nil_subset _)
  | crash => exact ⟨fun prepared _ => .abort prepared.remembers (List.nil_subset _)⟩
  | perform op _ operands =>
      exact hosted serves op
        (delayEach_madeOfMoves fun expr listed => operands expr listed) owns within

/-- The evaluator serves code whose literals are among its things. -/
theorem runnerAt_serves (hosted : Operations.MadeOfMoves Op) (owned : List Handle)
    (frames : Nat) :
    (runnerAt frames : Runner (Expr Op)).Serves (Spells owned) owned := by
  induction frames with
  | zero =>
      intro code scope held known machine _ prepared _
      exact .fail prepared.remembers rfl
  | succ frames induction =>
      intro code scope held known machine spells prepared within
      exact (eval_madeOfMoves hosted induction spells prepared.owns within).works prepared
        (List.nil_subset _)

theorem evaluate_madeOfMoves (hosted : Operations.MadeOfMoves Op) {owned held : List Handle}
    {expr : Expr Op} (spells : expr.Spells owned) {scope : ScopeId} (owns : owned ⊆ held)
    (within : .scope scope ∈ held) :
    MadeOfMoves (Spells owned) owned held [] (expr.evaluate scope) Value.handles :=
  .get fun _ => eval_madeOfMoves hosted (runnerAt_serves hosted owned _) spells owns within

end Expr

theorem Native.perform_madeOfMoves : Operations.MadeOfMoves Native := by
  intro trusted owned run _ native operands _ scope held _ within
  have bare {values : List Value} (nothing : ∀ value ∈ values, value.handles = []) :
      ∀ {known : List Handle}, ∀ value ∈ values, value.Kept (· ∈ known) := fun value listed =>
    Value.kept_iff.mpr (nothing value listed ▸ List.forall_mem_nil _)
  change MadeOfMoves trusted owned held [] (native.perform scope) Value.handles
  unfold Native.perform
  cases native with
  | frames =>
      refine .get fun machine => .of_works fun _ _ => .newArray (bare fun value listed => ?_)
      obtain ⟨frame, -, rfl⟩ := List.mem_map.mp listed
      rfl
  | callee => exact Expr.named_madeOfMoves within fun closed alive => Heap.live_callee? closed alive
  | arguments =>
      have watermark {known held : List Handle} {machine : Machine Script} :
          Client.Works trusted known known machine
            ((watermarkValue : Action Script Value) held machine) Value.handles :=
        .pure (List.Subset.refl _) (List.nil_subset _)
      refine .quietly (fun _ _ => watermark) fun before =>
        .quietly (fun _ _ => .argumentTable (List.nil_subset _)) fun none? =>
          .quietly (fun _ _ => .argumentTable (by simp [Value.handles])) fun table =>
            .quietly (fun _ _ => watermark) fun after => .of_works fun {known machine} asked _ => ?_
      have cells : (table.getD .empty).cellHandles ⊆ known := by
        cases table with
        | none => exact List.nil_subset _
        | some table => exact List.Subset.trans (by simp) asked
      obtain ⟨known', leads, more, stored⟩ :=
        @Client.Leads.values _ known machine _ (Table.kept_of_subset cells)
      have asked := List.Subset.trans asked more
      rw [run_bind, run_get, andThen_ok, run_bind]
      refine .after (.of_leads leads) (.fewer more ((Client.Works.newArray stored).andThen ?_))
      intro array middle between _ _ remembers gains
      have kept {value : Value} (listed : value.handles ⊆ known') : value.Kept (· ∈ between) :=
        Value.kept_iff.mpr (List.Subset.trans listed remembers)
      refine .fewer remembers (.newArray ?_)
      simp only [List.forall_mem_cons]
      refine ⟨kept (List.Subset.trans (by grind) asked), kept (List.nil_subset _),
        kept (List.Subset.trans (by grind) asked), Value.kept_iff.mpr gains, List.forall_mem_nil _⟩

private theorem Client.Leads.global {Code : Type} (machine : Machine Code) (known : List Handle) :
    Leads ⟨machine, known⟩ ⟨machine, .scope machine.global :: known⟩ :=
  .single (.take (Machine.isRoot_iff.mpr (.inr (.inr (.inl rfl)))))

theorem Script.run_madeOfMoves {script : Script} {owned held : List Handle}
    (spells : script.Spells owned) :
    MadeOfMoves (Expr.Spells owned) owned held [] script.run Value.handles := by
  refine ⟨fun {known machine} prepared _ => ?_⟩
  have advances : Client.Advances (Expr.Spells owned) ⟨machine, known⟩ ⟨machine, _⟩ :=
    .of_leads (Client.Leads.global machine known)
  unfold Script.run
  rw [run_bind, run_get, andThen_ok, run_bind]
  refine .after advances ((Client.Works.newScope List.mem_cons_self
    fun _ holds => by cases holds).andThenFewer
      (List.subset_cons_of_subset _ prepared.remembers) ?_)
  intro scope middle between _ opened remembers gains
  have within : .scope scope ∈ between := gains List.mem_cons_self
  have inside := (prepared.advance (advances.trans opened) (List.Subset.trans
    (List.subset_cons_of_subset _ prepared.remembers) remembers)).holding
      (List.forall_mem_singleton.mpr within)
  have framed : Client.Advances (Expr.Spells owned) ⟨middle, between⟩
      ⟨middle.openFrame "main" FunctionSource.file scope, between⟩ :=
    .of_functions (.single (.openFrame within ..)) rfl
  exact .fewer (List.subset_cons_self ..) (.inFrame _ _ inside.remembers
    ((Expr.evaluate_madeOfMoves Native.perform_madeOfMoves spells inside.owns
      List.mem_cons_self).works (inside.advance framed inside.remembers) (List.nil_subset _)))

private theorem Machine.new_trusts {Code : Type} (limits : Limits) (choice : GlobalChoice)
    (trusted : Code → Prop) : (Machine.new limits choice : Machine Code).heap.Trusts trusted := by
  have bare : (Machine.new limits choice : Machine Code).heap.functions = #[] := by
    have installed (heap : Heap Code) : heap.newGlobal.2.functions = heap.functions :=
      Heap.sameFunctions_law.installBuiltins heap.newEmptyGlobal.2 heap.newEmptyGlobal.1
    have shared := installed (Heap.ofCapacity limits.arenaCapacity)
    unfold Machine.new
    generalize (Heap.ofCapacity limits.arenaCapacity : Heap Code).newGlobal = made at shared ⊢
    cases choice with
    | fresh => exact (installed made.2).trans shared
    | empty => exact shared
    | shared => exact shared
  intro id function found
  unfold Heap.function? at found
  rw [bare] at found
  cases found

/-- However scripts end that are run one after the other, code could have brought the machine about
that they leave. -/
theorem Script.reachable_of_runs (limits : Limits) (choice : GlobalChoice) {scripts : List Script}
    (spells : ∀ script ∈ scripts, script.Spells []) :
    ∃ known, Client.Reachable limits choice
      ⟨scripts.foldl (fun machine script => machineLeft (script.run [] machine))
        (Machine.new limits choice), known⟩ := by
  have onward {machine : Machine Script} {known : List Handle}
      (reachable : Client.Reachable limits choice ⟨machine, known⟩)
      (trusts : machine.heap.Trusts (Expr.Spells [])) :
      ∃ known, Client.Reachable limits choice
        ⟨scripts.foldl (fun machine script => machineLeft (script.run [] machine)) machine,
          known⟩ := by
    induction scripts generalizing machine known with
    | nil => exact ⟨known, reachable⟩
    | cons script scripts induction =>
        obtain ⟨first, others⟩ := List.forall_mem_cons.mp spells
        have ready : Client.Prepared (Expr.Spells []) [] [] ⟨machine, known⟩ :=
          ⟨reachable.orderly, trusts, List.Subset.refl _, List.nil_subset _⟩
        obtain ⟨known', advances, -, -⟩ :=
          (Script.run_madeOfMoves first).works ready (List.nil_subset _)
        exact induction others (reachable.trans advances.leads) (advances.trusts trusts)
  exact onward .refl (Machine.new_trusts limits choice _)

end ScopeMachine
