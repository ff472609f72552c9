import ScopeMachine.Proofs.Construction.Making
import ScopeMachine.Proofs.Placement.Veiling

namespace ScopeMachine

open ScopeMachine.Action

private theorem isNone_eq_of_rel {α β : Type} {related : α → β → Prop} {one : Option α}
    {other : Option β} (alike : Option.Rel related one other) : one.isNone = other.isNone := by
  cases alike <;> rfl

def Machine.Admits {Code : Type} (machine : Machine Code) (names : String → Prop) (id : ScopeId) :
    Prop :=
  (machine.heap.scope id).pooled = true →
    ∀ name, names name → (machine.heap.scope id).index.contains name = true

theorem Machine.admits_unpooled {Code : Type} {machine : Machine Code} {names : String → Prop}
    {id : ScopeId} (unpooled : (machine.heap.scope id).pooled = false) : machine.Admits names id :=
  fun pooled => absurd (unpooled.symm.trans pooled) nofun

theorem Machine.Lasts.admits {Code : Type} {before after : Machine Code} {o : ScopeId → Prop}
    {names : String → Prop} {id : ScopeId} (lasts : Lasts o before after) (busy : before.Busy id)
    (admits : before.Admits names id) : after.Admits names id := by
  have endures := lasts.endures busy
  exact fun pooled name declared =>
    endures.names (admits (endures.pooled.symm.trans pooled) name declared)

namespace Action

variable {Code : Type} {function : Function Code} {id : FunctionId} (held : List Handle)
  {machine : Machine Code}

private theorem run_callFunction_bare (run : Runner Code)
    (known : machine.heap.function? id = some function)
    (subclass : function.parent ≠ .type .object) (receiver : Option Value) :
    callFunction run id none receiver held machine =
      (fail (.unsupportedOperation (function.name ++ ": cannot call as function")) :
        Action Code Value) held machine := by
  unfold callFunction
  rw [run_bind, run_getFunction held known, andThen_ok]
  dsimp only
  generalize function.parent = parent at subclass
  cases parent with
  | type type =>
      cases type with
      | object => exact absurd rfl subclass
      | _ => rfl
  | _ => rfl

end Action

namespace Terms

variable {Code α β : Type} {terms : Terms Code} {link link' : Link}
  {left right : Machine Code} {a b : ScopeId} {f g : FunctionId} {licence : Licence}
  {kept : Handle → Handle → Prop} {held : List (Handle × Handle)} {run run' : Runner Code}
  {function function' : Function Code}

/-- Scopes that suit the code that is to run in them: they have room for what it declares, and what
it reads there is the same. -/
structure Suits (licence : Licence) (link : Link) (left right : Machine Code) (a b : ScopeId) :
    Prop where
  under : link.Under a b
  declares : ∀ {name}, licence.names name → link.pairs (.scope a) (.scope b)
  sure : ∀ {reading}, licence.reads reading → link.sure reading a b
  admits : left.Admits licence.names a
  admits' : right.Admits licence.names b

/-- Linked scopes suit code that declares what they have room for. -/
theorem Suits.of_paired {licence : Licence} (paired : link.pairs (.scope a) (.scope b))
    (sure : ∀ {reading}, licence.reads reading → link.sure reading a b)
    (admits : left.Admits licence.names a) (admits' : right.Admits licence.names b) :
    Suits licence link left right a b :=
  ⟨.pair paired, fun _ => paired, sure, admits, admits'⟩

/-- Scopes in which code is about to run, and that callers hold on to. -/
structure Stage (terms : Terms Code) (licence : Licence) (link : Link) (left right : Machine Code)
    (a b : ScopeId) (held : List (Handle × Handle)) : Prop extends
    Suits licence link left right a b where
  mirrors : terms.Mirrors link .empty .empty left right
  listed : (.scope a, .scope b) ∈ held

/-- The stage is set still after some code has run. -/
theorem Stage.after (stage : terms.Stage licence link left right a b held)
    {left' right' : Machine Code} (passes : link.Passes (Held held) left right link' left' right')
    (mirrors : terms.Mirrors link' .empty .empty left' right') :
    terms.Stage licence link' left' right' a b held where
  mirrors := mirrors
  under := passes.under stage.listed stage.under
  declares name := passes.pairs stage.listed (stage.declares name)
  sure read := passes.sure stage.listed (stage.sure read)
  listed := stage.listed
  admits := passes.lasts.admits (stage.mirrors.agree.busy stage.under).1 stage.admits
  admits' := passes.lasts'.admits (stage.mirrors.agree.busy stage.under).2 stage.admits'

theorem Stage.surely (stage : terms.Stage licence link left right a b held) {reading : Reading}
    (other : reading ≠ .outside) (allowed : terms.veiled → licence.reads reading) :
    link.sure reading a b := by
  by_cases veiled : terms.veiled
  · exact stage.sure (allowed veiled)
  · obtain ⟨none, sure⟩ := stage.mirrors.agree.bare veiled
    cases stage.under with
    | pair paired => exact sure paired other
    | veil veiled => exact absurd veiled (none _ _)

theorem Stage.clear (stage : terms.Stage licence link left right a b held) {reading : Reading}
    {plain : Prop} (other : reading ≠ .outside)
    (clear : terms.veiled → plain ∨ licence.reads reading) : plain ∨ link.sure reading a b := by
  by_cases is : plain
  · exact .inl is
  · exact .inr (stage.surely other fun veiled => (clear veiled).resolve_left is)

theorem Stage.holding (stage : terms.Stage licence link left right a b held)
    (more : List (Handle × Handle)) : terms.Stage licence link left right a b (more ++ held) :=
  { stage with listed := List.mem_append_right _ stage.listed }

/-- Runners that do the same with code that does the same. -/
structure Follows (terms : Terms Code) (run run' : Runner Code) : Prop where
  mannerly : ∀ code scope, (run code scope).Mannerly
  mannerly' : ∀ code scope, (run' code scope).Mannerly
  runs : ∀ {licence : Licence} {code code' : Code} {link : Link} {left right : Machine Code}
    {a b : ScopeId} {held : List (Handle × Handle)}, terms.twins licence code code' →
    terms.Stage licence link left right a b held →
    terms.Matches held (Held held) link left right (terms.Meets Link.Values) (run code a)
      (run' code' b)

namespace Matches

theorem bindKnown {meeting : Meeting Code α β} {next : Function Code → Action Code α}
    {next' : Function Code → Action Code β} (found : left.heap.function? f = some function)
    (found' : right.heap.function? g = some function')
    (onward : terms.Matches held kept link left right meeting (next function) (next' function')) :
    terms.Matches held kept link left right meeting (getFunction f >>= next)
      (getFunction g >>= next') := by
  unfold Matches
  rw [run_bind, run_bind, run_getFunction _ found, run_getFunction _ found']
  exact onward

theorem bindFunction {meeting : Meeting Code α β} {next : Function Code → Action Code α}
    {next' : Function Code → Action Code β} (agree : terms.Agree link left right)
    (paired : link.pairs (.function f) (.function g))
    (onward : ∀ {function function'}, left.heap.function? f = some function →
      right.heap.function? g = some function' → terms.Functions link function function' →
      terms.Matches held kept link left right meeting (next function) (next' function')) :
    terms.Matches held kept link left right meeting (getFunction f >>= next)
      (getFunction g >>= next') := by
  obtain ⟨function, function', found, found', functions, -⟩ := agree.function paired
  exact bindKnown found found' (onward found found' functions)

/-- Running nodes in scopes that are linked still afterwards. -/
theorem runNode (follows : terms.Follows run run') {node node' : Node Code}
    (nodes : terms.Nodes licence node node') (mirrors : terms.Mirrors link .empty .empty left right)
    (suits : Suits licence link left right a b) :
    terms.Matches held (Held ((.scope a, .scope b) :: held)) link left right
      (terms.Meets Link.Values) (runNode run node a) (Action.runNode run' node' b) := by
  unfold Action.runNode
  rw [nodes.id, nodes.file]
  exact .inFrame mirrors (follows.mannerly _ _) (follows.mannerly' _ _) fun opened =>
    follows.runs nodes.twins ⟨⟨suits.under, suits.declares, suits.sure, suits.admits,
      suits.admits'⟩,
      opened, .head _⟩

private theorem replacing (mirrors : terms.Mirrors link .empty .empty left right) (name : String)
    (clear : name = "anon" ∨ link.sure .replaced a b) :
    terms.Matches held kept link left right (terms.Meets fun link => Option.Rel link.Values)
      (replacing a name) (Action.replacing b name) := by
  have nothing : terms.Matches held kept link left right
      (terms.Meets fun link => Option.Rel link.Values) (Pure.pure none) (Pure.pure none) :=
    .pure mirrors ⟨mirrors, .none⟩
  unfold Action.replacing
  refine .bindGet ?_
  rcases clear with rfl | sure
  · simpa only [bne_self_eq_false, Bool.and_false, Bool.false_eq_true, if_false] using nothing
  obtain ⟨-, paired | ⟨apart, apart'⟩⟩ := mirrors.agree.sure sure
  case inr =>
    rw [beq_false_of_ne apart, beq_false_of_ne apart']
    exact nothing
  have variant : (left.heap.scope a).variant = (right.heap.scope b).variant :=
    (mirrors.agree.scopes paired).kind.variant
  rw [variant]
  split
  next =>
    have objects := mirrors.agree.this? (.pair paired)
    unfold replacedMember
    refine .bindGet ?_
    generalize left.heap.this? a = this at objects
    generalize right.heap.this? b = this' at objects
    cases objects with
    | none => exact nothing
    | @some value _ values =>
        cases values with
        | object here =>
            refine .bindHeap (mirrors.ownMember here name) fun _ mirrors' finds => .bindGet ?_
            refine .pure mirrors' ⟨mirrors', ?_⟩
            cases finds with
            | none => exact .none
            | some places => exact .some (mirrors'.agree.places places).value
        | plain bare =>
            cases value with
            | object object => cases bare
            | _ => exact nothing
        | array | exception | function => exact nothing
  next => exact nothing

private theorem staticPart (follows : terms.Follows run run')
    {definition definition' : Definition Code}
    {reads : Reading → Prop} (definitions : terms.Definitions reads definition definition')
    (mirrors : terms.Mirrors link .empty .empty left right) (under : link.Under a b)
    (sure : ∀ {reading}, reads reading → link.sure reading a b) (more : List (Handle × Handle)) :
    terms.Matches held (Held (more ++ held)) link left right
      (terms.Meets fun link => Option.Rel fun a b => link.pairs (.scope a) (.scope b))
      (staticPart run a definition (more.map Prod.fst))
      (Action.staticPart run' b definition' (more.map Prod.snd)) := by
  have statics := definitions.statics
  unfold Action.staticPart
  generalize definition.statics = static at statics
  generalize definition'.statics = static' at statics
  cases statics with
  | none => exact .pure mirrors ⟨mirrors, .none⟩
  | some nodes =>
      refine .bindHeap (mirrors.newScope under (nodes.members .all) .basic nofun rfl rfl)
        fun {link' left' right' scope scope'} _ mirrors' made => ?_
      have ran : terms.Matches (more ++ held)
          (Held ((.scope scope, .scope scope') :: (more ++ held))) link' left' right'
          (terms.Meets Link.Values) _ _ := .runNode follows nodes mirrors' (.of_paired made.paired
        (fun allowed => made.sure (scopeReads_of_blockReads (blockReads_mono sure allowed)))
        (Machine.admits_unpooled made.unpooled) (Machine.admits_unpooled made.unpooled'))
      exact .bind (.holding _ ran) (.tail _) fun passes met =>
        .pure met.1 ⟨met.1, .some (passes.pairs (.head _) made.paired)⟩

theorem makeFunction (follows : terms.Follows run run') {definition definition' : Definition Code}
    (definitions : terms.Definitions licence.reads definition definition')
    (stage : terms.Stage licence link left right a b held)
    (clear : definition'.name = "anon" ∨ link.sure .replaced a b) {parent parent' : Option Value}
    (parents : Option.Rel link.Values parent parent') :
    terms.Matches held (Held held) link left right
      (terms.Meets fun link f g => link.pairs (.function f) (.function g))
      (makeFunction run a parent definition) (Action.makeFunction run' b parent' definition') := by
  rw [makeFunction_eq, makeFunction_eq, definitions.name]
  refine .bindOnward (.replacing stage.mirrors definition'.name clear)
    fun {link' overridden left' overridden' right'} grows replaced => ?_
  have parents := parents.imp fun _ _ _ _ => grows.values
  have values : List.Forall₂ link'.Values (parent.toList ++ overridden.toList)
      (parent'.toList ++ overridden'.toList) :=
    List.rel_append (Link.Values.toList parents) (Link.Values.toList replaced.2)
  have sides := Link.Values.listSides_append overridden.toList overridden'.toList
    (Link.Values.toList parents).length_eq
  obtain ⟨here, there, -⟩ := Link.Values.listHandles values
  rw [← here, ← there]
  refine .bind (.staticPart follows definitions replaced.1 (grows.under stage.under)
    (fun read => grows.sure (stage.sure read)) _) (List.mem_append_right _)
    fun {link'' statics left'' statics' right''} passes met => ?_
  rw [sides] at passes
  have parents := passes.option parents fun pair known =>
    List.mem_append_left _ (List.mem_append_left _ known)
  have overridden := passes.option replaced.2 fun pair known =>
    List.mem_append_left _ (List.mem_append_right _ known)
  have under := passes.under (List.mem_append_right _ stage.listed) (grows.under stage.under)
  exact .onHeap (met.1.newFunction ⟨under, .getD parents rfl, definitions.relax fun read =>
    passes.sure (List.mem_append_right _ stage.listed) (grows.sure (stage.sure read)), met.2,
    overridden⟩)

/-- What is neither a function nor a type refuses to be called. -/
theorem notCallable {meeting : Meeting Code α β}
    (mirrors : terms.Mirrors link .empty .empty left right)
    {callee callee' : Value} (callees : link.Values callee callee') :
    terms.Matches held kept link left right meeting
      (do Action.fail (.notCallable (← readHeap (·.typeName callee))))
      (do Action.fail (.notCallable (← readHeap (·.typeName callee')))) := by
  refine .bindRead ?_
  rw [mirrors.agree.typeName callees]
  exact .fail mirrors nofun

section Calls

variable (follows : terms.Follows run run')
include follows

private theorem callEntering (functions : terms.Functions link function function')
    (paired : link.pairs (.function f) (.function g)) {table table' : Table}
    (flies : terms.Flies link table table' left right) {receiver receiver' : Option Value}
    (receivers : Option.Rel link.Values receiver receiver') :
    terms.Matches held (Held held) link left right (terms.Meets Link.Values)
      (enterCall function f table receiver >>= fun scope =>
        releasingScope scope (Action.runNode run function.definition.body scope))
      (enterCall function' g table' receiver' >>= fun scope =>
        releasingScope scope (Action.runNode run' function'.definition.body scope)) := by
  refine .call flies functions paired receivers ?_
  intro link' a b entered entered' grows opened here sure index index'
  have members := functions.definition.body.members .all
  refine ⟨(Matches.runNode follows functions.definition.body opened (.of_paired here
      (fun allowed => sure (callReads_of_bodyReads allowed))
      (fun _ name declared => ?_) fun _ name declared => ?_)).weaken (.tail _),
    runNode_restores _ follows.mannerly opened.arranged.orderly opened.arranged.tidy _ _,
    runNode_restores _ follows.mannerly' opened.arranged'.orderly opened.arranged'.tidy _ _⟩
  · rw [index]
    exact declared
  · rw [index', Index.contains, ← Index.slot?_congr members]
    exact declared

private theorem callEnclosing (mirrors : terms.Mirrors link .empty .empty left right)
    (found' : right.heap.function? g = some function')
    (functions : terms.Functions link function function') (root : function'.overridden = none)
    (skips' : function'.definition.skipsScope = true) :
    terms.Matches held (Held held) link left right (terms.Meets Link.Values)
        (Action.runNode run function.definition.body function.enclosing)
        (Action.runNode run' function'.definition.body function'.enclosing) ∧
      (terms.veiled → terms.Matches held (Held held) link left right (terms.Meets Link.Values)
        (Action.runNode run function.definition.body function.enclosing)
        (Action.allocateTable 0 >>= fun table => enterCall function' g table none >>= fun scope =>
          releasingScope scope (Action.runNode run' function'.definition.body scope))) := by
  have skips : function.definition.skipsScope = true := functions.definition.skipsScope.trans skips'
  have bare : function.definition.body.shape.all.members = #[] := functions.definition.bare skips
  have nameless : ∀ name, ¬ function.definition.body.shape.all.contains name = true := by
    simp [Index.contains, Index.slot?, bare]
  have suits : ∀ {link' : Link} {right' : Machine Code} {b : ScopeId},
      link'.Under function.enclosing b →
        (link.sure .outside function.enclosing function'.enclosing →
        link'.sure .replaced function.enclosing b) →
      Suits ⟨fun name => function.definition.body.shape.all.contains name = true,
          bodyReads function.definition fun reading =>
            link.sure reading function.enclosing function'.enclosing⟩
        link' left right' function.enclosing b := fun under sure =>
    ⟨under, fun declared => absurd declared (nameless _), fun allowed => by
        obtain ⟨rfl, outside⟩ := replaced_of_bodyReads skips allowed
        exact sure outside,
      fun _ name declared => absurd declared (nameless name),
      fun _ name declared => absurd declared (nameless name)⟩
  refine ⟨(Matches.runNode follows functions.definition.body mirrors
    (suits functions.enclosing mirrors.agree.outside)).weaken (.tail _), fun veiled => ?_⟩
  refine .callVeiled mirrors veiled found' root skips'
    ((functions.definition.body.members .all).symm.trans bare) functions.enclosing
    fun {link' b entered'} grows opened under sure index => ?_
  exact ⟨(Matches.runNode follows functions.definition.body opened (suits under sure)).weaken
      (.tail _),
    runNode_restores _ follows.mannerly opened.arranged.orderly opened.arranged.tidy _ _,
    runNode_restores _ follows.mannerly' opened.arranged'.orderly opened.arranged'.tidy _ _⟩

variable {arguments arguments' : Option Table}
  (brings : terms.Brings link arguments arguments' left right)
include brings

omit follows in
private theorem callSubclass (found : left.heap.function? f = some function)
    (found' : right.heap.function? g = some function')
    (functions : terms.Functions link function function')
    (subclass : function.parent ≠ .type .object) (receiver receiver' : Option Value) :
    terms.Matches held kept link left right (terms.Meets Link.Values)
      (callFunction run f arguments receiver)
        (Action.callFunction run' g arguments' receiver') := by
  have subclass' : function'.parent ≠ .type .object := fun same =>
    subclass ((functions.parent.eq_iff_of_bare rfl).mpr same)
  have name : function.name = function'.name := functions.definition.name
  unfold Matches
  cases arguments with
  | none =>
      obtain rfl := Option.isNone_iff_eq_none.mp brings.isNone.symm
      rw [run_callFunction_bare _ run found subclass, run_callFunction_bare _ run' found' subclass',
        name]
      exact Matches.fail brings.flies.toMirrors nofun
  | some table =>
      obtain ⟨table', rfl⟩ := Option.isSome_iff_exists.mp brings.some.symm
      rw [run_callFunction_subclass _ run found subclass,
        run_callFunction_subclass _ run' found' subclass', name]
      exact Matches.bindOnward (.freeTable brings.flies) fun _ met => .fail met.1 nofun

theorem callFunction (paired : link.pairs (.function f) (.function g))
    {receiver receiver' : Option Value} (receivers : Option.Rel link.Values receiver receiver') :
    terms.Matches held (Held held) link left right (terms.Meets Link.Values)
      (callFunction run f arguments receiver)
        (Action.callFunction run' g arguments' receiver') := by
  have mirrors := brings.flies.drop
  obtain ⟨function, function', found, found', functions, -⟩ := mirrors.agree.function paired
  by_cases subclass : function.parent ≠ .type .object
  · exact .callSubclass brings found found' functions subclass receiver receiver'
  have root : function.parent = .type .object := not_not.mp subclass
  have root' : function'.parent = .type .object :=
    (functions.parent.eq_iff_of_bare rfl).mp root
  have plain : (arguments.isNone && receiver.isNone && function.overridden.isNone &&
        function.definition.skipsScope) =
      (arguments'.isNone && receiver'.isNone && function'.overridden.isNone &&
        function'.definition.skipsScope) := by
    rw [isNone_eq_of_rel receivers, isNone_eq_of_rel functions.overridden, brings.isNone,
      functions.definition.skipsScope]
  unfold Action.callFunction
  refine .bindKnown found found' ?_
  rw [root, root']
  refine .bindGet ?_
  rw [plain]
  by_cases fast : (arguments'.isNone && receiver'.isNone && function'.overridden.isNone &&
      function'.definition.skipsScope && left.limits.skipScope) = true
  · rw [if_pos fast]
    simp only [Bool.and_eq_true, Option.isNone_iff_eq_none] at fast
    obtain ⟨⟨⟨⟨rfl, rfl⟩, overridden⟩, skips⟩, skipsLeft⟩ := fast
    obtain ⟨enclosed, veiled⟩ := @callEnclosing _ _ _ _ _ _ held _ _ _ _ follows mirrors found'
      functions overridden skips
    by_cases skipsRight : right.limits.skipScope = true
    · simp only [skips, overridden, skipsRight, Option.isNone_none, Bool.and_self, if_true]
      exact enclosed
    · simp only [skipsRight, Bool.and_false, Bool.false_eq_true, if_false]
      simp only [enterCall_bind] at veiled
      exact veiled (not_not.mp fun apart => skipsRight (mirrors.limits.bare apart ▸ skipsLeft))
  · have slow : ¬ (arguments'.isNone && receiver'.isNone && function'.overridden.isNone &&
        function'.definition.skipsScope && right.limits.skipScope) = true := by
      simp only [Bool.and_eq_true] at fast ⊢
      exact fun skipped => fast (skipped.imp_right mirrors.limits.skips)
    rw [if_neg fast, if_neg slow]
    have entering := fun {link' left' right' table table'} (grows : link.Grows link') flies =>
      @callEntering _ terms link' left' right' f g held run run' function function' follows
        (functions.grow grows) (grows.pairs paired) table table' flies receiver receiver'
        (receivers.imp fun _ _ _ _ => grows.values)
    simp only [enterCall_bind] at entering
    cases arguments with
    | none =>
        obtain rfl := Option.isNone_iff_eq_none.mp brings.isNone.symm
        exact .bindOnward (.allocateTable mirrors 0) entering
    | some table =>
        obtain ⟨table', rfl⟩ := Option.isSome_iff_exists.mp brings.some.symm
        exact entering (.refl link) brings.flies

theorem callValue {callee callee' : Value} (callees : link.Values callee callee') :
    terms.Matches held (Held held) link left right (terms.Meets Link.Values)
      (callValue run callee arguments) (Action.callValue run' callee' arguments') := by
  have refused : terms.Matches held (Held held) link left right (terms.Meets Link.Values) _ _ :=
    .notCallable brings.flies.drop callees
  cases callees with
  | plain bare =>
      cases callee with
      | type type => exact .callType brings type
      | function => cases bare
      | _ => exact refused
  | function paired => exact .callFunction follows brings paired .none
  | array | exception | object => exact refused

end Calls

end Matches

end Terms

end ScopeMachine
