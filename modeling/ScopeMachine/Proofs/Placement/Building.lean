import ScopeMachine.Proofs.Placement.Protocols

namespace ScopeMachine

open ScopeMachine.Action

namespace Action

variable {Code : Type} (run : Runner Code) (object : ScopeId) (root : Value)

def superTable (definition : Definition Code) (scope : ScopeId) : Action Code (Option Table) :=
  match definition.superArguments with
  | none => pure none
  | some node => do superArgumentTable (← runNode run node scope)

def constructAround (id : FunctionId) (scope : ScopeId) (arguments : Option Table)
    (supers : Option Table → Action Code Unit) : Action Code Unit := do
  let function ← getFunction id
  bindArguments function.definition scope arguments
  supers (← superTable run function.definition scope)
  let _ ← runNode run function.definition.body scope

def constructAbove (parent : FunctionId) (above : ScopeId → Action Code Unit) :
    Action Code Unit := do
  let function ← getFunction parent
  let fork ← newScope (.onHeap (some function.enclosing) .empty (.fork object))
  let inner ← constructorScope function parent fork
  holding [.scope inner] (above inner)

private theorem constructAlong_last (id : FunctionId) (scope : ScopeId) (arguments : Option Table) :
    constructAlong run object root [id] scope arguments =
      constructAround run id scope arguments (extendRoot root) := by
  funext held machine
  unfold constructAlong constructAround superTable
  simp only [run_bind]
  congr 1
  funext function machine
  congr 1
  funext _ machine
  cases function.definition.superArguments with
  | none => simp only [run_pure, run_bind, andThen_ok, constructAlong]
  | some node => simp only [run_bind, andThen_assoc, constructAlong]

private theorem constructAlong_further (id parent : FunctionId) (more : List FunctionId)
    (scope : ScopeId)
    (arguments : Option Table) :
    constructAlong run object root (id :: parent :: more) scope arguments =
      constructAround run id scope arguments fun superArguments =>
        constructAbove object parent fun inner =>
          constructAlong run object root (parent :: more) inner superArguments := by
  funext held machine
  rw [constructAlong]
  unfold constructAround superTable constructAbove
  simp only [run_bind]
  congr 1
  funext function machine
  congr 1
  funext _ machine
  cases function.definition.superArguments with
  | none => simp only [run_pure, run_bind, andThen_ok, andThen_assoc]
  | some node => simp only [run_bind, andThen_assoc]

end Action

private theorem Heap.Descent.eq_cons {Code : Type} {heap : Heap Code} {id : FunctionId}
    {functions : List FunctionId} {root : Value} (descent : heap.Descent id functions root) :
    ∃ supers, functions = id :: supers := by
  cases descent with
  | base => exact ⟨_, rfl⟩
  | further => exact ⟨_, rfl⟩

private theorem Machine.Lasts.maker {Code : Type} {o : ScopeId → Prop} {before after : Machine Code}
    {scope : ScopeId} {id : FunctionId} (lasts : Lasts o before after) (busy : before.Busy scope)
    (kind : (before.heap.scope scope).kind = .constructor id) :
    (after.heap.scope scope).kind = .constructor id := by
  have constructor : (before.heap.scope scope).variant ≠ .function := by
    rw [Scope.variant, kind]
    intro same
    cases same
  exact ((lasts.endures busy).kind constructor).trans kind

private theorem Terms.Agree.maker {Code : Type} {terms : Terms Code} {link : Link}
    {left right : Machine Code} {a b : ScopeId} {f g : FunctionId}
    (agree : terms.Agree link left right) (paired : link.pairs (.scope a) (.scope b))
    (kind : (left.heap.scope a).kind = .constructor f)
    (kind' : (right.heap.scope b).kind = .constructor g) :
    link.pairs (.function f) (.function g) := by
  have kinds := (agree.scopes paired).kind
  rw [kind, kind'] at kinds
  cases kinds with
  | constructor paired => exact paired

namespace Terms

variable {Code α β : Type} {terms : Terms Code} {link link' : Link}
  {left right : Machine Code} {a b object object' : ScopeId} {f g : FunctionId}
  {kept : Handle → Handle → Prop} {held : List (Handle × Handle)} {run run' : Runner Code}
  {arguments arguments' : Option Table}

def Attuned (terms : Terms Code) (link : Link) (left right : Machine Code) (f g : FunctionId)
    (a b : ScopeId) : Prop :=
  ∃ function function' reads, left.heap.function? f = some function ∧
    right.heap.function? g = some function' ∧
    terms.Definitions reads function.definition function'.definition ∧
    ∀ {reading}, callReads reads reading → link.sure reading a b

namespace Matches

private theorem extendRoot (brings : terms.Brings link arguments arguments' left right)
    {root root' : Value}
    (roots : link.Values root root') :
    terms.Matches held kept link left right (terms.Meets fun _ _ _ => True)
      (extendRoot root arguments) (Action.extendRoot root' arguments') := by
  have mirrors := brings.flies.drop
  have refused : terms.Matches held kept link left right
      (terms.Meets fun _ (_ : Unit) (_ : Unit) => True) _ _ := .notCallable mirrors roots
  cases roots with
  | plain bare =>
      cases root with
      | type type =>
          by_cases based : type = .object
          · subst based
            cases arguments with
            | none =>
                obtain rfl := Option.isNone_iff_eq_none.mp brings.isNone.symm
                exact .pure mirrors ⟨mirrors, trivial⟩
            | some table =>
                obtain ⟨table', rfl⟩ := Option.isSome_iff_exists.mp brings.some.symm
                exact .freeTable brings.flies
          · have refused : terms.Matches held kept link left right
                (terms.Meets fun _ (_ : Unit) (_ : Unit) => True)
                (Action.fail (.unsupportedOperation (type.name ++ ": cannot extend")))
                (Action.fail (.unsupportedOperation (type.name ++ ": cannot extend"))) :=
              .fail mirrors nofun
            cases type with
            | object => exact absurd rfl based
            | _ => exact refused
      | function => cases bare
      | _ => exact refused
  | array | exception | object | function => exact refused

private theorem bindScope {meeting : Meeting Code α β} {next : ScopeId → Action Code α}
    {next' : ScopeId → Action Code β} (brings : terms.Brings link arguments arguments' left right)
    {previous previous' : ScopeId} {index index' : Index} {kind kind' : ScopeKind}
    (under : link.Under previous previous') (members : index.members = index'.members)
    (kinds : link.Kinds kind kind')
    (base : kind.variant = .constructor → link.firm previous previous')
    (unbound : kind.trailingCell? = none) (unbound' : kind'.trailingCell? = none)
    (inner : ∀ {link' : Link} {left' right' : Machine Code} {a b : ScopeId},
      Onward link left right link' left' right' →
      terms.Brings link' arguments arguments' left' right' →
      Makes kind.variant (fun reading => link.sure reading previous previous') link' left'.heap
        right'.heap a b →
      (left'.heap.scope a).kind = kind → (right'.heap.scope b).kind = kind' →
      terms.Matches held kept link' left' right' meeting (next a) (next' b)) :
    terms.Matches held kept link left right meeting
      (newScope (.onHeap (some previous) index kind) >>= next)
      (newScope (.onHeap (some previous') index' kind') >>= next') := by
  obtain ⟨link', further, mirrors, made⟩ :=
    brings.flies.newScope under members kinds base unbound unbound'
  have flies := brings.flies.across further.grows mirrors rfl rfl
  unfold Matches
  rw [run_bind, run_bind, run_newScope, run_newScope, andThen_ok, andThen_ok]
  exact (inner further ⟨brings.some, flies⟩ made
    (congrArg Scope.kind (Heap.scope_newScope_self ..))
    (congrArg Scope.kind (Heap.scope_newScope_self ..))).after (further.weaken fun _ => trivial)

variable (follows : terms.Follows run run')
include follows

private theorem superTable {definition definition' : Definition Code} {reads : Reading → Prop}
    (definitions : terms.Definitions reads definition definition')
    (mirrors : terms.Mirrors link .empty .empty left right) (firm : link.firm a b)
    (sure : ∀ {reading}, callReads reads reading → link.sure reading a b) :
    terms.Matches held (Held held) link left right
      (fun link arguments left arguments' right =>
        terms.Brings link arguments arguments' left right)
      (superTable run definition a) (Action.superTable run' definition' b) := by
  have nodes := definitions.superArguments
  have unpooled := mirrors.unpooled_of_firm firm
  unfold Action.superTable
  generalize definition.superArguments = node at nodes
  generalize definition'.superArguments = node' at nodes
  cases nodes with
  | none => exact .pure mirrors (.none mirrors)
  | some nodes =>
      exact .bind (.runNode follows nodes mirrors (.of_paired (mirrors.agree.firm firm).1 sure
        (Machine.admits_unpooled unpooled.1) (Machine.admits_unpooled unpooled.2))) (.tail _)
        fun _ met => .superArgumentTable met.1 met.2

private theorem constructAround (attuned : terms.Attuned link left right f g a b)
    (brings : terms.Brings link arguments arguments' left right) (firm : link.firm a b)
    (listed : (.scope a, .scope b) ∈ held) {supers supers' : Option Table → Action Code Unit}
    (inner : ∀ {link' : Link} {left' right' : Machine Code} {arguments arguments' : Option Table},
      link.Passes (Held held) left right link' left' right' →
      terms.Brings link' arguments arguments' left' right' →
      terms.Matches held (Held held) link' left' right' (terms.Meets fun _ _ _ => True)
        (supers arguments) (supers' arguments')) :
    terms.Matches held (Held held) link left right (terms.Meets fun _ _ _ => True)
      (constructAround run f a arguments supers)
      (Action.constructAround run' g b arguments' supers') := by
  obtain ⟨function, function', reads, found, found', definitions, sure⟩ := attuned
  unfold Action.constructAround
  refine .bindKnown found found' ?_
  refine .bind (.weaken (.bindArguments definitions brings firm) fun _ => trivial) id
    fun bound met => ?_
  refine .bind (.superTable follows definitions met.1 (bound.firm listed firm) fun allowed =>
    bound.sure listed (sure allowed)) id fun ran met' => ?_
  refine .bind (inner (bound.trans ran) met') id fun above met'' => ?_
  have passes := (bound.trans ran).trans above
  have firm := passes.firm listed firm
  have unpooled := met''.1.unpooled_of_firm firm
  exact .bind (.runNode follows definitions.body met''.1 (.of_paired (met''.1.agree.firm firm).1
    (fun allowed => passes.sure listed (sure (callReads_of_bodyReads allowed)))
    (Machine.admits_unpooled unpooled.1) (Machine.admits_unpooled unpooled.2))) (.tail _)
    fun _ last => .pure last.1 ⟨last.1, trivial⟩

omit follows in
private theorem constructAbove (paired : link.pairs (.function f) (.function g))
    (brings : terms.Brings link arguments arguments' left right) (firm : link.firm object object')
    {above above' : ScopeId → Action Code Unit}
    (inner : ∀ {link' : Link} {left' right' : Machine Code} {a b : ScopeId},
      Onward link left right link' left' right' →
      terms.Brings link' arguments arguments' left' right' → link'.firm a b →
      terms.Attuned link' left' right' f g a b →
      (left'.heap.scope a).kind = .constructor f → (right'.heap.scope b).kind = .constructor g →
      terms.Matches ((.scope a, .scope b) :: held) (Held held) link' left' right'
        (terms.Meets fun _ _ _ => True) (above a) (above' b)) :
    terms.Matches held (Held held) link left right (terms.Meets fun _ _ _ => True)
      (constructAbove object f above) (Action.constructAbove object' g above') := by
  unfold Action.constructAbove constructorScope
  refine .bindFunction brings.flies.agree paired fun {function function'} found found' functions =>
    ?_
  refine .bindScope brings functions.enclosing rfl
    (.fork (brings.flies.agree.firm firm).1 firm) nofun rfl rfl ?_
  intro link' left' right' fork fork' onward brings' forked _ _
  refine .bindScope brings' (.pair forked.paired) (functions.definition.body.members .privateOnly)
    (.constructor (onward.grows.pairs paired)) (fun _ => forked.firm ⟨nofun, nofun⟩) rfl rfl ?_
  intro link'' left'' right'' a b onward' brings'' made kind kind'
  have lasts := onward.trans onward'
  refine .holding [(.scope a, .scope b)] (inner lasts brings'' (made.firm ⟨nofun, nofun⟩)
    ⟨function, function', _, lasts.lasts.function? found, lasts.lasts'.function? found',
      functions.definition, fun allowed =>
        made.sure (scopeReads_of_callReads nofun forked.sure allowed)⟩ kind kind')

private theorem constructAlong {functions functions' : List FunctionId} {root root' : Value}
    (descent : left.heap.Descent f functions root)
    (descent' : right.heap.Descent g functions' root')
    (brings : terms.Brings link arguments arguments' left right) (firm : link.firm a b)
    (attuned : terms.Attuned link left right f g a b)
    (kind : (left.heap.scope a).kind = .constructor f)
    (kind' : (right.heap.scope b).kind = .constructor g)
    (listed : (.scope a, .scope b) ∈ held) (objects : link.firm object object')
    (listed' : (.scope object, .scope object') ∈ held) :
    terms.Matches held (Held held) link left right (terms.Meets fun _ _ _ => True)
      (constructAlong run object root functions a arguments)
      (Action.constructAlong run' object' root' functions' b arguments') := by
  induction functions generalizing f g functions' link left right a b arguments arguments' held with
  | nil => cases descent
  | cons first supers induction =>
      have agree := brings.flies.agree
      have scopes := (agree.firm firm).1
      have paired := agree.maker scopes kind kind'
      -- The scope of a constructor tells its function, whatever has run since.
      have later : ∀ {link' : Link} {left' right' : Machine Code},
          link.Passes (Held held) left right link' left' right' →
          terms.Agree link' left' right' → link'.pairs (.function f) (.function g) :=
        fun passes agree' => agree'.maker (passes.pairs listed scopes)
          (passes.lasts.maker (agree.present scopes).1 kind)
          (passes.lasts'.maker (agree.present scopes).2 kind')
      have lines := (agree.descent paired descent descent').1
      have whole := descent
      have whole' := descent'
      cases descent with
      | base found based =>
          cases descent' with
          | further found' super' above' =>
              cases lines with
              | cons _ none =>
                  cases none
                  cases above'
          | base found' based' =>
              rw [constructAlong_last, constructAlong_last]
              refine .constructAround follows attuned brings firm listed fun passes brings' =>
                .weaken (.extendRoot brings' ?_) fun _ => trivial
              exact (brings'.flies.agree.descent (later passes brings'.flies.agree)
                (whole.mono passes.lasts.function?) (whole'.mono passes.lasts'.function?)).2
      | @further _ parent _ _ _ found super above =>
          cases descent' with
          | base found' based' =>
              cases lines with
              | cons _ none =>
                  cases none
                  cases above
          | @further _ parent' _ _ _ found' super' above' =>
              obtain ⟨more, rfl⟩ := above.eq_cons
              obtain ⟨more', rfl⟩ := above'.eq_cons
              rw [constructAlong_further, constructAlong_further]
              refine .constructAround follows attuned brings firm listed fun passes brings' => ?_
              have lines := (brings'.flies.agree.descent (later passes brings'.flies.agree)
                (whole.mono passes.lasts.function?) (whole'.mono passes.lasts'.function?)).1
              cases lines with
              | cons _ above =>
                  cases above with
                  | cons parents _ =>
                      have objects := passes.firm listed' objects
                      refine .constructAbove parents brings' objects
                        fun onward brings'' firm attuned kind kind' => ?_
                      have lasts := passes.lasts.trans onward.lasts
                      have lasts' := passes.lasts'.trans onward.lasts'
                      exact .weaken (induction (above.mono lasts.function?)
                        (above'.mono lasts'.function?) brings'' firm attuned kind kind' (.head _)
                        (onward.grows.firm objects) (.tail _ listed')) (.tail _)

private theorem constructFunction (paired : link.pairs (.function f) (.function g))
    (brings : terms.Brings link arguments arguments' left right) :
    terms.Matches held (Held held) link left right (terms.Meets Link.Values)
      (constructFunction run f arguments) (Action.constructFunction run' g arguments') := by
  have ⟨descent, descent'⟩ := brings.flies.agree.descends paired
  unfold Action.constructFunction constructorScope
  refine .bindFunction brings.flies.agree paired fun {function function'} found found' functions =>
    ?_
  refine .bindGet ?_
  refine .bindScope brings functions.enclosing (functions.definition.body.members .publicProtected)
    (.object paired) nofun rfl rfl ?_
  intro link' left' right' object object' onward brings' made _ _
  have firm : link'.firm object object' := made.firm ⟨nofun, nofun⟩
  refine .bindScope brings' (.pair made.paired) (functions.definition.body.members .privateOnly)
    (.constructor (onward.grows.pairs paired)) (fun _ => firm) rfl rfl ?_
  intro link'' left'' right'' a b onward' brings'' inner kind kind'
  have lasts := onward.lasts.trans onward'.lasts
  have lasts' := onward.lasts'.trans onward'.lasts'
  have objects := onward'.grows.firm firm
  have attuned : terms.Attuned link'' left'' right'' f g a b :=
    ⟨function, function', _, lasts.function? found, lasts'.function? found', functions.definition,
      fun allowed => inner.sure (scopeReads_of_callReads nofun made.sure allowed)⟩
  refine .bind (.holding [(.scope object, .scope object'), (.scope a, .scope b)]
    (.constructAlong follows (descent.mono lasts.function?) (descent'.mono lasts'.function?)
      brings''
      (inner.firm ⟨nofun, nofun⟩) attuned kind kind' (.tail _ (.head _)) objects (.head _)))
    (fun known => .tail _ (.tail _ known)) fun passes met => ?_
  exact .pure met.1 ⟨met.1, .object (passes.pairs (.head _) (brings''.flies.agree.firm objects).1)
    (passes.firm (.head _) objects)⟩

theorem constructValue (brings : terms.Brings link arguments arguments' left right)
    {callee callee' : Value} (callees : link.Values callee callee') :
    terms.Matches held (Held held) link left right (terms.Meets Link.Values)
      (constructValue run callee arguments) (Action.constructValue run' callee' arguments') := by
  have refused : terms.Matches held (Held held) link left right (terms.Meets Link.Values) _ _ :=
    .notCallable brings.flies.drop callees
  cases callees with
  | plain bare =>
      cases callee with
      | type type => exact .constructType brings type
      | function => cases bare
      | _ => exact refused
  | function paired => exact .constructFunction follows paired brings
  | array | exception | object => exact refused

end Matches

end Terms

end ScopeMachine
