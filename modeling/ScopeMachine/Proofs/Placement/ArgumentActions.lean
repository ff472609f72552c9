import ScopeMachine.Proofs.Placement.ArgumentPairs

namespace ScopeMachine

open Memory Arena ScopeMachine.Action

namespace Terms

variable {Code α β : Type} {terms : Terms Code} {link : Link} {left right : Machine Code}
  {args args' : Table} {kept : Handle → Handle → Prop} {held : List (Handle × Handle)}

/-- Arguments of a call, or none on either side. -/
structure Brings (terms : Terms Code) (link : Link) (arguments arguments' : Option Table)
    (left right : Machine Code) : Prop where
  some : arguments.isSome = arguments'.isSome
  flies : terms.Flies link (arguments.getD .empty) (arguments'.getD .empty) left right

theorem Brings.isNone {arguments arguments' : Option Table}
    (brings : terms.Brings link arguments arguments' left right) :
    arguments.isNone = arguments'.isNone := by
  rw [← Option.not_isSome, ← Option.not_isSome, brings.some]

theorem Brings.none (mirrors : terms.Mirrors link .empty .empty left right) :
    terms.Brings link .none .none left right :=
  ⟨rfl, .none mirrors⟩

private theorem Flies.allocate (mirrors : terms.Mirrors link .empty .empty left right)
    {size offset offset' : Nat} {arena arena' : Arena}
    (allocated : left.heap.memory.arena.allocate size = .ok (offset, arena))
    (allocated' : right.heap.memory.arena.allocate size = .ok (offset', arena')) :
    Onward link left right link (left.withMemory { left.heap.memory with arena })
        (right.withMemory { right.heap.memory with arena := arena' }) ∧
      terms.Flies link (.inArena ⟨offset, size⟩ 0) (.inArena ⟨offset', size⟩ 0)
        (left.withMemory { left.heap.memory with arena })
        (right.withMemory { right.heap.memory with arena := arena' }) := by
  have steps := mirrors.arranged.allocate (o := fun _ => False) allocated
  have steps' := mirrors.arranged'.allocate (o := fun _ => False) allocated'
  have top : ∀ {machine : Machine Code} {offset : Nat} {arena : Arena}, machine.Arranged .empty →
      machine.heap.memory.arena.allocate size = .ok (offset, arena) →
      Table.Seated offset (.inArena ⟨offset, size⟩ 0) { machine.heap.memory with arena } := by
    intro machine offset arena arranged allocated
    obtain ⟨rfl, -, rfl⟩ := allocate_eq_ok allocated
    exact ⟨rfl, isTop_iff.mpr ⟨rfl, arranged.orderly.inRange.floor_le⟩⟩
  have bounds : terms.inStep →
      (left.withMemory { left.heap.memory with arena }).bounds =
        (right.withMemory { right.heap.memory with arena := arena' }).bounds ∧ offset =
          offset' := by
    intro inStep
    rcases allocate_congr (mirrors.bounds inStep) size with
      ⟨_, here, -⟩ | ⟨_, _, _, here, there, same⟩
    · cases here.symm.trans allocated
    · cases here.symm.trans allocated
      cases there.symm.trans allocated'
      exact ⟨same, rfl⟩
  refine ⟨onward_of_steps steps steps' (.refl link),
    mirrors.quiet steps steps' fun inStep => (bounds inStep).1, fun slot => ?_, rfl, fun _ => rfl,
    fun inStep => ⟨offset, top mirrors.arranged allocated, ?_⟩⟩
  · exact .blank link
  · obtain ⟨-, rfl⟩ := bounds inStep
    exact top mirrors.arranged' allocated'

end Terms

private theorem Action.single_of_length_ne {Code : Type} {values : List Value} (type : BuiltinType)
    (several : values.length ≠ 1) :
    (single type values : Action Code Value) =
      fail (.arityMismatch type.name 1 false values.length) := by
  unfold single
  split
  next => exact absurd rfl several
  next => rfl

private theorem Action.superArgumentTable_of_other {Code : Type} {value : Value}
    (some : value ≠ .null)
    (plain : ∀ id, value ≠ .array id) :
    (superArgumentTable value : Action Code (Option Table)) =
      readHeap (·.typeName value) >>= fun typeName =>
        fail (.internalInvariant ("superclass arguments evaluated to " ++ typeName)) := by
  unfold superArgumentTable
  split
  next => exact absurd rfl some
  next id => exact absurd rfl (plain id)
  next => rfl

def Action.newObject {Code : Type} (values : List Value) : Action Code Value := do
  if !values.isEmpty then
    fail (.arityMismatch BuiltinType.object.name 0 false values.length)
  let global := (← get).global
  return .object (← newScope (.onHeap (some global) .empty (.object none)))

private theorem Action.argumentTable_cons {Code : Type} (value : Value) (rest : List Value) :
    (argumentTable (value :: rest) : Action Code (Option Table)) =
      allocateTable (rest.length + 1) >>= fun table =>
        some <$> onMemory (table.pushEach (value :: rest)) := rfl

namespace Terms

variable {Code α β : Type} {terms : Terms Code} {link : Link} {left right : Machine Code}
  {args args' : Table} {kept : Handle → Handle → Prop} {held : List (Handle × Handle)}

namespace Matches

/-- Only arenas that are not in step can run out one without the other. -/
theorem allocateTable (mirrors : terms.Mirrors link .empty .empty left right) (size : Nat) :
    terms.Matches held kept link left right
      (fun link table left table' right => terms.Flies link table table' left right)
      (allocateTable size) (Action.allocateTable size) := by
  unfold Matches
  rw [run_allocateTable, run_allocateTable, mirrors.framed]
  split
  next => exact .ok (mirrors.stay kept) (.none mirrors)
  next =>
    by_cases inStep : terms.inStep
    · rcases allocate_congr (mirrors.bounds inStep) size with
        ⟨fault, here, there⟩ | ⟨offset, _, _, here, there, -⟩
      · rw [here, there]
        obtain ⟨-, rfl⟩ := allocate_eq_error here
        exact .failure (mirrors.stay kept) mirrors ⟨.plain nofun, rfl, rfl⟩
      · have ⟨onward, flies⟩ := Flies.allocate mirrors here there
        rw [here, there]
        exact .ok (onward.weaken fun _ => trivial) flies
    cases here : left.heap.memory.arena.allocate size with
    | error fault =>
        obtain ⟨-, rfl⟩ := allocate_eq_error here
        exact .leftFull inStep ⟨_, _, _, rfl⟩
    | ok slice =>
        cases there : right.heap.memory.arena.allocate size with
        | error fault =>
            obtain ⟨-, rfl⟩ := allocate_eq_error there
            exact .rightFull inStep ⟨_, _, _, rfl⟩
        | ok slice' =>
            have ⟨onward, flies⟩ := Flies.allocate mirrors here there
            exact .ok (onward.weaken fun _ => trivial) flies

theorem argumentTable (mirrors : terms.Mirrors link .empty .empty left right)
    {values values' : List Value} (alike : List.Forall₂ link.Values values values') :
    terms.Matches held kept link left right
      (fun link arguments left arguments' right =>
        terms.Brings link arguments arguments' left right)
      (argumentTable values) (Action.argumentTable values') := by
  cases alike with
  | nil => exact .pure mirrors (.none mirrors)
  | @cons value value' rest rest' first others =>
      rw [argumentTable_cons, argumentTable_cons, others.length_eq]
      refine .bindOnward (.allocateTable mirrors (rest'.length + 1)) fun grows flies => ?_
      have ⟨onward, filled⟩ := flies.pushEach (grows.listValues (.cons first others))
      exact .ok (onward.weaken fun _ => trivial) ⟨rfl, filled⟩

private theorem takeValues {arguments arguments' : Option Table}
    (brings : terms.Brings link arguments arguments' left right) :
    terms.Matches held kept link left right
      (terms.Meets fun link => List.Forall₂ link.Values) (takeValues arguments)
      (Action.takeValues arguments') := by
  unfold Matches
  rw [run_takeValues, run_takeValues]
  obtain ⟨some, flies⟩ := brings
  cases arguments with
  | none =>
      obtain rfl := Option.isNone_iff_eq_none.mp (Option.isSome_eq_false_iff.mp some.symm)
      exact .ok (flies.stay kept) ⟨flies.toMirrors, .nil⟩
  | some table =>
      obtain ⟨table', rfl⟩ := Option.isSome_iff_exists.mp some.symm
      have ⟨onward, after⟩ := flies.free left.host.shares right.host.shares
      exact .ok (onward.weaken fun _ => trivial)
        ⟨after, flies.values⟩

/-- Arguments are given back. -/
theorem freeTable (flies : terms.Flies link args args' left right) :
    terms.Matches held kept link left right (terms.Meets fun _ _ _ => True) (freeTable args)
      (Action.freeTable args') := by
  unfold Matches
  rw [run_freeTable, run_freeTable]
  have ⟨onward, after⟩ := flies.free left.host.shares right.host.shares
  exact .ok (onward.weaken fun _ => trivial) ⟨after, trivial⟩

section Types

variable {values values' : List Value} (mirrors : terms.Mirrors link .empty .empty left right)
  (alike : List.Forall₂ link.Values values values')
include mirrors alike

private theorem bindSingle {meeting : Meeting Code α β} {next : Value → Action Code α}
    {next' : Value → Action Code β} (type : BuiltinType)
    (onward : ∀ {value value'}, link.Values value value' →
      terms.Matches held kept link left right meeting (next value) (next' value')) :
    terms.Matches held kept link left right meeting (single type values >>= next)
      (single type values' >>= next') := by
  have lengths := alike.length_eq
  have refuse : values.length ≠ 1 → (single type values : Action Code Value) =
      Action.fail (.arityMismatch type.name 1 false values.length) := single_of_length_ne type
  have refuse' : values'.length ≠ 1 → (single type values' : Action Code Value) =
      Action.fail (.arityMismatch type.name 1 false values'.length) := single_of_length_ne type
  by_cases one : values.length = 1
  · obtain ⟨value, rfl⟩ := List.length_eq_one_iff.mp one
    cases alike with
    | cons first others =>
        cases others
        exact onward first
  · rw [refuse one, refuse' (lengths ▸ one), lengths]
    have failed : terms.Matches held kept link left right meeting
        (Action.fail (.arityMismatch type.name 1 false values'.length))
        (Action.fail (.arityMismatch type.name 1 false values'.length)) := .fail mirrors nofun
    exact failed

omit alike in
private theorem bindCast {γ : Type} {meeting : Meeting Code α β} {next : γ → Action Code α}
    {next' : γ → Action Code β} {conversion : Heap Code → Value → Except Fault γ}
    {value value' : Value} (same : conversion left.heap value = conversion right.heap value')
    (unthrown : ∀ {fault}, conversion left.heap value = .error fault → ∀ other,
    fault ≠ .thrown other)
    (onward : ∀ {result}, terms.Matches held kept link left right meeting (next result)
      (next' result)) :
    terms.Matches held kept link left right meeting (cast conversion value >>= next)
      (cast conversion value' >>= next') := by
  change terms.Matches held kept link left right meeting
    (ofExcept (conversion left.heap value) >>= next)
    (ofExcept (conversion right.heap value') >>= next')
  rw [← same]
  exact .bindExcept mirrors unthrown fun _ => onward

private theorem convert (type : BuiltinType) :
    terms.Matches held kept link left right (terms.Meets Link.Values) (convert type values)
      (Action.convert type values') := by
  cases type with
  | string =>
      refine .bindSingle mirrors alike _ fun {value value'} values => ?_
      have same := mirrors.agree.text values
      unfold Matches
      rw [run_bind, run_bind, run_readHeap, run_readHeap, same]
      exact .ok (mirrors.stay kept) ⟨mirrors, .plain rfl⟩
  | boolean =>
      exact .bindSingle mirrors alike _ fun values =>
        .bindCast mirrors (mirrors.agree.toBool values) Heap.unthrown_of_toBool
          (.pure mirrors ⟨mirrors, .plain rfl⟩)
  | exactNumber =>
      exact .bindSingle mirrors alike _ fun values =>
        .bindCast mirrors (mirrors.agree.toExact values) Heap.unthrown_of_toExact
          (.pure mirrors ⟨mirrors, .plain rfl⟩)
  | inexactNumber =>
      exact .bindSingle mirrors alike _ fun values =>
        .bindCast mirrors (mirrors.agree.toInexact values) Heap.unthrown_of_toInexact
          (.pure mirrors ⟨mirrors, .plain rfl⟩)
  | array => exact .newArray mirrors alike
  | _ => exact .fail mirrors nofun

private theorem newException (type : BuiltinType) :
    terms.Matches held kept link left right (terms.Meets Link.Values) (newException type values)
      (Action.newException type values') := by
  have message : (values.head?.map left.heap.text).getD "" =
      (values'.head?.map right.heap.text).getD "" := by
    cases alike with
    | nil => simp only [List.head?_nil, Option.map_none]
    | cons first _ =>
        simp only [List.head?_cons, Option.map_some, Option.getD_some]
        exact mirrors.agree.text first
  have cause : Option.Rel link.Values values[1]? values'[1]? := by
    cases alike with
    | nil => exact .none
    | cons _ others =>
        cases others with
        | nil => exact .none
        | cons second _ => exact .some second
  have surplus : 2 < values.length ↔ 2 < values'.length := by rw [alike.length_eq]
  have alike' : link.Exceptions
      { type, message := (values.head?.map left.heap.text).getD "", cause := values[1]? }
      { type, message := (values'.head?.map right.heap.text).getD "", cause := values'[1]? } :=
    ⟨rfl, message, cause, rfl⟩
  unfold Action.newException
  exact .guarded mirrors surplus (congrArg (Fault.arityMismatch type.name 2 false) alike.length_eq)
    (fun _ => nofun) (.bindGet (.bindHeap (mirrors.newException alike') fun _ mirrors' paired =>
      .pure mirrors' ⟨mirrors', .exception paired⟩))

end Types

variable {arguments arguments' : Option Table}

theorem callType (brings : terms.Brings link arguments arguments' left right) (type : BuiltinType) :
    terms.Matches held kept link left right (terms.Meets Link.Values) (callType type arguments)
      (Action.callType type arguments') :=
  .bindOnward (.takeValues brings) fun _ met => .convert met.1 met.2 type

private theorem newObject (mirrors : terms.Mirrors link .empty .empty left right)
    {values values' : List Value}
    (alike : List.Forall₂ link.Values values values') :
    terms.Matches held kept link left right (terms.Meets Link.Values) (newObject values)
      (Action.newObject values') := by
  have some : (!values.isEmpty) = true ↔ (!values'.isEmpty) = true := by
    cases alike <;> exact .rfl
  unfold Action.newObject
  refine .guarded mirrors some
    (congrArg (Fault.arityMismatch BuiltinType.object.name 0 false) alike.length_eq)
    (fun _ => nofun) (.bindGet ?_)
  exact .bindHeap (mirrors.newScope (.pair mirrors.agree.global) rfl .plainObject nofun rfl rfl)
    fun _ mirrors' made => .pure mirrors' ⟨mirrors', .object made.paired (made.firm ⟨nofun, nofun⟩)⟩

theorem constructType (brings : terms.Brings link arguments arguments' left right)
    (type : BuiltinType) :
    terms.Matches held kept link left right (terms.Meets Link.Values)
      (constructType type arguments) (Action.constructType type arguments') := by
  have refused : terms.Matches held kept link left right (terms.Meets Link.Values)
      (Action.fail (.unsupportedOperation (type.name ++ ": cannot call as constructor")))
      (Action.fail (.unsupportedOperation (type.name ++ ": cannot call as constructor"))) :=
    .fail brings.flies.toMirrors nofun
  unfold Action.constructType
  split
  next => exact .bindOnward (.takeValues brings) fun _ met => .newException met.1 met.2 type
  next =>
    cases type with
    | object => exact .bindOnward (.takeValues brings) fun _ met => .newObject met.1 met.2
    | function => exact refused
    | null => exact refused
    | _ => exact .callType brings _

theorem superArgumentTable (mirrors : terms.Mirrors link .empty .empty left right)
    {value value' : Value} (values : link.Values value value') :
    terms.Matches held kept link left right
      (fun link arguments left arguments' right =>
        terms.Brings link arguments arguments' left right)
      (superArgumentTable value) (Action.superArgumentTable value') := by
  have refuse : value ≠ .null → (∀ id, value ≠ .array id) → value' ≠ .null →
      (∀ id, value' ≠ .array id) → terms.Matches held kept link left right
        (fun link arguments left arguments' right =>
          terms.Brings link arguments arguments' left right)
        (Action.superArgumentTable value) (Action.superArgumentTable value') := by
    intro some plain some' plain'
    rw [superArgumentTable_of_other some plain, superArgumentTable_of_other some' plain']
    refine .bindRead ?_
    rw [mirrors.agree.typeName values]
    exact .fail mirrors nofun
  cases values with
  | plain bare =>
      by_cases absent : value = .null
      · subst absent
        exact .pure mirrors (.none mirrors)
      · have plain : ∀ id, value ≠ .array id := by
          rintro id rfl
          cases bare
        exact refuse absent plain absent plain
  | array paired =>
      have flies := Flies.ofValues mirrors (mirrors.agree.array paired).elements
      exact .ok (flies.1.weaken fun _ => trivial) ⟨rfl, flies.2⟩
  | exception | function | object => exact refuse nofun nofun nofun nofun

private theorem declareParams (mirrors : terms.Mirrors link .empty .empty left right)
    {a b : ScopeId}
    (firm : link.firm a b) (params : List Declaration) {values values' : List Value}
    (alike : List.Forall₂ link.Values values values') :
    terms.Matches held kept link left right (terms.Meets fun _ _ _ => True)
      (declareParams a params values) (Action.declareParams b params values') := by
  induction params generalizing link left right values values' with
  | nil => exact .pure mirrors ⟨mirrors, trivial⟩
  | cons param params induction =>
      have head : link.Values (values.headD .null) (values'.headD .null) := by
        cases alike with
        | nil => exact .plain rfl
        | cons first _ => exact first
      have tail : List.Forall₂ link.Values values.tail values'.tail := by
        cases alike with
        | nil => exact .nil
        | cons _ others => exact others
      exact .bindOnward (.declareFirm mirrors firm param.name param.permission head)
        fun grows met => induction met.1 (grows.firm firm) (grows.listValues tail)

section Definitions

variable {definition definition' : Definition Code} {reads : Reading → Prop}
  (definitions : terms.Definitions reads definition definition')
include definitions

omit definitions in
private theorem unthrown_arityMismatch (count : Nat) (value : Value) :
    arityMismatch definition count ≠ .thrown value := by
  unfold arityMismatch
  exact nofun

private theorem arityMismatch_eq (count : Nat) :
    arityMismatch definition count = arityMismatch definition' count := by
  rw [arityMismatch, arityMismatch, definitions.name, definitions.arity, definitions.isVariadic]

theorem bindArguments (brings : terms.Brings link arguments arguments' left right) {a b : ScopeId}
    (firm : link.firm a b) :
    terms.Matches held kept link left right (terms.Meets fun _ _ _ => True)
      (bindArguments definition a arguments) (Action.bindArguments definition' b arguments') := by
  have length := brings.flies.length
  have refused := definitions.accepts (arguments.getD .empty).length
  have mismatch := arityMismatch_eq definitions (arguments.getD .empty).length
  rw [length] at refused mismatch
  unfold Action.bindArguments
  refine .bindOnward (.takeValues brings) fun {link' values left' values' right'} grows met => ?_
  dsimp only
  refine .guarded met.1 (by rw [length, refused]) (by rw [length]; exact mismatch)
    (unthrown_arityMismatch _) ?_
  rw [definitions.params, definitions.rest, definitions.arity]
  refine .bindOnward (.declareParams met.1 (grows.firm firm) _ met.2) fun grows' met' => ?_
  cases definition'.rest with
  | none => exact .pure met'.1 met'
  | some rest =>
      refine .bindOnward (.newArray met'.1
        (List.forall₂_drop definition'.arity (grows'.listValues met.2))) fun grows'' made => ?_
      exact .declareFirm made.1 (grows''.firm (grows'.firm (grows.firm firm))) _ _ made.2

private theorem settleArguments (flies : terms.Flies link args args' left right) :
    terms.Matches held kept link left right
      (fun link table left table' right => terms.Flies link table table' left right)
      (settleArguments definition args) (Action.settleArguments definition' args') := by
  unfold Matches
  rw [run_settleArguments, run_settleArguments]
  have ⟨onward, after⟩ := flies.settle definitions.captures
  exact .ok (onward.weaken fun _ => trivial) after

theorem mapArguments (flies : terms.Flies link args args' left right) :
    terms.Matches held kept link left right
      (fun link mapped left mapped' right => terms.Flies link mapped.1 mapped'.1 left right ∧
        List.Forall₂ link.Values mapped.2 mapped'.2)
      (mapArguments definition args) (Action.mapArguments definition' args') := by
  unfold Action.mapArguments
  refine .bindOnward (.settleArguments definitions flies)
    fun {link' table left' table' right'} grows settled => ?_
  dsimp only
  have trailing := List.forall₂_drop definition'.arity settled.values
  rw [definitions.accepts, definitions.isVariadic, settled.length, definitions.arity]
  split
  next =>
    refine .bindOnward (.freeTable settled) fun _ met => ?_
    rw [arityMismatch_eq definitions]
    exact Matches.fail met.1 (unthrown_arityMismatch _)
  next =>
    refine .bindGet ?_
    split
    next =>
      obtain ⟨link'', onward, mirrors, paired⟩ := settled.newArray trailing false
      have flies := settled.across onward.grows mirrors rfl rfl
      have ⟨onward', short⟩ := flies.truncate left'.host.shares right'.host.shares definition'.arity
      have ⟨onward'', full⟩ := short.push (.array paired)
      unfold Matches
      simp only [run_bind, run_newArray, run_releasing, run_onMemory, andThen_ok]
      exact .ok (((onward.trans onward').trans onward'').weaken fun _ => trivial)
        ⟨full, onward.grows.listValues trailing⟩
    next => exact .pure settled.toMirrors ⟨settled, trailing⟩

end Definitions

end Matches

end Terms

end ScopeMachine
