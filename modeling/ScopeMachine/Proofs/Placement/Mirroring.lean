import ScopeMachine.Proofs.Placement.Framing

namespace ScopeMachine

open Arena ScopeMachine.Action

/-- What lasts from one pair of machines to the next: linked things that are kept stay linked. -/
structure Link.Passes {Code : Type} (kept : Handle → Handle → Prop) (link : Link)
    (left right : Machine Code) (link' : Link) (left' right' : Machine Code) : Prop where
  pairs : ∀ {x y}, kept x y → link.pairs x y → link'.pairs x y
  firm : ∀ {a b}, kept (.scope a) (.scope b) → link.firm a b → link'.firm a b
  veil : ∀ {x id next}, kept x (.scope id) → link.veil id next → link'.veil id next
  under : ∀ {a b}, kept (.scope a) (.scope b) → link.Under a b → link'.Under a b
  sure : ∀ {reading a b}, kept (.scope a) (.scope b) → link.sure reading a b →
    link'.sure reading a b
  lasts : Machine.Lasts (fun _ => False) left left'
  lasts' : Machine.Lasts (fun _ => False) right right'

namespace Link.Passes

variable {Code : Type} {kept kept' : Handle → Handle → Prop} {link link' link'' : Link}
  {left left' left'' right right' right'' : Machine Code}

theorem trans (first : Passes kept link left right link' left' right')
    (second : Passes kept link' left' right' link'' left'' right'') :
    Passes kept link left right link'' left'' right'' :=
  ⟨fun held paired => second.pairs held (first.pairs held paired),
    fun held firm => second.firm held (first.firm held firm),
    fun held veiled => second.veil held (first.veil held veiled),
    fun held under => second.under held (first.under held under),
    fun held sure => second.sure held (first.sure held sure), first.lasts.trans second.lasts,
    first.lasts'.trans second.lasts'⟩

theorem weaken (passes : Passes kept link left right link' left' right')
    (fewer : ∀ {x y}, kept' x y → kept x y) : Passes kept' link left right link' left' right' :=
  ⟨fun held => passes.pairs (fewer held), fun held => passes.firm (fewer held),
    fun held => passes.veil (fewer held), fun held => passes.under (fewer held),
    fun held => passes.sure (fewer held), passes.lasts, passes.lasts'⟩

theorem values (passes : Passes kept link left right link' left' right') {value value' : Value}
    (values : link.Values value value')
    (held : ∀ pair ∈ Values.sides value value', kept pair.1 pair.2) :
    link'.Values value value' := by
  cases values with
  | plain bare => exact .plain bare
  | array paired => exact .array (passes.pairs (held _ (.head _)) paired)
  | exception paired => exact .exception (passes.pairs (held _ (.head _)) paired)
  | function paired => exact .function (passes.pairs (held _ (.head _)) paired)
  | object paired firm =>
      exact .object (passes.pairs (held _ (.head _)) paired) (passes.firm (held _ (.head _)) firm)

theorem listValues (passes : Passes kept link left right link' left' right')
    {values values' : List Value} (alike : List.Forall₂ link.Values values values')
    (held : ∀ pair ∈ Values.listSides values values', kept pair.1 pair.2) :
    List.Forall₂ link'.Values values values' := by
  induction alike with
  | nil => exact .nil
  | cons first _ induction =>
      exact .cons (passes.values first fun pair listed => held pair (List.mem_append_left _ listed))
        (induction fun pair listed => held pair (List.mem_append_right _ listed))

theorem option (passes : Passes kept link left right link' left' right')
    {value value' : Option Value} (alike : Option.Rel link.Values value value')
    (held : ∀ pair ∈ Values.listSides value.toList value'.toList, kept pair.1 pair.2) :
    Option.Rel link'.Values value value' := by
  cases alike with
  | none => exact .none
  | some alike =>
      exact .some (passes.values alike fun pair listed =>
        held pair (List.mem_append_left _ listed))

theorem grows (passes : Passes (fun _ _ => True) link left right link' left' right') :
    link.Grows link' :=
  ⟨passes.pairs trivial, passes.firm trivial, fun {id _} => @passes.veil (.scope id) _ _ trivial,
    passes.sure trivial⟩

theorem of_grows (grows : link.Grows link') (lasts : Machine.Lasts (fun _ => False) left left')
    (lasts' : Machine.Lasts (fun _ => False) right right') :
    Passes kept link left right link' left' right' :=
  ⟨fun _ => grows.pairs, fun _ => grows.firm, fun _ => grows.veil, fun _ => grows.under,
    fun _ => grows.sure, lasts, lasts'⟩

end Link.Passes

namespace Terms

variable {Code : Type} (terms : Terms Code)

/-- Limits that differ at most in whether calls may go without a scope. Then it is the left machine
where they may. -/
structure Bounded (left right : Limits) : Prop where
  depth : left.maxDepth = right.maxDepth
  skips : right.skipScope = true → left.skipScope = true
  bare : ¬ terms.veiled → left.skipScope = right.skipScope

theorem Bounded.of_eq {terms : Terms Code} {left right : Limits} (same : left = right) :
    terms.Bounded left right := by
  subst same
  exact ⟨rfl, id, fun _ => rfl⟩

/-- Machines that agree on what is linked, each in order, with frames and arena alike. -/
structure Mirrors (link : Link) (args args' : Table) (left right : Machine Code) : Prop where
  arranged : left.Arranged args
  arranged' : right.Arranged args'
  agree : terms.Agree link left right
  capture : left.capture = right.capture
  limits : terms.Bounded left.limits right.limits
  bounds : terms.inStep → left.bounds = right.bounds

/-- One step or many, with nothing lost. -/
abbrev Onward (link : Link) (left right : Machine Code) (link' : Link)
    (left' right' : Machine Code) : Prop :=
  Link.Passes (fun _ _ => True) link left right link' left' right'

def Full (failure : Failure) : Prop :=
  ∃ requested available capacity, failure.fault = .arenaExhausted requested available capacity

/-- What two results have to do with each other, and with the machines they come with. -/
abbrev Meeting (Code α β : Type) : Type :=
  Link → α → Machine Code → β → Machine Code → Prop

/-- Endings that mirror each other. Only arenas that are not in step can run out one without the
other, and then nothing is said. -/
inductive Alike {α β : Type} (kept : Handle → Handle → Prop) (link : Link)
    (left right : Machine Code) (meeting : Meeting Code α β) :
    Ending Code α → Ending Code β → Prop where
  | ok {link' : Link} {result : α} {result' : β} {left' right' : Machine Code}
      (passes : link.Passes kept left right link' left' right')
      (met : meeting link' result left' result' right') :
      Alike kept link left right meeting (.ok result left') (.ok result' right')
  | failure {link' : Link} {failure failure' : Failure} {left' right' : Machine Code}
      (passes : link.Passes kept left right link' left' right')
      (mirrors : terms.Mirrors link' .empty .empty left' right')
      (failures : link'.Failures failure failure') :
      Alike kept link left right meeting (.error (.failure failure) left')
        (.error (.failure failure') right')
  | crash {link' : Link} {left' right' : Machine Code}
      (passes : link.Passes kept left right link' left' right')
      (mirrors : terms.Mirrors link' .empty .empty left' right') :
      Alike kept link left right meeting (.error .crash left') (.error .crash right')
  | leftFull {failure : Failure} {left' : Machine Code} {ending : Ending Code β}
      (apart : ¬ terms.inStep) (full : Full failure) :
      Alike kept link left right meeting (.error (.failure failure) left') ending
  | rightFull {failure : Failure} {right' : Machine Code} {ending : Ending Code α}
      (apart : ¬ terms.inStep) (full : Full failure) :
      Alike kept link left right meeting ending (.error (.failure failure) right')

/-- Actions that come to endings alike, while their callers hold on to things that are linked. -/
def Matches {α β : Type} (held : List (Handle × Handle)) (kept : Handle → Handle → Prop)
    (link : Link) (left right : Machine Code) (meeting : Meeting Code α β)
    (action : Action Code α) (action' : Action Code β) : Prop :=
  terms.Alike kept link left right meeting (action (held.map Prod.fst) left)
    (action' (held.map Prod.snd) right)

/-- Results that are related on mirrored machines. -/
abbrev Meets {α β : Type} (related : Link → α → β → Prop) : Meeting Code α β :=
  fun link result left result' right =>
    terms.Mirrors link .empty .empty left right ∧ related link result result'

variable {terms} {α β γ δ : Type} {kept kept' : Handle → Handle → Prop} {link link' : Link}
  {left left' right right' : Machine Code} {held held' : List (Handle × Handle)}
  {args args' : Table}

namespace Mirrors

theorem depth (mirrors : terms.Mirrors link args args' left right) :
    left.depth = right.depth := by
  have lengths := congrArg (fun trace => trace.lines.length) mirrors.capture
  simp only [Machine.capture, List.length_map] at lengths
  rw [Machine.depth, Machine.depth, left.frames.depth_eq, right.frames.depth_eq, lengths]

theorem framed (mirrors : terms.Mirrors link args args' left right) :
    left.frames.isEmpty = right.frames.isEmpty := by
  have lines := congrArg (fun trace => trace.lines.isEmpty) mirrors.capture
  simpa [Machine.capture, FrameStack.isEmpty] using lines

theorem step (mirrors : terms.Mirrors link args args' left right)
    {touched touched' : Handle → Prop} {o o' : ScopeId → Prop} {next next' : Table}
    (steps : left.Steps touched o next left')
    (steps' : right.Steps touched' o' next' right') (agree : terms.Agree link' left' right')
    (bounds : terms.inStep → left'.bounds = right'.bounds) :
    terms.Mirrors link' next next' left' right' :=
  ⟨steps.arranged, steps'.arranged, agree,
    steps.capture.trans (mirrors.capture.trans steps'.capture.symm),
    by rw [steps.limits, steps'.limits]; exact mirrors.limits, bounds⟩

theorem quiet (mirrors : terms.Mirrors link args args' left right)
    {o o' : ScopeId → Prop} {next next' : Table} (steps : left.Calm o next left')
    (steps' : right.Calm o' next' right')
    (bounds : terms.inStep → left'.bounds = right'.bounds) :
    terms.Mirrors link next next' left' right' :=
  mirrors.step steps steps'
    (mirrors.agree.revise steps.extension steps'.extension False.elim False.elim
      fun _ either => (either.elim id id).elim) bounds

theorem drop (mirrors : terms.Mirrors link args args' left right) :
    terms.Mirrors link .empty .empty left right :=
  { mirrors with
    arranged := { mirrors.arranged with heap := mirrors.arranged.heap.drop }
    arranged' := { mirrors.arranged' with heap := mirrors.arranged'.heap.drop } }

/-- Nothing happens. -/
theorem stay (mirrors : terms.Mirrors link args args' left right)
    (kept : Handle → Handle → Prop) : link.Passes kept left right link left right :=
  .of_grows (.refl link) (.refl mirrors.arranged) (.refl mirrors.arranged')

end Mirrors

theorem onward_of_steps {touched touched' : Handle → Prop} {next next' : Table}
    (steps : left.Steps touched (fun _ => False) next left')
    (steps' : right.Steps touched' (fun _ => False) next' right') (grows : link.Grows link') :
    Onward link left right link' left' right' :=
  .of_grows grows steps.lasts steps'.lasts

namespace Alike

variable {meeting : Meeting Code α β} {meeting' : Meeting Code γ δ} {ending : Ending Code α}
  {ending' : Ending Code β}

theorem weaken (alike : terms.Alike kept link left right meeting ending ending')
    (fewer : ∀ {x y}, kept' x y → kept x y) :
    terms.Alike kept' link left right meeting ending ending' := by
  cases alike with
  | ok passes met => exact .ok (passes.weaken fewer) met
  | failure passes mirrors failures => exact .failure (passes.weaken fewer) mirrors failures
  | crash passes mirrors => exact .crash (passes.weaken fewer) mirrors
  | leftFull apart full => exact .leftFull apart full
  | rightFull apart full => exact .rightFull apart full

theorem after (passes : link.Passes kept left right link' left' right')
    (alike : terms.Alike kept link' left' right' meeting ending ending') :
    terms.Alike kept link left right meeting ending ending' := by
  cases alike with
  | ok further met => exact .ok (passes.trans further) met
  | failure further mirrors failures => exact .failure (passes.trans further) mirrors failures
  | crash further mirrors => exact .crash (passes.trans further) mirrors
  | leftFull apart full => exact .leftFull apart full
  | rightFull apart full => exact .rightFull apart full

theorem leaves {related : Link → α → β → Prop} (inStep : terms.inStep)
    (alike : terms.Alike kept link left right (terms.Meets related) ending ending') :
    ∃ link', link.Passes kept left right link' (machineLeft ending) (machineLeft ending') ∧
      terms.Mirrors link' .empty .empty (machineLeft ending) (machineLeft ending') := by
  cases alike with
  | ok passes met => exact ⟨_, passes, met.1⟩
  | failure passes mirrors => exact ⟨_, passes, mirrors⟩
  | crash passes mirrors => exact ⟨_, passes, mirrors⟩
  | leftFull apart => exact absurd inStep apart
  | rightFull apart => exact absurd inStep apart

theorem bind {next : α → Machine Code → Ending Code γ} {next' : β → Machine Code → Ending Code δ}
    (alike : terms.Alike kept' link left right meeting ending ending')
    (fewer : ∀ {x y}, kept x y → kept' x y)
    (onward : ∀ {link' result left' result' right'},
      link.Passes kept' left right link' left' right' →
      meeting link' result left' result' right' →
      terms.Alike kept link' left' right' meeting' (next result left') (next' result' right')) :
    terms.Alike kept link left right meeting' (andThen ending next) (andThen ending' next') := by
  cases alike with
  | ok passes met => exact (onward passes met).after (passes.weaken fewer)
  | failure passes mirrors failures => exact .failure (passes.weaken fewer) mirrors failures
  | crash passes mirrors => exact .crash (passes.weaken fewer) mirrors
  | leftFull apart full => exact .leftFull apart full
  | rightFull apart full => exact .rightFull apart full

end Alike

namespace Matches

variable {meeting : Meeting Code α β} {meeting' : Meeting Code γ δ}
  {action : Action Code α} {action' : Action Code β}

theorem weaken (alike : terms.Matches held kept link left right meeting action action')
    (fewer : ∀ {x y}, kept' x y → kept x y) :
    terms.Matches held kept' link left right meeting action action' :=
  Alike.weaken alike fewer

theorem bind {next : α → Action Code γ} {next' : β → Action Code δ}
    (first : terms.Matches held kept' link left right meeting action action')
    (fewer : ∀ {x y}, kept x y → kept' x y)
    (onward : ∀ {link' result left' result' right'},
      link.Passes kept' left right link' left' right' →
      meeting link' result left' result' right' →
      terms.Matches held kept link' left' right' meeting' (next result) (next' result')) :
    terms.Matches held kept link left right meeting' (action >>= next) (action' >>= next') := by
  unfold Matches
  rw [run_bind, run_bind]
  exact Alike.bind first fewer onward

/-- A first part with which nothing is lost. -/
theorem bindOnward {next : α → Action Code γ} {next' : β → Action Code δ}
    (first : terms.Matches held (fun _ _ => True) link left right meeting action action')
    (onward : ∀ {link' result left' result' right'}, link.Grows link' →
      meeting link' result left' result' right' →
      terms.Matches held kept link' left' right' meeting' (next result) (next' result')) :
    terms.Matches held kept link left right meeting' (action >>= next) (action' >>= next') :=
  bind first (fun _ => trivial) fun passes => onward passes.grows

theorem pure (mirrors : terms.Mirrors link args args' left right) {result : α} {result' : β}
    (met : meeting link result left result' right) :
    terms.Matches held kept link left right meeting (pure result) (Pure.pure result') :=
  .ok (mirrors.stay kept) met

theorem failWith (mirrors : terms.Mirrors link args args' left right)
    {failure failure' : Failure} (failures : link.Failures failure failure') :
    terms.Matches held kept link left right meeting (failWith failure)
      (Action.failWith failure') :=
  .failure (mirrors.stay kept) mirrors.drop failures

theorem fail (mirrors : terms.Mirrors link args args' left right) {fault : Fault}
    (unthrown : ∀ value, fault ≠ .thrown value) :
    terms.Matches held kept link left right meeting (fail fault) (Action.fail fault) :=
  failWith mirrors ⟨.plain unthrown, rfl, rfl⟩

theorem crash (mirrors : terms.Mirrors link args args' left right) :
    terms.Matches held kept link left right meeting crash Action.crash :=
  Alike.crash (mirrors.stay kept) mirrors.drop

theorem holding (more : List (Handle × Handle))
    (inner : terms.Matches (more ++ held) kept link left right meeting action action') :
    terms.Matches held kept link left right meeting (holding (more.map Prod.fst) action)
      (Action.holding (more.map Prod.snd) action') := by
  unfold Matches at inner ⊢
  rw [List.map_append, List.map_append] at inner
  exact inner

end Matches

end Terms

end ScopeMachine
