import ScopeMachine.Proofs.Placement.Finding

namespace ScopeMachine

open Arena ScopeMachine.Action

namespace Terms

variable {Code α β : Type} {terms : Terms Code} {link : Link}
  {left right inner inner' after after' : Machine Code} {args args' : Table}
  {held : List (Handle × Handle)}

/-- Pairs that callers hold on to. -/
abbrev Held (held : List (Handle × Handle)) (x y : Handle) : Prop := (x, y) ∈ held

/-- What both sides held on to is linked still. -/
structure Retains (link : Link) (known known' : List Handle) (link' : Link) : Prop where
  pairs : ∀ {x y}, x ∈ known → y ∈ known' → link.pairs x y → link'.pairs x y
  firm : ∀ {a b}, .scope a ∈ known → .scope b ∈ known' → link.firm a b → link'.firm a b
  veil : ∀ {id next}, .scope id ∈ known' → link.veil id next → link'.veil id next
  under : ∀ {a b}, .scope a ∈ known → .scope b ∈ known' → link.Under a b → link'.Under a b
  sure : ∀ {reading a b}, .scope a ∈ known → .scope b ∈ known' → link.sure reading a b →
    link'.sure reading a b

theorem Retains.values {known known' : List Handle} {link' : Link}
    (retains : Retains link known known' link') {value value' : Value}
    (values : link.Values value value') (held : value.handles ⊆ known)
    (held' : value'.handles ⊆ known') : link'.Values value value' := by
  cases values with
  | plain bare => exact .plain bare
  | array paired => exact .array (retains.pairs (held (.head _)) (held' (.head _)) paired)
  | exception paired => exact .exception (retains.pairs (held (.head _)) (held' (.head _)) paired)
  | function paired => exact .function (retains.pairs (held (.head _)) (held' (.head _)) paired)
  | object paired firm =>
      exact .object (retains.pairs (held (.head _)) (held' (.head _)) paired)
        (retains.firm (held (.head _)) (held' (.head _)) firm)

theorem Retains.failures {known known' : List Handle} {link' : Link}
    (retains : Retains link known known' link') {failure failure' : Failure}
    (failures : link.Failures failure failure') (held : failure.handles ⊆ known)
    (held' : failure'.handles ⊆ known') : link'.Failures failure failure' := by
  obtain ⟨fault, backtrace, notes⟩ := failure
  obtain ⟨fault', backtrace', notes'⟩ := failure'
  obtain ⟨faults, backtraces, notes⟩ := failures
  refine ⟨?_, backtraces, notes⟩
  cases faults with
  | thrown values => exact .thrown (retains.values values held held')
  | plain unthrown => exact .plain unthrown

/-- What a part of a run has linked, and what it has kept in spite of what was let go after it. -/
theorem Retains.passes {known known' : List Handle} {first link' link'' : Link}
    {before before' : Machine Code} (retains : Retains link' known known' link'')
    (knows : held.map Prod.fst ⊆ known) (knows' : held.map Prod.snd ⊆ known')
    (grows : link.Grows first)
    (passes : first.Passes (Held held) before before' link' inner inner')
    (lasts : Machine.Lasts (fun _ => False) left after)
    (lasts' : Machine.Lasts (fun _ => False) right after') :
    link.Passes (Held held) left right link'' after after' := by
  have here : ∀ {x y}, (x, y) ∈ held → x ∈ known := fun listed => knows (List.mem_map_of_mem listed)
  have there : ∀ {x y}, (x, y) ∈ held → y ∈ known' := fun listed =>
    knows' (List.mem_map_of_mem listed)
  exact {
    pairs := fun listed paired =>
      retains.pairs (here listed) (there listed) (passes.pairs listed (grows.pairs paired))
    firm := fun listed firm =>
      retains.firm (here listed) (there listed) (passes.firm listed (grows.firm firm))
    veil := fun listed veiled => retains.veil (there listed)
      (passes.veil listed (grows.veil veiled))
    under := fun listed under =>
      retains.under (here listed) (there listed) (passes.under listed (grows.under under))
    sure := fun listed sure =>
      retains.sure (here listed) (there listed) (passes.sure listed (grows.sure sure))
    lasts := lasts
    lasts' := lasts' }

/-- Scopes were released on both sides. -/
theorem Mirrors.settle {known known' : List Handle} {o o' : ScopeId → Prop}
    (mirrors : terms.Mirrors link .empty .empty inner inner')
    (settles : Machine.Settles terms.given known o left inner after)
    (settles' : Machine.Settles terms.given known' o' right inner' after')
    (capture : after.capture = after'.capture) (limits : terms.Bounded after.limits after'.limits)
    (bounds : terms.inStep → after.bounds = after'.bounds) :
    ∃ link', terms.Mirrors link' .empty .empty after after' ∧
      Retains link known known' link' := by
  obtain ⟨keep, lets⟩ := settles.lets
  obtain ⟨keep', lets'⟩ := settles'.lets
  refine ⟨link.within keep keep', ⟨settles.arranged, settles'.arranged, ?_, capture, limits,
    bounds⟩,
    fun listed listed' paired => ⟨paired, lets.held listed, lets'.held listed'⟩,
    fun listed listed' firm => ⟨firm, lets.held listed, lets'.held listed'⟩,
    fun listed veiled => ⟨veiled, lets'.held listed⟩,
    fun listed listed' under => under.within (mirrors.agree.lifted lets'.toSheds) (lets.held listed)
      (lets'.held listed'),
    fun listed listed' sure => ⟨sure, lets.held listed, lets'.held listed'⟩⟩
  exact mirrors.agree.shed lets.toSheds lets'.toSheds (Nat.le_of_eq settles.size.symm)
    (Nat.le_of_eq settles'.size.symm) (fun given => ⟨lets.given given, lets'.given given⟩)
    ⟨lets.root, lets'.root⟩

private theorem Mirrors.openFrame (mirrors : terms.Mirrors link .empty .empty left right)
    (room : left.depth < left.limits.maxDepth) (id file : String) (a b : ScopeId) :
    terms.Mirrors link .empty .empty (left.openFrame id file a) (right.openFrame id file b) := by
  have room' : right.depth < right.limits.maxDepth := by
    rw [← mirrors.depth, ← mirrors.limits.depth]
    exact room
  obtain ⟨arranged, extension⟩ := mirrors.arranged.openFrame room id file a
  obtain ⟨arranged', extension'⟩ := mirrors.arranged'.openFrame room' id file b
  refine ⟨arranged, arranged', mirrors.agree.revise extension extension' False.elim False.elim
    fun _ either => (either.elim False.elim False.elim), ?_, mirrors.limits, fun inStep => ?_⟩
  · exact congrArg (fun trace : Backtrace => (⟨⟨id, file, 0⟩ :: trace.lines⟩ : Backtrace))
      mirrors.capture
  · exact congrArg (fun bounds : Bounds =>
      ({ bounds with marks := bounds.watermark :: bounds.marks } : Bounds)) (mirrors.bounds inStep)

private theorem annotate_of_none {machine : Machine Code} {fault : Fault} {notes : List String}
    (other : ∀ id, fault ≠ .thrown (.exception id)) :
    machine.annotate ⟨fault, none, notes⟩ =
      (Failure.withBacktrace ⟨fault, none, notes⟩ machine.capture, machine) := by
  unfold Machine.annotate
  dsimp only
  split
  next id => exact absurd rfl (other id)
  next => rfl

private theorem Mirrors.preserveBacktrace (mirrors : terms.Mirrors link args args' left right)
    {a b : ExceptionId} (paired : link.pairs (.exception a) (.exception b))
    {trace trace' : Backtrace}
    (same : trace = trace') :
    Onward link left right link (left.withHeap (left.heap.preserveBacktrace a trace))
        (right.withHeap (right.heap.preserveBacktrace b trace')) ∧
      terms.Mirrors link args args' (left.withHeap (left.heap.preserveBacktrace a trace))
        (right.withHeap (right.heap.preserveBacktrace b trace')) := by
  subst same
  have present := mirrors.agree.present paired
  have alike := mirrors.agree.exception paired
  have self : ∀ {heap : Heap Code} {id : ExceptionId}, id.index < heap.exceptions.size →
      (heap.preserveBacktrace id trace).exception id =
        { heap.exception id with backtrace := (heap.exception id).backtrace <|> some trace } := by
    intro heap id old
    simp [Heap.preserveBacktrace, Heap.modifyException, Heap.exception, old, Array.getElem_modify]
  refine mirrors.touch paired (mirrors.arranged.preserveBacktrace a trace)
    (mirrors.arranged'.preserveBacktrace b trace) ?_ mirrors.bounds
  change link.Exceptions ((left.heap.preserveBacktrace a trace).exception a)
    ((right.heap.preserveBacktrace b trace).exception b)
  rw [self present.1, self present.2]
  exact { alike with backtrace := congrArg (· <|> some trace) alike.backtrace }

private theorem Mirrors.annotate (mirrors : terms.Mirrors link .empty .empty left right)
    {failure failure' : Failure} (failures : link.Failures failure failure') :
    Onward link left right link (left.annotate failure).2 (right.annotate failure').2 ∧
      terms.Mirrors link .empty .empty (left.annotate failure).2 (right.annotate failure').2 ∧
      link.Failures (left.annotate failure).1 (right.annotate failure').1 := by
  obtain ⟨fault, backtrace, notes⟩ := failure
  obtain ⟨fault', backtrace', notes'⟩ := failure'
  obtain ⟨faults, backtraces, noted⟩ := failures
  cases (show backtrace = backtrace' from backtraces)
  cases backtrace with
  | some trace => exact ⟨mirrors.stay _, mirrors, faults, rfl, noted⟩
  | none =>
      have traced : link.Failures (Failure.withBacktrace ⟨fault, none, notes⟩ left.capture)
          (Failure.withBacktrace ⟨fault', none, notes'⟩ right.capture) :=
        ⟨faults, congrArg some mirrors.capture, noted⟩
      have untouched : (∀ id, fault ≠ .thrown (.exception id)) →
          (∀ id, fault' ≠ .thrown (.exception id)) →
          Onward link left right link (left.annotate ⟨fault, none, notes⟩).2
              (right.annotate ⟨fault', none, notes'⟩).2 ∧
            terms.Mirrors link .empty .empty (left.annotate ⟨fault, none, notes⟩).2
              (right.annotate ⟨fault', none, notes'⟩).2 ∧
            link.Failures (left.annotate ⟨fault, none, notes⟩).1
              (right.annotate ⟨fault', none, notes'⟩).1 := fun other other' => by
        rw [annotate_of_none other, annotate_of_none other']
        exact ⟨mirrors.stay _, mirrors, traced⟩
      cases faults with
      | plain unthrown => exact untouched (fun _ => unthrown _) fun _ => unthrown _
      | thrown values =>
          cases values with
          | exception paired =>
              have ⟨onward, after⟩ := mirrors.preserveBacktrace paired mirrors.capture
              exact ⟨onward, after, traced⟩
          | plain bare =>
              refine untouched ?_ ?_
              all_goals
                rintro id ⟨⟩
                cases bare
          | array | function | object => exact untouched nofun nofun

private theorem full_annotate {machine : Machine Code} {failure : Failure} (full : Full failure) :
    Full (machine.annotate failure).1 := by
  obtain ⟨requested, available, capacity, same⟩ := full
  refine ⟨requested, available, capacity, ?_⟩
  unfold Machine.annotate
  split
  next => exact same
  next => exact same

def closing (held : List Handle) : Ending Code Value → Ending Code Value
  | .ok result machine => .ok result (machine.closeFrame (result.handles ++ held))
  | .error (.failure failure) machine =>
      .error (.failure (machine.annotate failure).1)
        ((machine.annotate failure).2.closeFrame ((machine.annotate failure).1.handles ++ held))
  | .error .crash machine => .error .crash (machine.closeFrame held)

private theorem inFrame_of_room {machine : Machine Code}
    (room : machine.depth < machine.limits.maxDepth)
    (id file : String) (scope : ScopeId) (body : Action Code Value) (held : List Handle) :
    inFrame id file scope body held machine =
      closing (.scope scope :: held)
        (body (.scope scope :: held) (machine.openFrame id file scope)) := by
  unfold inFrame
  rw [if_neg (Nat.not_le_of_lt room)]
  dsimp only
  cases body (.scope scope :: held) (machine.openFrame id file scope) with
  | ok result after => rfl
  | error abort after => cases abort <;> rfl

section Closing

variable {id file : String} {a b : ScopeId}
  (mirrors : terms.Mirrors link .empty .empty left right)
include mirrors

private theorem Mirrors.closeFrame {link' : Link}
    (stays : (left.openFrame id file a).StaysInFrame inner)
    (stays' : (right.openFrame id file b).StaysInFrame inner')
    (passes : link.Passes (Held ((.scope a, .scope b) :: held)) (left.openFrame id file a)
      (right.openFrame id file b) link' inner inner')
    (reached : terms.Mirrors link' .empty .empty inner inner') (more more' : List Handle) :
    ∃ link'',
      terms.Mirrors link'' .empty .empty
          (inner.closeFrame (more ++ .scope a :: held.map Prod.fst))
          (inner'.closeFrame (more' ++ .scope b :: held.map Prod.snd)) ∧
        Retains link' (more ++ .scope a :: held.map Prod.fst)
          (more' ++ .scope b :: held.map Prod.snd) link'' ∧
        link.Passes (Held ((.scope a, .scope b) :: held)) left right link''
          (inner.closeFrame (more ++ .scope a :: held.map Prod.fst))
          (inner'.closeFrame (more' ++ .scope b :: held.map Prod.snd)) := by
  obtain ⟨settles, restores, capture⟩ := mirrors.arranged.closeFrame
    (more ++ .scope a :: held.map Prod.fst) stays reached.arranged passes.lasts
    reached.agree.provided.supplies
  obtain ⟨settles', restores', capture'⟩ := mirrors.arranged'.closeFrame
    (more' ++ .scope b :: held.map Prod.snd) stays' reached.arranged' passes.lasts'
    reached.agree.provided'.supplies
  obtain ⟨link'', after, retains⟩ := reached.settle settles settles'
    (by rw [capture, capture', reached.capture])
    (by rw [restores.limits, restores'.limits]; exact mirrors.limits)
    fun inStep => restores.bounds.trans ((mirrors.bounds inStep).trans restores'.bounds.symm)
  have knows : ((.scope a, .scope b) :: held).map Prod.fst ⊆
      more ++ .scope a :: held.map Prod.fst := List.subset_append_right ..
  have knows' : ((.scope a, .scope b) :: held).map Prod.snd ⊆
      more' ++ .scope b :: held.map Prod.snd := List.subset_append_right ..
  exact ⟨link'', after, retains,
    retains.passes knows knows' (.refl link) passes settles.lasts settles'.lasts⟩

private theorem Alike.closing {ending ending' : Ending Code Value}
    (alike : terms.Alike (Held ((.scope a, .scope b) :: held)) link (left.openFrame id file a)
      (right.openFrame id file b) (terms.Meets Link.Values) ending ending')
    (stays : (left.openFrame id file a).StaysInFrame (machineLeft ending))
    (stays' : (right.openFrame id file b).StaysInFrame (machineLeft ending')) :
    terms.Alike (Held ((.scope a, .scope b) :: held)) link left right (terms.Meets Link.Values)
      (closing (.scope a :: held.map Prod.fst) ending)
      (Terms.closing (.scope b :: held.map Prod.snd) ending') := by
  cases alike with
  | @ok link' result result' left' right' passes met =>
      obtain ⟨link'', after, retains, further⟩ :=
        mirrors.closeFrame stays stays' passes met.1 result.handles result'.handles
      exact .ok further ⟨after, retains.values met.2 (List.subset_append_left ..)
        (List.subset_append_left ..)⟩
  | @failure link' failure failure' left' right' passes reached failures =>
      have ⟨onward, annotated, noted⟩ := reached.annotate failures
      obtain ⟨link'', after, retains, further⟩ := mirrors.closeFrame
        (stays.trans (Machine.annotate_staysInFrame reached.arranged.tidy failure))
        (stays'.trans (Machine.annotate_staysInFrame reached.arranged'.tidy failure'))
        (passes.trans (onward.weaken fun _ => trivial)) annotated
        (left'.annotate failure).1.handles (right'.annotate failure').1.handles
      exact .failure further after (retains.failures noted (List.subset_append_left ..)
        (List.subset_append_left ..))
  | crash passes reached =>
      obtain ⟨link'', after, -, further⟩ := mirrors.closeFrame stays stays' passes reached [] []
      exact .crash further after
  | leftFull apart full => exact .leftFull apart (full_annotate full)
  | rightFull apart full => exact .rightFull apart (full_annotate full)

theorem Matches.inFrame {body body' : Action Code Value}
    (mannerly : body.Mannerly) (mannerly' : body'.Mannerly)
    (inner : terms.Mirrors link .empty .empty (left.openFrame id file a)
        (right.openFrame id file b) →
      terms.Matches ((.scope a, .scope b) :: held) (Held ((.scope a, .scope b) :: held)) link
        (left.openFrame id file a) (right.openFrame id file b) (terms.Meets Link.Values) body
          body') :
    terms.Matches held (Held ((.scope a, .scope b) :: held)) link left right
      (terms.Meets Link.Values) (inFrame id file a body) (Action.inFrame id file b body') := by
  unfold Matches
  by_cases room : left.depth < left.limits.maxDepth
  · have room' : right.depth < right.limits.maxDepth := by
      rw [← mirrors.depth, ← mirrors.limits.depth]
      exact room
    have opened := mirrors.openFrame room id file a b
    rw [inFrame_of_room room, inFrame_of_room room']
    exact (inner opened).closing mirrors
      (mannerly _ _ opened.arranged.orderly opened.arranged.tidy)
      (mannerly' _ _ opened.arranged'.orderly opened.arranged'.tidy)
  · have full : left.limits.maxDepth ≤ left.depth := Nat.le_of_not_lt room
    have full' : right.limits.maxDepth ≤ right.depth := by
      rw [← mirrors.depth, ← mirrors.limits.depth]
      exact full
    unfold Action.inFrame
    rw [if_pos full, if_pos full', mirrors.limits.depth, mirrors.capture]
    exact .failure (mirrors.stay _) mirrors ⟨.plain nofun, rfl, rfl⟩

end Closing

end Terms

end ScopeMachine
