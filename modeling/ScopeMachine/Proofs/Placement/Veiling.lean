import ScopeMachine.Proofs.Placement.CallScopes

namespace ScopeMachine

open Memory Arena ScopeMachine.Action

private theorem Table.bounds_settled {Code : Type} {table : Table} {memory : Memory}
    (seated : table.Seated memory.arena.watermark memory) (definition : Definition Code) :
    (table.settled definition memory).2.bounds = memory.bounds := by
  unfold settled
  split
  next =>
    have shifts := Table.safeCopy_shifts table memory
    have watermark := seated.copyOut.watermark_of_onHeap (Table.isArena_copyOut ..)
    exact Bounds.mk.injEq .. ▸ ⟨watermark, shifts.marks, shifts.capacity⟩
  next => rfl

namespace Machine

variable {Code : Type} {machine entered : Machine Code} {held : List Handle}
  {function : Function Code} {id : FunctionId} {scope : ScopeId}

private theorem allocateTable_zero (arranged : machine.Arranged .empty) (held : List Handle) :
    ∃ table, allocateTable 0 held machine = .ok table machine ∧ machine.Arranged table ∧
      table.length = 0 ∧ table.Seated machine.watermark machine.heap.memory := by
  rw [run_allocateTable]
  split
  next => exact ⟨.empty, rfl, arranged, rfl, rfl, rfl⟩
  next framed =>
    cases allocated : machine.heap.memory.arena.allocate 0 with
    | error fault => exact absurd (allocate_eq_error allocated).1 (Nat.not_lt_zero _)
    | ok slice =>
        obtain ⟨offset, arena⟩ := slice
        have steps := arranged.allocate (o := fun _ => False) allocated
        obtain ⟨rfl, -, rfl⟩ := allocate_eq_ok allocated
        exact ⟨_, rfl, steps.arranged, rfl, rfl,
          isTop_iff.mpr ⟨rfl, arranged.orderly.inRange.floor_le⟩⟩

private theorem mapArguments_bare {args : Table} (none : args.length = 0)
    (skips : function.definition.skipsScope = true) (held : List Handle) :
    mapArguments function.definition args held machine =
      .ok ((args.settled function.definition machine.heap.memory).1, [])
        (machine.withMemory (args.settled function.definition machine.heap.memory).2) := by
  have free : function.definition.params = [] ∧ function.definition.rest = Option.none := by
    simp only [Definition.skipsScope, Bool.and_eq_true, List.isEmpty_iff,
      Option.isNone_iff_eq_none] at skips
    exact ⟨skips.1.2, skips.2⟩
  have empty := (Table.settled_saves 0 args function.definition machine.heap.memory).2.trans none
  rw [run_mapArguments]
  simp [Definition.accepts, Definition.arity, Definition.isVariadic, free, empty, Table.trailing,
    Table.values]

structure Shelters (function : Function Code) (id : FunctionId) (before : Machine Code)
    (scope : ScopeId) (entered : Machine Code) : Prop where
  steps : Calm (· = scope) before .empty entered
  idle : ¬ before.Busy scope
  busy : entered.Busy scope
  previous : (entered.heap.scope scope).previous = some function.enclosing
  index : (entered.heap.scope scope).index = function.definition.body.shape.table .all
  kind : (entered.heap.scope scope).kind = .function ⟨id, none, [], none⟩
  bounds : entered.bounds = before.bounds
  release : ∀ {given : Handle → Prop} {inner : Machine Code} (known : List Handle),
    entered.Restores inner → inner.Arranged .empty → Lasts (fun _ => False) entered inner →
    inner.heap.Supplies given →
    Settles given known (fun _ => False) before inner (inner.releaseScope known scope) ∧
      (inner.releaseScope known scope).bounds = before.bounds ∧
      (inner.releaseScope known scope).limits = before.limits

private theorem enterCall_shelters (arranged : machine.Arranged .empty)
    (skips : function.definition.skipsScope = true)
    (nameless : function.definition.body.shape.all.members = #[]) (held : List Handle) :
    ∃ scope entered, (do enterCall function id (← allocateTable 0) none) held machine =
        .ok scope entered ∧ Shelters function id machine scope entered := by
  obtain ⟨args, allocated, placed, empty, seated⟩ := allocateTable_zero arranged held
  have settled : machine.Calm (fun _ => False) _ (machine.withMemory
      (args.settled function.definition machine.heap.memory).2) :=
    { placed.settleArgs function.definition with }
  have mapped := @mapArguments_bare _ machine _ _ empty skips held
  have still := Table.bounds_settled seated function.definition
  replace seated := seated.settled function.definition
  generalize args.settled function.definition machine.heap.memory = table at *
  obtain ⟨table, memory⟩ := table
  obtain ⟨scope, entered, ran, hosts⟩ :=
    allocateCallScope_hosts settled.arranged function id [] none held
  have room : ((machine.withMemory memory).grown function table).2 = memory := by
    have size : (function.definition.body.shape.table .all).size = 0 := congrArg Array.size nameless
    unfold grown Table.ensureCapacity
    cases table <;> simp [size, Machine.withMemory]
  refine ⟨scope, entered, ?_, ?_⟩
  · rw [run_bind, allocated, andThen_ok]
    unfold enterCall
    rw [run_bind, mapped, andThen_ok]
    exact ran
  have steps : machine.Calm (· = scope) _ _ :=
    { settled with lasts := settled.lasts.mono False.elim }
  refine ⟨steps.trans hosts.steps, hosts.idle, hosts.busy,
    congrArg Scope.previous hosts.self, congrArg Scope.index hosts.self,
    congrArg Scope.kind hosts.self, ?_, ?_⟩
  · have memory := congrArg Memory.bounds (hosts.memory.trans room)
    exact memory.trans still
  · intro given inner known restores arranged' lasts supplies
    have whole := hosts.staysInFrame_releaseScope settled.arranged restores known
    have dropped : (machine.withMemory memory).Arranged .empty :=
      { settled.arranged with heap := settled.arranged.heap.drop }
    have settles : Settles given known (fun _ => False) _ inner _ :=
      dropped.releaseScope hosts.toEnters
        (restores.staysInFrame hosts.steps.arranged.orderly) arranged' hosts.steps.lasts lasts
        (by rw [hosts.self]; rfl) supplies
    have watermark := watermark_releaseScope (hosts.seats seated) restores arranged'
      (lasts.endures hosts.busy) known
    refine ⟨{ settles with lasts := settled.lasts.trans settles.lasts }, ?_,
      whole.steady.limits⟩
    have marks := whole.steady.bounds.marks.trans (congrArg Bounds.marks still)
    have capacity := whole.steady.bounds.capacity.trans (congrArg Bounds.capacity still)
    exact Bounds.mk.injEq .. ▸ ⟨watermark, marks, capacity⟩

end Machine

namespace Terms

variable {Code : Type} {terms : Terms Code} {link link' link'' : Link}
  {left right entered' inner inner' : Machine Code} {function' : Function Code} {g : FunctionId}
  {next b : ScopeId} {held : List (Handle × Handle)}
  (mirrors : terms.Mirrors link .empty .empty left right)
  (shelters : Machine.Shelters function' g right b entered')
include mirrors shelters

private theorem Mirrors.cover (veiled : terms.veiled)
    (found : right.heap.function? g = some function')
    (root : function'.overridden = none)
    (nameless : function'.definition.body.shape.all.members = #[]) :
    terms.Mirrors (link.cover b function'.enclosing) .empty .empty left entered' where
  arranged := mirrors.arranged
  arranged' := shelters.steps.arranged
  agree := mirrors.agree.cover shelters.steps.extension veiled shelters.idle shelters.busy
    { previous := shelters.previous
      nameless := (congrArg Index.members shelters.index).trans nameless
      call := ⟨_, function', shelters.kind, rfl, shelters.steps.extension.function? found, root⟩ }
  capture := mirrors.capture.trans shelters.steps.capture.symm
  limits := by
    rw [shelters.steps.limits]
    exact mirrors.limits
  bounds inStep := (mirrors.bounds inStep).trans shelters.bounds.symm

private theorem Mirrors.lift (grows : link.Grows link')
    (passes : link'.Passes (Held held) left entered' link'' inner inner')
    (reached : terms.Mirrors link'' .empty .empty inner inner')
    (restores : left.Restores inner) (restores' : entered'.Restores inner')
    (more more' : List Handle) :
    ∃ last,
      terms.Mirrors last .empty .empty inner
          (inner'.releaseScope (more' ++ held.map Prod.snd) b) ∧
        Retains link'' (more ++ held.map Prod.fst) (more' ++ held.map Prod.snd) last ∧
        link.Passes (Held held) left right last inner
          (inner'.releaseScope (more' ++ held.map Prod.snd) b) := by
  have settles : Machine.Settles terms.given (more ++ held.map Prod.fst) (fun _ => False) left inner
      inner :=
    ⟨⟨fun _ => True, { Machine.Sheds.refl inner with
        given := fun _ => trivial, held := fun _ => trivial, root := trivial }⟩,
      rfl, reached.arranged, passes.lasts⟩
  obtain ⟨settles', bounds, limits⟩ := shelters.release (more' ++ held.map Prod.snd) restores'
    reached.arranged' passes.lasts' reached.agree.provided'.supplies
  obtain ⟨last, after, retains⟩ := reached.settle settles settles'
    (by rw [capture_releaseScope, reached.capture])
    (by rw [restores.limits, limits]; exact mirrors.limits)
    fun inStep => restores.bounds.trans ((mirrors.bounds inStep).trans bounds.symm)
  exact ⟨last, after, retains, retains.passes (List.subset_append_right ..)
    (List.subset_append_right ..) grows passes settles.lasts settles'.lasts⟩

omit shelters in
theorem Matches.callVeiled (veiled : terms.veiled)
    (found : right.heap.function? g = some function') (root : function'.overridden = none)
    (skips : function'.definition.skipsScope = true)
    (nameless : function'.definition.body.shape.all.members = #[])
    (under : link.Under next function'.enclosing)
    {body : Action Code Value} {body' : ScopeId → Action Code Value}
    (inner : ∀ {link' : Link} {b : ScopeId} {entered' : Machine Code},
      link.Grows link' → terms.Mirrors link' .empty .empty left entered' → link'.Under next b →
      (link.sure .outside next function'.enclosing → link'.sure .replaced next b) →
      (entered'.heap.scope b).index = function'.definition.body.shape.table .all →
      terms.Matches held (Held held) link' left entered' (terms.Meets Link.Values) body (body' b) ∧
      left.Restores (machineLeft (body (held.map Prod.fst) left)) ∧
      entered'.Restores (machineLeft (body' b (held.map Prod.snd) entered'))) :
    terms.Matches held (Held held) link left right (terms.Meets Link.Values) body
      (Action.allocateTable 0 >>= fun table => enterCall function' g table none >>= fun scope =>
        releasingScope scope (body' scope)) := by
  obtain ⟨b, entered', ran, shelters⟩ := @Machine.enterCall_shelters _ right function' g
    mirrors.arranged' skips nameless (held.map Prod.snd)
  have covered := mirrors.cover shelters veiled found root nameless
  have grows := link.grows_cover b function'.enclosing
  obtain ⟨matched, restores, restores'⟩ := inner grows covered (Link.under_cover under b)
    (fun sure => .inr ⟨rfl, rfl, sure⟩) shelters.index
  have ran' : (Action.allocateTable 0 >>= fun table => enterCall function' g table none >>=
    fun scope =>
      releasingScope scope (body' scope)) (held.map Prod.snd) right =
        releasingScope b (body' b) (held.map Prod.snd) entered' := by
    rw [run_bind] at ran ⊢
    cases tabled : Action.allocateTable 0 (held.map Prod.snd) right with
    | error abort after => rw [tabled] at ran; cases ran
    | ok table after =>
        rw [tabled, andThen_ok] at ran
        rw [andThen_ok, run_bind, ran, andThen_ok]
  unfold Matches
  rw [ran', releasingScope_eq, ← finishing_self (held.map Prod.fst) (body _ left)]
  exact matched.finishing restores restores' fun passes => mirrors.lift shelters grows passes

end Terms

end ScopeMachine
