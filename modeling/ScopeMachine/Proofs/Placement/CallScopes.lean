import ScopeMachine.Proofs.Calls.Returning
import ScopeMachine.Proofs.Evaluation.Exhaustion
import ScopeMachine.Proofs.Placement.ArgumentActions
import ScopeMachine.Proofs.Placement.Settling

namespace ScopeMachine

open Memory Arena ScopeMachine.Action

private theorem Table.Seated.of_slice {offset : Nat} {table last : Table} {memory : Memory}
    (seated : table.Seated offset memory) (inside : table.isArena = true)
    (inside' : last.isArena = true) (same : last.slice? = table.slice?) :
    last.Seated offset memory := by
  cases table with
  | onHeap cells reserved => cases inside
  | inArena slice length =>
      cases last with
      | onHeap cells reserved => cases inside'
      | inArena slice' length' =>
          cases same
          exact seated

namespace Machine

variable {Code : Type} {machine entered after : Machine Code} {args : Table} {scope : ScopeId}
  {offset : Nat}

abbrev grown (machine : Machine Code) (function : Function Code) (members : Table) :
    Table × Memory :=
  members.ensureCapacity (function.definition.body.shape.table .all).size machine.heap.memory

structure Lodges (function : Function Code) (id : FunctionId) (members : Table)
    (trailing : List Value) (receiver : Option Value) (before : Machine Code) (scope : ScopeId)
    (entered : Machine Code) : Prop extends Enters before scope entered where
  steps : Calm (· = scope) before .empty entered
  self : entered.heap.scope scope =
    callScope function id (before.grown function members).1 trailing receiver
  memory : entered.heap.memory = (before.grown function members).2

theorem allocateCallScope_hosts (arranged : machine.Arranged args) (function : Function Code)
    (id : FunctionId) (trailing : List Value) (receiver : Option Value) (held : List Handle) :
    ∃ scope entered,
      allocateCallScope function.enclosing (function.definition.body.shape.table .all) args
          { function := id, receiver, trailing } held machine = .ok scope entered ∧
        Lodges function id args trailing receiver machine scope entered := by
  have roomy := arranged.roomArgs (o := fun _ => False)
    (function.definition.body.shape.table .all).size
  have stays : machine.StaysInFrame (machine.withMemory (machine.grown function args).2) :=
    .of_memory arranged.tidy (Table.ensureCapacity_shifts ..)
  have found : ∃ scope entered,
      allocateCallScope function.enclosing (function.definition.body.shape.table .all) args
          { function := id, receiver, trailing } held machine = .ok scope entered ∧
        (machine.withMemory (machine.grown function args).2).Takes scope
          (callScope function id (machine.grown function args).1 trailing receiver) entered := by
    unfold allocateCallScope
    rw [run_bind, run_onMemory, andThen_ok]
    change ∃ scope entered,
      (if (machine.grown function args).1.isArena then
          pooledScope (callScope function id (machine.grown function args).1 trailing receiver)
        else newScope (callScope function id (machine.grown function args).1 trailing receiver))
          held (machine.withMemory (machine.grown function args).2) = .ok scope entered ∧ _
    rw [run_ite]
    split
    next => exact pooledScope_takes roomy.arranged.tidy _ held
    next => exact ⟨_, _, rfl, newScope_takes roomy.arranged.tidy _⟩
  obtain ⟨scope, entered, ran, takes⟩ := found
  have housed : (callScope function id (machine.grown function args).1 trailing
      receiver).Housed := by
    refine ⟨fun pooled => ?_, fun pooled => pooled, fun _ => .inr rfl⟩
    have inside : (machine.grown function args).1.isArena = true := pooled
    cases members : (machine.grown function args).1 with
    | onHeap cells reserved =>
        rw [members] at inside
        cases inside
    | inArena slice length => exact ⟨slice, length, rfl, Table.room_ensureCapacity members⟩
  have placed := takes.place roomy.arranged housed rfl rfl
  refine ⟨scope, entered, ran, ⟨stays.trans takes.staysInFrame, takes.frames,
    fun busy => takes.idle (stays.spares.busy _ busy), takes.busy⟩, ?_, takes.scope, takes.memory⟩
  exact { roomy with lasts := roomy.lasts.mono False.elim : Calm _ _ _ _ }.trans
    { placed with lasts := placed.lasts.mono And.left }

/-- The members of the scope are seated where the arguments were. -/
theorem Lodges.seats {function : Function Code} {id : FunctionId} {trailing : List Value}
    {receiver : Option Value}
    (hosts : Lodges function id args trailing receiver machine scope entered)
    (seated : args.Seated offset machine.heap.memory) : Seats offset machine scope entered where
  toEnters := hosts.toEnters
  variant := by
    rw [hosts.self]
    rfl
  pooled := by
    rw [hosts.self]
    rfl
  seated := by
    rw [hosts.self, hosts.memory]
    exact seated.ensureCapacity _

/-- Whether the scope is promoted or goes to the pool, the watermark is back where the arguments
began. -/
theorem watermark_releaseScope (seats : Seats offset machine scope entered)
    (restores : entered.Restores after) (arranged : after.Arranged .empty)
    (endures : (entered.heap.scope scope).Endures (after.heap.scope scope)) (held : List Handle) :
    (after.releaseScope held scope).watermark = offset := by
  cases retained : after.isHeld held scope with
  | false => exact seats.release restores held retained
  | true =>
      cases pooled : (after.heap.scope scope).pooled with
      | false =>
          unfold releaseScope
          dsimp only
          rw [pooled]
          have outside : (entered.heap.scope scope).members.isArena = false :=
            seats.pooled.symm.trans (endures.pooled.symm.trans pooled)
          exact (congrArg Bounds.watermark restores.bounds).trans
            (seats.seated.watermark_of_onHeap outside)
      | true =>
          have variant := endures.variant.trans seats.variant
          unfold releaseScope
          dsimp only
          rw [pooled, variant, retained]
          change (after.heap.detach scope).memory.arena.watermark = offset
          rw [Heap.memory_detach]
          obtain ⟨slice, length, members, -⟩ := (arranged.heap.housed scope).inside pooled
          have earlier := endures.pooled.symm.trans pooled
          have same := endures.slice? earlier
          have seated := (seats.seated.of_bounds restores.bounds).of_slice
            (seats.pooled.symm.trans earlier) (by rw [members]; rfl) same
          exact seated.copyOut.watermark_of_onHeap (Table.isArena_copyOut ..)

/-- The scope of a call was made, and the call came to its end and is over. -/
theorem Lodges.staysInFrame_releaseScope {function : Function Code} {id : FunctionId}
    {trailing : List Value} {receiver : Option Value}
    (hosts : Lodges function id args trailing receiver machine scope entered)
    (arranged : machine.Arranged args) (restores : entered.Restores after) (held : List Handle) :
    machine.StaysInFrame (after.releaseScope held scope) :=
  StaysInFrame.releaseScope arranged.tidy hosts.staysInFrame hosts.frames hosts.idle hosts.busy
    (restores.staysInFrame hosts.steps.arranged.orderly) held

end Machine

namespace Terms

variable {Code : Type} {terms : Terms Code} {link link' link'' : Link}
  {left right entered entered' inner inner' : Machine Code} {args args' : Table}
  {function function' : Function Code} {f g : FunctionId} {trailing trailing' : List Value}
  {receiver receiver' : Option Value} {a b : ScopeId} {held : List (Handle × Handle)}

def finishing (release : List Handle → Machine Code → Machine Code) (held : List Handle) :
    Ending Code Value → Ending Code Value
  | .ok result machine => .ok result (release (result.handles ++ held) machine)
  | .error abort machine => .error abort (release (abort.handles ++ held) machine)

theorem finishing_self (held : List Handle) (ending : Ending Code Value) :
    finishing (fun _ machine => machine) held ending = ending := by
  cases ending <;> rfl

theorem releasingScope_eq (scope : ScopeId) (body : Action Code Value) (known : List Handle)
    (machine : Machine Code) :
    releasingScope scope body known machine =
      finishing (fun known after => after.releaseScope known scope) known (body known machine) := by
  unfold releasingScope
  cases body known machine <;> rfl

/-- Bodies that match and after which something is let go. -/
theorem Alike.finishing {ending ending' : Ending Code Value}
    {release release' : List Handle → Machine Code → Machine Code}
    (alike : terms.Alike (Held held) link' entered entered' (terms.Meets Link.Values) ending
    ending')
    (restores : entered.Restores (machineLeft ending))
    (restores' : entered'.Restores (machineLeft ending'))
    (leave : ∀ {link'' : Link} {inner inner' : Machine Code},
      link'.Passes (Held held) entered entered' link'' inner inner' →
      terms.Mirrors link'' .empty .empty inner inner' → entered.Restores inner →
      entered'.Restores inner' → ∀ more more' : List Handle, ∃ last,
        terms.Mirrors last .empty .empty (release (more ++ held.map Prod.fst) inner)
            (release' (more' ++ held.map Prod.snd) inner') ∧
          Retains link'' (more ++ held.map Prod.fst) (more' ++ held.map Prod.snd) last ∧
          link.Passes (Held held) left right last (release (more ++ held.map Prod.fst) inner)
            (release' (more' ++ held.map Prod.snd) inner')) :
    terms.Alike (Held held) link left right (terms.Meets Link.Values)
      (finishing release (held.map Prod.fst) ending)
      (Terms.finishing release' (held.map Prod.snd) ending') := by
  cases alike with
  | @ok _ result result' _ _ passes met =>
      obtain ⟨last, after, retains, further⟩ :=
        leave passes met.1 restores restores' result.handles result'.handles
      exact .ok further ⟨after, retains.values met.2 (List.subset_append_left ..)
        (List.subset_append_left ..)⟩
  | @failure _ failure failure' _ _ passes reached failures =>
      obtain ⟨last, after, retains, further⟩ :=
        leave passes reached restores restores' failure.handles failure'.handles
      exact .failure further after (retains.failures failures (List.subset_append_left ..)
        (List.subset_append_left ..))
  | crash passes reached =>
      obtain ⟨last, after, -, further⟩ := leave passes reached restores restores' [] []
      exact .crash further after
  | leftFull apart full => exact .leftFull apart full
  | rightFull apart full => exact .rightFull apart full

section Calls

variable (flies : terms.Flies link args args' left right)
  (hosts : Machine.Lodges function f args trailing receiver left a entered)
  (hosts' : Machine.Lodges function' g args' trailing' receiver' right b entered')
include flies hosts hosts'

private theorem Flies.enter (functions : terms.Functions link function function')
    (paired : link.pairs (.function f) (.function g))
    (receivers : Option.Rel link.Values receiver receiver')
    (trailings : List.Forall₂ link.Values trailing trailing') :
    ∃ link', link.Grows link' ∧ link'.pairs (.scope a) (.scope b) ∧
      (∀ {reading}, callReads (fun reading =>
          link.sure reading function.enclosing function'.enclosing) reading →
        link'.sure reading a b) ∧
      terms.Mirrors link' .empty .empty entered entered' := by
  have members := functions.definition.body.members .all
  have size : (function.definition.body.shape.table .all).size =
      (function'.definition.body.shape.table .all).size := congrArg Array.size members
  have ⟨_, roomy⟩ := flies.room (function.definition.body.shape.table .all).size
  have content : ∀ slot, link.Cells (entered.heap.contentAt a slot)
      (entered'.heap.contentAt b slot) := by
    intro slot
    unfold Heap.contentAt
    rw [hosts.self, hosts'.self, hosts.memory, hosts'.memory]
    unfold Machine.grown
    rw [← size]
    exact roomy.content slot
  have newcomers : Newcomers link entered.heap entered'.heap function.enclosing function'.enclosing
      a b := by
    refine ⟨?_, ?_, functions.enclosing, ?_, ?_, ?_, content, ?_, ?_⟩
    all_goals simp only [hosts.self, hosts'.self, callScope]
    · exact nofun
    · exact members
    · exact .function paired receivers trailings
    · rfl
    · rfl
  have variant : (entered.heap.scope a).variant = .function := congrArg Scope.variant hosts.self
  refine ⟨_, link.grows_add .., link.pairs_add .., fun allowed => .inr ⟨scopeReads_of_callReads
    (variant ▸ nofun) id allowed, rfl, rfl⟩, flies.addScope hosts.steps hosts'.steps hosts.idle
    hosts'.idle hosts.busy hosts'.busy newcomers fun inStep => ?_⟩
  have bounds := roomy.bounds inStep
  unfold Machine.bounds Heap.bounds at bounds ⊢
  rw [hosts.memory, hosts'.memory]
  unfold Machine.grown
  rw [← size]
  exact bounds

private theorem Flies.leave (grows : link.Grows link')
    (passes : link'.Passes (Held held) entered entered' link'' inner inner')
    (reached : terms.Mirrors link'' .empty .empty inner inner')
    (restores : entered.Restores inner) (restores' : entered'.Restores inner')
    (more more' : List Handle) :
    ∃ last,
      terms.Mirrors last .empty .empty (inner.releaseScope (more ++ held.map Prod.fst) a)
          (inner'.releaseScope (more' ++ held.map Prod.snd) b) ∧
        Retains link'' (more ++ held.map Prod.fst) (more' ++ held.map Prod.snd) last ∧
        link.Passes (Held held) left right last
          (inner.releaseScope (more ++ held.map Prod.fst) a)
          (inner'.releaseScope (more' ++ held.map Prod.snd) b) := by
  have mirrors := flies.drop
  have stays := hosts.staysInFrame_releaseScope flies.arranged restores (more ++ held.map Prod.fst)
  have stays' := hosts'.staysInFrame_releaseScope flies.arranged' restores'
    (more' ++ held.map Prod.snd)
  have settles : Machine.Settles _ (more ++ held.map Prod.fst) (fun _ => False) left inner
      (inner.releaseScope (more ++ held.map Prod.fst) a) :=
    mirrors.arranged.releaseScope hosts.toEnters
      (restores.staysInFrame hosts.steps.arranged.orderly)
      reached.arranged hosts.steps.lasts passes.lasts (by rw [hosts.self]; rfl)
      reached.agree.provided.supplies
  have settles' : Machine.Settles _ (more' ++ held.map Prod.snd) (fun _ => False) right inner'
      (inner'.releaseScope (more' ++ held.map Prod.snd) b) :=
    mirrors.arranged'.releaseScope hosts'.toEnters
      (restores'.staysInFrame hosts'.steps.arranged.orderly)
      reached.arranged' hosts'.steps.lasts passes.lasts' (by rw [hosts'.self]; rfl)
      reached.agree.provided'.supplies
  have bounds : terms.inStep → (inner.releaseScope (more ++ held.map Prod.fst) a).bounds =
      (inner'.releaseScope (more' ++ held.map Prod.snd) b).bounds := by
    intro inStep
    have before := flies.bounds inStep
    obtain ⟨offset, seated, seated'⟩ := flies.seated inStep
    have watermark := Machine.watermark_releaseScope (hosts.seats seated) restores reached.arranged
      (passes.lasts.endures hosts.busy) (more ++ held.map Prod.fst)
    have watermark' := Machine.watermark_releaseScope (hosts'.seats seated') restores'
      reached.arranged' (passes.lasts'.endures hosts'.busy) (more' ++ held.map Prod.snd)
    have marks := stays.steady.bounds.marks.trans
      ((congrArg Bounds.marks before).trans stays'.steady.bounds.marks.symm)
    have capacity := stays.steady.bounds.capacity.trans
      ((congrArg Bounds.capacity before).trans stays'.steady.bounds.capacity.symm)
    exact Bounds.mk.injEq .. ▸ ⟨watermark.trans watermark'.symm, marks, capacity⟩
  obtain ⟨last, after, retains⟩ := reached.settle settles settles'
    (by rw [capture_releaseScope, capture_releaseScope, reached.capture])
    (by rw [stays.steady.limits, stays'.steady.limits]; exact mirrors.limits) bounds
  have knows : held.map Prod.fst ⊆ more ++ held.map Prod.fst := List.subset_append_right ..
  have knows' : held.map Prod.snd ⊆ more' ++ held.map Prod.snd := List.subset_append_right ..
  exact ⟨last, after, retains,
    retains.passes knows knows' grows passes settles.lasts settles'.lasts⟩

private theorem Flies.releasing {body body' : Action Code Value} (grows : link.Grows link')
    (inner : terms.Matches held (Held held) link' entered entered' (terms.Meets Link.Values) body
      body')
    (restores : entered.Restores (machineLeft (body (held.map Prod.fst) entered)))
    (restores' : entered'.Restores (machineLeft (body' (held.map Prod.snd) entered'))) :
    terms.Alike (Held held) link left right (terms.Meets Link.Values)
      (releasingScope a body (held.map Prod.fst) entered)
      (releasingScope b body' (held.map Prod.snd) entered') := by
  rw [releasingScope_eq, releasingScope_eq]
  exact inner.finishing restores restores' fun passes => flies.leave hosts hosts' grows passes

end Calls

theorem Matches.call (flies : terms.Flies link args args' left right)
    (functions : terms.Functions link function function')
    (paired : link.pairs (.function f) (.function g))
    (receivers : Option.Rel link.Values receiver receiver')
    {body body' : ScopeId → Action Code Value}
    (inner : ∀ {link' : Link} {a b : ScopeId} {entered entered' : Machine Code},
      link.Grows link' → terms.Mirrors link' .empty .empty entered entered' →
      link'.pairs (.scope a) (.scope b) →
      (∀ {reading}, callReads (fun reading =>
          link.sure reading function.enclosing function'.enclosing) reading →
        link'.sure reading a b) →
      (entered.heap.scope a).index = function.definition.body.shape.table .all →
      (entered'.heap.scope b).index = function'.definition.body.shape.table .all →
      terms.Matches held (Held held) link' entered entered' (terms.Meets Link.Values) (body a)
        (body' b) ∧
      entered.Restores (machineLeft (body a (held.map Prod.fst) entered)) ∧
      entered'.Restores (machineLeft (body' b (held.map Prod.snd) entered'))) :
    terms.Matches held (Held held) link left right (terms.Meets Link.Values)
      (enterCall function f args receiver >>= fun scope => releasingScope scope (body scope))
      (enterCall function' g args' receiver' >>= fun scope =>
        releasingScope scope (body' scope)) := by
  rw [enterCall_bind, enterCall_bind]
  refine .bindOnward (.mapArguments functions.definition flies)
    fun {link' mapped left' mapped' right'} grows met => ?_
  obtain ⟨members, trailing⟩ := mapped
  obtain ⟨members', trailing'⟩ := mapped'
  obtain ⟨settled, trailings⟩ := met
  obtain ⟨a, entered, ran, hosts⟩ := Machine.allocateCallScope_hosts settled.arranged function f
    trailing receiver (held.map Prod.fst)
  obtain ⟨b, entered', ran', hosts'⟩ := Machine.allocateCallScope_hosts settled.arranged'
    function' g
    trailing' receiver' (held.map Prod.snd)
  obtain ⟨link'', further, here, sure, opened⟩ := settled.enter hosts hosts' (functions.grow grows)
    (grows.pairs paired) (receivers.imp fun _ _ _ _ => grows.values) trailings
  have matched := inner (grows.trans further) opened here
    (fun allowed => sure (callReads_mono grows.sure allowed))
    (congrArg Scope.index hosts.self) (congrArg Scope.index hosts'.self)
  unfold Matches
  dsimp only at ran ran' ⊢
  rw [run_bind, run_bind, ran, ran']
  exact settled.releasing hosts hosts' further matched.1 matched.2.1 matched.2.2

end Terms

end ScopeMachine
