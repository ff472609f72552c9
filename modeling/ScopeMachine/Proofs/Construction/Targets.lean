import ScopeMachine.Proofs.Liveness.Evolution
import ScopeMachine.Proofs.Storage.Landing

namespace ScopeMachine

namespace Heap

variable {Code : Type} {heap : Heap Code} {object scope enclosing : ScopeId}

/-- How names, `this` and declarations resolve in a constructor's scope. -/
structure Constructs (heap : Heap Code) (scope object enclosing : ScopeId) : Prop where
  this : heap.this? scope = some (.object object)
  lands : ∀ {permission : Permission}, permission.declared.isPrivate = false →
    heap.landing permission scope = object ∧ ∀ name,
      heap.createMember scope name permission = heap.createMember object name permission
  resolves : ∀ {name : String}, (heap.ownMember scope name).1 = none →
    (heap.ownMember object name).1 = none → heap.lookup scope name = heap.lookup enclosing name

/-- A constructor's scope over the object, or over a fork onto it, with the scope that encloses the
function next. -/
structure Targets (heap : Heap Code) (scope object enclosing : ScopeId) (function : FunctionId) :
    Prop where
  kind : (heap.scope scope).kind = .constructor function
  owned : ∃ owner, (heap.scope object).kind = .object owner
  passes : ∃ outer, (heap.scope scope).previous = some outer ∧
    (heap.scope outer).previous = some enclosing ∧
    (outer = object ∨ (heap.scope outer).kind = .fork object)

/-- A scope that stands for itself. -/
theorem forkedWithin_self {id : ScopeId} (target : (heap.scope id).kind.target? = none)
    (budget : Nat) : heap.forkedWithin budget id = id := by
  cases budget with
  | zero => rfl
  | succ budget =>
      unfold forkedWithin
      split
      next object fork =>
        rw [fork] at target
        cases target
      next => rfl

theorem forked_fork {fork : ScopeId} (old : fork.index < heap.scopes.size)
    (kind : (heap.scope fork).kind = .fork object)
    (target : (heap.scope object).kind.target? = none) : heap.forked fork = object := by
  unfold forked
  cases size : heap.scopes.size with
  | zero => exact absurd (size ▸ old) (Nat.not_lt_zero _)
  | succ budget =>
      unfold forkedWithin
      rw [kind]
      exact forkedWithin_self target budget

theorem ownMember_eq_none {id : ScopeId} (called : (heap.scope id).variant ≠ .function)
    (target : (heap.scope id).kind.target? = none) {name : String}
    (missing : (heap.ownMember id name).1 = none) : heap.ownMember id name = (none, heap) := by
  unfold ownMember forked at missing ⊢
  rw [forkedWithin_self target] at missing ⊢
  refine Prod.ext missing ?_
  unfold storedMember
  dsimp only
  split
  next kind _ => exact (called (congrArg ScopeKind.variant kind)).elim
  next kind _ => exact (called (congrArg ScopeKind.variant kind)).elim
  next => rfl
  next => rfl

namespace Targets

variable {function : FunctionId} (targets : heap.Targets scope object enclosing function)

include targets

theorem target_scope : (heap.scope scope).kind.target? = none := by
  rw [targets.kind]
  rfl

theorem target_object : (heap.scope object).kind.target? = none := by
  obtain ⟨owner, kind⟩ := targets.owned
  rw [kind]
  rfl

theorem size : 2 ≤ heap.scopes.size := by
  obtain ⟨outer, -, -, passes⟩ := targets.passes
  obtain ⟨owner, objectKind⟩ := targets.owned
  have there {id : ScopeId} (kind : (heap.scope id).kind ≠ .basic) :
      id.index < heap.scopes.size := by
    refine Nat.lt_of_not_le fun absent => kind ?_
    rw [scope_of_size_le absent]
    rfl
  have scopeOld : scope.index < heap.scopes.size := there (by rw [targets.kind]; nofun)
  have outerOld : outer.index < heap.scopes.size := by
    rcases passes with rfl | fork
    · exact there (by rw [objectKind]; nofun)
    · exact there (by rw [fork]; nofun)
  have apart : scope.index ≠ outer.index := fun same => by
    have same : scope = outer := congrArg ScopeId.mk same
    have kind : (heap.scope outer).kind = .constructor function := same ▸ targets.kind
    rcases passes with rfl | fork
    · exact nomatch objectKind.symm.trans kind
    · exact nomatch fork.symm.trans kind
  omega

theorem this?_eq : heap.this? scope = some (.object object) := by
  obtain ⟨outer, previous, -, passes⟩ := targets.passes
  obtain ⟨owner, objectKind⟩ := targets.owned
  obtain ⟨budget, size⟩ := Nat.exists_eq_add_of_le' targets.size
  change heap.walkWithin thisStep heap.scopes.size scope = _
  have here : heap.walkWithin thisStep (budget + 2) scope =
      heap.walkWithin thisStep (budget + 1) outer := by
    rw [walkWithin]
    simp [thisStep, targets.kind, previous]
  rw [size, here, walkWithin]
  rcases passes with rfl | fork
  · simp [thisStep, objectKind]
  · simp [thisStep, fork]

/-- Everything but what is private goes on to the object. -/
theorem landing_eq {permission : Permission} (shown : permission.declared.isPrivate = false) :
    heap.landing permission scope = object := by
  obtain ⟨outer, previous, -, passes⟩ := targets.passes
  obtain ⟨owner, objectKind⟩ := targets.owned
  obtain ⟨budget, size⟩ := Nat.exists_eq_add_of_le' targets.size
  unfold landing
  rw [size, landingWithin]
  simp only [targets.kind, previous, shown, Bool.false_eq_true, if_false]
  rcases passes with rfl | fork
  · exact landingWithin_object objectKind ..
  · rw [landingWithin]
    simp only [fork]
    exact landingWithin_object objectKind ..

theorem createMember_eq {permission : Permission} (shown : permission.declared.isPrivate = false)
    (name : String) :
    heap.createMember scope name permission = heap.createMember object name permission := by
  obtain ⟨owner, objectKind⟩ := targets.owned
  have there : heap.landing permission object = object := landingWithin_object objectKind ..
  unfold createMember
  rw [targets.landing_eq shown, there]

theorem chain_eq (grounded : heap.Grounded scope) : ∃ outer,
    heap.forked outer = object ∧ heap.chain scope = scope :: outer :: heap.chain enclosing := by
  obtain ⟨outer, previous, next, passes⟩ := targets.passes
  refine ⟨outer, ?_, ?_⟩
  · rcases passes with rfl | fork
    · exact forkedWithin_self targets.target_object _
    · exact forked_fork (grounded.onward (.inl previous)).old fork targets.target_object
  · rw [← grounded.anchored.chain (heap.scopes.size + 2) (Nat.le_add_right ..), chainWithin,
      previous]
    refine congrArg (scope :: ·) ?_
    change heap.chainWithin (heap.scopes.size + 1) outer = _
    rw [chainWithin, next]
    rfl

theorem lookup_eq (grounded : heap.Grounded scope) {name : String}
    (own : (heap.ownMember scope name).1 = none)
    (shared : (heap.ownMember object name).1 = none) :
    heap.lookup scope name = heap.lookup enclosing name := by
  obtain ⟨outer, forked, chain⟩ := targets.chain_eq grounded
  obtain ⟨owner, objectKind⟩ := targets.owned
  have here := ownMember_eq_none
    (fun called => nomatch (congrArg ScopeKind.variant targets.kind).symm.trans called)
    targets.target_scope own
  have there : heap.ownMember outer name = (none, heap) := by
    have same : heap.ownMember outer name = heap.ownMember object name := by
      unfold ownMember
      rw [forked]
      exact congrArg (heap.storedMember · name) (forkedWithin_self targets.target_object _).symm
    rw [same]
    exact ownMember_eq_none
      (fun called => nomatch (congrArg ScopeKind.variant objectKind).symm.trans called)
      targets.target_object shared
  unfold lookup
  rw [chain, lookupAlong_cons, here, orElse_none, lookupAlong_cons, there, orElse_none]

theorem constructs (grounded : heap.Grounded scope) :
    heap.Constructs scope object enclosing where
  this := targets.this?_eq
  lands shown := ⟨targets.landing_eq shown, targets.createMember_eq shown⟩
  resolves := targets.lookup_eq grounded

end Targets

end Heap

variable {Code : Type}

/-- A constructor's scope over its object, of scopes that nothing is to release. -/
structure Machine.Targets (machine : Machine Code) (scope object enclosing : ScopeId)
    (function : FunctionId) : Prop where
  targets : machine.heap.Targets scope object enclosing function
  lasting : machine.Lasting scope
  objectLasting : machine.Lasting object
  outerLasting : ∀ {outer}, (machine.heap.scope scope).previous = some outer →
    machine.Lasting outer

namespace Machine

variable {machine : Machine Code} {object enclosing : ScopeId}

theorem Sane.targets_of_new (sane : machine.Sane) {outer : Scope} {index : Index}
    {function : FunctionId}
    (previous : outer.previous = some enclosing)
    (unpooled : outer.pooled = false)
    (passes : object = (machine.heap.newScope outer).1 ∧ (∃ owner, outer.kind = .object owner) ∨
      outer.kind = .fork object ∧ machine.Lasting object ∧
        ∃ owner, (machine.heap.scope object).kind = .object owner) :
    let between := machine.heap.newScope outer
    let made := between.2.newScope (.onHeap (some between.1) index (.constructor function))
    ({ machine with heap := made.2 } : Machine Code).Targets made.1 object enclosing function := by
  intro between made
  have outerNew : between.1.index = machine.heap.scopes.size := rfl
  have scopeNew : made.1.index = machine.heap.scopes.size + 1 := by
    simp [made, between, Heap.newScope]
  have size : made.2.scopes.size = machine.heap.scopes.size + 2 := by
    simp [made, between, Heap.newScope]
  have apart : between.1 ≠ made.1 := fun same => by
    rw [same] at outerNew
    omega
  have there : made.2.scope between.1 = outer := by
    rw [Heap.scope_newScope_ne apart]
    exact Heap.scope_newScope_self ..
  have here : made.2.scope made.1 = .onHeap (some between.1) index (.constructor function) :=
    Heap.scope_newScope_self ..
  have outerLasting : ({ machine with heap := made.2 } : Machine Code).Lasting between.1 :=
    sane.lasting_of_new (Nat.le_of_eq outerNew.symm) (by omega) (there ▸ unpooled)
  have scopeLasting : ({ machine with heap := made.2 } : Machine Code).Lasting made.1 :=
    sane.lasting_of_new (by omega) (by omega) (here ▸ rfl)
  have outers {id : ScopeId}
      (linked : (made.2.scope made.1).previous = some id) : id = between.1 := by
    rw [here] at linked
    exact (Option.some.inj linked).symm
  rcases passes with ⟨rfl, owner, kind⟩ | ⟨fork, lasting, owner, kind⟩
  · refine ⟨⟨here ▸ rfl, ⟨owner, there ▸ kind⟩, between.1, here ▸ rfl, there ▸ previous, .inl rfl⟩,
      scopeLasting, outerLasting, fun linked => outers linked ▸ outerLasting⟩
  · have evolves : machine.Evolves { machine with heap := made.2 } :=
      .of_heap fun _ => (Heap.newScope_evolves machine.heap outer).trans sane.sound
        (Heap.newScope_evolves between.2 _)
    have kept := evolves.scope lasting
    have objectKind : (made.2.scope object).kind = .object owner := by
      change (({ machine with heap := made.2 } : Machine Code).heap.scope object).kind = _
      rw [kept.kind_eq, kind]
      unfold Scope.variant
      rw [kind]
      exact fun same => by cases same
    have objectLasting := evolves.lasting lasting
    refine ⟨⟨here ▸ rfl, ⟨owner, objectKind⟩, between.1, here ▸ rfl, there ▸ previous, ?_⟩,
      scopeLasting, objectLasting, fun linked => outers linked ▸ outerLasting⟩
    exact .inr (there ▸ fork)

end Machine

theorem Machine.Targets.stay {before after : Machine Code} {scope object enclosing : ScopeId}
    {function : FunctionId} (targets : before.Targets scope object enclosing function)
    (keeps : ∀ {id}, before.Lasting id →
      after.Lasting id ∧ (before.heap.scope id).Evolves (after.heap.scope id)) :
    after.Targets scope object enclosing function := by
  obtain ⟨lasting, same⟩ := keeps targets.lasting
  obtain ⟨objectLasting, sameObject⟩ := keeps targets.objectLasting
  have kept {id : ScopeId} {kind : ScopeKind} (uncalled : kind.variant ≠ .function)
      (was : (before.heap.scope id).kind = kind)
      (evolves : (before.heap.scope id).Evolves (after.heap.scope id)) :
      (after.heap.scope id).kind = kind := by
    rw [evolves.kind_eq ?_, was]
    unfold Scope.variant
    rwa [was]
  refine ⟨⟨kept nofun targets.targets.kind same, ?_, ?_⟩, lasting, objectLasting, ?_⟩
  · obtain ⟨owner, kind⟩ := targets.targets.owned
    exact ⟨owner, kept nofun kind sameObject⟩
  · obtain ⟨outer, previous, next, passes⟩ := targets.targets.passes
    have sameOuter := (keeps (targets.outerLasting previous)).2
    refine ⟨outer, same.previous.trans previous, sameOuter.previous.trans next, ?_⟩
    exact passes.imp_right fun fork => kept nofun fork sameOuter
  · intro outer previous
    rw [same.previous] at previous
    exact (keeps (targets.outerLasting previous)).1

theorem Client.Leads.targets {before after : Client Code} (leads : Leads before after)
    (orderly : before.Orderly) {scope object enclosing : ScopeId} {function : FunctionId}
    (targets : before.machine.Targets scope object enclosing function) :
    after.machine.Targets scope object enclosing function :=
  targets.stay (Leads.lasting leads orderly)

theorem Machine.Targets.constructs {machine : Machine Code} {scope object enclosing : ScopeId}
    {function : FunctionId} (targets : machine.Targets scope object enclosing function)
    {known : List Handle} (guarded : machine.Guarded known) (listed : .scope scope ∈ known) :
    machine.heap.Constructs scope object enclosing := by
  have live := guarded.live_of_known listed
  exact targets.targets.constructs (guarded.grounded (live.there rfl) live.found)

end ScopeMachine
