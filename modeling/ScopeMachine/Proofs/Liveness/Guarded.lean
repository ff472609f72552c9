import ScopeMachine.Proofs.Liveness.Grounds
import ScopeMachine.Proofs.Storage.Laws

namespace ScopeMachine

namespace Arena

private theorem slots_contains_iff {arena : Arena} {id : CellId} :
    arena.slots.contains (some id) = true ↔ ∃ position, arena.peek position = some id := by
  rw [Array.contains_iff_mem, Array.mem_iff_getElem?]
  unfold peek
  simp [Option.join_eq_some_iff]

end Arena

namespace Machine

variable {Code : Type}

/-- Held by the machine itself: by a slot or a frame, or as a global scope. -/
def Pins (machine : Machine Code) : Handle → Prop
  | .cell id => ∃ position, machine.heap.memory.arena.peek position = some id
  | .scope id =>
      id = machine.global ∨ id = machine.sharedGlobal ∨
        ∃ frame ∈ machine.frames.toList, frame.holds id = true
  | _ => False

theorem isRoot_iff {machine : Machine Code} {known : List Handle} {handle : Handle} :
    machine.isRoot known handle = true ↔
      handle ∈ known ∨ handle ∈ machine.host.handles ∨ machine.Pins handle := by
  unfold isRoot
  simp only [Bool.or_eq_true, List.contains_iff_mem, or_assoc]
  cases handle with
  | cell id => simp only [Pins, ← Arena.slots_contains_iff]
  | scope id => simp [Pins, or_assoc]
  | _ => simp [Pins]

/-- Nothing that the machine, its host or the code around it keeps leads to the thing. -/
abbrev Lost (machine : Machine Code) (known : List Handle) (handle : Handle) : Prop :=
  machine.heap.Lost (machine.isRoot known) handle

section Lost

variable {machine machine' : Machine Code} {known known' : List Handle} {handle : Handle}

theorem lost_of_grows {live : Handle → Prop}
    (found : ∀ {handle}, live handle → ¬ machine.Lost known handle)
    (grows : machine.heap.Grows live machine'.heap)
    (roots : ∀ {handle}, machine'.isRoot known' handle = true →
      machine.isRoot known handle = true ∨ live handle)
    (gone : machine.Lost known handle) : machine'.Lost known' handle := by
  refine gone.mono grows.has (fun {handle} gone => ?_) fun {holder target} gone holds => ?_
  · cases root : machine'.isRoot known' handle with
    | false => rfl
    | true =>
        rcases roots root with earlier | alive
        · exact nomatch earlier.symm.trans gone.rootless
        · exact (found alive gone).elim
  · exact (grows.holds holds).resolve_right fun alive => found alive gone

theorem holds_of_recycle {id : ScopeId} {holder target : Handle}
    (holds : (machine.recycle id).heap.Holds holder target) : machine.heap.Holds holder target := by
  cases holder with
  | scope other =>
      rw [Heap.holds_scope] at holds ⊢
      rcases Heap.scope_modifyScope_or machine.heap id other fun scope => .vacant scope.index with
        same | ⟨-, vacated⟩
      · rwa [show (machine.recycle id).heap.scope other = _ from same] at holds
      · rw [show (machine.recycle id).heap.scope other = _ from vacated] at holds
        simp [Scope.holds, Scope.vacant, Scope.onHeap, Table.empty, Table.heapCells,
          ScopeKind.holds] at holds
  | _ => exact holds

theorem lost_recycle {id : ScopeId} (gone : machine.Lost known handle) :
    (machine.recycle id).Lost known handle := by
  refine gone.mono (fun {handle} present => ?_) (fun gone => gone.rootless) fun _ =>
    holds_of_recycle
  cases handle with
  | scope other => exact Nat.lt_of_lt_of_eq present (Heap.size_modifyScope ..).symm
  | _ => exact present

end Lost

/-- Within reach: not lost, and there if it is a scope. -/
structure Live (machine : Machine Code) (known : List Handle) (handle : Handle) : Prop where
  found : ¬ machine.Lost known handle
  there : ∀ {id}, handle = .scope id → id.index < machine.heap.scopes.size

/-- No scope waits twice in the pool, those that wait are lost, and all others that are not lost
have ways onward that end. Only scopes that exist are held by anything. -/
structure Guarded (known : List Handle) (machine : Machine Code) : Prop where
  pool_nodup : machine.pool.Nodup
  pool_lost : ∀ id ∈ machine.pool, machine.Lost known (.scope id)
  root_there : ∀ {id}, machine.isRoot known (.scope id) = true → id.index < machine.heap.scopes.size
  held_there : ∀ {holder id}, machine.heap.Holds holder (.scope id) →
    id.index < machine.heap.scopes.size
  grounded : ∀ {id}, id.index < machine.heap.scopes.size → ¬ machine.Lost known (.scope id) →
    machine.heap.Grounded id

namespace Guarded

variable {known known' : List Handle} {machine machine' : Machine Code}

theorem live_of_root (guarded : machine.Guarded known) {handle : Handle}
    (root : machine.isRoot known handle = true) : machine.Live known handle := by
  refine ⟨fun lost => (nomatch root.symm.trans lost.rootless), ?_⟩
  rintro id rfl
  exact guarded.root_there root

theorem live_of_known (guarded : machine.Guarded known) {handle : Handle}
    (listed : handle ∈ known) : machine.Live known handle :=
  guarded.live_of_root (isRoot_iff.mpr (.inl listed))

theorem serves (guarded : machine.Guarded known) :
    machine.heap.Serves (machine.Live known) where
  fresh absent other := ⟨fun lost => absent lost.allocated, fun {id} same => (other id same).elim⟩
  named {position id} named :=
    guarded.live_of_root (isRoot_iff.mpr (.inr (.inr ⟨position, named⟩)))
  closed {holder target} live holds := by
    refine ⟨fun lost => live.found (lost.holder holds), ?_⟩
    rintro id rfl
    exact guarded.held_there holds

theorem not_pooled (guarded : machine.Guarded known) {id : ScopeId}
    (live : machine.Live known (.scope id)) : id ∉ machine.pool :=
  fun pooled => live.found (guarded.pool_lost id pooled)

theorem holds_of_links {heap : Heap Code} {id next : ScopeId} (linked : heap.Links id next) :
    heap.Holds (.scope id) (.scope next) := by
  rw [Heap.holds_scope, Scope.holds]
  rcases linked with previous | fork
  · simp [previous, Handle.isScope]
  · have holds : (heap.scope id).kind.holds (.scope next) = true := by
      generalize (heap.scope id).kind = kind at fork
      cases kind with
      | fork target =>
          cases fork
          simp [ScopeKind.holds, Handle.isScope]
      | _ => cases fork
    simp [holds]

theorem not_lost_of_links {id next : ScopeId} (linked : machine.heap.Links id next)
    (found : ¬ machine.Lost known (.scope id)) : ¬ machine.Lost known (.scope next) :=
  fun lost => found (lost.holder (holds_of_links linked))

theorem grow (guarded : machine.Guarded known) (live : Handle → Prop)
    (found : ∀ {handle}, live handle → ¬ machine.Lost known handle)
    (there : ∀ {id}, live (.scope id) → id.index < machine'.heap.scopes.size)
    (grows : machine.heap.Grows live machine'.heap)
    (roots : ∀ {handle}, machine'.isRoot known' handle = true →
      machine.isRoot known handle = true ∨ live handle)
    (pool : machine'.pool = machine.pool)
    (fresh : ∀ {id}, machine.heap.scopes.size ≤ id.index →
      id.index < machine'.heap.scopes.size → machine'.heap.Grounded id) :
    machine'.Guarded known' := by
  have size : machine.heap.scopes.size ≤ machine'.heap.scopes.size := by
    refine Nat.le_of_not_lt fun less => ?_
    exact Nat.lt_irrefl _ (grows.has (show machine.heap.Has (.scope ⟨_⟩) from less))
  have lost {handle : Handle} (gone : machine.Lost known handle) : machine'.Lost known' handle :=
    lost_of_grows found grows roots gone
  refine ⟨pool ▸ guarded.pool_nodup, ?_, ?_, ?_, ?_⟩
  · intro id pooled
    exact lost (guarded.pool_lost id (pool ▸ pooled))
  · intro id root
    rcases roots root with earlier | alive
    · exact Nat.lt_of_lt_of_le (guarded.root_there earlier) size
    · exact there alive
  · intro holder id holds
    rcases grows.holds holds with earlier | alive
    · exact Nat.lt_of_lt_of_le (guarded.held_there earlier) size
    · exact there alive
  · intro id present unlost
    by_cases old : id.index < machine.heap.scopes.size
    · have unlost : ¬ machine.Lost known (.scope id) := fun gone => unlost (lost gone)
      refine (guarded.grounded old unlost).carry (fun id => ¬ machine.Lost known (.scope id))
        (fun _ old => ⟨Nat.lt_of_lt_of_le old size, grows.links old⟩)
        (fun met linked => not_lost_of_links linked met) unlost
    · exact fresh (Nat.le_of_not_lt old) present

/-- Letting go of roots. -/
theorem shrink (guarded : machine.Guarded known) (heap : machine'.heap = machine.heap)
    (pool : machine'.pool = machine.pool)
    (roots : ∀ {handle}, machine'.isRoot known' handle = true →
      machine.isRoot known handle = true) : machine'.Guarded known' := by
  refine guarded.grow (fun _ => False) False.elim False.elim (heap ▸ .refl _)
    (fun root => .inl (roots root)) pool fun {id} new present => ?_
  rw [heap] at present
  exact (Nat.not_lt_of_le new present).elim

theorem forget (guarded : machine.Guarded known) (fewer : ∀ handle ∈ known', handle ∈ known) :
    machine.Guarded known' := by
  refine guarded.shrink rfl rfl fun {handle} root => isRoot_iff.mpr ?_
  rcases isRoot_iff.mp root with listed | kept
  · exact .inl (fewer handle listed)
  · exact .inr kept

/-- Work on the heap with what is within reach. -/
theorem work (guarded : machine.Guarded known) {heap : Heap Code} {gained : List Handle}
    (grows : machine.heap.Grows (machine.Live known) heap)
    (size : heap.scopes.size = machine.heap.scopes.size)
    (gains : ∀ handle ∈ gained, machine.Live known handle) :
    ({ machine with heap } : Machine Code).Guarded (gained ++ known) := by
  refine guarded.grow (machine.Live known) Live.found (fun live => size ▸ live.there rfl)
    grows ?_ rfl
    fun {id} new present => (Nat.not_lt_of_le new (size ▸ present)).elim
  intro handle root
  rcases isRoot_iff.mp root with listed | kept
  · rcases List.mem_append.mp listed with gain | old
    · exact .inr (gains handle gain)
    · exact .inl (isRoot_iff.mpr (.inl old))
  · rcases kept with host | pinned
    · exact .inl (isRoot_iff.mpr (.inr (.inl host)))
    · cases handle with
      | cell id =>
          obtain ⟨position, named⟩ := pinned
          rcases grows.named named with ⟨origin, earlier⟩ | live
          · exact .inl (isRoot_iff.mpr (.inr (.inr ⟨origin, earlier⟩)))
          · exact .inr live
      | scope id => exact .inl (isRoot_iff.mpr (.inr (.inr pinned)))
      | _ => exact pinned.elim

theorem learn (guarded : machine.Guarded known) {gained : List Handle}
    (gains : ∀ handle ∈ gained, machine.Live known handle) : machine.Guarded (gained ++ known) :=
  guarded.work (.refl _) rfl gains

theorem workMemory (guarded : machine.Guarded known) {memory : Memory} {gained : List Handle}
    (grows : machine.heap.memory.Grows (machine.Live known) memory)
    (gains : ∀ handle ∈ gained, machine.Live known handle) :
    ({ machine with heap := { machine.heap with memory } } : Machine Code).Guarded
      (gained ++ known) :=
  guarded.work (.of_memory _ grows) rfl gains

theorem onMemory (guarded : machine.Guarded known) {memory : Memory}
    (grows : machine.heap.memory.Grows (machine.Live known) memory) :
    ({ machine with heap := { machine.heap with memory } } : Machine Code).Guarded known := by
  have worked : ({ machine with heap := { machine.heap with memory } } : Machine Code).Guarded
      ([] ++ known) := guarded.workMemory grows (List.forall_mem_nil _)
  exact worked

/-- A new scope over scopes within reach. -/
theorem newScope (guarded : machine.Guarded known) {scope : Scope}
    (kept : scope.Kept (machine.Live known))
    (outermost : scope.previous = none → scope.variant = .global) :
    ({ machine with heap := (machine.heap.newScope scope).2 } : Machine Code).Guarded
      (.scope (machine.heap.newScope scope).1 :: known) := by
  have size : (machine.heap.newScope scope).2.scopes.size = machine.heap.scopes.size + 1 := by
    simp [Heap.newScope]
  have grows : machine.heap.Grows
      (fun handle => machine.Live known handle ∨ handle = .scope (machine.heap.newScope scope).1)
      (machine.heap.newScope scope).2 :=
    Heap.newScope_grows fun target holds => .inl (kept target holds)
  refine guarded.grow _ ?_ ?_ grows ?_ rfl ?_
  · rintro handle (live | rfl)
    · exact live.found
    · exact fun lost => Nat.lt_irrefl _ lost.allocated
  · rintro id (live | same)
    · exact size ▸ Nat.lt_succ_of_lt (live.there rfl)
    · cases same
      exact size ▸ Nat.lt_succ_self _
  · intro handle root
    rcases isRoot_iff.mp root with listed | kept
    · rcases List.mem_cons.mp listed with same | old
      · exact .inr (.inr same)
      · exact .inl (isRoot_iff.mpr (.inl old))
    · exact .inl (isRoot_iff.mpr (.inr kept))
  · intro id new present
    have same : id = (machine.heap.newScope scope).1 := by
      obtain ⟨index⟩ := id
      have present : index < machine.heap.scopes.size + 1 := size ▸ present
      exact congrArg ScopeId.mk (Nat.le_antisymm (Nat.le_of_lt_succ present) new)
    subst same
    have linked (next : ScopeId) (link : (machine.heap.newScope scope).2.Links
        (machine.heap.newScope scope).1 next) : machine.Live known (.scope next) := by
      have holds := holds_of_links link
      rw [Heap.holds_scope, Heap.scope_newScope_self] at holds
      exact kept _ holds
    refine .intro present (fun last => ?_) fun {next} link => ?_
    · rw [Heap.scope_newScope_self] at last ⊢
      exact outermost last
    · have live := linked next link
      refine (guarded.grounded (live.there rfl) live.found).carry
        (fun id => ¬ machine.Lost known (.scope id))
        (fun _ old => ⟨size ▸ Nat.lt_succ_of_lt old, grows.links old⟩)
        (fun met linked => not_lost_of_links linked met) live.found

theorem recycle (guarded : machine.Guarded known) {id : ScopeId} (idle : id ∉ machine.pool)
    (lost : machine.Lost known (.scope id)) : (machine.recycle id).Guarded known := by
  have others {other : ScopeId} (apart : other ≠ id) :
      (machine.recycle id).heap.scope other = machine.heap.scope other :=
    Heap.scope_modifyScope_ne apart ..
  have size : (machine.recycle id).heap.scopes.size = machine.heap.scopes.size :=
    Heap.size_modifyScope ..
  refine ⟨List.nodup_cons.mpr ⟨idle, guarded.pool_nodup⟩, ?_, ?_, ?_, ?_⟩
  · intro other pooled
    rcases List.mem_cons.mp pooled with rfl | pooled
    · exact lost_recycle lost
    · exact lost_recycle (guarded.pool_lost other pooled)
  · exact fun root => size ▸ guarded.root_there root
  · exact fun held => size ▸ guarded.held_there (holds_of_recycle held)
  · intro other present unlost
    have unlost : ¬ machine.Lost known (.scope other) := fun gone => unlost (lost_recycle gone)
    refine (guarded.grounded (size ▸ present) unlost).carry
      (fun id => ¬ machine.Lost known (.scope id)) (fun {other} met old => ?_)
      (fun met linked => not_lost_of_links linked met) unlost
    have apart : other ≠ id := fun same => met (same ▸ lost)
    exact ⟨size ▸ old, others apart ▸ .refl _⟩

section Reuse

variable {id : ScopeId} {rest : List ScopeId} {scope : Scope}

private theorem holds_of_setScope (present : id.index < machine.heap.scopes.size)
    (kept : scope.Kept (machine.Live known)) {holder target : Handle}
    (holds : (machine.heap.setScope id scope).Holds holder target) :
    (holder ≠ .scope id ∧ machine.heap.Holds holder target) ∨ machine.Live known target := by
  cases holder with
  | scope other =>
      rw [Heap.holds_scope] at holds
      by_cases same : other = id
      · subst same
        rw [show (machine.heap.setScope other scope).scope other = scope from
          Heap.scope_modifyScope_self present _] at holds
        exact .inr (kept target holds)
      · rw [show (machine.heap.setScope id scope).scope other = machine.heap.scope other from
          Heap.scope_modifyScope_ne same ..] at holds
        exact .inl ⟨fun equal => same (Handle.scope.inj equal), holds⟩
  | _ => exact .inl ⟨nofun, holds⟩

private theorem isRoot_of_reuse {handle : Handle}
    (root : ({ machine with
      heap := machine.heap.setScope id scope, pool := rest } : Machine Code).isRoot
        (.scope id :: known) handle = true) :
    handle = .scope id ∨ machine.isRoot known handle = true := by
  rcases isRoot_iff.mp root with listed | kept
  · exact (List.mem_cons.mp listed).imp_right fun old => isRoot_iff.mpr (.inl old)
  · exact .inr (isRoot_iff.mpr (.inr kept))

private theorem lost_reuse (present : id.index < machine.heap.scopes.size)
    (kept : scope.Kept (machine.Live known)) {handle : Handle} (gone : machine.Lost known handle)
    (apart : handle ≠ .scope id) :
    ({ machine with
      heap := machine.heap.setScope id scope, pool := rest } : Machine Code).Lost
        (.scope id :: known) handle := by
  induction gone with
  | @intro handle allocated rootless holders induction =>
      have gone : machine.Lost known handle := .intro allocated rootless holders
      refine .intro ?_ ?_ fun holder held => ?_
      · cases handle with
        | scope other => exact Nat.lt_of_lt_of_eq allocated (Heap.size_modifyScope ..).symm
        | _ => exact allocated
      · refine Bool.eq_false_iff.mpr fun root => ?_
        rcases isRoot_of_reuse root with same | earlier
        · exact apart same
        · exact nomatch earlier.symm.trans rootless
      · rcases holds_of_setScope present kept held with ⟨other, earlier⟩ | live
        · exact induction holder earlier other
        · exact (live.found gone).elim

/-- A pooled scope, which is lost, filled anew over scopes within reach. -/
theorem reuse (guarded : machine.Guarded known) (pool : machine.pool = id :: rest)
    (kept : scope.Kept (machine.Live known))
    (outermost : scope.previous = none → scope.variant = .global) :
    ({ machine with heap := machine.heap.setScope id scope, pool := rest } : Machine Code).Guarded
      (.scope id :: known) := by
  have lost : machine.Lost known (.scope id) := guarded.pool_lost id (pool ▸ List.mem_cons_self)
  obtain ⟨idle, nodup⟩ := List.nodup_cons.mp (pool ▸ guarded.pool_nodup)
  have here : (machine.heap.setScope id scope).scope id = scope :=
    Heap.scope_modifyScope_self lost.allocated _
  have size : (machine.heap.setScope id scope).scopes.size = machine.heap.scopes.size :=
    Heap.size_modifyScope ..
  have carry {next : ScopeId} (grounded : machine.heap.Grounded next)
      (found : ¬ machine.Lost known (.scope next)) :
      (machine.heap.setScope id scope).Grounded next := by
    refine grounded.carry (fun id => ¬ machine.Lost known (.scope id))
      (fun {other} met old => ?_) (fun met linked => not_lost_of_links linked met) found
    have apart : other ≠ id := fun same => met (same ▸ lost)
    have same : (machine.heap.setScope id scope).scope other = machine.heap.scope other :=
      Heap.scope_modifyScope_ne apart ..
    exact ⟨size ▸ old, same ▸ .refl _⟩
  refine ⟨nodup, fun other pooled => ?_, fun {other} root => ?_, fun {holder other} held => ?_,
    fun {other} present unlost => ?_⟩
  · refine lost_reuse lost.allocated kept
      (guarded.pool_lost other (pool ▸ List.mem_cons_of_mem _ pooled)) fun same => ?_
    cases same
    exact idle pooled
  · rcases isRoot_of_reuse root with same | earlier
    · cases same
      exact size ▸ lost.allocated
    · exact size ▸ guarded.root_there earlier
  · rcases holds_of_setScope lost.allocated kept held with ⟨-, earlier⟩ | live
    · exact size ▸ guarded.held_there earlier
    · exact size ▸ live.there rfl
  · by_cases same : other = id
    · subst same
      refine .intro present (fun last => ?_) fun {next} link => ?_
      · rw [show ({ machine with
          heap := machine.heap.setScope other scope, pool := rest } :
            Machine Code).heap.scope other = scope from here] at last ⊢
        exact outermost last
      · have held := holds_of_links link
        rw [Heap.holds_scope, here] at held
        have live := kept _ held
        exact carry (guarded.grounded (live.there rfl) live.found) live.found
    · have unlost : ¬ machine.Lost known (.scope other) := fun gone =>
        unlost (lost_reuse lost.allocated kept gone fun equal => same (Handle.scope.inj equal))
      exact carry (guarded.grounded (size ▸ present) unlost) unlost

end Reuse

theorem promote (guarded : machine.Guarded known) {id : ScopeId}
    (live : machine.Live known (.scope id)) : (machine.promote id).Guarded known := by
  have size : (machine.heap.detach id).scopes.size = machine.heap.scopes.size := by
    unfold Heap.detach
    dsimp only
    split <;> exact Heap.size_modifyScope ..
  have promoted : (machine.promote id).Guarded ([] ++ known) :=
    guarded.work (Heap.detach_grows guarded.serves live) size (List.forall_mem_nil _)
  exact promoted

end Guarded

end Machine

end ScopeMachine
