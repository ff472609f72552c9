import ScopeMachine.Proofs.Liveness.Heaps

namespace ScopeMachine.Heap

open Relation

variable {Code : Type} {heap : Heap Code}

/-- One scope leads on to another: outward, or from a fork to its object. -/
def Links (heap : Heap Code) (id next : ScopeId) : Prop :=
  (heap.scope id).previous = some next ∨ (heap.scope id).kind.target? = some next

/-- Every way onward from the scope ends, and every chain of scopes in a global one. -/
inductive Grounded (heap : Heap Code) : ScopeId → Prop where
  | intro {id : ScopeId} (old : id.index < heap.scopes.size)
      (outermost : (heap.scope id).previous = none → (heap.scope id).variant = .global)
      (onward : ∀ {next : ScopeId}, heap.Links id next → Grounded heap next) : Grounded heap id

namespace Grounded

variable {id : ScopeId}

theorem old (grounded : heap.Grounded id) : id.index < heap.scopes.size := by
  cases grounded with
  | intro old => exact old

private theorem outermost (grounded : heap.Grounded id) (last : (heap.scope id).previous = none) :
    (heap.scope id).variant = .global := by
  cases grounded with
  | intro _ outermost => exact outermost last

theorem onward (grounded : heap.Grounded id) {next : ScopeId} (linked : heap.Links id next) :
    heap.Grounded next := by
  cases grounded with
  | intro _ _ onward => exact onward linked

/-- No way leads back. -/
theorem acyclic (grounded : heap.Grounded id) : ¬ TransGen heap.Links id id := by
  induction grounded with
  | intro _ _ _ induction =>
      intro circle
      obtain ⟨next, linked, reached⟩ := TransGen.head'_iff.mp circle
      exact induction linked (.tail' reached linked)

/-- Only the links of the scopes that are met on the way matter. -/
theorem carry {heap' : Heap Code} (met : ScopeId → Prop)
    (same : ∀ {id}, met id → id.index < heap.scopes.size → id.index < heap'.scopes.size ∧
      (heap.scope id).Linked (heap'.scope id))
    (onward : ∀ {id next}, met id → heap.Links id next → met next)
    (grounded : heap.Grounded id) (here : met id) : heap'.Grounded id := by
  induction grounded with
  | @intro id old outermost _ induction =>
      obtain ⟨new, linked⟩ := same here old
      refine .intro new (fun last => ?_) fun {next} link => ?_
      · rw [linked.variant]
        exact outermost (linked.previous ▸ last)
      · have link : heap.Links id next := by
          unfold Links at link ⊢
          rwa [← linked.previous, ← linked.target]
        exact induction link (onward here link)

end Grounded

theorem length_le_scopes {ids : List ScopeId} (nodup : ids.Nodup)
    (old : ∀ id ∈ ids, id.index < heap.scopes.size) : ids.length ≤ heap.scopes.size := by
  have listed : ids ⊆ (List.range heap.scopes.size).map ScopeId.mk := fun id member =>
    List.mem_map.mpr ⟨id.index, List.mem_range.mpr (old id member), rfl⟩
  simpa using (nodup.subperm listed).length_le

private theorem Grounded.budgeted {id : ScopeId} (grounded : heap.Grounded id)
    (buys : Nat → ScopeId → Prop)
    (step : ∀ budget id, (∀ next, heap.Links id next → buys budget next) → buys (budget + 1) id)
    {budget : Nat} {path : List ScopeId} (met : ∀ other ∈ path, TransGen heap.Links other id)
    (nodup : path.Nodup) (old : ∀ other ∈ path, other.index < heap.scopes.size)
    (enough : heap.scopes.size ≤ budget + path.length) : buys budget id := by
  induction grounded generalizing budget path with
  | @intro id present outermost onward induction =>
      have grounded : heap.Grounded id := .intro present outermost onward
      have apart : id ∉ path := fun listed => grounded.acyclic (met id listed)
      have nodup' : (id :: path).Nodup := List.nodup_cons.mpr ⟨apart, nodup⟩
      have old' : ∀ other ∈ id :: path, other.index < heap.scopes.size :=
        List.forall_mem_cons.mpr ⟨present, old⟩
      cases budget with
      | zero =>
          have short := length_le_scopes nodup' old'
          rw [List.length_cons] at short
          omega
      | succ budget =>
          refine step budget id fun next linked => induction linked ?_ nodup' old' ?_
          · intro other member
            rcases List.mem_cons.mp member with rfl | member
            · exact .single linked
            · exact .tail (met other member) linked
          · rw [List.length_cons]
            omega

def thisStep (id : ScopeId) (scope : Scope) : Step Value :=
  match scope.kind with
  | .function { receiver := some receiver, .. } => .stop (some receiver)
  | .object _ => .stop (some (.object id))
  | .fork object => .stop (some (.object object))
  | .global => .stop none
  | _ => .outward

def superStep (heap : Heap Code) (_ : ScopeId) (scope : Scope) : Step Value :=
  match scope.kind with
  | .function invocation =>
      match (heap.function? invocation.function).bind (·.overridden) with
      | some overridden => .stop (some overridden)
      | none => .outward
  | .constructor function | .object (some function) =>
      .stop ((heap.function? function).map (·.parent))
  | .fork object => .jump object
  | .global | .object none => .stop none
  | .basic => .outward

def calleeStep (_ : ScopeId) (scope : Scope) : Step Value :=
  match scope.kind with
  | .function invocation => .stop (some (.function invocation.function))
  | .constructor function => .stop (some (.function function))
  | .basic => .outward
  | _ => .stop none

theorem this?_eq_walk (id : ScopeId) : heap.this? id = heap.walk thisStep id := rfl

theorem super?_eq_walk (id : ScopeId) : heap.super? id = heap.walk heap.superStep id := rfl

theorem callee?_eq_walk (id : ScopeId) : heap.callee? id = heap.walk calleeStep id := rfl

/-- The chain of a scope and its walks: the chain ends in a global scope and comes back to none of
its scopes, and whatever more budget a walk had, it would end where it ends. -/
structure Anchored (heap : Heap Code) (id : ScopeId) : Prop where
  nodup : (heap.chain id).Nodup
  ends : ∃ last, (heap.chain id).getLast? = some last ∧
    (heap.scope last).previous = none ∧ (heap.scope last).variant = .global
  chain : ∀ budget, heap.scopes.size ≤ budget → heap.chainWithin budget id = heap.chain id
  forked : ∀ budget, heap.scopes.size ≤ budget → heap.forkedWithin budget id = heap.forked id
  this? : ∀ budget, heap.scopes.size ≤ budget →
    heap.walkWithin thisStep budget id = heap.this? id
  super? : ∀ budget, heap.scopes.size ≤ budget →
    heap.walkWithin heap.superStep budget id = heap.super? id
  callee? : ∀ budget, heap.scopes.size ≤ budget →
    heap.walkWithin calleeStep budget id = heap.callee? id

theorem chainWithin_leads {budget : Nat} {id other : ScopeId}
    (listed : other ∈ heap.chainWithin budget id) : ReflTransGen heap.Links id other := by
  induction budget generalizing id with
  | zero => cases listed
  | succ budget induction =>
      unfold chainWithin at listed
      rcases List.mem_cons.mp listed with rfl | listed
      · exact .refl
      · cases linked : (heap.scope id).previous with
        | none =>
            rw [linked] at listed
            cases listed
        | some next =>
            rw [linked] at listed
            exact .head (.inl linked) (induction listed)

section

variable {id : ScopeId} (grounded : heap.Grounded id)

include grounded

/-- A bound on walks that one more step of budget keeps is met by any budget that suffices. -/
theorem Grounded.settles {α : Type} {run : Nat → ScopeId → α}
    (step : ∀ budget extra id,
      (∀ next, heap.Links id next → run (budget + extra) next = run budget next) →
      run (budget + 1 + extra) id = run (budget + 1) id)
    {budget : Nat} (enough : heap.scopes.size ≤ budget) :
    run budget id = run heap.scopes.size id := by
  obtain ⟨extra, rfl⟩ := Nat.exists_eq_add_of_le enough
  exact grounded.budgeted (fun budget id => run (budget + extra) id = run budget id)
    (fun budget id later => step budget extra id later) (List.forall_mem_nil _) .nil
    (List.forall_mem_nil _) (Nat.le_refl _)

private theorem Grounded.chain_nodup (budget : Nat) : (heap.chainWithin budget id).Nodup := by
  induction budget generalizing id with
  | zero => exact .nil
  | succ budget induction =>
      unfold chainWithin
      cases linked : (heap.scope id).previous with
      | none => exact List.nodup_singleton id
      | some next =>
          refine List.nodup_cons.mpr ⟨fun listed => ?_, induction (grounded.onward (.inl linked))⟩
          exact grounded.acyclic (.head' (.inl linked) (chainWithin_leads listed))

private theorem Grounded.chain_ends : ∃ last, (heap.chain id).getLast? = some last ∧
    (heap.scope last).previous = none ∧ (heap.scope last).variant = .global := by
  have ends := grounded.budgeted
    (fun budget id => heap.Grounded id → ∃ last,
      (heap.chainWithin budget id).getLast? = some last ∧ (heap.scope last).previous = none ∧
        (heap.scope last).variant = .global)
    (fun budget id later grounded => by
      unfold chainWithin
      cases linked : (heap.scope id).previous with
      | none => exact ⟨id, rfl, linked, grounded.outermost linked⟩
      | some next =>
          obtain ⟨last, found, outermost⟩ := later next (.inl linked)
            (grounded.onward (.inl linked))
          refine ⟨last, ?_, outermost⟩
          rw [List.getLast?_cons, found]
          rfl)
    (List.forall_mem_nil _) .nil (List.forall_mem_nil _) (Nat.le_refl _)
  exact ends grounded

theorem Grounded.walk {α : Type} {step : ScopeId → Scope → Step α}
    (jumps : ∀ {id next} {scope : Scope}, step id scope = .jump next →
      scope.kind.target? = some next)
    {budget : Nat} (enough : heap.scopes.size ≤ budget) :
    heap.walkWithin step budget id = heap.walk step id := by
  refine grounded.settles (fun budget extra id later => ?_) enough
  rw [Nat.add_right_comm]
  unfold walkWithin
  dsimp only
  split
  next => rfl
  next next jumped => exact later next (.inr (jumps jumped))
  next =>
    split
    next => rfl
    next next linked => exact later next (.inl linked)

theorem Grounded.anchored : heap.Anchored id where
  nodup := grounded.chain_nodup _
  ends := grounded.chain_ends
  chain budget enough := by
    refine grounded.settles (fun budget extra id later => ?_) enough
    rw [Nat.add_right_comm]
    unfold chainWithin
    cases linked : (heap.scope id).previous with
    | none => rfl
    | some next => exact congrArg (id :: ·) (later next (.inl linked))
  forked budget enough := by
    refine grounded.settles (fun budget extra id later => ?_) enough
    rw [Nat.add_right_comm]
    unfold forkedWithin
    split
    next object fork => exact later object (.inr (by rw [fork]; rfl))
    next => rfl
  this? budget enough := by
    rw [this?_eq_walk]
    refine grounded.walk (fun {id next scope} jumped => ?_) enough
    unfold thisStep at jumped
    split at jumped <;> cases jumped
  super? budget enough := by
    rw [super?_eq_walk]
    refine grounded.walk (fun {id next scope} jumped => ?_) enough
    unfold superStep at jumped
    split at jumped
    next =>
      split at jumped <;> cases jumped
    next => cases jumped
    next => cases jumped
    next object fork =>
      cases jumped
      rw [fork]
      rfl
    next => cases jumped
    next => cases jumped
    next => cases jumped
  callee? budget enough := by
    rw [callee?_eq_walk]
    refine grounded.walk (fun {id next scope} jumped => ?_) enough
    unfold calleeStep at jumped
    split at jumped <;> cases jumped

end

end ScopeMachine.Heap
