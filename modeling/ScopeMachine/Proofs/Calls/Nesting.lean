import ScopeMachine.Proofs.Construction.Targets
import ScopeMachine.Proofs.Storage.Naming

namespace ScopeMachine.Heap

variable {Code : Type} {heap : Heap Code} {scope inner : ScopeId} {path : List ScopeId}
  {name : String}

/-- The visible cell that a scope has declared under a name. -/
def declared? (heap : Heap Code) (id : ScopeId) (name : String) : Option CellId :=
  (heap.named? id name).filter fun cell => (heap.cell cell).isVisible

/-- Except in the scope of a call, looking for a member finds a declared cell and changes nothing.
-/
theorem ownMember_eq (uncalled : (heap.scope scope).variant ≠ .function)
    (target : (heap.scope scope).kind.target? = none) (name : String) :
    heap.ownMember scope name = (heap.declared? scope name, heap) := by
  unfold ownMember forked
  rw [forkedWithin_self target]
  exact storedMember_eq uncalled name

theorem ownMember_of_basic (kind : (heap.scope scope).kind = .basic) (name : String) :
    heap.ownMember scope name = (heap.declared? scope name, heap) :=
  ownMember_eq (by rw [Scope.variant, kind]; decide) (by rw [kind]; rfl) name

/-- The blocks from one scope outward to another, which is none of them. -/
inductive Nested (heap : Heap Code) (scope : ScopeId) : ScopeId → List ScopeId → Prop where
  | here : Nested heap scope scope []
  | block {inner outer : ScopeId} {path : List ScopeId}
      (kind : (heap.scope inner).kind = .basic)
      (previous : (heap.scope inner).previous = some outer)
      (outward : Nested heap scope outer path) : Nested heap scope inner (inner :: path)

namespace Nested

private theorem of_mem (nested : heap.Nested scope inner path) {id : ScopeId} (listed : id ∈ path) :
    (heap.scope id).kind = .basic ∧ id.index < heap.scopes.size ∧
      ∃ rest, heap.Nested scope id (id :: rest) ∧ rest.length < path.length := by
  induction nested with
  | here => cases listed
  | @block inner outer path kind previous outward induction =>
      rcases List.mem_cons.mp listed with rfl | listed
      · refine ⟨kind, Nat.lt_of_not_le fun absent => ?_, _, .block kind previous outward,
          Nat.lt_succ_self _⟩
        rw [scope_of_size_le absent] at previous
        cases previous
      · obtain ⟨kind, old, rest, onward, shorter⟩ := induction listed
        exact ⟨kind, old, rest, onward, Nat.lt_succ_of_lt shorter⟩

private theorem chainWithin_eq (nested : heap.Nested scope inner path) (budget : Nat) :
    heap.chainWithin (path.length + budget) inner = path ++ heap.chainWithin budget scope := by
  induction nested with
  | here => rw [List.length_nil, Nat.zero_add, List.nil_append]
  | block kind previous outward induction =>
      rw [List.length_cons, Nat.succ_add, chainWithin, previous]
      exact congrArg (_ :: ·) induction

private theorem walkWithin_eq {α : Type} (nested : heap.Nested scope inner path)
    {step : ScopeId → Scope → Step α}
    (passes : ∀ id scope, scope.kind = .basic → step id scope = .outward) (budget : Nat) :
    heap.walkWithin step (path.length + budget) inner = heap.walkWithin step budget scope := by
  induction nested with
  | here => rw [List.length_nil, Nat.zero_add]
  | @block inner outer path kind previous outward induction =>
      rw [List.length_cons, Nat.succ_add, walkWithin]
      simp only [passes _ _ kind, previous]
      exact induction

section

variable (unlike : (heap.scope scope).kind ≠ .basic)

include unlike

private theorem unique (nested : heap.Nested scope inner path) {other : List ScopeId}
    (again : heap.Nested scope inner other) : path = other := by
  induction nested generalizing other with
  | here =>
      cases again with
      | here => rfl
      | block kind => exact (unlike kind).elim
  | block kind previous outward induction =>
      cases again with
      | here => exact (unlike kind).elim
      | block kind' previous' outward' =>
          cases previous.symm.trans previous'
          exact congrArg _ (induction outward')

private theorem nodup (nested : heap.Nested scope inner path) : path.Nodup := by
  induction nested with
  | here => exact .nil
  | block kind previous outward induction =>
      refine List.nodup_cons.mpr ⟨fun listed => ?_, induction⟩
      obtain ⟨-, -, rest, again, shorter⟩ := outward.of_mem listed
      cases unique unlike (.block kind previous outward) again
      exact Nat.lt_irrefl _ shorter

private theorem length_lt (nested : heap.Nested scope inner path) :
    path.length < heap.scopes.size := by
  have old : scope.index < heap.scopes.size := by
    refine Nat.lt_of_not_le fun absent => unlike ?_
    rw [scope_of_size_le absent]
    rfl
  have apart : ((scope :: path).map ScopeId.index).Nodup := by
    refine List.Nodup.map (fun ⟨_⟩ ⟨_⟩ same => congrArg ScopeId.mk same) ?_
    exact List.nodup_cons.mpr ⟨fun listed => unlike (nested.of_mem listed).1, nested.nodup unlike⟩
  have there : (scope :: path).map ScopeId.index ⊆ List.range heap.scopes.size := by
    intro position listed
    obtain ⟨id, member, rfl⟩ := List.mem_map.mp listed
    rcases List.mem_cons.mp member with rfl | member
    · exact List.mem_range.mpr old
    · exact List.mem_range.mpr (nested.of_mem member).2.1
  have within := (List.subperm_of_subset apart there).length_le
  rwa [List.length_map, List.length_cons, List.length_range] at within

private theorem walk_eq {α : Type} (nested : heap.Nested scope inner path)
    {step : ScopeId → Scope → Step α}
    (passes : ∀ id scope, scope.kind = .basic → step id scope = .outward) :
    ∃ budget, heap.walk step inner = heap.walkWithin step (budget + 1) scope := by
  obtain ⟨budget, size⟩ := Nat.exists_eq_add_of_lt (nested.length_lt unlike)
  refine ⟨budget, ?_⟩
  unfold walk
  rw [size, Nat.add_assoc, nested.walkWithin_eq passes]

private theorem chain_eq (nested : heap.Nested scope inner path) :
    ∃ outer, heap.chain inner = path ++ scope :: outer := by
  obtain ⟨budget, size⟩ := Nat.exists_eq_add_of_lt (nested.length_lt unlike)
  unfold chain
  rw [size, Nat.add_assoc, nested.chainWithin_eq]
  exact ⟨_, rfl⟩

end

theorem super?_eq (nested : heap.Nested scope inner path) {invocation : Invocation}
    (kind : (heap.scope scope).kind = .function invocation) {function : Function Code}
    (found : heap.function? invocation.function = some function) {overridden : Value}
    (replaced : function.overridden = some overridden) : heap.super? inner = some overridden := by
  have passes : ∀ id scope, scope.kind = .basic → heap.superStep id scope = .outward := by
    intro id scope basic
    rw [superStep, basic]
  obtain ⟨budget, walked⟩ := nested.walk_eq (by rw [kind]; nofun) passes
  rw [super?_eq_walk, walked, walkWithin]
  simp only [superStep, kind, found, Option.bind_some, replaced]

theorem lookup_eq (nested : heap.Nested scope inner path)
    (unlike : (heap.scope scope).kind ≠ .basic)
    (silent : ∀ id ∈ path, heap.declared? id name = none) {cell : CellId} {after : Heap Code}
    (own : heap.ownMember scope name = (some cell, after)) :
    heap.lookup inner name = (some cell, after) := by
  have along {blocks : List ScopeId} (within : blocks ⊆ path) (outer : List ScopeId) :
      heap.lookupAlong name (blocks ++ scope :: outer) = (some cell, after) := by
    induction blocks with
    | nil => rw [List.nil_append, lookupAlong_cons, own, orElse_some]
    | cons block blocks induction =>
        have listed := within List.mem_cons_self
        rw [List.cons_append, lookupAlong_cons, ownMember_of_basic (nested.of_mem listed).1,
          silent block listed]
        exact induction fun id member => within (List.mem_cons_of_mem _ member)
  obtain ⟨outer, chain⟩ := nested.chain_eq unlike
  unfold lookup
  rw [chain]
  exact along (List.Subset.refl path) outer

end Nested

end ScopeMachine.Heap
