import ScopeMachine.Proofs.Storage.InPlace

namespace ScopeMachine.Heap

variable {Code : Type}

/-- The same scopes linked in the same way, those on the heap still there. -/
structure Aligned (before after : Heap Code) : Prop where
  size : after.scopes.size = before.scopes.size
  kind : ∀ id, (after.scope id).kind = (before.scope id).kind
  previous : ∀ id, (after.scope id).previous = (before.scope id).previous
  onHeap : ∀ id, (before.scope id).members.isArena = false →
    (after.scope id).members.isArena = false

namespace Aligned

theorem trans {first second third : Heap Code} (left : first.Aligned second)
    (right : second.Aligned third) : first.Aligned third :=
  ⟨right.size.trans left.size, fun id => (right.kind id).trans (left.kind id),
    fun id => (right.previous id).trans (left.previous id),
    fun id => right.onHeap id ∘ left.onHeap id⟩

theorem of_scopes {before after : Heap Code} (scopes : after.scopes = before.scopes) :
    before.Aligned after := by
  have same : ∀ id, after.scope id = before.scope id := fun id => by
    unfold Heap.scope
    rw [scopes]
  exact ⟨congrArg Array.size scopes, fun id => congrArg Scope.kind (same id),
    fun id => congrArg Scope.previous (same id), fun id onHeap => same id ▸ onHeap⟩

theorem modifyScope (heap : Heap Code) (id : ScopeId) {memory : Memory}
    {change : Scope → Scope} (kind : ∀ scope, (change scope).kind = scope.kind)
    (previous : ∀ scope, (change scope).previous = scope.previous)
    (onHeap : (heap.scope id).members.isArena = false →
      (change (heap.scope id)).members.isArena = false) :
    heap.Aligned ({ heap with memory }.modifyScope id change) := by
  have either := fun other => scope_modifyScope_or { heap with memory } id other change
  refine ⟨size_modifyScope .., fun other => ?_, fun other => ?_, fun other there => ?_⟩
  · rcases either other with same | ⟨-, changed⟩
    · exact congrArg Scope.kind same
    · exact (congrArg Scope.kind changed).trans (kind _)
  · rcases either other with same | ⟨-, changed⟩
    · exact congrArg Scope.previous same
    · exact (congrArg Scope.previous changed).trans (previous _)
  · rcases either other with same | ⟨rfl, changed⟩
    · exact (congrArg (fun scope => scope.members.isArena) same).trans there
    · exact (congrArg (fun scope => scope.members.isArena) changed).trans (onHeap there)

end Aligned

theorem setIndex_aligned (heap : Heap Code) (id : ScopeId) (index : Index) :
    heap.Aligned (heap.modifyScope id fun scope => { scope with index }) :=
  .modifyScope heap id (fun _ => rfl) (fun _ => rfl) fun onHeap => onHeap

theorem slotCell_aligned (heap : Heap Code) (id : ScopeId) (slot : Nat) :
    heap.Aligned (heap.slotCell id slot).2 :=
  .modifyScope heap id (fun _ => rfl) (fun _ => rfl) (Table.cellAt_keepsPlace _ slot _).onHeap

theorem createMember_aligned (heap : Heap Code) (id : ScopeId) (name : String)
    (permission : Permission) : heap.Aligned (heap.createMember id name permission).2 := by
  unfold createMember
  generalize heap.landing permission id = target
  dsimp only
  generalize (heap.scope target).index.insert name permission = inserted
  exact (setIndex_aligned heap target inserted.2).trans
    ((slotCell_aligned _ target inserted.1).trans (.of_scopes rfl))

theorem landing_aligned {before after : Heap Code} (aligned : before.Aligned after)
    (permission : Permission) (id : ScopeId) :
    after.landing permission id = before.landing permission id := by
  unfold landing
  rw [aligned.size]
  generalize before.scopes.size = budget
  induction budget generalizing id with
  | zero => rfl
  | succ budget induction =>
      unfold landingWithin
      dsimp only
      rw [aligned.kind, aligned.previous]
      split
      next =>
        split
        next => rfl
        next => exact induction _
      next => exact induction _
      next => rfl

def Lands (heap : Heap Code) (scope : ScopeId) : Prop :=
  ∀ permission, (heap.scope (heap.landing permission scope)).members.isArena = false

theorem Lands.aligned {before after : Heap Code} {scope : ScopeId} (lands : before.Lands scope)
    (aligned : before.Aligned after) : after.Lands scope := by
  intro permission
  rw [landing_aligned aligned]
  exact aligned.onHeap _ (lands permission)

/-- Only the scopes of constructors and forks pass declarations on. -/
theorem landingWithin_self {heap : Heap Code} {id : ScopeId}
    (constructs : (heap.scope id).variant ≠ .constructor)
    (forks : (heap.scope id).variant ≠ .fork) (permission : Permission) (budget : Nat) :
    heap.landingWithin permission budget id = id := by
  cases budget with
  | zero => rfl
  | succ budget =>
      unfold landingWithin
      dsimp only
      split
      next kind _ => exact absurd (by simp [Scope.variant, kind, ScopeKind.variant]) constructs
      next kind => exact absurd (by simp [Scope.variant, kind, ScopeKind.variant]) forks
      next => rfl

theorem landingWithin_object {heap : Heap Code} {object : ScopeId} {maker : Option FunctionId}
    (kind : (heap.scope object).kind = .object maker) (permission : Permission) (budget : Nat) :
    heap.landingWithin permission budget object = object :=
  landingWithin_self (by simp [Scope.variant, kind, ScopeKind.variant])
    (by simp [Scope.variant, kind, ScopeKind.variant]) permission budget

theorem lands_constructor {heap : Heap Code} {scope outer object : ScopeId}
    {maker : FunctionId} {owner : Option FunctionId}
    (kind : (heap.scope scope).kind = .constructor maker)
    (previous : (heap.scope scope).previous = some outer)
    (passes : outer = object ∨ (heap.scope outer).kind = .fork object)
    (objectKind : (heap.scope object).kind = .object owner)
    (scopeOnHeap : (heap.scope scope).members.isArena = false)
    (outerOnHeap : (heap.scope outer).members.isArena = false)
    (objectOnHeap : (heap.scope object).members.isArena = false) : heap.Lands scope := by
  intro permission
  unfold landing
  cases heap.scopes.size with
  | zero => exact scopeOnHeap
  | succ budget =>
      unfold landingWithin
      dsimp only
      rw [kind, previous]
      dsimp only
      split
      next => exact scopeOnHeap
      next =>
        rcases passes with rfl | fork
        · rw [landingWithin_object objectKind]
          exact objectOnHeap
        · cases budget with
          | zero => exact outerOnHeap
          | succ budget =>
              unfold landingWithin
              dsimp only
              rw [fork]
              dsimp only
              rw [landingWithin_object objectKind]
              exact objectOnHeap

theorem bounds_slotCell {heap : Heap Code} {id : ScopeId}
    (onHeap : (heap.scope id).members.isArena = false) (slot : Nat) :
    (heap.slotCell id slot).2.bounds = heap.bounds := by
  have extended : ((heap.scope id).members.extended slot heap.memory).2.bounds =
      heap.memory.bounds := by
    cases table : (heap.scope id).members with
    | inArena slice length =>
        rw [table] at onHeap
        cases onHeap
    | onHeap cells reserved =>
        unfold Table.extended
        split
        next => rfl
        next => exact Table.bounds_extendTo ..
  change ((heap.scope id).members.cellAt slot heap.memory).2.2.bounds = heap.memory.bounds
  rw [Table.cellAt_eq]
  generalize (heap.scope id).members.extended slot heap.memory = result at extended ⊢
  obtain ⟨cells | slice, after⟩ := result
  · exact extended
  · exact (Memory.bounds_slot ..).trans extended

theorem bounds_createMember {heap : Heap Code} {scope : ScopeId} (lands : heap.Lands scope)
    (name : String) (permission : Permission) :
    (heap.createMember scope name permission).2.bounds = heap.bounds := by
  have onHeap := lands permission
  unfold createMember
  generalize heap.landing permission scope = target at onHeap ⊢
  dsimp only
  generalize (heap.scope target).index.insert name permission = inserted
  have still := (setIndex_aligned heap target inserted.2).onHeap target onHeap
  exact bounds_slotCell still inserted.1

end ScopeMachine.Heap
