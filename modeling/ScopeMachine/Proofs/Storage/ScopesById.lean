import ScopeMachine.Heap.Basic

namespace ScopeMachine

namespace Heap

variable {Code : Type}

theorem scope_modifyScope_ne {id other : ScopeId} (apart : other ≠ id) (heap : Heap Code)
    (change : Scope → Scope) : (heap.modifyScope id change).scope other = heap.scope other := by
  have indices : id.index ≠ other.index := fun same => apart (by
    obtain ⟨index⟩ := id
    obtain ⟨index'⟩ := other
    exact congrArg ScopeId.mk same.symm)
  simp [modifyScope, scope, Array.getElem?_modify, indices]

theorem scope_modifyScope_self {id : ScopeId} {heap : Heap Code}
    (old : id.index < heap.scopes.size) (change : Scope → Scope) :
    (heap.modifyScope id change).scope id = change (heap.scope id) := by
  simp [modifyScope, scope, Array.getElem_modify, old]

/-- Changing a scope changes that scope or, if it does not exist, nothing. -/
theorem scope_modifyScope_or (heap : Heap Code) (id other : ScopeId) (change : Scope → Scope) :
    (heap.modifyScope id change).scope other = heap.scope other ∨
      other = id ∧ (heap.modifyScope id change).scope other = change (heap.scope other) := by
  by_cases same : other = id
  · subst same
    by_cases old : other.index < heap.scopes.size
    · exact .inr ⟨rfl, scope_modifyScope_self old change⟩
    · exact .inl (by simp [scope, modifyScope, old])
  · exact .inl (scope_modifyScope_ne same heap change)

theorem scope_of_size_le {id : ScopeId} {heap : Heap Code}
    (absent : heap.scopes.size ≤ id.index) : heap.scope id = default := by
  simp [scope, absent]

@[simp] theorem size_modifyScope (heap : Heap Code) (id : ScopeId) (change : Scope → Scope) :
    (heap.modifyScope id change).scopes.size = heap.scopes.size :=
  Array.size_modify

theorem scope_newScope_self (heap : Heap Code) (scope : Scope) :
    (heap.newScope scope).2.scope (heap.newScope scope).1 = scope := by
  simp [newScope, Heap.scope]

theorem scope_newScope_ne {heap : Heap Code} {id : ScopeId} {scope : Scope}
    (apart : id ≠ (heap.newScope scope).1) :
    (heap.newScope scope).2.scope id = heap.scope id := by
  have indices : id.index ≠ heap.scopes.size := fun same => apart (by
    obtain ⟨index⟩ := id
    exact congrArg ScopeId.mk same)
  simp [newScope, Heap.scope, Array.getElem?_push, indices]

end Heap

end ScopeMachine
