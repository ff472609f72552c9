import ScopeMachine.Proofs.Evaluation.Sustaining

namespace ScopeMachine

open ScopeMachine.Action

variable {Code : Type}

/-- The body runs in a scope of its own. -/
def Function.Enters (function : Function Code) (limits : Limits) (arguments : Option Table)
    (receiver : Option Value) : Prop :=
  ¬ (arguments = none ∧ receiver = none ∧ function.overridden = none ∧
    function.definition.skipsScope = true ∧ limits.skipScope = true)

namespace Action

variable {machine : Machine Code} {function : Function Code} {id : FunctionId}
  {given : Option Table} {receiver : Option Value}

theorem callFunction_of_enters (run : Runner Code) (held : List Handle)
    (found : machine.heap.function? id = some function) (based : function.parent = .type .object)
    (enters : function.Enters machine.limits given receiver) :
    callFunction run id given receiver held machine =
      ((given.elim (allocateTable 0) pure) >>= fun table =>
        enterCall function id table receiver >>= fun scope =>
          releasingScope scope (runNode run function.definition.body scope)) held machine := by
  have slow : (given.isNone && receiver.isNone && function.overridden.isNone &&
      function.definition.skipsScope && machine.limits.skipScope) = false := by
    refine Bool.eq_false_iff.mpr fun fast => enters ?_
    simpa only [Bool.and_eq_true, Option.isNone_iff_eq_none, and_assoc] using fast
  unfold callFunction
  simp only [enterCall_bind, run_bind, getFunction_eq found, andThen_ok, based, slow,
    Bool.false_eq_true, if_false, run_get]
  cases given <;> simp only [run_bind, run_pure, andThen_ok, Option.elim_none, Option.elim_some]

private theorem callFunction_of_subclass (held : List Handle)
    (found : machine.heap.function? id = some function)
    (derived : function.parent ≠ .type .object) :
    ∃ abort after, ∀ run : Runner Code,
      callFunction run id given receiver held machine = .error abort after := by
  have refused (run : Runner Code) : callFunction run id given receiver held machine =
      (given.elim (pure ()) freeTable >>= fun _ =>
        fail (.unsupportedOperation (function.name ++ ": cannot call as function")))
          held machine := by
    unfold callFunction
    rw [run_bind, getFunction_eq found, andThen_ok]
    dsimp only
    generalize function.parent = parent at derived
    cases parent with
    | type type =>
        cases type with
        | object => exact absurd rfl derived
        | _ => cases given <;> rfl
    | _ => cases given <;> rfl
  cases given <;> exact ⟨_, _, refused⟩

/-- A call's scope is a new one or the first of the pool. -/
theorem allocateCallScope_ok (pool_old : ∀ id ∈ machine.pool, id.index < machine.heap.scopes.size)
    (held : List Handle) (previous : ScopeId) (index : Index) (members : Table)
    (invocation : Invocation) :
    let grown := members.ensureCapacity index.size machine.heap.memory
    ∃ scope after,
      allocateCallScope previous index members invocation held machine = .ok scope after ∧
        scope.index < after.heap.scopes.size ∧
        after.heap.scope scope =
          ⟨some previous, index, grown.1, .function invocation, grown.1.isArena⟩ ∧
        after.heap.memory = grown.2 ∧ after.heap.arrays = machine.heap.arrays := by
  intro grown
  have added (scope : Scope) : (⟨machine.heap.scopes.size⟩ : ScopeId).index <
      ((machine.withMemory grown.2).heap.newScope scope).2.scopes.size :=
    Nat.lt_of_lt_of_eq (Nat.lt_succ_self _) (Array.size_push scope).symm
  unfold allocateCallScope
  rw [run_bind, run_onMemory, andThen_ok]
  dsimp only
  rw [run_ite]
  split
  next =>
    rw [run_pooledScope]
    cases pool : machine.pool with
    | nil => exact ⟨_, _, rfl, added _, Heap.scope_newScope_self .., rfl, rfl⟩
    | cons id rest =>
        have old := pool_old id (pool ▸ List.mem_cons_self)
        refine ⟨_, _, rfl, ?_, Heap.scope_modifyScope_self old _, rfl, rfl⟩
        exact Nat.lt_of_lt_of_eq old (Heap.size_modifyScope ..).symm
  next => exact ⟨_, _, rfl, added _, Heap.scope_newScope_self .., rfl, rfl⟩

private theorem kind_of_enterCall (sane : machine.Sane) {arguments : Table} {held : List Handle}
    {scope : ScopeId} {after : Machine Code}
    (entered : enterCall function id arguments receiver held machine = .ok scope after) :
    ∃ trailing, (after.heap.scope scope).kind = .function ⟨id, receiver, trailing, none⟩ := by
  have mapping := mapArguments_sustains function.definition arguments held machine
  unfold enterCall at entered
  rw [run_bind] at entered
  cases mapped : mapArguments function.definition arguments held machine with
  | error abort middle =>
      rw [mapped] at entered
      cases entered
  | ok result middle =>
      rw [mapped] at entered mapping
      obtain ⟨_, _, allocated, -, made, -⟩ := allocateCallScope_ok (mapping sane).sane.pool_old held
        function.enclosing (function.definition.body.shape.table .all) result.1
        { function := id, receiver, trailing := result.2 }
      cases allocated.symm.trans entered
      exact ⟨result.2, congrArg Scope.kind made⟩

theorem callFunction_cases (sane : machine.Sane) (held : List Handle)
    (found : machine.heap.function? id = some function)
    (enters : function.Enters machine.limits given receiver) :
    (∃ abort after, ∀ run : Runner Code,
      callFunction run id given receiver held machine = .error abort after) ∨
    ∃ scope entered trailing, machine.Sustains entered ∧
      (entered.heap.scope scope).kind = .function ⟨id, receiver, trailing, none⟩ ∧
      ∀ run : Runner Code, callFunction run id given receiver held machine =
        releasingScope scope (runNode run function.definition.body scope) held entered := by
  by_cases based : function.parent = .type .object
  · have called (run : Runner Code) := callFunction_of_enters run held found based enters
    simp only [run_bind] at called
    have tabling : machine.Sustains
        (machineLeft (given.elim (allocateTable 0) pure held machine)) := by
      cases given with
      | none => exact Machine.allocateTable_sustains held machine 0
      | some table => exact .refl machine
    cases tabled : given.elim (allocateTable 0) pure held machine with
    | error abort after =>
        simp only [tabled, andThen_error] at called
        exact .inl ⟨_, _, called⟩
    | ok table middle =>
        rw [tabled] at tabling
        simp only [tabled, andThen_ok] at called
        have entering := sustains_regime.enterCall function id table receiver held middle
        cases entered : enterCall function id table receiver held middle with
        | error abort after =>
            simp only [entered, andThen_error] at called
            exact .inl ⟨_, _, called⟩
        | ok scope after =>
            rw [entered] at entering
            simp only [entered, andThen_ok] at called
            obtain ⟨trailing, kind⟩ := kind_of_enterCall (tabling sane).sane entered
            exact .inr ⟨scope, after, trailing, tabling.trans entering, kind, called⟩
  · exact .inl (callFunction_of_subclass held found based)

end Action

end ScopeMachine
