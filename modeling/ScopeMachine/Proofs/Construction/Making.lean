import ScopeMachine.Proofs.Construction.Instances

namespace ScopeMachine.Action

variable {Code : Type} (run : Runner Code)

theorem andThen_assoc {α β γ : Type} (ending : Ending Code α)
    (next : α → Machine Code → Ending Code β) (last : β → Machine Code → Ending Code γ) :
    andThen (andThen ending next) last =
      andThen ending fun result middle => andThen (next result middle) last := by
  cases ending <;> rfl

/-- The member that a function made in the scope under this name replaces. -/
def replacing (enclosing : ScopeId) (name : String) : Action Code (Option Value) := do
  if ((← get).heap.scope enclosing).variant == .constructor && name != "anon" then
    replacedMember enclosing name
  else pure none

/-- Makes the static scope of a function, if it is to have one, and runs the static part in it. -/
def staticPart (enclosing : ScopeId) (definition : Definition Code) (kept : List Handle) :
    Action Code (Option ScopeId) :=
  match definition.statics with
  | none => pure none
  | some node => do
      let scope ← newScope (.onHeap (some enclosing) (node.shape.table .all) .basic)
      let _ ← holding kept (runNode run node scope)
      pure (some scope)

theorem makeFunction_eq (enclosing : ScopeId) (parent : Option Value)
    (definition : Definition Code) :
    makeFunction run enclosing parent definition = (do
      let overridden ← replacing enclosing definition.name
      let statics ← staticPart run enclosing definition
        ((parent.toList ++ overridden.toList).flatMap Value.handles)
      onHeap (·.newFunction
        ⟨enclosing, parent.getD (.type .object), definition, statics, overridden⟩)) := by
  funext held machine
  unfold makeFunction replacing staticPart
  simp only [run_bind, run_get, run_ite, andThen_ok]
  split
  all_goals
    cases definition.statics with
    | none => simp only [run_bind, run_pure, andThen_ok]
    | some node => simp only [run_bind, run_pure, run_newScope, andThen_ok, andThen_assoc]

variable {run} {held : List Handle} {machine after : Machine Code}

theorem makeFunction_eq_ok {enclosing : ScopeId} {parent : Option Value}
    {definition : Definition Code} {id : FunctionId}
    (succeeds : makeFunction run enclosing parent definition held machine = .ok id after) :
    ∃ overridden middle statics last,
      replacing enclosing definition.name held machine = .ok overridden middle ∧
      staticPart run enclosing definition
        ((parent.toList ++ overridden.toList).flatMap Value.handles) held middle =
          .ok statics last ∧
      id = ⟨last.heap.functions.size⟩ ∧
      after = last.withHeap (last.heap.newFunction
        ⟨enclosing, parent.getD (.type .object), definition, statics, overridden⟩).2 := by
  rw [makeFunction_eq, run_bind] at succeeds
  obtain ⟨overridden, middle, replaced, succeeds⟩ := andThen_eq_ok succeeds
  rw [run_bind] at succeeds
  obtain ⟨statics, last, ran, succeeds⟩ := andThen_eq_ok succeeds
  cases succeeds
  exact ⟨overridden, middle, statics, last, replaced, ran, rfl, rfl⟩

theorem function?_newFunction (heap : Heap Code) (function : Function Code) :
    (heap.newFunction function).2.function? ⟨heap.functions.size⟩ = some function :=
  Array.getElem?_push_size

theorem Compositional.replacing {Holds : {α : Type} → Action Code α → Prop}
    (rules : Compositional Holds) (enclosing : ScopeId) (name : String) :
    Holds (replacing enclosing name : Action Code (Option Value)) := by
  refine rules.bind rules.get fun machine => ?_
  split
  next =>
    refine rules.bind rules.get fun machine => ?_
    split
    next =>
      exact rules.bind (rules.ownMember ..) fun _ => rules.bind rules.get fun _ => rules.pure _
    next => exact rules.pure none
  next => exact rules.pure none

theorem staticPart_lasting (obeys : ∀ code scope, Obeys Machine.Sustains (run code scope))
    (sane : machine.Sane) {enclosing : ScopeId} {definition : Definition Code}
    {kept : List Handle} {statics : Option ScopeId}
    (succeeds : staticPart run enclosing definition kept held machine = .ok statics after) :
    machine.Sustains after ∧ ∀ scope ∈ statics, after.Lasting scope ∧
      (after.heap.scope scope).kind = .basic := by
  unfold staticPart at succeeds
  cases stated : definition.statics with
  | none =>
      rw [stated] at succeeds
      cases succeeds
      exact ⟨.refl _, fun scope same => absurd same (Option.not_mem_none scope)⟩
  | some node =>
      rw [stated] at succeeds
      simp only [run_bind, run_newScope, andThen_ok, run_holding] at succeeds
      obtain ⟨value, last, ran, succeeds⟩ := andThen_eq_ok succeeds
      cases succeeds
      let made := machine.heap.newScope (.onHeap (some enclosing) (node.shape.table .all) .basic)
      have opened : machine.Sustains (machine.withHeap made.2) :=
        .of_heap fun _ _ => Heap.newScope_evolves ..
      have lasting : (machine.withHeap made.2).Lasting made.1 := by
        refine sane.lasting_of_new (Nat.le_refl _) ?_ ?_
        · simp [made, Heap.newScope]
        · exact congrArg Scope.pooled (Heap.scope_newScope_self ..)
      have ran : (machine.withHeap made.2).Sustains after :=
        (sustains_regime.rules.runNode obeys _ _).of_ok ran
      have carries := ran (opened sane).sane
      refine ⟨opened.trans ran, fun scope same => ?_⟩
      obtain rfl := Option.some.inj same
      refine ⟨carries.lasting lasting, carries.kind lasting ?_ (by decide)⟩
      exact congrArg Scope.kind (Heap.scope_newScope_self ..)

end ScopeMachine.Action
