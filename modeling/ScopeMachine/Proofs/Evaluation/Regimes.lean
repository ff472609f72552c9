import ScopeMachine.Proofs.Evaluation.Composed

namespace ScopeMachine.Action

variable {Code : Type} {α β : Type}

structure Regime (Keeps : Machine Code → Machine Code → Prop) : Prop where
  refl : ∀ machine, Keeps machine machine
  trans : ∀ {first second third}, Keeps first second → Keeps second third → Keeps first third
  deed : ∀ {α : Type} {step : Heap Code → α × Heap Code}, Heap.Deed step → ∀ machine,
    Keeps machine { machine with heap := (step machine.heap).2 }
  setLine : ∀ machine line, Keeps machine (machine.modifyTop fun frame => { frame with line })
  freeTable : ∀ table held machine, Keeps machine (machineLeft (freeTable table held machine))
  allocateTable : ∀ size held machine,
    Keeps machine (machineLeft (allocateTable size held machine))
  pushEach : ∀ (table : Table) values held machine,
    Keeps machine (machineLeft (onMemory (table.pushEach values) held machine))
  allocateBlock : ∀ previous index held machine,
    Keeps machine (machineLeft (allocateBlock previous index held machine))
  openFrame : ∀ machine id file scope, Keeps machine (machine.openFrame id file scope)
  annotate : ∀ machine failure, Keeps machine (machine.annotate failure).2
  closeFrame : ∀ machine held, Keeps machine (machine.closeFrame held)
  enterCall : ∀ function id arguments receiver held machine,
    Keeps machine (machineLeft (enterCall function id arguments receiver held machine))
  releaseScope : ∀ machine held id, Keeps machine (machine.releaseScope held id)

/-- Whatever machine the action finds, it keeps to the regime. -/
def Obeys (Keeps : Machine Code → Machine Code → Prop) (action : Action Code α) : Prop :=
  ∀ held machine, Keeps machine (machineLeft (action held machine))

theorem Obeys.of_ok {Keeps : Machine Code → Machine Code → Prop} {action : Action Code α}
    (obeys : Obeys Keeps action) {held : List Handle} {machine after : Machine Code} {result : α}
    (ran : action held machine = .ok result after) : Keeps machine after := by
  have obeyed := obeys held machine
  rwa [ran] at obeyed

namespace Regime

variable {Keeps : Machine Code → Machine Code → Prop} (regime : Regime Keeps)

include regime

private theorem andThen {before : Machine Code} {ending : Ending Code α}
    {next : α → Machine Code → Ending Code β} (former : Keeps before (machineLeft ending))
    (latter : ∀ result middle, ending = .ok result middle →
      Keeps middle (machineLeft (next result middle))) :
    Keeps before (machineLeft (andThen ending next)) := by
  cases ending with
  | ok result middle => exact regime.trans former (latter result middle rfl)
  | error abort middle => exact former

private theorem pure (result : α) : Obeys Keeps (pure result) := fun _ machine =>
    regime.refl machine

private theorem bind {first : Action Code α} {next : α → Action Code β} (former : Obeys Keeps first)
    (latter : ∀ result, Obeys Keeps (next result)) : Obeys Keeps (first >>= next) := by
  intro held machine
  rw [run_bind]
  exact regime.andThen (former held machine) fun result middle _ => latter result held middle

omit regime in
private theorem holding (handles : List Handle) {action : Action Code α}
    (obeys : Obeys Keeps action) :
    Obeys Keeps (holding handles action) :=
  fun held machine => obeys (handles ++ held) machine

private theorem inFrame (id file : String) (scope : ScopeId) {body : Action Code Value}
    (obeys : Obeys Keeps body) : Obeys Keeps (inFrame id file scope body) := by
  intro held machine
  have inner := regime.trans (regime.openFrame machine id file scope)
    (obeys (.scope scope :: held) (machine.openFrame id file scope))
  unfold Action.inFrame
  split
  next => exact regime.refl machine
  next =>
    dsimp only
    split
    next ran =>
      rw [ran] at inner
      exact regime.trans inner (regime.closeFrame ..)
    next failure middle ran =>
      rw [ran] at inner
      exact regime.trans inner (regime.trans (regime.annotate middle failure)
        (regime.closeFrame ..))
    next ran =>
      rw [ran] at inner
      exact regime.trans inner (regime.closeFrame ..)

private theorem releasingScope (scope : ScopeId) {body : Action Code Value}
    (obeys : Obeys Keeps body) :
    Obeys Keeps (releasingScope scope body) := by
  intro held machine
  have inner := obeys held machine
  unfold Action.releasingScope
  split
  all_goals
    next ran =>
      rw [ran] at inner
      exact regime.trans inner (regime.releaseScope ..)

private theorem rescuing {body : Action Code Value} {rescue : Failure → Action Code Value}
    (obeys : Obeys Keeps body) (handles : ∀ failure, Obeys Keeps (rescue failure)) :
    Obeys Keeps (rescuing body rescue) := by
  intro held machine
  have tried := obeys held machine
  unfold Action.rescuing
  split
  next ran =>
    rw [ran] at tried
    split
    next => exact regime.trans tried (handles _ _ _)
    next => exact tried
  next => exact tried

/-- Every evaluation keeps to the regime. -/
theorem composed {action : Action Code α} (composed : Composed action) :
    Obeys Keeps action := by
  induction composed with
  | pure result => exact regime.pure result
  | fail fault _ => exact fun _ machine => regime.refl machine
  | throw value => exact fun _ machine => regime.refl machine
  | crash => exact fun _ machine => regime.refl machine
  | get => exact fun _ machine => regime.refl machine
  | bind _ _ former latter => exact regime.bind former latter
  | holding handles _ inner => exact holding handles inner
  | onHeap deed => exact fun _ machine => regime.deed deed machine
  | setLine line => exact fun _ machine => regime.setLine machine line
  | freeTable table => exact regime.freeTable table
  | allocateTable size => exact regime.allocateTable size
  | pushEach table values => exact regime.pushEach table values
  | allocateBlock previous index => exact regime.allocateBlock previous index
  | inFrame id file scope _ inner => exact regime.inFrame id file scope inner
  | call function id arguments receiver _ inner =>
      exact regime.bind (regime.enterCall function id arguments receiver)
        fun scope => regime.releasingScope scope (inner scope)
  | rescuing _ _ inner handler => exact regime.rescuing inner handler

/-- Whatever is put together of steps that keep to the regime does so too. -/
theorem rules : Compositional fun {α : Type} (action : Action Code α) => Obeys Keeps action where
  pure := regime.pure
  fail fault unthrown := regime.composed (.fail fault unthrown)
  throw value := regime.composed (.throw value)
  crash := regime.composed .crash
  get := regime.composed .get
  bind := regime.bind
  holding handles := holding handles
  lookup scope name := regime.composed (.onHeap (.lookup scope name))
  ownMember scope name := regime.composed (.onHeap (.ownMember scope name))
  member value name := regime.composed (.onHeap (.member value name))
  createMember scope name permission :=
    regime.composed (.onHeap (.createMember scope name permission))
  assign cell name value := regime.composed (.onHeap (.assign cell name value))
  makeArray elements frozen := regime.composed (.onHeap (.newArray elements frozen))
  makeException exception := regime.composed (.onHeap (.newException exception))
  newFunction function := regime.composed (.onHeap (.newFunction function))
  newScope previous index kind := regime.composed (.onHeap (.newScope previous index kind))
  ofValues values := regime.composed (.onHeap (.ofValues values))
  catchScope scope name failure := regime.composed (Composed.rules.catchScope scope name failure)
  setLine line := regime.composed (.setLine line)
  freeTable := regime.freeTable
  allocateTable := regime.allocateTable
  pushEach := regime.pushEach
  allocateBlock := regime.allocateBlock
  inFrame id file scope := regime.inFrame id file scope
  call function id arguments receiver inner :=
    regime.bind (regime.enterCall function id arguments receiver)
      fun scope => regime.releasingScope scope (inner scope)
  rescuing := regime.rescuing

end Regime

end ScopeMachine.Action
