import ScopeMachine.Proofs.Frames.ScopesInUse

namespace ScopeMachine

open Arena Machine

namespace Heap

variable {Code α : Type}

private theorem Deed.keepsPlace {step : Heap Code → α × Heap Code} (deed : Deed step)
    (heap : Heap Code) : heap.KeepsPlace (step heap).2 := by
  cases deed with
  | lookup scope name => exact keepsPlace_law.lookup heap scope name
  | ownMember scope name => exact keepsPlace_law.ownMember heap scope name
  | member value name => exact keepsPlace_law.member heap value name
  | createMember scope name permission =>
      exact keepsPlace_law.createMember heap scope name permission
  | assign cell name value => exact assign_keepsPlace heap cell name value
  | install cell value => exact modifyCell_keepsPlace heap cell _
  | newArray elements frozen => exact newArray_keepsPlace heap elements frozen
  | newException exception => exact .of_scopes rfl (.refl _)
  | newFunction function => exact .of_scopes rfl (.refl _)
  | newScope previous index kind => exact newScope_keepsPlace heap _
  | caught failure => exact caught_keepsPlace heap failure
  | ofValues values => exact onMemory_keepsPlace heap (.of_eq (Table.bounds_ofValues ..))

end Heap

namespace Action

variable {Code α : Type}

/-- Leaves every scope in use in place, in any machine that is in order. -/
def Mannerly (action : Action Code α) : Prop :=
  ∀ (held : List Handle) (machine : Machine Code), machine.Orderly → machine.Tidy →
    machine.StaysInFrame (machineLeft (action held machine))

/-- The scope of a call with the table that its arguments ended up in. -/
def callScope (function : Function Code) (id : FunctionId) (members : Table)
    (trailing : List Value) (receiver : Option Value) : Scope where
  previous := some function.enclosing
  index := function.definition.body.shape.table .all
  members := members
  kind := .function { function := id, receiver, trailing }
  pooled := members.isArena

theorem allocateCallScope_occupies {machine : Machine Code} (tidy : machine.Tidy)
    (function : Function Code) (id : FunctionId) (members : Table) (trailing : List Value)
    (receiver : Option Value) (held : List Handle) :
    let grown := members.ensureCapacity (function.definition.body.shape.table .all).size
      machine.heap.memory
    ∃ scope entered,
      allocateCallScope function.enclosing (function.definition.body.shape.table .all) members
          { function := id, receiver, trailing } held machine = .ok scope entered ∧
        (machine.withMemory grown.2).Occupies scope
          (callScope function id grown.1 trailing receiver) entered := by
  intro grown
  have shifts : machine.heap.memory.bounds.Shifts grown.2.bounds :=
    Table.ensureCapacity_shifts ..
  have tidy : (machine.withMemory grown.2).Tidy := (StaysInFrame.of_memory tidy shifts).spares.tidy
  unfold allocateCallScope
  rw [run_bind, run_onMemory, andThen_ok]
  change ∃ scope entered,
    (if grown.1.isArena then
        pooledScope (callScope function id grown.1 trailing receiver)
      else newScope (callScope function id grown.1 trailing receiver)) held
        (machine.withMemory grown.2) = .ok scope entered ∧ _
  rw [run_ite]
  split
  next => exact pooledScope_occupies tidy _ held
  next => exact ⟨_, _, rfl, newScope_occupies tidy _⟩

private theorem settled_shifts (definition : Definition Code) (table : Table) (memory : Memory) :
    memory.bounds.Shifts (table.settled definition memory).2.bounds := by
  unfold Table.settled
  split
  next => exact Table.safeCopy_shifts ..
  next => exact .refl _

private theorem fitted_shifts (definition : Definition Code) (shared : CellId → Bool)
    (rest : ArrayId)
    (table : Table) (memory : Memory) :
    memory.bounds.Shifts (table.fitted definition shared rest memory).2.bounds :=
  (Bounds.Shifts.of_eq (Table.bounds_truncate ..)).trans (Table.push_shifts ..)

theorem mapArguments_staysInFrame {machine : Machine Code} (tidy : machine.Tidy)
    (definition : Definition Code) (arguments : Table) (held : List Handle) :
    machine.StaysInFrame (machineLeft (mapArguments definition arguments held machine)) := by
  rw [run_mapArguments]
  have settling := settled_shifts definition arguments machine.heap.memory
  generalize arguments.settled definition machine.heap.memory = settled at settling ⊢
  obtain ⟨table, memory⟩ := settled
  have settled : machine.StaysInFrame (machine.withMemory memory) := .of_memory tidy settling
  dsimp only
  split
  next =>
    split
    next =>
      have listed := settled.trans (.of_heap settled.spares.tidy (Heap.newArray_keepsPlace
        (machine.withMemory memory).heap (table.trailing definition memory) false))
      refine listed.trans (.of_memory listed.spares.tidy ?_)
      exact fitted_shifts definition machine.host.shares _ table memory
    next => exact settled
  next =>
    exact settled.trans (.of_memory settled.spares.tidy (Table.free_shifts ..))

private theorem frames_of_mapArguments {machine after : Machine Code} {definition : Definition Code}
    {arguments : Table} {held : List Handle} {mapped : Table × List Value}
    (ran : mapArguments definition arguments held machine = .ok mapped after) :
    after.frames = machine.frames := by
  rw [run_mapArguments] at ran
  dsimp only at ran
  split at ran
  next =>
    split at ran
    next =>
      cases ran
      rfl
    next =>
      cases ran
      rfl
  next => cases ran

/-- Entering a call takes a scope into use that was not in use before. -/
structure Enters (before : Machine Code) (scope : ScopeId) (entered : Machine Code) : Prop where
  staysInFrame : before.StaysInFrame entered
  frames : entered.frames = before.frames
  idle : ¬ before.Busy scope
  busy : entered.Busy scope

theorem enterCall_staysInFrame {machine : Machine Code} (tidy : machine.Tidy)
    (function : Function Code)
    (id : FunctionId) (arguments : Table) (receiver : Option Value) (held : List Handle) :
    machine.StaysInFrame (machineLeft (enterCall function id arguments receiver held machine)) ∧
      ∀ scope entered, enterCall function id arguments receiver held machine = .ok scope entered →
        Enters machine scope entered := by
  have mapping := mapArguments_staysInFrame tidy function.definition arguments held
  unfold enterCall
  rw [run_bind]
  cases mapped : mapArguments function.definition arguments held machine with
  | error abort after =>
      rw [mapped] at mapping
      exact ⟨mapping, nofun⟩
  | ok result after =>
      rw [mapped, machineLeft_ok] at mapping
      obtain ⟨members, trailing⟩ := result
      have frames := frames_of_mapArguments mapped
      obtain ⟨scope, entered, allocated, occupies⟩ := allocateCallScope_occupies
        mapping.spares.tidy function id members trailing receiver held
      have grown := mapping.trans (.of_memory mapping.spares.tidy
        (Table.ensureCapacity_shifts members
          (function.definition.body.shape.table .all).size after.heap.memory))
      rw [andThen_ok]
      dsimp only
      rw [allocated]
      refine ⟨grown.trans occupies.staysInFrame, ?_⟩
      rintro _ _ ⟨⟩
      exact ⟨grown.trans occupies.staysInFrame, occupies.frames.trans frames,
        fun busy => occupies.idle (grown.spares.busy scope busy), occupies.busy⟩

private theorem releasingScope_staysInFrame {machine entered : Machine Code} (tidy : machine.Tidy)
    {scope : ScopeId} (enters : Enters machine scope entered) {body : Action Code Value}
    (held : List Handle)
    (stays : machine.StaysInFrame entered →
    entered.StaysInFrame (machineLeft (body held entered))) :
    machine.StaysInFrame (machineLeft (releasingScope scope body held entered)) := by
  have inner := stays enters.staysInFrame
  unfold releasingScope
  split
  next result after ran =>
    rw [ran] at inner
    exact StaysInFrame.releaseScope tidy enters.staysInFrame enters.frames enters.idle
      enters.busy inner _
  next abort after ran =>
    rw [ran] at inner
    exact StaysInFrame.releaseScope tidy enters.staysInFrame enters.frames enters.idle
      enters.busy inner _

theorem Composed.mannerly {action : Action Code α} (composed : Composed action) :
    action.Mannerly := by
  induction composed with
  | pure result => exact fun _ _ _ tidy => .refl tidy
  | fail fault => exact fun _ _ _ tidy => .refl tidy
  | throw value => exact fun _ _ _ tidy => .refl tidy
  | crash => exact fun _ _ _ tidy => .refl tidy
  | get => exact fun _ _ _ tidy => .refl tidy
  | bind _ _ former latter =>
      intro held machine orderly tidy
      rw [run_bind]
      exact andThen_staysInFrame (former held machine orderly tidy) fun result middle _ stays =>
        latter result held middle (stays.steady.orderly orderly) stays.spares.tidy
  | holding handles _ induction => exact fun held machine => induction (handles ++ held) machine
  | onHeap deed => exact fun _ machine _ tidy => .of_heap tidy (deed.keepsPlace machine.heap)
  | setLine line => exact fun _ _ _ tidy => setLine_staysInFrame tidy line
  | freeTable table => exact fun _ _ _ tidy => .of_memory tidy (Table.free_shifts ..)
  | allocateTable size => exact fun held _ _ tidy => allocateTable_staysInFrame tidy held size
  | pushEach table values => exact fun _ _ _ tidy => .of_memory tidy (Table.pushEach_shifts ..)
  | allocateBlock previous index =>
      exact fun held _ _ tidy => allocateBlock_staysInFrame tidy held previous index
  | inFrame id file scope _ induction =>
      exact fun held machine orderly tidy =>
        (inFrame_restoring orderly tidy id file scope held fun room =>
          induction _ _ (openFrame_orderly orderly room id file scope)
            (openFrame_tidy tidy id file scope)).staysInFrame orderly
  | call function id arguments receiver _ induction =>
      intro held machine orderly tidy
      have ⟨entering, enters⟩ := enterCall_staysInFrame tidy function id arguments receiver held
      rw [run_bind]
      cases ran : enterCall function id arguments receiver held machine with
      | error abort after =>
          rw [ran] at entering
          exact entering
      | ok scope entered =>
          exact releasingScope_staysInFrame tidy (enters scope entered ran) held fun stays =>
            induction scope held entered (stays.steady.orderly orderly) stays.spares.tidy
  | rescuing _ _ inner handler =>
      intro held machine orderly tidy
      have body := inner held machine orderly tidy
      unfold Action.rescuing
      split
      next failure after ran =>
        rw [ran, machineLeft_error] at body
        split
        next =>
          exact body.trans (handler failure _ after (body.steady.orderly orderly) body.spares.tidy)
        next => exact body
      next => exact body

end Action

end ScopeMachine
