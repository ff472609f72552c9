import ScopeMachine.Proofs.Calls.Returning
import ScopeMachine.Proofs.Storage.Landing

namespace ScopeMachine

open Arena Machine Action

namespace Machine

variable {Code : Type}

structure Houses (machine : Machine Code) (object : ScopeId) : Prop where
  busy : machine.Busy object
  variant : (machine.heap.scope object).variant = .object
  onHeap : (machine.heap.scope object).members.isArena = false

structure Rebased (offset : Nat) (object : ScopeId) (machine : Machine Code) : Prop where
  orderly : machine.Orderly
  tidy : machine.Tidy
  watermark : machine.watermark = offset
  houses : machine.Houses object

private theorem Houses.spares {before after : Machine Code} {floor : Nat} {object : ScopeId}
    (houses : before.Houses object) (spares : Spares floor before after) :
    after.Houses object :=
  have keeps := spares.scope object houses.busy
  ⟨spares.busy object houses.busy, keeps.variant.trans houses.variant,
    keeps.members.onHeap houses.onHeap⟩

private theorem Houses.kind {machine : Machine Code} {object : ScopeId}
    (houses : machine.Houses object) :
    ∃ maker, (machine.heap.scope object).kind = .object maker := by
  have variant := houses.variant
  unfold Scope.variant at variant
  cases kind : (machine.heap.scope object).kind with
  | object maker => exact ⟨maker, rfl⟩
  | _ => simp [kind, ScopeKind.variant] at variant

namespace Rebased

variable {offset : Nat} {object : ScopeId} {machine : Machine Code}

private theorem staysInFrame {after : Machine Code} (rebased : machine.Rebased offset object)
    (stays : machine.StaysInFrame after) (watermark : after.watermark = machine.watermark) :
    after.Rebased offset object :=
  ⟨stays.steady.orderly rebased.orderly, stays.spares.tidy, watermark.trans rebased.watermark,
    rebased.houses.spares stays.spares⟩

private theorem restores {after : Machine Code} (rebased : machine.Rebased offset object)
    (restores : machine.Restores after) : after.Rebased offset object :=
  rebased.staysInFrame (restores.staysInFrame rebased.orderly)
    (congrArg Bounds.watermark restores.bounds)

private theorem of_heap {heap : Heap Code} (rebased : machine.Rebased offset object)
    (keeps : machine.heap.KeepsPlace heap) (bounds : heap.bounds = machine.heap.bounds) :
    ({ machine with heap } : Machine Code).Rebased offset object :=
  rebased.staysInFrame (.of_heap rebased.tidy keeps) (congrArg Bounds.watermark bounds)

private theorem newScope (rebased : machine.Rebased offset object) (scope : Scope) :
    ({ machine with heap := (machine.heap.newScope scope).2 } : Machine Code).Rebased
      offset object :=
  rebased.of_heap (Heap.newScope_keepsPlace ..) rfl

end Rebased

end Machine

namespace Action

variable {Code α β : Type} {offset : Nat} {object scope : ScopeId}

def Keeps (Holds : Machine Code → Prop) (action : Action Code α) : Prop :=
  ∀ (held : List Handle) (machine : Machine Code),
    Holds machine → Holds (machineLeft (action held machine))

namespace Keeps

variable {Holds : Machine Code → Prop}

private theorem pure (result : α) : Keeps Holds (pure result : Action Code α) := fun _ _ => id

private theorem fail (fault : Fault) : Keeps Holds (fail fault : Action Code α) := fun _ _ => id

private theorem after {first : Action Code α} {next : α → Action Code β} {held : List Handle}
    {machine : Machine Code} (middle : Holds (machineLeft (first held machine)))
    (latter : ∀ result, Keeps Holds (next result)) :
    Holds (machineLeft ((first >>= next) held machine)) := by
  rw [run_bind]
  cases ran : first held machine with
  | ok result after =>
      rw [ran] at middle
      exact latter result held after middle
  | error abort after =>
      rw [ran] at middle
      exact middle

private theorem bind {first : Action Code α} {next : α → Action Code β} (former : Keeps Holds first)
    (latter : ∀ result, Keeps Holds (next result)) : Keeps Holds (first >>= next) :=
  fun held machine holds => after (former held machine holds) latter

private theorem guarded {condition : Prop} [Decidable condition] {first : Action Code Unit}
    {next : Unit → Action Code α} (former : Keeps Holds first)
    (latter : ∀ result, Keeps Holds (next result)) :
    Keeps Holds (if condition then first >>= next else next ()) := by
  split
  next => exact .bind former latter
  next => exact latter ()

end Keeps

def Declaring (offset : Nat) (object scope : ScopeId) (machine : Machine Code) : Prop :=
  machine.Rebased offset object ∧ machine.heap.Lands scope

private theorem declareMember_keeps (name : String) (permission : Permission) (value : Value) :
    Keeps (Declaring offset object scope)
      (declareMember scope name permission value : Action Code Unit) := by
  refine .bind ?_ fun cell => .bind ?_ fun outcome => ?_
  · intro held machine ⟨rebased, lands⟩
    have aligned := Heap.createMember_aligned machine.heap scope name permission
    exact ⟨rebased.of_heap (Heap.keepsPlace_law.createMember ..)
      (Heap.bounds_createMember lands name permission), lands.aligned aligned⟩
  · intro held machine ⟨rebased, lands⟩
    have bounds := Memory.bounds_assign machine.heap.memory cell name value
    exact ⟨rebased.of_heap (Heap.assign_keepsPlace ..) bounds, lands.aligned (.of_scopes rfl)⟩
  · cases outcome with
    | ok result => exact .pure result
    | error fault => exact .fail fault

private theorem declareParams_keeps (params : List Declaration) (values : List Value) :
    Keeps (Declaring offset object scope)
      (declareParams scope params values : Action Code Unit) := by
  induction params generalizing values with
  | nil => exact .pure ()
  | cons param params induction =>
      exact .bind (declareMember_keeps _ _ _) fun _ => induction values.tail

private theorem newArray_keeps (elements : List Value) :
    Keeps (Declaring offset object scope) (newArray elements : Action Code Value) :=
  fun _ _ ⟨rebased, lands⟩ =>
    ⟨rebased.of_heap (Heap.newArray_keepsPlace ..) rfl, lands.aligned (.of_scopes rfl)⟩

private theorem bindArguments_declaring {machine : Machine Code} (definition : Definition Code)
    {arguments : Option Table} (held : List Handle) (orderly : machine.Orderly)
    (tidy : machine.Tidy) (houses : machine.Houses object) (lands : machine.heap.Lands scope)
    (seated : (arguments.getD .empty).Seated offset machine.heap.memory) :
    Declaring offset object scope
      (machineLeft (bindArguments definition scope arguments held machine)) := by
  unfold bindArguments
  rw [run_bind, run_takeValues, andThen_ok]
  refine Keeps.guarded (.fail _) (fun _ => .bind (declareParams_keeps _ _) fun _ => ?_) held _ ?_
  · split
    next => exact .bind (newArray_keeps _) fun _ => declareMember_keeps _ _ _
    next => exact .pure ()
  cases arguments with
  | none => exact ⟨⟨orderly, tidy, seated.2, houses⟩, lands⟩
  | some table =>
      have stays : machine.StaysInFrame
          (machine.withMemory (table.free machine.host.shares machine.heap.memory)) :=
        .of_memory tidy (Table.free_shifts ..)
      exact ⟨⟨stays.steady.orderly orderly, stays.spares.tidy, seated.free machine.host.shares,
        houses.spares stays.spares⟩, lands.aligned (.of_scopes rfl)⟩

private theorem extendRoot_rebased {machine : Machine Code} (root : Value)
    {arguments : Option Table}
    (held : List Handle) (rebased : machine.Rebased offset object)
    (bare : (arguments.getD .empty).slice? = none) :
    (machineLeft (extendRoot root arguments held machine)).Rebased offset object := by
  unfold extendRoot
  split
  next =>
    cases arguments with
    | none => exact rebased
    | some table =>
        have same : table.free machine.host.shares machine.heap.memory = machine.heap.memory := by
          unfold Table.free
          rw [show table.slice? = none from bare]
        change (machine.withMemory _).Rebased offset object
        rw [same]
        exact rebased
  next => exact rebased
  next => exact rebased

private theorem superArgumentTable_rebased {machine : Machine Code} (value : Value)
    (held : List Handle)
    (rebased : machine.Rebased offset object) :
    match superArgumentTable value held machine with
    | .ok arguments after =>
        after.Rebased offset object ∧ (arguments.getD .empty).slice? = none
    | .error _ after => after.Rebased offset object := by
  cases value with
  | null => exact ⟨rebased, rfl⟩
  | array id =>
      exact ⟨rebased.of_heap (Heap.onMemory_keepsPlace _ (.of_eq (Table.bounds_ofValues ..)))
        (Table.bounds_ofValues ..), rfl⟩
  | _ => exact rebased

private theorem constructorScope_lands {heap : Heap Code} {index : Index} {id : FunctionId}
    {outer : ScopeId} (objectOld : object.index < heap.scopes.size)
    (objectKind : ∃ maker, (heap.scope object).kind = .object maker)
    (objectOnHeap : (heap.scope object).members.isArena = false)
    (outerOld : outer.index < heap.scopes.size)
    (passes : outer = object ∨ (heap.scope outer).kind = .fork object)
    (outerOnHeap : (heap.scope outer).members.isArena = false) :
    (heap.newScope (.onHeap (some outer) index (.constructor id))).2.Lands
      (heap.newScope (.onHeap (some outer) index (.constructor id))).1 := by
  obtain ⟨maker, objectKind⟩ := objectKind
  have old : ∀ {other : ScopeId}, other.index < heap.scopes.size →
      (heap.newScope (.onHeap (some outer) index (.constructor id))).2.scope other =
        heap.scope other := fun {other} known =>
    Heap.scope_newScope_ne fun same => Nat.lt_irrefl _ (same ▸ known :
      (heap.newScope (.onHeap (some outer) index (.constructor id))).1.index < heap.scopes.size)
  have fresh := Heap.scope_newScope_self heap (.onHeap (some outer) index (.constructor id))
  refine Heap.lands_constructor (?_ : _ = ScopeKind.constructor id) (?_ : _ = some outer)
    (?_ : outer = object ∨ _) (?_ : _ = ScopeKind.object maker) ?_ ?_ ?_
  · rw [fresh]
    rfl
  · rw [fresh]
    rfl
  · rwa [old outerOld]
  · rwa [old objectOld]
  · rw [fresh]
    rfl
  · rwa [old outerOld]
  · rwa [old objectOld]

section Along

variable {run : Runner Code} (mannerly : ∀ code scope, Mannerly (run code scope))

include mannerly

private theorem runNode_keeps (node : Node Code) (scope : ScopeId) :
    Keeps (Rebased offset object) (runNode run node scope) :=
  fun held _ rebased =>
    rebased.restores (runNode_restores held mannerly rebased.orderly rebased.tidy node scope)

private theorem superArguments_rebased {next : Option Table → Action Code α}
    (onward : ∀ (arguments : Option Table) (held : List Handle) (machine : Machine Code),
      machine.Rebased offset object → (arguments.getD .empty).slice? = none →
      (machineLeft (next arguments held machine)).Rebased offset object)
    (node : Node Code) (scope : ScopeId) (held : List Handle) {machine : Machine Code}
    (rebased : machine.Rebased offset object) :
    (machineLeft ((runNode run node scope >>= fun value => superArgumentTable value >>= next)
      held machine)).Rebased offset object := by
  refine Keeps.after (runNode_keeps mannerly node scope held machine rebased) fun value => ?_
  intro held machine rebased
  have made := superArgumentTable_rebased value held rebased
  rw [run_bind]
  cases ran : superArgumentTable value held machine with
  | error abort after =>
      rw [ran] at made
      exact made
  | ok arguments after =>
      rw [ran] at made
      exact onward arguments held after made.1 made.2

private theorem constructAlong_step {root : Value} {id : FunctionId} {supers : List FunctionId}
    {arguments : Option Table} {function : Function Code} (held : List Handle)
    {machine : Machine Code} (known : machine.heap.function? id = some function)
    (orderly : machine.Orderly) (tidy : machine.Tidy) (houses : machine.Houses object)
    (lands : machine.heap.Lands scope)
    (seated : (arguments.getD .empty).Seated offset machine.heap.memory)
    (beyond : ∀ {scope : ScopeId} {arguments : Option Table} (held : List Handle)
      {machine : Machine Code}, machine.Rebased offset object → machine.heap.Lands scope →
      (arguments.getD .empty).slice? = none →
      (machineLeft (constructAlong run object root supers scope arguments held machine)).Rebased
        offset object) :
    (machineLeft (constructAlong run object root (id :: supers) scope arguments held
      machine)).Rebased offset object := by
  unfold constructAlong
  rw [run_bind, run_getFunction held known, andThen_ok, run_bind]
  have bound := bindArguments_declaring function.definition held orderly tidy houses lands seated
  cases binding : bindArguments function.definition scope arguments held machine with
  | error abort after =>
      rw [binding] at bound
      exact bound.1
  | ok _ after =>
      rw [binding] at bound
      obtain ⟨rebased, lands⟩ := bound
      have body : Keeps (Rebased offset object)
          (do let _ ← runNode run function.definition.body scope : Action Code Unit) :=
        .bind (runNode_keeps mannerly function.definition.body scope) fun _ => .pure ()
      rw [andThen_ok]
      cases supers with
      | nil =>
          have onward (arguments : Option Table) (held : List Handle) (machine : Machine Code)
              (rebased : machine.Rebased offset object)
              (bare : (arguments.getD .empty).slice? = none) :=
            Keeps.after (extendRoot_rebased root held rebased bare) fun _ : Unit => body
          cases function.definition.superArguments with
          | none => exact onward none held after rebased rfl
          | some node => exact superArguments_rebased mannerly onward node scope held rebased
      | cons parent more =>
          have onward (arguments : Option Table) (held : List Handle) (machine : Machine Code)
              (rebased : machine.Rebased offset object)
              (bare : (arguments.getD .empty).slice? = none) :
              (machineLeft ((getFunction parent >>= fun parentFunction => do
                let fork ← Action.newScope
                  (.onHeap (some parentFunction.enclosing) .empty (.fork object))
                let inner ← constructorScope parentFunction parent fork
                holding [.scope inner]
                  (constructAlong run object root (parent :: more) inner arguments)
                let _ ← runNode run function.definition.body scope) held machine)).Rebased
                  offset object := by
            rw [run_bind]
            cases found : machine.heap.function? parent with
            | none =>
                rw [run_getFunction_unknown held found]
                exact rebased
            | some parentFunction =>
                rw [run_getFunction held found, andThen_ok, run_bind, run_newScope, andThen_ok,
                  run_bind]
                unfold constructorScope
                rw [run_newScope, andThen_ok]
                have forked := rebased.newScope
                  (.onHeap (some parentFunction.enclosing) .empty (.fork object))
                refine Keeps.after ?_ fun _ : Unit => body
                refine beyond _ (forked.newScope _) ?_ bare
                have fresh := Heap.scope_newScope_self machine.heap
                  (.onHeap (some parentFunction.enclosing) .empty (.fork object))
                refine constructorScope_lands forked.houses.busy.1 forked.houses.kind
                  forked.houses.onHeap ?_ (.inr ?_) ?_
                · exact Nat.lt_of_lt_of_eq (Nat.lt_succ_self _) (Array.size_push _).symm
                · rw [fresh]
                  rfl
                · rw [fresh]
                  rfl
          cases function.definition.superArguments with
          | none => exact onward none held after rebased rfl
          | some node => exact superArguments_rebased mannerly onward node scope held rebased

private theorem constructAlong_rebased {root : Value} (supers : List FunctionId) {scope : ScopeId}
    {arguments : Option Table} (held : List Handle) {machine : Machine Code}
    (rebased : machine.Rebased offset object) (lands : machine.heap.Lands scope)
    (bare : (arguments.getD .empty).slice? = none) :
    (machineLeft (constructAlong run object root supers scope arguments held machine)).Rebased
      offset object := by
  induction supers generalizing scope arguments held machine with
  | nil => exact extendRoot_rebased root held rebased bare
  | cons id supers induction =>
      cases found : machine.heap.function? id with
      | none =>
          unfold constructAlong
          rw [run_bind, run_getFunction_unknown held found]
          exact rebased
      | some function =>
          exact constructAlong_step mannerly held found rebased.orderly rebased.tidy rebased.houses
            lands (.of_bare bare rebased.watermark) fun held _ => induction held

end Along

private theorem lineage_of_known {heap : Heap Code} {id : FunctionId} {function : Function Code}
    (known : heap.function? id = some function) :
    ∃ supers, (heap.lineage id).functions = id :: supers := by
  have old : id.index < heap.functions.size := (Array.getElem?_eq_some_iff.mp known).1
  unfold Heap.lineage
  obtain ⟨budget, size⟩ : ∃ budget, heap.functions.size = budget + 1 :=
    ⟨heap.functions.size - 1, by omega⟩
  rw [size]
  unfold Heap.lineageWithin
  rw [known]
  dsimp only
  split
  next => exact ⟨_, rfl⟩
  next => exact ⟨[], rfl⟩

section Whole

variable {run : Runner Code} (mannerly : ∀ code scope, Mannerly (run code scope))
  {machine : Machine Code} {table : Table} (held : List Handle)

include mannerly

theorem extendFunction_watermark (orderly : machine.Orderly) (tidy : machine.Tidy)
    {id : FunctionId} (known : (machine.heap.function? id).isSome)
    (houses : machine.Houses object) (seated : table.Seated offset machine.heap.memory) :
    (machineLeft (extendFunction run id object (some table) held machine)).watermark =
      offset := by
  obtain ⟨function, known⟩ := Option.isSome_iff_exists.mp known
  obtain ⟨supers, lineage⟩ := lineage_of_known known
  have forked := newScope_occupies tidy (.onHeap (some function.enclosing) .empty (.fork object))
  have inner (outer : ScopeId) := newScope_occupies forked.staysInFrame.spares.tidy
    (.onHeap (some outer) (function.definition.body.shape.table .privateOnly) (.constructor id))
  have stays (outer : ScopeId) := forked.staysInFrame.trans (inner outer).staysInFrame
  have housed := houses.spares forked.staysInFrame.spares
  unfold extendFunction
  rw [run_bind, run_getFunction held known, andThen_ok, run_bind, run_get, andThen_ok,
    run_bind, run_newScope, andThen_ok, run_bind, constructorScope, run_newScope, andThen_ok,
    run_holding, lineage]
  refine (constructAlong_step mannerly _ (?_ : _ = some function) ((stays _).steady.orderly orderly)
    (stays _).spares.tidy (houses.spares (stays _).spares) ?_ seated fun held _ =>
      constructAlong_rebased mannerly supers held).watermark
  · exact known
  refine constructorScope_lands housed.busy.1 housed.kind housed.onHeap forked.busy.1 (.inr ?_) ?_
  · rw [forked.scope]
    rfl
  · rw [forked.scope]
    rfl

theorem constructFunction_watermark (orderly : machine.Orderly) (tidy : machine.Tidy)
    {id : FunctionId} (known : (machine.heap.function? id).isSome)
    (seated : table.Seated offset machine.heap.memory) :
    (machineLeft (constructFunction run id (some table) held machine)).watermark = offset := by
  obtain ⟨function, known⟩ := Option.isSome_iff_exists.mp known
  obtain ⟨supers, lineage⟩ := lineage_of_known known
  have made := newScope_occupies tidy (.onHeap (some function.enclosing)
    (function.definition.body.shape.table .publicProtected) (.object (some id)))
  have inner (outer : ScopeId) := newScope_occupies made.staysInFrame.spares.tidy
    (.onHeap (some outer) (function.definition.body.shape.table .privateOnly) (.constructor id))
  have stays (outer : ScopeId) := made.staysInFrame.trans (inner outer).staysInFrame
  have houses : Houses _ _ := ⟨made.busy, congrArg Scope.variant made.scope,
    congrArg (fun scope => scope.members.isArena) made.scope⟩
  unfold constructFunction
  rw [run_bind, run_getFunction held known, andThen_ok, run_bind, run_get, andThen_ok,
    run_bind, run_newScope, andThen_ok, run_bind, constructorScope, run_newScope, andThen_ok,
    lineage]
  refine (?_ : Rebased offset (machine.heap.newScope (.onHeap (some function.enclosing)
    (function.definition.body.shape.table .publicProtected) (.object (some id)))).1 _).watermark
  refine Keeps.after ?_ fun _ : Unit => .pure _
  refine constructAlong_step mannerly _ (?_ : _ = some function) ((stays _).steady.orderly orderly)
    (stays _).spares.tidy (houses.spares (inner _).staysInFrame.spares) ?_ seated fun held _ =>
      constructAlong_rebased mannerly supers held
  · exact known
  exact constructorScope_lands houses.busy.1 houses.kind houses.onHeap made.busy.1 (.inl rfl)
    houses.onHeap

end Whole

end Action

end ScopeMachine
