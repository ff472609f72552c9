import ScopeMachine.Proofs.Calls.Mannerly
import ScopeMachine.Proofs.Calls.Seats

namespace ScopeMachine

open Arena Machine Action

namespace Action

variable {Code α β : Type}

def Still (action : Action Code α) : Prop :=
  ∀ (held : List Handle) (machine : Machine Code),
    (machineLeft (action held machine)).bounds = machine.bounds

namespace Still

private theorem pure (result : α) : Still (pure result : Action Code α) := fun _ _ => rfl

private theorem fail (fault : Fault) : Still (fail fault : Action Code α) := fun _ _ => rfl

private theorem bind {first : Action Code α} {next : α → Action Code β} (former : Still first)
    (latter : ∀ result, Still (next result)) : Still (first >>= next) := by
  intro held machine
  have same := former held machine
  rw [run_bind]
  cases ran : first held machine with
  | ok result middle =>
      rw [ran] at same
      exact (latter result held middle).trans same
  | error abort middle =>
      rw [ran] at same
      exact same

private theorem get : Still (get : Action Code (Machine Code)) := fun _ _ => rfl

private theorem readHeap (question : Heap Code → α) : Still (readHeap question) := fun _ _ => rfl

private theorem newArray (elements : List Value) : Still (newArray elements : Action Code Value) :=
  fun _ _ => rfl

private theorem ofExcept (outcome : Except Fault α) : Still (ofExcept outcome : Action Code α) := by
  cases outcome with
  | ok result => exact .pure result
  | error fault => exact .fail fault

private theorem guarded {condition : Prop} [Decidable condition] {first : Action Code Unit}
    {next : Unit → Action Code α} (former : Still first) (latter : ∀ result, Still (next result)) :
    Still (if condition then first >>= next else next ()) := by
  split
  next => exact .bind former latter
  next => exact latter ()

private theorem single (type : BuiltinType) (values : List Value) :
    Still (single type values : Action Code Value) := by
  unfold Action.single
  split
  next => exact .pure _
  next => exact .fail _

private theorem cast (convert : Heap Code → Value → Except Fault α) (value : Value) :
    Still (cast convert value) :=
  .bind .get fun _ => .ofExcept _

private theorem convert (type : BuiltinType) (values : List Value) :
    Still (convert type values : Action Code Value) := by
  cases type with
  | string => exact .bind (.single _ _) fun _ => .bind (.readHeap _) fun _ => .pure _
  | boolean | exactNumber | inexactNumber =>
      exact .bind (.single _ _) fun _ => .bind (.cast _ _) fun _ => .pure _
  | array => exact .newArray values
  | _ => exact .fail _

private theorem newException (type : BuiltinType) (values : List Value) :
    Still (newException type values : Action Code Value) := by
  unfold Action.newException
  exact .guarded (.fail _) fun _ =>
    .bind .get fun _ => .bind (fun _ _ => rfl) fun _ => .pure _

end Still

variable {offset : Nat} {machine : Machine Code} {table : Table} (held : List Handle)

private theorem takeValues_watermark (seated : table.Seated offset machine.heap.memory)
    {next : List Value → Action Code α} (still : ∀ values, Still (next values)) :
    (machineLeft ((takeValues (some table) >>= next) held machine)).watermark = offset := by
  rw [run_bind, run_takeValues, andThen_ok]
  exact (congrArg Bounds.watermark (still _ held _)).trans (seated.free machine.host.shares)

theorem callType_watermark (type : BuiltinType)
    (seated : table.Seated offset machine.heap.memory) :
    (machineLeft (callType type (some table) held machine)).watermark = offset :=
  takeValues_watermark held seated (.convert type)

theorem constructType_watermark (type : BuiltinType)
    (constructible : type ≠ .function ∧ type ≠ .null)
    (seated : table.Seated offset machine.heap.memory) :
    (machineLeft (constructType type (some table) held machine)).watermark = offset := by
  unfold constructType
  rw [run_ite]
  split
  next => exact takeValues_watermark held seated (.newException type)
  next =>
    cases type with
    | object =>
        refine takeValues_watermark held seated fun values => .guarded (.fail _) fun _ => ?_
        exact .bind .get fun _ => .bind (fun _ _ => rfl) fun _ => .pure _
    | function => exact absurd rfl constructible.1
    | null => exact absurd rfl constructible.2
    | _ => exact callType_watermark held _ seated

theorem run_getFunction {function : Function Code} {id : FunctionId}
    (known : machine.heap.function? id = some function) :
    getFunction id held machine = .ok function machine := by
  unfold getFunction
  rw [run_bind, run_get, andThen_ok, known]
  rfl

theorem run_getFunction_unknown {id : FunctionId} (unknown : machine.heap.function? id = none) :
    getFunction id held machine =
      .error (.failure { fault := .internalInvariant "unknown function" }) machine := by
  unfold getFunction
  rw [run_bind, run_get, andThen_ok, unknown]
  rfl

private theorem run_callFunction {function : Function Code} {id : FunctionId} (run : Runner Code)
    (known : machine.heap.function? id = some function) (root : function.parent = .type .object)
    (receiver : Option Value) :
    callFunction run id (some table) receiver held machine =
      (enterCall function id table receiver >>= fun scope =>
        releasingScope scope (runNode run function.definition.body scope)) held machine := by
  unfold callFunction
  rw [run_bind, run_getFunction held known, andThen_ok, enterCall_bind]
  dsimp only
  rw [root]
  rfl

theorem run_callFunction_subclass {function : Function Code} {id : FunctionId}
    (run : Runner Code) (known : machine.heap.function? id = some function)
    (subclass : function.parent ≠ .type .object) (receiver : Option Value) :
    callFunction run id (some table) receiver held machine =
      (freeTable table >>= fun _ =>
        fail (.unsupportedOperation (function.name ++ ": cannot call as function")))
          held machine := by
  unfold callFunction
  rw [run_bind, run_getFunction held known, andThen_ok]
  dsimp only
  generalize function.parent = parent at subclass
  cases parent with
  | type type =>
      cases type with
      | object => exact absurd rfl subclass
      | _ => rfl
  | _ => rfl

def handlesLeft : Ending Code Value → List Handle
  | .ok result _ => result.handles
  | .error abort _ => abort.handles

private theorem machineLeft_releasingScope (scope : ScopeId) (body : Action Code Value) :
    machineLeft (releasingScope scope body held machine) =
      (machineLeft (body held machine)).releaseScope
        (handlesLeft (body held machine) ++ held) scope := by
  unfold releasingScope
  cases body held machine <;> rfl

def escapes (run : Runner Code) (id : FunctionId) (arguments : Table) (receiver : Option Value)
    (held : List Handle) (machine : Machine Code) : Bool :=
  match machine.heap.function? id with
  | none => false
  | some function =>
      match enterCall function id arguments receiver held machine with
      | .error _ _ => false
      | .ok scope entered =>
          let ending := runNode run function.definition.body scope held entered
          (machineLeft ending).isHeld (handlesLeft ending ++ held) scope

structure Seats (offset : Nat) (before : Machine Code) (scope : ScopeId)
    (entered : Machine Code) : Prop extends Enters before scope entered where
  variant : (entered.heap.scope scope).variant = .function
  pooled : (entered.heap.scope scope).pooled = (entered.heap.scope scope).members.isArena
  seated : (entered.heap.scope scope).members.Seated offset entered.heap.memory

private theorem mapArguments_seats (definition : Definition Code)
    (seated : table.Seated offset machine.heap.memory) :
    match mapArguments definition table held machine with
    | .ok mapped after => mapped.1.Seated offset after.heap.memory
    | .error _ after => after.watermark = offset := by
  rw [run_mapArguments]
  have settling := seated.settled definition
  generalize table.settled definition machine.heap.memory = settled at settling ⊢
  obtain ⟨table, memory⟩ := settled
  dsimp only
  cases definition.accepts table.length with
  | false => exact settling.free machine.host.shares
  | true =>
      cases definition.isVariadic with
      | false => exact settling
      | true => exact settling.fitted definition machine.host.shares _

private theorem enterCall_seats (tidy : machine.Tidy) (function : Function Code) (id : FunctionId)
    (receiver : Option Value) (seated : table.Seated offset machine.heap.memory) :
    match enterCall function id table receiver held machine with
    | .ok scope entered => Seats offset machine scope entered
    | .error _ after => after.watermark = offset := by
  have seats := mapArguments_seats held function.definition seated
  have stays := mapArguments_staysInFrame tidy function.definition table held
  have ⟨_, enters⟩ := enterCall_staysInFrame tidy function id table receiver held
  unfold enterCall at enters ⊢
  rw [run_bind] at enters ⊢
  cases mapped : mapArguments function.definition table held machine with
  | error abort after =>
      rw [mapped] at seats
      exact seats
  | ok result after =>
      rw [mapped] at seats stays enters
      obtain ⟨members, trailing⟩ := result
      obtain ⟨scope, entered, allocated, occupies⟩ := allocateCallScope_occupies
        stays.spares.tidy function id members trailing receiver held
      rw [machineLeft_ok] at allocated
      rw [andThen_ok] at enters ⊢
      dsimp only at enters ⊢
      have grown := seats.ensureCapacity (function.definition.body.shape.table .all).size
      have arrived := enters scope entered allocated
      rw [allocated]
      refine ⟨arrived, ?_, ?_, ?_⟩
      · rw [occupies.scope]
        rfl
      · rw [occupies.scope]
        rfl
      · rw [occupies.scope, occupies.memory]
        exact grown

/-- Running a node in a frame of its own puts everything back in place. -/
theorem runNode_restores {run : Runner Code} (mannerly : ∀ code scope, Mannerly (run code scope))
    (orderly : machine.Orderly) (tidy : machine.Tidy) (node : Node Code) (scope : ScopeId) :
    machine.Restores (machineLeft (runNode run node scope held machine)) :=
  inFrame_restoring orderly tidy node.id node.file scope held fun room =>
    mannerly node.code scope _ _ (openFrame_orderly orderly room node.id node.file scope)
      (openFrame_tidy tidy node.id node.file scope)

/-- When the scope of a call is released and nobody else holds it, the watermark is back where the
arguments began. -/
theorem Seats.release {scope : ScopeId} {entered after : Machine Code}
    (seats : Seats offset machine scope entered) (restores : entered.Restores after)
    (held : List Handle) (unheld : after.isHeld held scope = false) :
    (after.releaseScope held scope).watermark = offset := by
  have keeps := restores.spares.scope scope seats.busy
  have variant := keeps.variant.trans seats.variant
  have pooled := keeps.pooled.trans seats.pooled
  have watermark : after.watermark = entered.watermark := congrArg Bounds.watermark restores.bounds
  unfold releaseScope
  dsimp only
  rw [pooled, variant, unheld]
  cases arena : (entered.heap.scope scope).members.isArena with
  | false => exact watermark.trans (seats.seated.watermark_of_onHeap arena)
  | true => exact seats.seated.free_of_keepsPlace restores.bounds keeps.members _

theorem callFunction_watermark {run : Runner Code}
    (mannerly : ∀ code scope, Mannerly (run code scope)) (orderly : machine.Orderly)
    (tidy : machine.Tidy) {id : FunctionId} (known : (machine.heap.function? id).isSome)
    (receiver : Option Value) (seated : table.Seated offset machine.heap.memory)
    (stays : escapes run id table receiver held machine = false) :
    (machineLeft (callFunction run id (some table) receiver held machine)).watermark = offset := by
  obtain ⟨function, known⟩ := Option.isSome_iff_exists.mp known
  by_cases root : function.parent = .type .object
  · have seats := enterCall_seats held tidy function id receiver seated
    rw [run_callFunction held run known root, run_bind]
    cases entering : enterCall function id table receiver held machine with
    | error abort after =>
        rw [entering] at seats
        exact seats
    | ok scope entered =>
        rw [entering] at seats
        have restores := runNode_restores held mannerly
          (seats.staysInFrame.steady.orderly orderly) seats.staysInFrame.spares.tidy
            function.definition.body scope
        rw [andThen_ok, machineLeft_releasingScope]
        refine seats.release restores _ ?_
        unfold escapes at stays
        rw [known] at stays
        dsimp only at stays
        rw [entering] at stays
        exact stays
  · rw [run_callFunction_subclass held run known root, run_bind, run_freeTable]
    exact seated.free machine.host.shares

end Action

end ScopeMachine
