import ScopeMachine.Proofs.Calls.Nesting
import ScopeMachine.Proofs.Calls.WriteOnce
import ScopeMachine.Proofs.Evaluation.Outlasting

/-!
What `in` stands for in a call: the arguments past the parameters, in one frozen array from the
first lookup on, whichever block of the call it is looked up from.
-/

namespace ScopeMachine

open Action

namespace Heap

variable {Code : Type} {heap : Heap Code} {scope inner : ScopeId} {trailing : List Value}
  {cell : CellId} {array : ArrayId} {elements : List Value}

/-- Neither the scope of a call nor any of the blocks from `inner` out to it has a member `in`. -/
def Exposes (heap : Heap Code) (scope inner : ScopeId) : Prop :=
  (heap.scope scope).index.slot? "in" = none ∧
    ∃ path, heap.Nested scope inner path ∧ ∀ id ∈ path, heap.declared? id "in" = none

/-- A frozen array of the elements, behind a cell: neither of them takes a write. -/
structure Views (heap : Heap Code) (cell : CellId) (array : ArrayId) (elements : List Value) :
    Prop where
  value : heap.memory.value cell = .array array
  frozen : heap.array array = ⟨elements.toArray, true⟩
  refuses : heap.Refuses cell
  fixed : ∀ change, heap.modifyArray array change =
    (.error (.unsupportedOperation "write to a read-only array"), heap)

private theorem Shows.views (shows : heap.Shows cell array elements) :
    heap.Views cell array elements := by
  refine ⟨shows.value, shows.frozen,
    refuses_of_written_constant shows.spent.cell.written shows.spent.cell.constant,
      fun change => ?_⟩
  unfold modifyArray
  rw [shows.frozen]
  rfl

private theorem ownMember_trailing {invocation : Invocation}
    (kind : (heap.scope scope).kind = .function invocation)
    (unlisted : (heap.scope scope).index.slot? "in" = none) :
    heap.ownMember scope "in" =
      (some (heap.trailingCell scope invocation).1, (heap.trailingCell scope invocation).2) := by
  unfold ownMember forked
  rw [forkedWithin_self (by rw [kind]; rfl)]
  unfold storedMember
  simp [kind, unlisted]

private theorem bound_of_trailingCell (old : scope.index < heap.scopes.size)
    {invocation : Invocation}
    (kind : (heap.scope scope).kind = .function invocation) :
    ∃ invocation', ((heap.trailingCell scope invocation).2.scope scope).kind = .function
    invocation' ∧
      invocation'.trailingCell = some (heap.trailingCell scope invocation).1 := by
  unfold trailingCell
  split
  next bound => exact ⟨invocation, kind, bound⟩
  next => exact ⟨_, congrArg Scope.kind (scope_modifyScope_self old _), rfl⟩

namespace Trails

private theorem lookup (trails : heap.Trails scope trailing none) (sound : heap.memory.Sound)
    (exposes : heap.Exposes scope inner) :
    ∃ cell array seen, heap.lookup inner "in" = (some cell, seen) ∧
      heap.Seals scope seen ∧ seen.Trails scope trailing (some cell) ∧
      seen.Shows cell array trailing := by
  have old := trails.old
  obtain ⟨unlisted, path, nested, silent⟩ := exposes
  obtain ⟨invocation, kind, -, -, -⟩ := id trails
  have found := nested.lookup_eq (by rw [kind]; nofun) silent (ownMember_trailing kind unlisted)
  have seals : heap.Seals scope (heap.trailingCell scope invocation).2 := trailingCell_seals kind
  obtain ⟨bound, kind', is⟩ := bound_of_trailingCell old kind
  obtain ⟨again, kind'', rest, -, shows⟩ := seals.trails sound trails
  cases kind'.symm.trans kind''
  obtain ⟨array, shown⟩ := shows _ is
  refine ⟨_, array, _, found, seals, ⟨bound, kind', rest, fun cell given => ?_, shows⟩, shown⟩
  cases given
  exact is

private theorem lookup_eq (trails : heap.Trails scope trailing (some cell))
    (exposes : heap.Exposes scope inner) : heap.lookup inner "in" = (some cell, heap) := by
  obtain ⟨unlisted, path, nested, silent⟩ := exposes
  obtain ⟨invocation, kind, -, binds, -⟩ := trails
  refine nested.lookup_eq (by rw [kind]; nofun) silent ?_
  rw [ownMember_trailing kind unlisted]
  unfold trailingCell
  rw [binds cell rfl]

end Trails

end Heap

namespace Action

variable {Code : Type} {machine entered : Machine Code} {function : Function Code}
  {id : FunctionId} {given : Option Table} {receiver : Option Value} {held : List Handle}
  {scope : ScopeId}

def openCall (function : Function Code) (id : FunctionId) (given : Option Table)
    (receiver : Option Value) : Action Code ScopeId := do
  let table ← given.elim (allocateTable 0) pure
  enterCall function id table receiver

structure Opens (function : Function Code) (trailing : List Value) (scope : ScopeId)
    (entered : Machine Code) : Prop where
  sound : entered.heap.memory.Sound
  index : (entered.heap.scope scope).index = function.definition.body.shape.table .all
  out : scope ∉ entered.pool
  trails : entered.heap.Trails scope trailing none

private theorem enterCall_opens (tidy : machine.Tidy) (sound : machine.heap.memory.Sound)
    {table : Table}
    (aloof : table.Aloof machine.heap.memory)
    (accepts : function.definition.accepts table.length = true) :
    ∃ scope entered, enterCall function id table receiver held machine = .ok scope entered ∧
      Opens function
        ((table.values machine.heap.memory).drop function.definition.params.length) scope
          entered := by
  obtain ⟨members, middle, mapped, -, saves, -⟩ := mapArguments_ok held sound aloof accepts
  have stays := mapArguments_staysInFrame tidy function.definition table held
  rw [mapped] at stays
  obtain ⟨scope, entered, allocated, occupies⟩ := allocateCallScope_occupies stays.spares.tidy
    function id members ((table.values machine.heap.memory).drop function.definition.params.length)
    receiver held
  have sound := (saves.continues sound).sound sound
  refine ⟨scope, entered, ?_, ?_, congrArg Scope.index occupies.scope, occupies.busy.2, _,
    congrArg Scope.kind occupies.scope, rfl, nofun, nofun⟩
  · unfold enterCall
    rw [run_bind, mapped, andThen_ok]
    exact allocated
  · rw [occupies.memory]
    exact (Table.ensureCapacity_draws sound members _).continues.sound sound

private theorem tableGiven_ok (tidy : machine.Tidy) (sound : machine.heap.memory.Sound)
    (aloof : (given.getD .empty).Aloof machine.heap.memory) :
    ∃ table middle,
      (given.elim (allocateTable 0) pure : Action Code Table) held machine = .ok table middle ∧
        middle.Tidy ∧ middle.heap.memory.Sound ∧ table.Aloof middle.heap.memory ∧
        table.values middle.heap.memory = (given.getD .empty).values machine.heap.memory := by
  cases given with
  | some table => exact ⟨table, machine, rfl, tidy, sound, aloof, rfl⟩
  | none =>
      obtain ⟨table, middle, allocated, empty, -⟩ := run_allocateTable_zero held machine
      have stays := Machine.allocateTable_staysInFrame tidy held 0
      obtain ⟨memory, continues, left⟩ := @Machine.allocateTable_evolves _ machine held 0
      have bare := Machine.bare_of_allocateTable allocated
      rw [allocated] at stays left
      cases left
      refine ⟨table, _, allocated, stays.spares.tidy, continues.sound sound,
        Table.aloof_of_bare bare _, ?_⟩
      rw [Table.values_eq, empty]
      rfl

private theorem openCall_opens (tidy : machine.Tidy) (sound : machine.heap.memory.Sound)
    (aloof : (given.getD .empty).Aloof machine.heap.memory)
    (accepts : function.definition.accepts (given.getD .empty).length = true) :
    ∃ scope entered, openCall function id given receiver held machine = .ok scope entered ∧
      Opens function (((given.getD .empty).values machine.heap.memory).drop
        function.definition.params.length) scope entered := by
  obtain ⟨table, middle, made, tidy, sound, aloof, values⟩ := tableGiven_ok tidy sound aloof
  have length : table.length = (given.getD .empty).length := by
    rw [← Table.length_values, values, Table.length_values]
  unfold openCall
  rw [run_bind, made, andThen_ok, ← values]
  exact enterCall_opens tidy sound aloof (length ▸ accepts)

/-- In a call with a scope of its own `in` is looked up in one cell, whenever and from whichever
block of the call. It has the arguments past the parameters in a frozen array, which is the same
after whatever steps are taken while the scope has not gone back to the pool. The body takes such
steps, and so does whatever is run later on by those who hold on to the scope. -/
theorem trailing_view_stays (run : Runner Code) (tidy : machine.Tidy)
    (sound : machine.heap.memory.Sound) (aloof : (given.getD .empty).Aloof machine.heap.memory)
    (found : machine.heap.function? id = some function) (based : function.parent = .type .object)
    (enters : function.Enters machine.limits given receiver)
    (accepts : function.definition.accepts (given.getD .empty).length = true) :
    let trailing := ((given.getD .empty).values machine.heap.memory).drop
      function.definition.params.length
    ∃ scope entered,
      callFunction run id given receiver held machine =
        releasingScope scope (runNode run function.definition.body scope) held entered ∧
      (entered.heap.scope scope).index = function.definition.body.shape.table .all ∧
      scope ∉ entered.pool ∧
      ((∀ code inner, (run code inner).Outlasts scope) →
        entered.Outlasts scope
          (machineLeft (runNode run function.definition.body scope held entered))) ∧
      ∀ {current : Machine Code} {inner : ScopeId}, entered.Outlasts scope current →
        current.heap.Exposes scope inner →
        ∃ cell array seen, current.heap.lookup inner "in" = (some cell, seen) ∧
          ∀ {later : Machine Code}, (current.withHeap seen).Outlasts scope later →
            later.heap.Views cell array trailing ∧
            ∀ {inner' : ScopeId}, later.heap.Exposes scope inner' →
              later.heap.lookup inner' "in" = (some cell, later.heap) := by
  intro trailing
  obtain ⟨scope, entered, opened, opens⟩ := openCall_opens tidy sound aloof accepts
  refine ⟨scope, entered, ?_, opens.index, opens.out,
    fun outlasts => runNode_outlasts outlasts _ opens.out,
      fun {current inner} outlasts exposes => ?_⟩
  · have called : callFunction run id given receiver held machine =
        (openCall function id given receiver >>= fun scope =>
          releasingScope scope (runNode run function.definition.body scope)) held machine := by
      unfold openCall
      rw [callFunction_of_enters run held found based enters, bind_assoc]
    rw [called, run_bind, opened, andThen_ok]
  · obtain ⟨seals, out⟩ := Machine.Outlasts.seals outlasts opens.out
    have sound := seals.sound opens.sound
    obtain ⟨cell, array, seen, looked, binding, bound, shows⟩ :=
      (seals.trails opens.sound opens.trails).lookup sound exposes
    refine ⟨cell, array, seen, looked, fun {later} onward => ?_⟩
    have sound := binding.sound sound
    have seals := (Machine.Outlasts.seals onward out).1
    exact ⟨(shows.kept sound seals.toSeals seals.arrays).views,
      (seals.trails sound bound).lookup_eq⟩

end Action

namespace Script

/-- A function with a parameter and a rest. It puts something else in place of the rest, and looks
for all that came after the parameter. -/
def tailing : Definition Script :=
  let declarations : List Declaration := [⟨"first", .publicTier⟩, ⟨"rest", .publicTier⟩]
  { name := "tailing", params := [⟨"first", .publicTier⟩], rest := some ⟨"rest", .publicTier⟩
    body := ⟨"tailing", FunctionSource.file, .ofDeclarations declarations false,
      .seq [.assign "rest" (.lit .null), .var "in"]⟩ }

def tailed : Machine Script :=
  let (global, heap) := (Heap.ofCapacity 8 : Heap Script).newEmptyGlobal
  let (_, heap) := heap.newFunction ⟨global, .type .object, tailing, none, none⟩
  let (_, heap) := heap.newCell (.holding (.bool true))
  let (_, heap) := heap.newCell (.holding (.bool false))
  { heap, frames := .empty, pool := [], limits := ⟨8, 8, true, true⟩, global,
    sharedGlobal := global, host := {} }

theorem trailing_view_stays_tailed :
    let run : Runner Script := Expr.runnerAt 8
    ∃ scope entered, callFunction run ⟨0⟩ (some (.onHeap #[⟨0⟩, ⟨1⟩] none)) none [] tailed =
        releasingScope scope (runNode run tailing.body scope) [] entered ∧
      (∃ cell array seen, entered.heap.lookup scope "in" = (some cell, seen) ∧
        ∀ {later : Machine Script},
          ((entered.withHeap seen).withHeap (seen.assign cell "in" .null).2).Outlasts scope later →
            later.heap.Views cell array [.bool false]) ∧
      let done := machineLeft (runNode run tailing.body scope [] entered)
      ∀ {inner : ScopeId}, done.heap.Exposes scope inner →
        ∃ cell array seen, done.heap.lookup inner "in" = (some cell, seen) ∧
          seen.Views cell array [.bool false] := by
  intro run
  have tidy : tailed.Tidy := ⟨.nil, nofun, .nil, nofun⟩
  have vacant (position : Nat) : tailed.heap.memory.arena.peek position = none := rfl
  have sound : tailed.heap.memory.Sound :=
    ⟨fun named => (nomatch (vacant _).symm.trans named),
      fun named => nomatch (vacant _).symm.trans named⟩
  have aloof : (Table.onHeap #[⟨0⟩, ⟨1⟩] none).Aloof tailed.heap.memory := by
    refine ⟨fun {id} listed => ?_, fun _ position => by simp [vacant]⟩
    have given : ∀ id ∈ [CellId.mk 0, ⟨1⟩], id.index < tailed.heap.memory.cells.size := by decide
    exact given id (Array.mem_def.mp listed)
  obtain ⟨scope, entered, called, index, out, body, views⟩ :=
    @trailing_view_stays Script tailed ⟨⟨0⟩, .type .object, tailing, none, none⟩ ⟨0⟩
      (some (.onHeap #[⟨0⟩, ⟨1⟩] none)) none [] run tidy sound aloof rfl rfl
      (fun skips => Option.some_ne_none _ skips.1) rfl
  have unlisted : (entered.heap.scope scope).index.slot? "in" = none := by
    rw [index]
    decide +kernel
  refine ⟨scope, entered, called, ?_, fun {inner} exposes => ?_⟩
  · obtain ⟨cell, array, seen, looked, onward⟩ := views .refl ⟨unlisted, [], .here, nofun⟩
    refine ⟨cell, array, seen, looked, fun outlasts => ?_⟩
    exact (onward (.head ⟨.heap (.assign cell "in" .null), out⟩ outlasts)).1
  · obtain ⟨cell, array, seen, looked, onward⟩ :=
      views (body fun code inner => runnerAt_outlasts scope 8 code inner) exposes
    exact ⟨cell, array, seen, looked, (onward .refl).1⟩

end Script

end ScopeMachine
