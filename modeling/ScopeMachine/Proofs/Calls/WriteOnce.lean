import ScopeMachine.Proofs.Calls.Entering
import ScopeMachine.Proofs.Calls.Mannerly
import ScopeMachine.Proofs.Calls.Parameters
import ScopeMachine.Proofs.Evaluation.Constants

/-!
Constant parameters. A constructor's scope declares them, so no assignment gets through to them.
In a call the cells of the arguments stand for the parameters as they are, whatever the parameters
are declared as.
-/

namespace ScopeMachine

open Memory Action

namespace Heap

variable {Code : Type} {heap : Heap Code} {cell : CellId} {scope : ScopeId} {name : String}

/-- Every assignment to the cell fails and changes nothing. -/
def Refuses (heap : Heap Code) (cell : CellId) : Prop :=
  ∀ name value, heap.assign cell name value = (.error (.constReassignment name), heap)

def Yields (heap : Heap Code) (cell : CellId) : Prop :=
  ∀ name value, ∃ heap', heap.assign cell name value = (.ok (), heap') ∧
    heap'.memory.value cell = value

theorem refuses_of_written_constant (written : (heap.cell cell).written = true)
    (constant : (heap.cell cell).permission.isConst = true) : heap.Refuses cell := by
  intro name value
  unfold Heap.cell at written constant
  unfold Heap.assign Memory.assign Cell.assign
  rw [written, constant]
  rfl

private theorem yields_of_not_written_constant (old : cell.index < heap.memory.cells.size)
    (free : ¬ ((heap.cell cell).written = true ∧ (heap.cell cell).permission.isConst = true)) :
    heap.Yields cell := by
  intro name value
  unfold Heap.cell at free
  unfold Heap.assign Memory.assign Cell.assign
  rw [← Bool.and_eq_true, Bool.not_eq_true] at free
  rw [free]
  exact ⟨_, rfl, congrArg Cell.value (cell_modifyCell_self old _)⟩

private theorem lookup_in_call {invocation : Invocation} {slot : Nat}
    (here : scope.index < heap.scopes.size)
    (called : (heap.scope scope).kind = .function invocation)
    (known : (heap.scope scope).index.slot? name = some slot) (sound : heap.memory.Sound)
    (aloof : (heap.scope scope).members.Aloof heap.memory)
    (below : slot < (heap.scope scope).members.length)
    (valid : ((heap.scope scope).members.content slot heap.memory).isInvalid = false) :
    ∃ cell heap', heap.lookup scope name = (some cell, heap') ∧ heap'.arrays = heap.arrays ∧
      cell.index < heap'.memory.cells.size ∧
      heap'.cell cell = (heap.scope scope).members.content slot heap.memory := by
  have saves := Table.cellAt_saves (heap.scope scope).members slot heap.memory
  have reached := Table.cell?_cellAt (heap.scope scope).members slot heap.memory
  have content := (Table.content_of_cell? reached).symm.trans (saves.content sound aloof below)
  have old := (saves.aloof sound aloof).old_of_cell? ((saves.continues sound).sound sound) reached
  obtain ⟨budget, size⟩ := Nat.exists_eq_succ_of_ne_zero (Nat.ne_zero_of_lt here)
  refine ⟨(heap.slotCell scope slot).1, (heap.slotCell scope slot).2, ?_, rfl, old, content⟩
  have present : ((heap.slotCell scope slot).2.cell (heap.slotCell scope slot).1).isInvalid =
      false := (congrArg Cell.isInvalid content).trans valid
  unfold lookup chain
  rw [size, chainWithin, lookupAlong_cons]
  unfold ownMember forked
  rw [forkedWithin_self (by rw [called]; rfl)]
  unfold storedMember
  simp only [called, known, present, Bool.false_eq_true, if_false, orElse_some]

end Heap

namespace Action

variable {Code : Type} {machine : Machine Code} {arguments : Table} {values : List Value}
  {definition : Definition Code}

private theorem elements_of_arrays {heap heap' : Heap Code} (same : heap'.arrays = heap.arrays)
    (array : ArrayId) : heap'.elements array = heap.elements array := by
  unfold Heap.elements Heap.array
  rw [same]

structure Passes (definition : Definition Code) (arguments : Table) (before : Heap Code)
    (place : Nat) (after : Heap Code) (cell : Cell) : Prop where
  gives : definition.Gives (arguments.values before.memory) after place cell.value
  argument : place < definition.params.length →
    cell = arguments.content place before.memory
  rest : ¬ place < definition.params.length → cell.written = false ∧ cell.isInvalid = false

private theorem Passes.of_arrays {before heap heap' : Heap Code} {place : Nat} {cell : Cell}
    (passes : Passes definition arguments before place heap cell)
    (same : heap'.arrays = heap.arrays) : Passes definition arguments before place heap' cell := by
  refine ⟨?_, passes.argument, passes.rest⟩
  have gives := passes.gives
  unfold Definition.Gives at gives ⊢
  simpa only [elements_of_arrays same] using gives

section

variable {place : Nat} (held : List Handle) (clean : machine.heap.memory.Clean)
  (fits : arguments.Fits machine.heap.memory)

include clean fits

private theorem mapArguments_passes (accepts : definition.accepts arguments.length = true)
    (inside : place < definition.params.length + definition.rest.toList.length) :
    ∃ table after,
      mapArguments definition arguments held machine =
        .ok (table, (arguments.values machine.heap.memory).drop definition.params.length) after ∧
      after.heap.memory.Sound ∧ table.Aloof after.heap.memory ∧ place < table.length ∧
      Passes definition arguments machine.heap place after.heap
        (table.content place after.heap.memory) := by
  obtain ⟨table, after, mapped, laysOut, saves, rest⟩ :=
    mapArguments_ok held clean.sound fits.aloof accepts
  have below : place < table.length := laysOut.length ▸ inside
  have holds : table.value? place after.heap.memory =
      some (table.content place after.heap.memory).value := by
    rw [Table.value?_eq, if_pos below]
  refine ⟨table, after, mapped, (saves.continues clean.sound).sound clean.sound,
    saves.aloof clean.sound fits.aloof, below, ?_⟩
  by_cases early : place < definition.params.length
  · refine ⟨(if_pos early).mpr ((laysOut.param place early).symm.trans holds), fun _ => ?_,
      (absurd early ·)⟩
    exact saves.content clean.sound fits.aloof early
  · -- past the parameters there is only the rest
    cases given : definition.rest with
    | none =>
        rw [given] at inside
        exact absurd inside early
    | some declaration =>
        rw [given] at inside rest
        obtain rfl : place = definition.params.length :=
          Nat.le_antisymm (Nat.le_of_lt_succ inside) (Nat.le_of_not_lt early)
        obtain ⟨array, value, elements⟩ := laysOut.rest (by rw [given]; rfl)
        obtain ⟨_, fresh⟩ := rest clean fits rfl
        refine ⟨(if_neg early).mpr ⟨array, Option.some.inj (holds.symm.trans value), elements⟩,
          (absurd · early), fun _ => ?_⟩
        rw [fresh]
        exact ⟨rfl, show Permission.publicTier.isInvalid = false by decide⟩

private theorem enterCall_passes (function : Function Code) (id : FunctionId)
    (receiver : Option Value)
    (tidy : machine.Tidy) (accepts : function.definition.accepts arguments.length = true)
    {name : String}
    (inside : place < function.definition.params.length + function.definition.rest.toList.length)
    (known : (function.definition.body.shape.table .all).slot? name = some place)
    (valid : place < function.definition.params.length →
      (arguments.content place machine.heap.memory).isInvalid = false) :
    ∃ scope entered cell after,
      enterCall function id arguments receiver held machine = .ok scope entered ∧
        entered.heap.lookup scope name = (some cell, after) ∧
        cell.index < after.memory.cells.size ∧
        Passes function.definition arguments machine.heap place after (after.cell cell) := by
  obtain ⟨table, mapped, mapping, sound, aloof, below, passes⟩ :=
    mapArguments_passes held clean fits accepts inside
  have tidy : mapped.Tidy := by
    have staysInFrame := mapArguments_staysInFrame tidy function.definition arguments held
    rw [mapping] at staysInFrame
    exact staysInFrame.spares.tidy
  have grows := Table.ensureCapacity_saves table.length table
    (function.definition.body.shape.table .all).size mapped.heap.memory
  have longer := Table.length_ensureCapacity table
    (function.definition.body.shape.table .all).size mapped.heap.memory
  have kept := grows.content sound aloof below
  have present : (table.content place mapped.heap.memory).isInvalid = false := by
    by_cases early : place < function.definition.params.length
    · exact (congrArg Cell.isInvalid (passes.argument early)).trans (valid early)
    · exact (passes.rest early).2
  obtain ⟨scope, entered, allocated, there, here, memory, arrays⟩ :=
    allocateCallScope_ok tidy.pool_old held
    function.enclosing (function.definition.body.shape.table .all) table
    { function := id, receiver, trailing :=
      (arguments.values machine.heap.memory).drop function.definition.params.length }
  obtain ⟨cell, after, found, same, old, content⟩ := @Heap.lookup_in_call _ entered.heap scope name
    _ place there (congrArg Scope.kind here) (by rw [here]; exact known)
    (by rw [memory]; exact (grows.continues sound).sound sound)
    (by rw [here, memory]; exact grows.aloof sound aloof) (by rw [here]; exact longer ▸ below)
    (by rw [here, memory]; exact (congrArg Cell.isInvalid kept).trans present)
  rw [here, memory] at content
  refine ⟨scope, entered, cell, after, ?_, found, old, ?_⟩
  · unfold enterCall
    rw [run_bind, mapping, andThen_ok]
    exact allocated
  · rw [content.trans kept]
    exact passes.of_arrays (same.trans arrays)

end

variable {values : List Value} {function : Function Code} {id : FunctionId}
  {given : Option Table} {place : Nat} {declaration : Declaration}

private theorem callFunction_enters (run : Runner Code) (held : List Handle) (tidy : machine.Tidy)
    (clean : machine.heap.memory.Clean) (fits : (given.getD .empty).Fits machine.heap.memory)
    (found : machine.heap.function? id = some function) (based : function.parent = .type .object)
    {receiver : Option Value} (enters : function.Enters machine.limits given receiver) :
    ∃ table before,
      callFunction run id given receiver held machine =
        (enterCall function id table receiver >>= fun scope =>
          releasingScope scope (runNode run function.definition.body scope)) held before ∧
      before.Tidy ∧ before.heap.memory.Clean ∧ table.Fits before.heap.memory ∧
      table.length = (given.getD .empty).length ∧
      ∀ place, table.content place before.heap.memory =
        (given.getD .empty).content place machine.heap.memory := by
  have called := callFunction_of_enters run held found based enters
  cases given with
  | some table => exact ⟨table, machine, called, tidy, clean, fits, rfl, fun _ => rfl⟩
  | none =>
      have bare (table : Table) (empty : table.length = 0) (memory : Memory) (place : Nat) :
          table.content place memory = .blank :=
        Table.content_of_cell?_none (Table.cell?_of_length_le (empty ▸ Nat.zero_le place) memory)
      have staysInFrame := Machine.allocateTable_staysInFrame tidy held 0
      rw [called, run_bind]
      rw [Option.elim_none, run_allocateTable] at *
      split at staysInFrame
      next framed =>
        rw [if_pos framed]
        exact ⟨.empty, machine, rfl, tidy, clean, fits, rfl, fun _ => rfl⟩
      next framed =>
        rw [if_neg framed]
        have allocated := Table.allocate_alters clean 0
        exact ⟨_, _, rfl, staysInFrame.spares.tidy, allocated.clean, allocated.fits, rfl,
          fun place => (bare _ rfl _ place).trans (bare .empty rfl _ place).symm⟩

private theorem bound_constant_refuses (detached : machine.heap.Detached) {scope : ScopeId}
    {after : Machine Code} {cell : CellId} {value : Value}
    (staysDetached : machine.heap.StaysDetached after.heap)
    (undeclared : (machine.heap.named (machine.heap.landing declaration.permission scope)
      declaration.name).declared = false)
    (constant : declaration.permission.isConst = true)
    (content : after.heap.cell cell =
      (machine.heap.named (machine.heap.landing declaration.permission scope)
        declaration.name).bound declaration.permission value)
    (listed : ∃ id, cell ∈ (after.heap.scope id).members.heapCells) {α : Type}
    {body : Action Code α} (composed : Composed body) (held : List Handle) :
    (machineLeft (body held after)).heap.Refuses cell := by
  obtain ⟨id, listed⟩ := listed
  have aloof := (staysDetached.detached detached).aloof id
  have stated : (after.heap.memory.cell cell).Spent := by
    change (after.heap.cell cell).Spent
    rw [content]
    refine ⟨Cell.declared_declare .., rfl, ?_⟩
    change ((machine.heap.named _ _).declare declaration.permission).permission.isConst = true
    unfold Cell.declare
    rw [undeclared]
    exact (declaration.permission.contains_declared rfl).trans constant
  have spent := (composed.guards held after).spent (staysDetached.detached detached).sound
    ⟨aloof.old listed, aloof.unnamed listed, stated⟩
  exact Heap.refuses_of_written_constant spent.cell.written spent.cell.constant

/-- A parameter that is declared as a constant. Where a constructor declares it anew it refuses
every assignment, whatever has been evaluated since. In a call it refuses an assignment only if its
argument came in a constant that had been written; else it takes the new value. -/
theorem constant_parameter_refuses_iff (run : Runner Code) (function : Function Code)
    (id : FunctionId) (given : Option Table) (held : List Handle) (tidy : machine.Tidy)
    (detached : machine.heap.Detached) (clean : machine.heap.memory.Clean)
    (fits : (given.getD .empty).Fits machine.heap.memory)
    (valued : (given.getD .empty).values machine.heap.memory = values)
    (accepts : function.definition.accepts values.length = true)
    (declares : (function.definition.params ++ function.definition.rest.toList)[place]? =
      some declaration)
    (constant : declaration.permission.isConst = true) :
    let definition := function.definition
    let own := (given.getD .empty).content place machine.heap.memory
    (∀ {scope object enclosing : ScopeId} {maker : FunctionId},
      definition.argumentNames.Nodup →
      (∀ declaration ∈ definition.params ++ definition.rest.toList,
        declaration.permission.isInvalid = false) →
      machine.heap.Targets scope object enclosing maker → machine.heap.Grounded scope →
      machine.heap.Awaits scope object (definition.params ++ definition.rest.toList) →
      (machine.heap.named (machine.heap.landing declaration.permission scope)
        declaration.name).declared = false →
      ∃ cell after, bindArguments definition scope given held machine = .ok () after ∧
        after.heap.lookup scope declaration.name = (some cell, after.heap) ∧
        definition.Gives values after.heap place (after.heap.memory.value cell) ∧
        ∀ {α : Type} {body : Action Code α}, Composed body → ∀ held,
          (machineLeft (body held after)).heap.Refuses cell) ∧
    (machine.heap.function? id = some function → function.parent = .type .object →
      (definition.body.shape.table .all).slot? declaration.name = some place →
      (place < definition.params.length → own.isInvalid = false) →
      ∀ receiver, ∃ scope entered cell after,
        callFunction run id given receiver held machine =
          releasingScope scope (runNode run definition.body scope) held entered ∧
        entered.heap.lookup scope declaration.name = (some cell, after) ∧
        definition.Gives values after place (after.memory.value cell) ∧
        if place < definition.params.length ∧ own.written = true ∧ own.permission.isConst = true
        then after.Refuses cell else after.Yields cell) := by
  refine ⟨fun distinct valid targets grounded awaits undeclared => ?_,
    fun found based known valid receiver => ?_⟩
  · obtain ⟨after, binding, staysDetached, binds⟩ :=
      bindArguments_binds function.definition given held
      valued distinct valid accepts targets grounded awaits
    obtain ⟨cell, value, here, content, gives, listed⟩ := binds declares
    refine ⟨cell, after, binding, here, ?_, fun composed held => ?_⟩
    · have stored : after.heap.memory.value cell = value := congrArg Cell.value content
      rw [stored]
      exact gives
    · exact bound_constant_refuses detached staysDetached undeclared constant content listed
        composed held
  · have inside : place < function.definition.params.length +
        function.definition.rest.toList.length := by
      rw [← List.length_append]
      exact (List.getElem?_eq_some_iff.mp declares).1
    have enters : function.Enters machine.limits given receiver := by
      rintro ⟨-, -, -, skips, -⟩
      simp only [Definition.skipsScope, Bool.and_eq_true, List.isEmpty_iff,
        Option.isNone_iff_eq_none] at skips
      rw [skips.1.2, skips.2] at inside
      exact Nat.not_lt_zero _ inside
    obtain ⟨table, before, called, tidy, clean, fits, length, contents⟩ :=
      callFunction_enters run held tidy clean fits found based enters
    have same : table.values before.heap.memory = values := by
      rw [← valued, Table.values_eq, Table.values_eq, length]
      exact List.map_congr_left fun slot _ => congrArg Cell.value (contents slot)
    obtain ⟨scope, entered, cell, after, entering, here, old, passes⟩ :=
      enterCall_passes held clean fits function id receiver tidy
        (by rw [← Table.length_values table before.heap.memory, same]; exact accepts) inside known
        fun early => (congrArg Cell.isInvalid (contents place)).trans (valid early)
    refine ⟨scope, entered, cell, after, ?_, here, same ▸ passes.gives, ?_⟩
    · rw [called, run_bind, entering, andThen_ok]
    · have argument (early : place < function.definition.params.length) :=
        (passes.argument early).trans (contents place)
      split
      next locked =>
        obtain ⟨early, written, constant⟩ := locked
        rw [← argument early] at written constant
        exact Heap.refuses_of_written_constant written constant
      next free =>
        refine Heap.yields_of_not_written_constant old fun locked => ?_
        by_cases early : place < function.definition.params.length
        · rw [argument early] at locked
          exact free ⟨early, locked⟩
        · cases (passes.rest early).1.symm.trans locked.1

private theorem pushEach_unwritten {table : Table} {memory : Memory} (clean : memory.Clean)
    (fits : table.Fits memory) (unwritten : ∀ slot, (table.content slot memory).written = false)
    (values : List Value) (slot : Nat) :
    ((table.pushEach values memory).1.content slot (table.pushEach values memory).2).written =
      false := by
  induction values generalizing table memory with
  | nil => exact unwritten slot
  | cons value values induction =>
      have alters := Table.write_alters clean fits table.length (·.reset value)
      refine @induction (table.push value memory).1 (table.push value memory).2 alters.clean
        alters.fits fun other => ?_
      have content := Table.write_content clean fits table.length (·.reset value) other
      refine (congrArg Cell.written content).trans ?_
      split
      next => rfl
      next => exact unwritten other

private theorem argumentTable_unwritten (clean : machine.heap.memory.Clean) (held : List Handle)
    {table : Table} {after : Machine Code}
    (made : argumentTable values held machine = .ok (some table) after) (slot : Nat) :
    (table.content slot after.heap.memory).written = false := by
  have bare {table : Table} (empty : table.length = 0) (memory : Memory) (slot : Nat) :
      (table.content slot memory).written = false := by
    rw [Table.content_of_cell?_none (Table.cell?_of_length_le (empty ▸ Nat.zero_le slot) memory)]
    rfl
  unfold argumentTable at made
  split at made
  next => cases made
  next =>
    rw [run_bind, run_allocateTable] at made
    split at made
    next =>
      cases made
      exact pushEach_unwritten clean (Table.fits_empty _) (bare rfl _) values slot
    next =>
      rw [run_ofExcept] at made
      cases allocated : machine.heap.memory.arena.allocate values.length with
      | error fault =>
          rw [allocated] at made
          cases made
      | ok result =>
          rw [allocated] at made
          obtain ⟨offset, arena⟩ := result
          obtain ⟨rfl, -, rfl⟩ := Arena.allocate_eq_ok allocated
          cases made
          have alters := Table.allocate_alters clean values.length
          exact pushEach_unwritten alters.clean alters.fits (bare rfl _) values slot

/-- A function with a constant parameter and a constant rest. -/
def guarding : Definition Unit :=
  let declarations : List Declaration := [⟨"held", .const⟩, ⟨"more", .const⟩]
  { name := "guarding", body := ⟨"guarding", "", .ofDeclarations declarations false, ()⟩,
    params := [⟨"held", .const⟩], rest := some ⟨"more", .const⟩ }

/-- The function, and a new object with the scope of its constructor. -/
def offering : Machine Unit :=
  let (global, heap) := (Heap.ofCapacity 8 : Heap Unit).newEmptyGlobal
  let (_, heap) := heap.newFunction ⟨global, .type .object, guarding, none, none⟩
  let (object, heap) := heap.newScope (.onHeap (some global) .empty (.object (some ⟨0⟩)))
  let (_, heap) := heap.newScope (.onHeap (some object) .empty (.constructor ⟨0⟩))
  { heap, frames := .empty, pool := [], limits := ⟨8, 8, true, true⟩, global,
    sharedGlobal := global, host := {} }

/-- A machine with an object under construction and an argument to pass on. -/
def offered : Machine Unit := machineLeft (argumentTable [.bool true] [] offering)

private theorem argumentTable_offering :
    argumentTable [.bool true] [] offering = .ok (some (.onHeap #[⟨0⟩] none)) offered := rfl

private theorem offering_detached : offering.heap.Detached := by
  have empty : (Heap.ofCapacity 8 : Heap Unit).Detached := Heap.ofCapacity_detached 8
  have global := (Heap.newEmptyGlobal_staysDetached _).detached empty
  have function (heap : Heap Unit) (made : Function Unit) :
      heap.StaysDetached (heap.newFunction made).2 := .of_members rfl fun _ => .inl rfl
  exact (Heap.newScope_staysDetached _ rfl).detached
    ((Heap.newScope_staysDetached _ rfl).detached ((function _ _).detached global))

theorem constant_parameter_refuses_iff_guarding :
    let arguments : Table := .onHeap #[⟨0⟩] none
    let run : Runner Unit := fun _ _ => pure .null
    argumentTable [.bool true] [] offering = .ok (some arguments) offered ∧
    (∃ cell after, bindArguments guarding ⟨2⟩ (some arguments) [] offered = .ok () after ∧
      after.heap.lookup ⟨2⟩ "held" = (some cell, after.heap) ∧
      after.heap.memory.value cell = .bool true ∧ after.heap.Refuses cell) ∧
    ∃ scope entered cell after,
      callFunction run ⟨0⟩ (some arguments) none [] offered =
        releasingScope scope (runNode run guarding.body scope) [] entered ∧
      entered.heap.lookup scope "held" = (some cell, after) ∧
      after.memory.value cell = .bool true ∧ after.Yields cell := by
  have targets : offered.heap.Targets ⟨2⟩ ⟨1⟩ ⟨0⟩ ⟨0⟩ :=
    ⟨rfl, ⟨_, rfl⟩, ⟨1⟩, rfl, rfl, .inl rfl⟩
  have global : offered.heap.Grounded ⟨0⟩ := .intro (by decide) (fun _ => rfl) (by nofun)
  have grounded : offered.heap.Grounded ⟨2⟩ :=
    .outward (by decide) rfl rfl (.outward (by decide) rfl rfl global)
  have tidy : offered.Tidy := ⟨.nil, nofun, .nil, nofun⟩
  have bare : offering.heap.memory.Clean := ⟨offering_detached.sound, fun _ => rfl⟩
  have passed : ∀ slot,
      ((Table.onHeap #[⟨0⟩] none).content slot offered.heap.memory).written = false :=
    argumentTable_unwritten bare [] argumentTable_offering
  have detached : offered.heap.Detached := (Heap.newCell_staysDetached _ _).detached
    offering_detached
  have vacant (position : Nat) : offered.heap.memory.arena.peek position = none := rfl
  have clean : offered.heap.memory.Clean := ⟨detached.sound, fun _ => rfl⟩
  have fits : (Table.onHeap #[⟨0⟩] none).Fits offered.heap.memory := by
    refine ⟨fun spans => (Table.not_spans_onHeap spans).elim, nofun, nofun, fun listed => ?_,
      fun _ position => by simp [vacant], fun found again => ?_⟩
    · obtain rfl := List.mem_singleton.mp (Array.mem_def.mp listed)
      decide
    · have first := (Array.getElem?_eq_some_iff.mp found).1
      have second := (Array.getElem?_eq_some_iff.mp again).1
      exact (Nat.lt_one_iff.mp first).trans (Nat.lt_one_iff.mp second).symm
  have declares : (guarding.params ++ guarding.rest.toList)[0]? = some ⟨"held", .const⟩ := rfl
  have valued : (Table.onHeap #[⟨0⟩] none).values offered.heap.memory = [.bool true] := rfl
  obtain ⟨constructs, calls⟩ := constant_parameter_refuses_iff (fun _ _ => pure .null)
    ⟨⟨0⟩, .type .object, guarding, none, none⟩ ⟨0⟩ (some (.onHeap #[⟨0⟩] none)) []
    tidy detached clean fits valued (by decide) declares (by decide)
  have undeclared : (offered.heap.named (offered.heap.landing .const ⟨2⟩) "held").declared =
      false := by
    rw [targets.landing_eq (by decide), Heap.named_of_bare rfl]
    rfl
  obtain ⟨cell, after, binding, here, gives, refuses⟩ := constructs (by decide) (by decide) targets
    grounded (Heap.awaits_of_new rfl rfl (by decide) (by decide)) undeclared
  obtain ⟨scope, entered, cell', after', calling, found, gives', yields⟩ :=
    calls rfl rfl (by decide +kernel) (fun _ => by decide) none
  rw [if_neg fun locked => Bool.eq_false_iff.mp (passed 0) locked.2.1] at yields
  exact ⟨argumentTable_offering,
    ⟨cell, after, binding, here, Option.some.inj gives.symm, refuses (.pure ()) []⟩,
    scope, entered, cell', after', calling, found, Option.some.inj gives'.symm, yields⟩

end Action

namespace Script

def reassigning : Definition Script :=
  let declaration : Declaration := ⟨"x", .const⟩
  { name := "f", params := [declaration]
    body := ⟨"f", FunctionSource.file, .ofDeclarations [declaration] false,
      .assign "x" (.lit (.exact 2))⟩ }

/-- Called, it gives its constant a second value. As a constructor it may not. -/
theorem call_reassigns_constant :
    (match Script.run (.call (.define reassigning none) [.lit (.exact 1)]) []
        (.new ⟨8, 8, true, true⟩ .empty) with
      | .ok (.exact number) _ => number == 2
      | _ => false) = true ∧
    (match Script.run (.construct (.define reassigning none) [.lit (.exact 1)]) []
        (.new ⟨8, 8, true, true⟩ .empty) with
      | .error (.failure { fault := .constReassignment name, .. }) _ => name == "x"
      | _ => false) = true := by
  decide +kernel

end Script

end ScopeMachine
