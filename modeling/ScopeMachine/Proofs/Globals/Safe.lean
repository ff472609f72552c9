import ScopeMachine.Proofs.Evaluation.Reaching
import ScopeMachine.Proofs.Frames.Ledger
import ScopeMachine.Proofs.Globals.Immune
import ScopeMachine.Proofs.Liveness.Leading

namespace ScopeMachine

open Action

variable {Code : Type}

/-- A machine later on, with the global scopes of before out of reach: no scope that is to be reused
is one of them. -/
structure Machine.Shields (trusted : Code → Prop) (origin machine : Machine Code) : Prop where
  heap : origin.heap.Shields trusted machine.heap
  global : machine.global = origin.global
  pool : ∀ id ∈ machine.pool, ¬ origin.heap.Global id
  blocks : ∀ id ∈ machine.frames.blocks, ¬ origin.heap.Global id

namespace Machine

/-- The value leads to no global scope. -/
abbrev Clear (origin : Machine Code) (value : Value) : Prop := value.Kept origin.heap.Inner

variable {trusted : Code → Prop} {origin machine : Machine Code}

namespace Shields

section

variable (shields : origin.Shields trusted machine)

include shields

theorem onHeap {heap : Heap Code} (kept : origin.heap.Shields trusted heap) :
    origin.Shields trusted { machine with heap } :=
  { shields with heap := kept }

private theorem onMemory {memory : Memory} {shared : CellId → Bool}
    (keepsHeld : machine.heap.memory.KeepsHeld shared (fun _ => False) memory)
    (grows : machine.heap.memory.Grows origin.heap.Inner memory) :
    origin.Shields trusted { machine with heap := { machine.heap with memory } } :=
  shields.onHeap (shields.heap.onMemory keepsHeld grows)

private theorem modifyTop {change : Frame → Frame}
    (keeps : ∀ frame, (change frame).blocks = frame.blocks) :
    origin.Shields trusted (machine.modifyTop change) :=
  { shields with
    blocks := fun id listed => shields.blocks id (by
      have same : (machine.frames.modifyTop change).blocks = machine.frames.blocks :=
        blocks_modifyTop keeps machine.frames
      exact same ▸ listed) }

private theorem addBlock {id : ScopeId} (inner : ¬ origin.heap.Global id) :
    origin.Shields trusted
      (machine.modifyTop fun frame => { frame with blocks := frame.blocks ++ [id] }) := by
  refine { shields with blocks := fun other listed => ?_ }
  by_cases framed : machine.frames.isEmpty = true
  · -- There is no frame to list the scope.
    have blocks : (machine.frames.modifyTop fun frame =>
        { frame with blocks := frame.blocks ++ [id] }).blocks = machine.frames.blocks := by
      generalize machine.frames = stack at framed ⊢
      obtain ⟨_ | _, depth, counted⟩ := stack
      · rfl
      · cases framed
    exact shields.blocks other (blocks ▸ listed)
  · rcases List.mem_cons.mp ((addBlock_listing id framed).mem_iff.mp listed) with rfl | listed
    · exact inner
    · exact shields.blocks other listed

/-! Scopes that are reused. -/

private theorem promote {id : ScopeId} (inner : ¬ origin.heap.Global id) :
    origin.Shields trusted (machine.promote id) := by
  refine shields.onHeap ?_
  unfold Heap.detach
  dsimp only
  split
  next =>
    exact shields.heap.workScope inner (Table.copyOut_keepsHeld _ (fun _ => false) ..)
      (Table.copyOut_grows (Heap.serves_inner _)).memory rfl rfl
  next =>
    exact shields.heap.workScope inner (.refl (fun _ => false) _ _) (.refl _) rfl rfl

private theorem recycle {id : ScopeId} (inner : ¬ origin.heap.Global id) :
    origin.Shields trusted (machine.recycle id) := by
  have vacant : (Scope.vacant (machine.heap.scope id).index).Inward origin.heap :=
    ⟨fun _ => nofun, nofun⟩
  refine { shields with
    heap := shields.heap.modifyScope inner vacant
    pool := fun other listed => ?_ }
  rcases List.mem_cons.mp listed with rfl | listed
  · exact inner
  · exact shields.pool other listed

private theorem releaseBlocks (held : List Handle) {blocks : List ScopeId}
    (inner : ∀ id ∈ blocks, ¬ origin.heap.Global id) :
    origin.Shields trusted (releaseBlocks held blocks machine) := by
  induction blocks generalizing machine with
  | nil => exact shields
  | cons id rest induction =>
      have here := inner id List.mem_cons_self
      have later := fun other listed => inner other (List.mem_cons_of_mem _ listed)
      unfold Machine.releaseBlocks
      dsimp only
      split
      next => exact induction (shields.promote here) later
      next => exact induction (shields.recycle here) later

private theorem closeFrame (held : List Handle) :
    origin.Shields trusted (machine.closeFrame held) := by
  unfold Machine.closeFrame
  split
  next => exact shields
  next top outer popped =>
    have listed := blocks_of_pop? popped
    have outside : origin.Shields trusted { machine with frames := outer } :=
      { shields with
        blocks := fun id member => shields.blocks id (listed ▸ List.mem_append_right _ member) }
    have within : ∀ id ∈ top.blocks, ¬ origin.heap.Global id := fun id member =>
      shields.blocks id (listed ▸ List.mem_append_left _ member)
    have released := outside.releaseBlocks held within
    exact released.onMemory (Memory.closeFrame_keepsHeld _ _ _ _) (Memory.closeFrame_grows ..)

private theorem openFrame (id file : String) (scope : ScopeId) :
    origin.Shields trusted (machine.openFrame id file scope) :=
  ⟨shields.heap.bookkeeping rfl rfl, shields.global, shields.pool, shields.blocks⟩

private theorem annotate (failure : Failure) :
    origin.Shields trusted (machine.annotate failure).2 := by
  unfold Machine.annotate
  split
  next => exact shields
  next =>
    dsimp only
    split
    next => exact shields.onHeap (shields.heap.preserveBacktrace ..)
    next => exact shields

private theorem releaseScope (shut : origin.heap.Sealed) (held : List Handle) (id : ScopeId) :
    origin.Shields trusted (machine.releaseScope held id) := by
  unfold Machine.releaseScope
  dsimp only
  split
  next => exact shields
  next returns =>
    have inner : ¬ origin.heap.Global id := by
      intro global
      rw [shields.heap.scope global, shut.unpooled global] at returns
      exact returns rfl
    split
    next => exact shields.promote inner
    next =>
      exact (shields.recycle inner).onMemory (Table.free_keepsHeld _ _ _ _) (Table.free_grows ..)

/-! Values. -/

theorem cell (id : CellId) : origin.Clear (machine.heap.memory.value id) := shields.heap.values id

theorem values (table : Table) :
    ∀ value ∈ table.values machine.heap.memory, origin.Clear value := by
  intro value member
  obtain ⟨slot, -, found⟩ := List.mem_filterMap.mp member
  unfold Table.value? at found
  split at found
  next =>
    cases found
    split
    next id _ => exact shields.cell id
    next => exact Value.kept_null
  next => cases found

end

end Shields

end Machine

namespace Action

def Ends {α : Type} (trusted : Code → Prop) (origin : Machine Code) (good : α → Prop) :
    Ending Code α → Prop
  | .ok result machine => origin.Shields trusted machine ∧ good result
  | .error abort machine => origin.Shields trusted machine ∧
      ∀ handle ∈ abort.handles, origin.heap.Inner handle

/-- Either way global scopes are out of reach. -/
theorem Ends.shields {α : Type} {trusted : Code → Prop} {origin : Machine Code} {good : α → Prop}
    {ending : Ending Code α} (ended : Ends trusted origin good ending) :
    origin.Shields trusted (machineLeft ending) := by
  cases ending with
  | ok => exact ended.1
  | error => exact ended.1

/-- However it is run, the action ends so. -/
structure Safe {α : Type} (trusted : Code → Prop) (origin : Machine Code) (good : α → Prop)
    (action : Action Code α) : Prop where
  ends : ∀ (held : List Handle) {machine : Machine Code}, origin.Shields trusted machine →
    Ends trusted origin good (action held machine)

namespace Safe

variable {trusted : Code → Prop} {origin : Machine Code} {α β : Type} {good : α → Prop}
  {fine : β → Prop} {action : Action Code α}

theorem pure {result : α} (holds : good result) : Safe trusted origin good (pure result) :=
  ⟨fun _ _ shields => ⟨shields, holds⟩⟩

theorem fail {fault : Fault} (unthrown : fault.isThrown = false) :
    Safe trusted origin good (fail fault) := by
  refine ⟨fun _ _ shields => ⟨shields, fun handle listed => ?_⟩⟩
  cases fault with
  | thrown => cases unthrown
  | _ => cases listed

theorem crash : Safe trusted origin good crash :=
  ⟨fun _ _ shields => ⟨shields, nofun⟩⟩

theorem get : Safe trusted origin (origin.Shields trusted) get :=
  ⟨fun _ _ shields => ⟨shields, shields⟩⟩

theorem bind {first : Action Code β} {next : β → Action Code α}
    (former : Safe trusted origin fine first)
    (latter : ∀ result, fine result → Safe trusted origin good (next result)) :
    Safe trusted origin good (first >>= next) := by
  refine ⟨fun held {machine} shields => ?_⟩
  have ended := former.ends held shields
  rw [run_bind]
  cases ending : first held machine with
  | ok result middle =>
      rw [ending] at ended
      exact (latter result ended.2).ends held ended.1
  | error abort middle =>
      rw [ending] at ended
      exact ended

/-- Nothing comes after a fault. -/
theorem refused {fault : Fault} (unthrown : fault.isThrown = false) (next : β → Action Code α) :
    Safe trusted origin good (Action.fail fault >>= next) := by
  have failing : Safe trusted origin (fun _ => False) (Action.fail fault : Action Code β) :=
    .fail unthrown
  exact .bind failing fun _ => False.elim

theorem holding (handles : List Handle) (safe : Safe trusted origin good action) :
    Safe trusted origin good (holding handles action) :=
  ⟨fun _ _ shields => safe.ends _ shields⟩

theorem onHeap {step : Heap Code → α × Heap Code}
    (keeps : ∀ {heap : Heap Code}, origin.heap.Shields trusted heap →
      origin.heap.Shields trusted (step heap).2 ∧ good (step heap).1) :
    Safe trusted origin good (onHeap step) :=
  ⟨fun _ _ shields => ⟨shields.onHeap (keeps shields.heap).1, (keeps shields.heap).2⟩⟩

theorem onMemory {step : Memory → α × Memory} {shared : CellId → Bool}
    (keepsHeld : ∀ memory, Memory.KeepsHeld shared (fun _ => False) memory (step memory).2)
    (grows : ∀ memory : Memory, memory.Grows origin.heap.Inner (step memory).2) :
    Safe trusted origin (fun _ => True) (onMemory step) :=
  ⟨fun _ machine shields =>
    ⟨shields.onMemory (keepsHeld machine.heap.memory) (grows machine.heap.memory), trivial⟩⟩

theorem releasing {step : (CellId → Bool) → Memory → α × Memory}
    (keepsHeld : ∀ shared memory, Memory.KeepsHeld shared (fun _ => False) memory
    (step shared memory).2)
    (grows : ∀ shared, ∀ memory : Memory,
      memory.Grows origin.heap.Inner (step shared memory).2) :
    Safe trusted origin (fun _ => True) (releasing step) :=
  ⟨fun _ machine shields =>
    ⟨shields.onMemory (keepsHeld machine.host.shares machine.heap.memory)
      (grows machine.host.shares machine.heap.memory), trivial⟩⟩

/-- What is only read. -/
theorem readHeap {question : Heap Code → α}
    (holds : ∀ {heap : Heap Code}, origin.heap.Shields trusted heap → good (question heap)) :
    Safe trusted origin good (readHeap question) :=
  .bind .get fun _ shields => .pure (holds shields.heap)

theorem ofExcept {outcome : Except Fault α} (holds : ∀ result, outcome = .ok result → good result)
    (unthrown : ∀ fault, outcome = .error fault → fault.isThrown = false) :
    Safe trusted origin good (ofExcept outcome) := by
  cases outcome with
  | ok result => exact .pure (holds result rfl)
  | error fault => exact .fail (unthrown fault rfl)

theorem setLine (line : Nat) :
    Safe trusted origin (fun _ => True)
      (modify (·.modifyTop fun frame => { frame with line }) : Action Code Unit) :=
  ⟨fun _ _ shields => ⟨shields.modifyTop fun _ => rfl, trivial⟩⟩

/-! Tables. -/

theorem freeTable (table : Table) :
    Safe trusted origin (fun _ => True) (freeTable table : Action Code Unit) :=
  releasing (fun shared memory => Table.free_keepsHeld table shared memory _)
    fun shared memory => Table.free_grows shared table memory

theorem allocateTable (size : Nat) :
    Safe trusted origin (fun _ => True) (allocateTable size : Action Code Table) := by
  refine ⟨fun held {machine} shields => ?_⟩
  rw [run_allocateTable]
  split
  next => exact ⟨shields, trivial⟩
  next =>
    rw [run_ofExcept]
    cases allocated : machine.heap.memory.arena.allocate size with
    | error fault =>
        obtain ⟨-, rfl⟩ := Arena.allocate_eq_error allocated
        exact ⟨shields, nofun⟩
    | ok result =>
        obtain ⟨offset, arena⟩ := result
        obtain ⟨-, -, rfl⟩ := Arena.allocate_eq_ok allocated
        exact ⟨shields.onHeap (shields.heap.bookkeeping rfl rfl), trivial⟩

theorem pushEach (table : Table) {values : List Value}
    (clear : ∀ value ∈ values, origin.Clear value) :
    Safe trusted origin (fun _ => True) (Action.onMemory (table.pushEach values)) :=
  ⟨fun _ _ shields => ⟨shields.onHeap (shields.heap.pushEach table clear), trivial⟩⟩

theorem ofValues {values : List Value} (clear : ∀ value ∈ values, origin.Clear value) :
    Safe trusted origin (fun _ => True) (Action.onMemory (Table.ofValues values)) :=
  onMemory (fun memory => Memory.newAll_keepsHeld (fun _ => false) memory _ _)
    fun _ => (Table.ofValues_grows (Heap.serves_inner _) clear).memory

theorem argumentTable {values : List Value} (clear : ∀ value ∈ values, origin.Clear value) :
    Safe trusted origin (fun _ => True) (argumentTable values : Action Code (Option Table)) := by
  unfold Action.argumentTable
  split
  next => exact .pure trivial
  next =>
    exact .bind (.allocateTable values.length) fun table _ =>
      .bind (.pushEach table clear) fun _ _ => .pure trivial

theorem takeValues (arguments : Option Table) :
    Safe trusted origin (fun values => ∀ value ∈ values, origin.Clear value)
      (takeValues arguments : Action Code (List Value)) := by
  cases arguments with
  | none => exact .pure nofun
  | some table =>
      exact .bind .get fun machine shields =>
        .bind (.freeTable table) fun _ _ => .pure (shields.values table)

theorem newArray {elements : List Value} (clear : ∀ value ∈ elements, origin.Clear value) :
    Safe trusted origin origin.Clear (newArray elements : Action Code Value) :=
  .bind (.onHeap fun shields => ⟨shields.newArray false clear, trivial⟩) fun _ (_ : True) =>
    .pure (Heap.kept_of_no_object nofun)

/-! Scopes. -/

theorem newScope {scope : Scope} (inward : scope.Inward origin.heap) :
    Safe trusted origin (fun id => ¬ origin.heap.Global id)
      (newScope scope : Action Code ScopeId) :=
  .onHeap fun shields => shields.newScope inward

/-- Kinds that lead to nothing. -/
theorem inward_basic (previous : Option ScopeId) (index : Index) (members : Table) (pooled : Bool) :
    (Scope.mk previous index members .basic pooled).Inward origin.heap :=
  ⟨fun _ => nofun, nofun⟩

theorem pooledScope {scope : Scope} (inward : scope.Inward origin.heap) :
    Safe trusted origin (fun id => ¬ origin.heap.Global id)
      (pooledScope scope : Action Code ScopeId) := by
  refine ⟨fun held {machine} shields => ?_⟩
  rw [run_pooledScope]
  cases pool : machine.pool with
  | nil => exact (newScope inward).ends held shields
  | cons id rest =>
      have inner := shields.pool id (pool ▸ List.mem_cons_self)
      refine ⟨{ shields with
        heap := shields.heap.modifyScope inner inward
        pool := fun other listed => shields.pool other (pool ▸ List.mem_cons_of_mem _ listed) },
        inner⟩

theorem allocateBlock (previous : ScopeId) (index : Index) :
    Safe trusted origin (fun id => ¬ origin.heap.Global id)
      (allocateBlock previous index : Action Code ScopeId) := by
  have enlisted (id : ScopeId) (inner : ¬ origin.heap.Global id) :
      Safe trusted origin (fun _ => True) (modify (·.modifyTop fun frame =>
        { frame with blocks := frame.blocks ++ [id] }) : Action Code Unit) :=
    ⟨fun _ _ shields => ⟨shields.addBlock inner, trivial⟩⟩
  refine .bind .get fun machine _ => ?_
  split
  next => exact .newScope (inward_basic ..)
  next =>
    exact .bind (.allocateTable index.size) fun members _ =>
      .bind (.pooledScope (inward_basic ..)) fun id inner =>
        .bind (enlisted id inner) fun _ _ => .pure inner

/-! Calls. -/

theorem settleArguments (definition : Definition Code) (arguments : Table) :
    Safe trusted origin (fun _ => True) (settleArguments definition arguments) := by
  unfold Action.settleArguments
  split
  next =>
    exact .onMemory (fun memory => Table.copyOut_keepsHeld arguments (fun _ => false) memory _)
      fun memory => (Table.copyOut_grows (Heap.serves_inner memory)).memory
  next => exact .pure trivial

theorem truncate (table : Table) (length : Nat) :
    Safe trusted origin (fun _ => True)
      (Action.releasing fun shared => table.truncate shared length : Action Code Table) :=
  .releasing (fun shared memory => Table.truncate_keepsHeld table shared memory _ length)
    fun shared memory => (Table.truncate_grows shared table memory length).memory

theorem push (table : Table) {value : Value} (clear : origin.Clear value) :
    Safe trusted origin (fun _ => True) (Action.onMemory (table.push value)) :=
  ⟨fun _ _ shields => ⟨shields.onHeap (shields.heap.push table clear), trivial⟩⟩

theorem ensureCapacity (table : Table) (capacity : Nat) :
    Safe trusted origin (fun _ => True)
      (Action.onMemory (table.ensureCapacity capacity) : Action Code Table) :=
  .onMemory (fun memory => Table.ensureCapacity_keepsHeld table (fun _ => false) memory _ capacity)
    fun memory => (Table.ensureCapacity_grows (Heap.serves_inner memory) capacity).memory

theorem mapArguments (definition : Definition Code) (arguments : Table) :
    Safe trusted origin (fun mapped => ∀ value ∈ mapped.2, origin.Clear value)
      (mapArguments definition arguments) := by
  unfold Action.mapArguments
  refine .bind (.settleArguments ..) fun arguments _ => ?_
  have fitting : Safe trusted origin (fun mapped => ∀ value ∈ mapped.2, origin.Clear value) (do
      let trailing := (arguments.values (← MonadState.get).heap.memory).drop definition.arity
      if definition.isVariadic then
        let rest ← Action.newArray trailing
        let arguments ← Action.releasing fun shared => arguments.truncate shared definition.arity
        return (← Action.onMemory (arguments.push rest), trailing)
      return (arguments, trailing) : Action Code (Table × List Value)) := by
    refine .bind .get fun machine shields => ?_
    have clear : ∀ value ∈ (arguments.values machine.heap.memory).drop definition.arity,
        origin.Clear value := fun value member =>
      shields.values arguments value (List.mem_of_mem_drop member)
    dsimp only
    split
    next =>
      exact .bind (.newArray clear) fun rest restClear => .bind (.truncate ..) fun arguments _ =>
        .bind (.push arguments restClear) fun _ _ => .pure clear
    next => exact .pure clear
  dsimp only
  split
  next =>
    exact .bind (.freeTable arguments) fun _ _ => .refused rfl _
  next => exact fitting

theorem allocateCallScope (previous : ScopeId) (index : Index) (members : Table)
    {invocation : Invocation}
    (kept : ∀ handle, (ScopeKind.function invocation).holds handle = true →
      origin.heap.Inner handle) :
    Safe trusted origin (fun id => ¬ origin.heap.Global id)
      (allocateCallScope previous index members invocation : Action Code ScopeId) := by
  have inward (members : Table) (pooled : Bool) :
      (Scope.mk (some previous) index members (.function invocation) pooled).Inward origin.heap :=
    ⟨kept, nofun⟩
  refine .bind (.ensureCapacity members index.size) fun members _ => ?_
  dsimp only
  split
  next => exact .pooledScope (inward ..)
  next => exact .newScope (inward ..)

theorem inFrame (id file : String) (scope : ScopeId) {body : Action Code Value}
    (safe : Safe trusted origin origin.Clear body) :
    Safe trusted origin origin.Clear (inFrame id file scope body) := by
  refine ⟨fun held {machine} shields => ?_⟩
  unfold Action.inFrame
  split
  next => exact ⟨shields, nofun⟩
  next =>
    have ended := safe.ends (.scope scope :: held) (shields.openFrame id file scope)
    dsimp only
    split
    next value after ran =>
      rw [ran] at ended
      exact ⟨ended.1.closeFrame _, ended.2⟩
    next failure after ran =>
      rw [ran] at ended
      have annotated := ended.1.annotate failure
      refine ⟨annotated.closeFrame _, ?_⟩
      have same : (after.annotate failure).1.handles = failure.handles := by
        unfold Failure.handles
        rw [fault_annotate]
      intro handle listed
      have listed : handle ∈ (after.annotate failure).1.handles := listed
      rw [same] at listed
      exact ended.2 handle listed
    next after ran =>
      rw [ran] at ended
      exact ⟨ended.1.closeFrame _, nofun⟩

section Scopes

variable (shut : origin.heap.Sealed)

include shut

theorem releasingScope (scope : ScopeId) {body : Action Code Value}
    (safe : Safe trusted origin origin.Clear body) :
    Safe trusted origin origin.Clear (releasingScope scope body) := by
  refine ⟨fun held {machine} shields => ?_⟩
  have ended := safe.ends held shields
  unfold Action.releasingScope
  split
  next value after ran =>
    rw [ran] at ended
    exact ⟨ended.1.releaseScope shut _ scope, ended.2⟩
  next abort after ran =>
    rw [ran] at ended
    exact ⟨ended.1.releaseScope shut _ scope, ended.2⟩

theorem tryAssign (cell : CellId) (name : String) {value : Value} (clear : origin.Clear value) :
    Safe trusted origin (fun _ => True)
      (tryHeap (·.assign cell name value) : Action Code Unit) := by
  rw [tryAssign_eq]
  refine .bind .get fun machine _ => ?_
  cases written : machine.heap.assign cell name value with
  | mk outcome heap =>
      cases outcome with
      | ok =>
          exact .bind (.onHeap fun shields => ⟨shields.assign shut cell name clear, trivial⟩)
            fun _ (_ : True) => .pure trivial
      | error fault =>
          obtain ⟨rfl, -⟩ := assign_refused written
          exact .fail rfl

theorem declareMember {scope : ScopeId} (inner : ¬ origin.heap.Global scope) (name : String)
    (permission : Permission) {value : Value} (clear : origin.Clear value) :
    Safe trusted origin (fun _ => True)
      (declareMember scope name permission value : Action Code Unit) :=
  .bind (.onHeap fun shields => ⟨shields.createMember shut inner name permission, trivial⟩)
    fun cell (_ : True) => .tryAssign shut cell name clear

theorem declareParams {scope : ScopeId} (inner : ¬ origin.heap.Global scope)
    (params : List Declaration) {values : List Value}
    (clear : ∀ value ∈ values, origin.Clear value) :
    Safe trusted origin (fun _ => True)
      (declareParams scope params values : Action Code Unit) := by
  induction params generalizing values with
  | nil => exact .pure trivial
  | cons param params induction =>
      have first : origin.Clear (values.headD .null) := by
        cases values with
        | nil => exact Value.kept_null
        | cons value rest => exact clear value List.mem_cons_self
      exact .bind (.declareMember shut inner param.name param.permission first) fun _ _ =>
        induction fun value listed => clear value (List.mem_of_mem_tail listed)

theorem bindArguments (definition : Definition Code) {scope : ScopeId}
    (inner : ¬ origin.heap.Global scope) (arguments : Option Table) :
    Safe trusted origin (fun _ => True) (bindArguments definition scope arguments) := by
  refine .bind (.takeValues arguments) fun values clear => ?_
  dsimp only
  split
  next => exact .refused rfl _
  next =>
    refine .bind (.declareParams shut inner definition.params clear) fun _ _ => ?_
    split
    next rest _ =>
      exact .bind (.newArray fun value member => clear value (List.mem_of_mem_drop member))
        fun collected collectedClear =>
          .declareMember shut inner rest.name rest.permission collectedClear
    next => exact .pure trivial

end Scopes

/-! Functions. -/

abbrev Trusts (trusted : Code → Prop) (origin : Machine Code) (function : Function Code) : Prop :=
  function.Kept origin.heap.Inner ∧ ∀ node ∈ function.definition.nodes, trusted node.code

theorem getFunction (id : FunctionId) :
    Safe trusted origin (Trusts trusted origin) (getFunction id) := by
  refine .bind .get fun machine shields => ?_
  split
  next function found => exact .pure (shields.heap.functions found)
  next => exact .fail rfl

theorem single (type : BuiltinType) {values : List Value}
    (clear : ∀ value ∈ values, origin.Clear value) :
    Safe trusted origin origin.Clear (single type values : Action Code Value) := by
  unfold Action.single
  split
  next value => exact .pure (clear value List.mem_cons_self)
  next => exact .fail rfl

theorem cast {convert : Heap Code → Value → Except Fault α}
    (unthrown : ∀ heap value fault, convert heap value = .error fault → fault.isThrown = false)
    (value : Value) : Safe trusted origin (fun _ => True) (cast convert value) :=
  .bind .get fun machine _ => .ofExcept (fun _ _ => trivial) (unthrown machine.heap value)

theorem convert (type : BuiltinType) {values : List Value}
    (clear : ∀ value ∈ values, origin.Clear value) :
    Safe trusted origin origin.Clear (convert type values : Action Code Value) := by
  have reading {β : Type} (question : Heap Code → β) :
      Safe trusted origin (fun _ => True) (Action.readHeap question) :=
    .readHeap fun _ => trivial
  cases type with
  | string =>
      exact .bind (.single _ clear) fun _ _ => .bind (reading _) fun _ _ =>
        .pure (Heap.kept_of_no_object nofun)
  | boolean =>
      exact .bind (.single _ clear) fun value _ => .bind (.cast Composed.toBool_unthrown value)
        fun _ _ => .pure (Heap.kept_of_no_object nofun)
  | exactNumber =>
      exact .bind (.single _ clear) fun value _ => .bind (.cast Composed.toExact_unthrown value)
        fun _ _ => .pure (Heap.kept_of_no_object nofun)
  | inexactNumber =>
      exact .bind (.single _ clear) fun value _ => .bind (.cast Composed.toInexact_unthrown value)
        fun _ _ => .pure (Heap.kept_of_no_object nofun)
  | array => exact .newArray clear
  | _ => exact .fail rfl

theorem callType (type : BuiltinType) (arguments : Option Table) :
    Safe trusted origin origin.Clear (callType type arguments : Action Code Value) :=
  .bind (.takeValues arguments) fun _ clear => .convert type clear

theorem newException (type : BuiltinType) {values : List Value}
    (clear : ∀ value ∈ values, origin.Clear value) :
    Safe trusted origin origin.Clear (newException type values : Action Code Value) := by
  have made : Safe trusted origin origin.Clear (do
      let heap := (← MonadState.get).heap
      let message := (values.head?.map heap.text).getD ""
      return .exception (← Action.onHeap (·.newException
        { type, message, cause := values[1]? })) : Action Code Value) := by
    refine .bind .get fun machine _ => .bind (.onHeap fun shields =>
      ⟨shields.newException fun value given => clear value (List.mem_of_getElem? given), trivial⟩)
      fun _ (_ : True) => .pure (Heap.kept_of_no_object nofun)
  unfold Action.newException
  split
  next => exact .refused rfl _
  next => exact made

end Safe

end Action

end ScopeMachine
