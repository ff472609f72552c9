import ScopeMachine.Proofs.Liveness.ScopeExtents
import ScopeMachine.Proofs.Storage.Detached
import ScopeMachine.Script

/-!
Clients: any code that works on a machine through its operations, in any order, with whatever it
has come to hold. However it does, scopes in the pool are held by nothing, and all others lead to a
global scope.
-/

namespace ScopeMachine

open ScopeMachine.Action Relation

variable {Code : Type}

/-- The cells that a table keeps on the heap. -/
def Table.cellHandles (table : Table) : List Handle := table.heapCells.toList.map .cell

/-- The operations that code may ask for while it holds `known`: it passes on what it holds. The
result leaves it holding more. -/
inductive Request (known : List Handle) :
    {α : Type} → Action Code α → (α → List Handle) → Prop where
  | newCell {cell : Cell} (kept : cell.value.Kept (· ∈ known)) :
      Request known (onHeap (·.newCell cell)) fun id => [.cell id]
  | assign (id : CellId) (name : String) {value : Value} (kept : value.Kept (· ∈ known)) :
      Request known (tryHeap (·.assign id name value)) fun _ => []
  | changeCell (id : CellId) {change : Cell → Cell}
      (kept : ∀ cell target, (change cell).value.holds target = true →
        cell.value.holds target = true ∨ target ∈ known) :
      Request known (onHeap fun heap => ((), heap.modifyCell id change)) fun _ => []
  | allocateTable (size : Nat) : Request known (allocateTable size) fun _ => []
  | tableOf {values : List Value} (kept : ∀ value ∈ values, value.Kept (· ∈ known)) :
      Request known (onMemory (Table.ofValues values)) Table.cellHandles
  | cellAt {table : Table} (kept : table.Kept (· ∈ known)) (slot : Nat) :
      Request known
        (onMemory fun memory =>
          let (cell, table, memory) := table.cellAt slot memory
          ((cell, table), memory))
        fun (cell, table) => .cell cell :: table.cellHandles
  | pushEach {table : Table} (kept : table.Kept (· ∈ known)) {values : List Value}
      (each : ∀ value ∈ values, value.Kept (· ∈ known)) :
      Request known (onMemory (table.pushEach values)) Table.cellHandles
  | ensureCapacity {table : Table} (kept : table.Kept (· ∈ known)) (capacity : Nat) :
      Request known (onMemory (table.ensureCapacity capacity)) Table.cellHandles
  | safeCopy {table : Table} (kept : table.Kept (· ∈ known)) :
      Request known
        (onMemory fun memory =>
          let (copy, table, memory) := table.safeCopy memory
          ((copy, table), memory))
        fun (copy, table) => copy.cellHandles ++ table.cellHandles
  | truncate {table : Table} (kept : table.Kept (· ∈ known)) (length : Nat) :
      Request known (releasing fun shared => table.truncate shared length) Table.cellHandles
  | resetTable (table : Table) :
      Request known (onMemory fun memory => ((), table.reset memory)) fun _ => []
  | freeTable (table : Table) : Request known (freeTable table) fun _ => []
  | newArray {elements : List Value} (frozen : Bool)
      (kept : ∀ value ∈ elements, value.Kept (· ∈ known)) :
      Request known (onHeap (·.newArray elements frozen)) fun id => [.array id]
  | changeArray (id : ArrayId) {change : Array Value → Array Value}
      (kept : ∀ elements, ∀ value ∈ change elements,
        value ∈ elements ∨ value.Kept (· ∈ known)) :
      Request known (tryHeap (·.modifyArray id change)) fun _ => []
  | newException {exception : ExceptionObject}
      (kept : ∀ value, exception.cause = some value → value.Kept (· ∈ known)) :
      Request known (onHeap (·.newException exception)) fun id => [.exception id]
  | changeException (id : ExceptionId) {change : ExceptionObject → ExceptionObject}
      (kept : ∀ exception value, (change exception).cause = some value →
        exception.cause = some value ∨ value.Kept (· ∈ known)) :
      Request known (onHeap fun heap => ((), heap.modifyException id change)) fun _ => []
  | newFunction {function : Function Code} (kept : function.Kept (· ∈ known)) :
      Request known (onHeap (·.newFunction function)) fun id => [.function id]
  | newScope {previous : ScopeId} {index : Index} {kind : ScopeKind}
      (kept : (Scope.onHeap (some previous) index kind).Kept (· ∈ known)) :
      Request known (newScope (.onHeap (some previous) index kind)) fun id => [.scope id]
  | newEmptyGlobal : Request known (onHeap (·.newEmptyGlobal)) fun id => [.scope id]
  | newGlobal : Request known (onHeap (·.newGlobal)) fun id => [.scope id]
  | resetGlobal {scope : ScopeId} (listed : .scope scope ∈ known) :
      Request known (onHeap fun heap => ((), heap.resetGlobal scope)) fun _ => []
  | createMember {scope : ScopeId} (listed : .scope scope ∈ known) (name : String)
      (permission : Permission) :
      Request known (onHeap (·.createMember scope name permission)) fun cell => [.cell cell]
  | ownMember {scope : ScopeId} (listed : .scope scope ∈ known) (name : String) :
      Request known (onHeap (·.ownMember scope name)) fun cell => cell.toList.map .cell
  | lookup {scope : ScopeId} (listed : .scope scope ∈ known) (name : String) :
      Request known (onHeap (·.lookup scope name)) fun cell => cell.toList.map .cell
  | member {value : Value} (kept : value.Kept (· ∈ known)) (name : String) :
      Request known (onHeap (·.member value name)) fun cell => cell.toList.map .cell
  | allocateBlock {previous : ScopeId} (listed : .scope previous ∈ known) (index : Index) :
      Request known (allocateBlock previous index) fun id => [.scope id]
  | allocateCallScope {previous : ScopeId} {index : Index} {members : Table}
      {invocation : Invocation} {pooled : Bool}
      (kept : (Scope.mk (some previous) index members (.function invocation) pooled).Kept
        (· ∈ known)) :
      Request known (allocateCallScope previous index members invocation) fun id => [.scope id]
  | setScopeAndLine {scope : ScopeId} (listed : .scope scope ∈ known) (line : Nat) :
      Request known (modify (·.modifyTop fun frame => { frame with scope, line })) fun _ => []
  | setLine (line : Nat) :
      Request known (modify (·.modifyTop fun frame => { frame with line })) fun _ => []

theorem Table.Kept.cellHandles {live : Handle → Prop} {table : Table} (kept : table.Kept live) :
    ∀ handle ∈ table.cellHandles, live handle := by
  intro handle listed
  obtain ⟨id, member, rfl⟩ := List.mem_map.mp listed
  exact kept id (Array.mem_toList_iff.mp member)

namespace Machine

def Serviced {α : Type} (shelf : List ScopeId) (known : List Handle) (gain : α → List Handle)
    (ending : Ending Code α) : Prop :=
  match ending with
  | .ok result machine => (machine.shelve shelf).Guarded (gain result ++ known)
  | .error _ machine => (machine.shelve shelf).Guarded known

namespace Guarded

section

variable {known : List Handle} {machine : Machine Code} (guarded : machine.Guarded known)

include guarded

private theorem live_value {value : Value} (kept : value.Kept (· ∈ known)) :
    value.Kept (machine.Live known) :=
  fun target holds => guarded.live_of_known (kept target holds)

private theorem live_table {table : Table} (kept : table.Kept (· ∈ known)) :
    table.Kept (machine.Live known) :=
  fun id listed => guarded.live_of_known (kept id listed)

private theorem workTable {table table' : Table} {memory : Memory}
    (kept : table.Kept (· ∈ known))
    (grows : table.Grows (machine.Live known) machine.heap.memory table' memory) :
    ({ machine with heap := { machine.heap with memory } } : Machine Code).Guarded
      (table'.cellHandles ++ known) :=
  guarded.workMemory grows.memory (grows.kept (guarded.live_table kept)).cellHandles

private theorem find {outcome : Option CellId × Heap Code}
    (finds : Heap.Finds (machine.Live known) machine.heap outcome)
    (size : outcome.2.scopes.size = machine.heap.scopes.size) :
    ({ machine with heap := outcome.2 } : Machine Code).Guarded
      (outcome.1.toList.map .cell ++ known) := by
  refine guarded.work finds.grows size fun handle listed => ?_
  obtain ⟨cell, member, rfl⟩ := List.mem_map.mp listed
  exact finds.found cell (Option.mem_toList.mp member)

end

variable {shelf : List ScopeId} {known held : List Handle} {machine : Machine Code}
  (guarded : (machine.shelve shelf).Guarded known)

include guarded

private theorem allocateBlock {previous : ScopeId} (listed : .scope previous ∈ known)
    (index : Index) :
    Serviced shelf known (fun id => [.scope id])
      (Action.allocateBlock previous index held machine) := by
  have outer {machine : Machine Code} (guarded : machine.Guarded known) {members : Table}
      (bare : members.heapCells = #[]) (pooled : Bool) :
      (Scope.mk (some previous) index members .basic pooled).Kept (machine.Live known) := by
    refine Scope.kept_of ?_ (fun id cell => ?_) nofun
    · rintro _ ⟨⟩
      exact guarded.live_of_known listed
    · rw [bare] at cell
      exact absurd cell (Array.not_mem_empty id)
  rw [run_allocateBlock]
  split
  next => exact guarded.newScope (outer guarded rfl false) fun orphan => by cases orphan
  next =>
    have allocated := guarded.allocateTable held index.size
    cases made : Action.allocateTable index.size held machine with
    | error abort after =>
        rw [made] at allocated
        exact allocated
    | ok members middle =>
        rw [made, machineLeft_ok] at allocated
        have kept := outer allocated (bare_of_allocateTable made) true
        obtain ⟨id, after, taken, reached⟩ := allocated.pooledScope held kept rfl
        rw [andThen_ok, taken]
        refine reached.modifyTop fun frame other holds => ?_
        rcases Bool.or_eq_true _ _ |>.mp holds with scope | block
        · exact .inl (Bool.or_eq_true _ _ |>.mpr (.inl scope))
        · rcases List.mem_append.mp (List.contains_iff_mem.mp block) with old | new
          · exact .inl (Bool.or_eq_true _ _ |>.mpr (.inr (List.contains_iff_mem.mpr old)))
          · exact .inr (List.mem_singleton.mp new ▸ List.mem_cons_self)

private theorem allocateCallScope {previous : ScopeId} {index : Index} {members : Table}
    {invocation : Invocation} {pooled : Bool}
    (kept : (Scope.mk (some previous) index members (.function invocation) pooled).Kept
      (· ∈ known)) :
    Serviced shelf known (fun id => [.scope id])
      (Action.allocateCallScope previous index members invocation held machine) := by
  have settled : members.Kept (· ∈ known) := fun id listed => kept (.cell id) (by
    have any : members.heapCells.any (Handle.isCell (.cell id)) = true :=
      Array.any_eq_true'.mpr ⟨id, listed, by simp [Handle.isCell]⟩
    simp [Scope.holds, any])
  have grown := @Table.ensureCapacity_grows _ members _ guarded.serves.memory index.size
  have roomy := guarded.workTable settled grown
  unfold Action.allocateCallScope
  rw [run_bind, run_onMemory, andThen_ok]
  change (({ machine with heap := { machine.heap with
    memory := (members.ensureCapacity index.size machine.heap.memory).2 } } : Machine Code).shelve
      shelf).Guarded
        ((members.ensureCapacity index.size machine.heap.memory).1.cellHandles ++ known) at roomy
  generalize members.ensureCapacity index.size machine.heap.memory = result at roomy ⊢
  obtain ⟨table, memory⟩ := result
  generalize ({ machine with heap := { machine.heap with memory } } : Machine Code) =
    after at roomy ⊢
  have reached (pooled : Bool) :
      (Scope.mk (some previous) index table (.function invocation) pooled).Kept
        ((after.shelve shelf).Live (table.cellHandles ++ known)) := by
    intro target holds
    refine roomy.live_of_known ?_
    have cells : table.Kept (· ∈ table.cellHandles) := fun id listed =>
      List.mem_map.mpr ⟨id, Array.mem_toList_iff.mpr listed, rfl⟩
    rcases @Heap.holds_members _ ⟨some previous, index, members, .function invocation, _⟩ _ cells
      index pooled target holds with earlier | cell
    · exact List.mem_append_right _ (kept target earlier)
    · exact List.mem_append_left _ cell
  have drop {id : ScopeId} {final : Machine Code}
      (guarded : final.Guarded (.scope id :: (table.cellHandles ++ known))) :
      final.Guarded (.scope id :: known) := by
    refine guarded.forget fun handle listed => ?_
    rcases List.mem_cons.mp listed with same | old
    · exact same ▸ List.mem_cons_self
    · exact List.mem_cons_of_mem _ (List.mem_append_right _ old)
  dsimp only
  rw [run_ite]
  split
  next =>
    obtain ⟨id, final, taken, pooled⟩ :=
      roomy.pooledScope held (reached table.isArena) rfl
    rw [taken]
    exact drop pooled
  next =>
    exact drop (roomy.newScope (reached table.isArena) fun orphan => by cases orphan)

end Guarded

end Machine

theorem Heap.sameScopes_law :
    Heap.Law fun before after : Heap Code => after.scopes.size = before.scopes.size where
  refl _ := rfl
  trans left right := right.trans left
  slotCell _ _ _ := Heap.size_modifyScope ..
  trailingCell {heap id invocation} _ := by
    unfold Heap.trailingCell
    split
    next => rfl
    next => exact Heap.size_modifyScope ..
  insertName _ _ _ _ := Heap.size_modifyScope ..
  newCell _ _ := rfl
  modifyCell _ _ _ := rfl

theorem Heap.sameFunctions_law :
    Heap.Law fun before after : Heap Code => after.functions = before.functions where
  refl _ := rfl
  trans left right := right.trans left
  slotCell _ _ _ := rfl
  trailingCell {heap id invocation} _ := by
    unfold Heap.trailingCell
    split <;> rfl
  insertName _ _ _ _ := rfl
  newCell _ _ := rfl
  modifyCell _ _ _ := rfl

namespace Machine.Guarded

variable {known held : List Handle} {machine : Machine Code}

private theorem newEmptyGlobal (guarded : machine.Guarded known) :
    ({ machine with heap := machine.heap.newEmptyGlobal.2 } : Machine Code).Guarded
      (.scope machine.heap.newEmptyGlobal.1 :: known) :=
  guarded.newScope (fun target holds => by simp [Scope.holds, Scope.onHeap, Table.empty,
    Table.heapCells, ScopeKind.holds] at holds) fun _ => rfl

private theorem newGlobal (guarded : machine.Guarded known) :
    ({ machine with heap := machine.heap.newGlobal.2 } : Machine Code).Guarded
      (.scope machine.heap.newGlobal.1 :: known) := by
  have made := guarded.newEmptyGlobal
  have size := Heap.sameScopes_law.installBuiltins machine.heap.newEmptyGlobal.2
    machine.heap.newEmptyGlobal.1
  have grown := Heap.installBuiltins_grows made.serves (made.live_of_known List.mem_cons_self)
  unfold Heap.newGlobal
  generalize machine.heap.newEmptyGlobal = result at made size grown ⊢
  obtain ⟨scope, heap⟩ := result
  dsimp only at made size grown ⊢
  generalize heap.installBuiltins scope = after at size grown ⊢
  exact made.work grown size (List.forall_mem_nil _)

end Machine.Guarded

private theorem Request.serviced {shelf : List ScopeId} {known held : List Handle}
    {machine : Machine Code} (guarded : (machine.shelve shelf).Guarded known) {α : Type}
    {action : Action Code α} {gain : α → List Handle} (asked : Request known action gain) :
    Machine.Serviced shelf known gain (action held machine) := by
  have serves := guarded.serves
  have live {value : Value} (kept : value.Kept (· ∈ known)) := guarded.live_value kept
  have scopes {scope : ScopeId} (listed : .scope scope ∈ known) :
      (machine.shelve shelf).Live known (.scope scope) := guarded.live_of_known listed
  have still {heap : Heap Code}
      (grows : machine.heap.Grows ((machine.shelve shelf).Live known) heap)
      (size : heap.scopes.size = machine.heap.scopes.size) :
      (({ machine with heap } : Machine Code).shelve shelf).Guarded ([] ++ known) :=
    guarded.work grows size (List.forall_mem_nil _)
  cases asked with
  | newCell kept =>
      refine guarded.workMemory (Memory.new_grows _ (live kept)) (List.forall_mem_singleton.mpr ?_)
      exact serves.fresh (Nat.lt_irrefl _) nofun
  | assign id name kept =>
      have assigned := guarded.onMemory (Memory.assign_grows _ id name (live kept))
      rw [run_tryHeap]
      unfold Heap.assign
      cases outcome : (machine.heap.memory.assign id name _).1 <;> exact assigned
  | changeCell id kept =>
      refine guarded.onMemory (Memory.modifyCell_grows _ id fun cell target holds => ?_)
      exact (kept cell target holds).imp_right guarded.live_of_known
  | allocateTable size =>
      have allocated := guarded.allocateTable held size
      unfold Machine.Serviced
      cases ending : Action.allocateTable size held machine with
      | ok result after =>
          rw [ending] at allocated
          exact allocated
      | error abort after =>
          rw [ending] at allocated
          exact allocated
  | tableOf kept =>
      exact guarded.workTable (fun _ listed => nomatch Array.not_mem_empty _ listed)
        (Table.ofValues_grows serves.memory fun value listed => live (kept value listed))
  | @cellAt table kept slot =>
      have touched := @Table.cellAt_grows _ table _ serves.memory slot
      have here := Table.cellAt_live serves.memory (guarded.live_table kept) slot
      refine guarded.workMemory touched.memory (List.forall_mem_cons.mpr ⟨here, ?_⟩)
      exact (touched.kept (guarded.live_table kept)).cellHandles
  | pushEach kept each =>
      exact guarded.workTable kept
        (Table.pushEach_grows serves.memory fun value listed => live (each value listed))
  | ensureCapacity kept capacity =>
      exact guarded.workTable kept (Table.ensureCapacity_grows serves.memory capacity)
  | @safeCopy table kept =>
      have copied := @Table.copyOut_grows _ table _ serves.memory
      refine guarded.workMemory copied.memory fun handle listed => ?_
      have cells := (copied.kept (guarded.live_table kept)).cellHandles
      rcases List.mem_append.mp listed with copy | own
      · exact cells handle copy
      · exact cells handle own
  | truncate kept length => exact guarded.workTable kept (Table.truncate_grows ..)
  | resetTable table => exact guarded.onMemory (Table.reset_grows ..)
  | freeTable table => exact guarded.onMemory (Table.free_grows ..)
  | newArray frozen kept =>
      refine guarded.work (Heap.newArray_grows frozen fun value listed => live (kept value listed))
        rfl (List.forall_mem_singleton.mpr ?_)
      exact serves.fresh (Nat.lt_irrefl _) nofun
  | @changeArray id change kept =>
      have changed : machine.heap.Grows ((machine.shelve shelf).Live known)
          (machine.heap.modifyArray id change).2 :=
        Heap.modifyArray_grows fun value listed => (kept _ value listed).imp_right live
      have size : (machine.heap.modifyArray id change).2.scopes.size =
          machine.heap.scopes.size := by
        unfold Heap.modifyArray
        split <;> rfl
      rw [run_tryHeap]
      cases outcome : (machine.heap.modifyArray id change).1 <;> exact still changed size
  | newException kept =>
      refine guarded.work (Heap.newException_grows fun value given => live (kept value given))
        rfl (List.forall_mem_singleton.mpr ?_)
      exact serves.fresh (Nat.lt_irrefl _) nofun
  | changeException id kept =>
      exact still (Heap.modifyException_grows fun exception value given =>
        (kept exception value given).imp_right live) rfl
  | newFunction kept =>
      refine guarded.work (Heap.newFunction_grows fun target holds =>
        guarded.live_of_known (kept target holds)) rfl (List.forall_mem_singleton.mpr ?_)
      exact serves.fresh (Nat.lt_irrefl _) nofun
  | newScope kept =>
      exact guarded.newScope (fun target holds => guarded.live_of_known (kept target holds)) nofun
  | newEmptyGlobal => exact guarded.newEmptyGlobal
  | newGlobal => exact guarded.newGlobal
  | resetGlobal listed =>
      refine still (Heap.resetGlobal_grows serves (scopes listed)) ?_
      exact (Heap.sameScopes_law.installBuiltins ..).trans (Heap.size_modifyScope ..)
  | createMember listed name permission =>
      obtain ⟨created, here⟩ := Heap.createMember_grows serves (scopes listed) name permission
      exact guarded.work created (Heap.sameScopes_law.createMember ..)
        (List.forall_mem_singleton.mpr here)
  | ownMember listed name =>
      exact guarded.find (Heap.ownMember_finds serves (scopes listed) name)
        (Heap.sameScopes_law.ownMember ..)
  | lookup listed name =>
      exact guarded.find (Heap.lookup_finds serves (scopes listed) name)
        (Heap.sameScopes_law.lookup ..)
  | member kept name =>
      exact guarded.find (Heap.member_finds serves (live kept) name)
        (Heap.sameScopes_law.member ..)
  | allocateBlock listed index => exact guarded.allocateBlock listed index
  | allocateCallScope kept => exact guarded.allocateCallScope kept
  | setScopeAndLine listed line =>
      refine guarded.modifyTop fun frame id holds => ?_
      rcases Bool.or_eq_true _ _ |>.mp holds with scope | block
      · exact .inr (eq_of_beq scope ▸ listed)
      · exact .inl (Bool.or_eq_true _ _ |>.mpr (.inr block))
  | setLine line => exact guarded.modifyTop fun frame id holds => .inl holds

/-- Code at work on a machine, with what it holds besides what the machine keeps for itself. -/
structure Client (Code : Type) where
  machine : Machine Code
  known : List Handle

namespace Client

/-- How an operation leaves its client. -/
def after {α : Type} (known : List Handle) (gain : α → List Handle) : Ending Code α → Client Code
  | .ok result machine => ⟨machine, gain result ++ known⟩
  | .error _ machine => ⟨machine, known⟩

/-- What code may do next. -/
inductive Move : Client Code → Client Code → Prop where
  | request {client : Client Code} {α : Type} {action : Action Code α} {gain : α → List Handle}
      (asked : Request client.known action gain) (held : List Handle) :
      Move client (after client.known gain (action held client.machine))
  | openFrame {client : Client Code} {scope : ScopeId} (listed : .scope scope ∈ client.known)
      (id file : String) :
      Move client ⟨client.machine.openFrame id file scope, client.known⟩
  /-- A frame is closed, however what ran in it ended, and the code goes on with what it keeps. -/
  | closeFrame {client : Client Code} {kept : List Handle} (fewer : kept ⊆ client.known) :
      Move client ⟨client.machine.closeFrame kept, kept⟩
  /-- The extent of a scope ends: the code that ends it gives its own handle up, and goes on with
  what it keeps. -/
  | releaseScope {client : Client Code} {kept : List Handle} {scope : ScopeId}
      (listed : .scope scope ∈ client.known) (fewer : kept ⊆ client.known) :
      Move client ⟨client.machine.releaseScope kept scope, kept⟩
  | follow {client : Client Code} {holder handle : Handle} (listed : holder ∈ client.known)
      (held : holder ∈ client.machine.heap.holders handle) :
      Move client ⟨client.machine, handle :: client.known⟩
  | take {client : Client Code} {handle : Handle}
      (root : client.machine.isRoot client.known handle = true) :
      Move client ⟨client.machine, handle :: client.known⟩
  | forget {client : Client Code} {kept : List Handle} (fewer : kept ⊆ client.known) :
      Move client ⟨client.machine, kept⟩
  | host {client : Client Code} (host : Host)
      (kept : ∀ handle ∈ host.handles, handle ∈ client.known ∨
        handle ∈ client.machine.host.handles) :
      Move client ⟨client.machine.modifyHost fun _ => host, client.known⟩

/-- What code can bring about that starts with a new machine and nothing in hand. -/
def Reachable (limits : Limits) (choice : GlobalChoice) (client : Client Code) : Prop :=
  ReflTransGen Move ⟨Machine.new limits choice, []⟩ client

theorem Move.shelved {before after : Client Code} (move : Move before after)
    {shelf : List ScopeId} (guarded : (before.machine.shelve shelf).Guarded before.known) :
    (after.machine.shelve shelf).Guarded after.known := by
  cases move with
  | @request _ action gain asked held =>
      have serviced := @Request.serviced _ shelf _ held _ guarded _ _ _ asked
      unfold Client.after
      cases ending : action held before.machine with
      | ok result machine =>
          rw [ending] at serviced
          exact serviced
      | error abort machine =>
          rw [ending] at serviced
          exact serviced
  | openFrame listed id file => exact guarded.openFrame listed id file
  | @closeFrame kept fewer =>
      exact Machine.closeFrame_shelve shelf kept ▸ guarded.closeFrame fewer
  | @releaseScope kept scope listed fewer =>
      exact Machine.releaseScope_shelve shelf kept scope ▸ guarded.releaseScope fewer listed
  | follow listed held =>
      refine guarded.learn (List.forall_mem_singleton.mpr ?_)
      exact guarded.serves.closed (guarded.live_of_known listed) (Heap.mem_holders.mp held)
  | take root => exact guarded.learn (List.forall_mem_singleton.mpr (guarded.live_of_root root))
  | forget fewer => exact guarded.forget fewer
  | host host kept =>
      refine guarded.shrink rfl rfl fun {handle} root => Machine.isRoot_iff.mpr ?_
      rcases Machine.isRoot_iff.mp root with mine | hosted | pinned
      · exact .inl mine
      · rcases kept handle hosted with mine | earlier
        · exact .inl mine
        · exact .inr (.inl earlier)
      · exact .inr (.inr pinned)

theorem Move.guarded {before after : Client Code} (move : Move before after)
    (guarded : before.machine.Guarded before.known) : after.machine.Guarded after.known := by
  have shelved := @Move.shelved _ _ _ move []
  rw [Machine.shelve_nil, Machine.shelve_nil] at shelved
  exact shelved guarded

end Client

/-! A new machine. -/

namespace Machine.Guarded

variable {known : List Handle} {machine : Machine Code}

private theorem setGlobal {scope : ScopeId} (guarded : machine.Guarded (.scope scope :: known)) :
    ({ machine with global := scope } : Machine Code).Guarded known := by
  refine guarded.shrink rfl rfl fun {handle} root => isRoot_iff.mpr ?_
  rcases isRoot_iff.mp root with mine | hosted | pinned
  · exact .inl (List.mem_cons_of_mem _ mine)
  · exact .inr (.inl hosted)
  · cases handle with
    | scope id =>
        rcases pinned with rfl | others
        · exact .inl List.mem_cons_self
        · exact .inr (.inr (.inr others))
    | _ => exact .inr (.inr pinned)

end Machine.Guarded

namespace Machine

def ofLimits (limits : Limits) : Machine Code where
  heap := (Heap.ofCapacity limits.arenaCapacity).newEmptyGlobal.2
  frames := .empty
  pool := []
  limits
  global := ⟨0⟩
  sharedGlobal := ⟨0⟩
  host := {}

private theorem ofLimits_guarded (limits : Limits) :
    (ofLimits limits : Machine Code).Guarded [] := by
  have nothing {holder id} : ¬ (ofLimits limits : Machine Code).heap.Holds holder (.scope id) := by
    intro held
    have present := held.has
    cases holder with
    | scope other =>
        have same : other = ⟨0⟩ := by
          obtain ⟨index⟩ := other
          exact congrArg ScopeId.mk (Nat.lt_one_iff.mp present)
        subst same
        simp [ofLimits, Heap.newEmptyGlobal, Heap.newScope, Heap.ofCapacity, Heap.scope,
          Scope.holds,
          Scope.onHeap, Table.empty, Table.heapCells, ScopeKind.holds] at held
    | _ => exact Nat.not_lt_zero _ present
  refine ⟨.nil, fun id listed => (List.not_mem_nil listed).elim, fun {id} root => ?_,
    fun held => (nothing held).elim, fun {id} present _ => ?_⟩
  · rcases isRoot_iff.mp root with mine | hosted | rfl | rfl | ⟨frame, member, -⟩
    · cases mine
    · cases hosted
    · exact Nat.one_pos
    · exact Nat.one_pos
    · cases member
  · refine .intro present (fun _ => ?_) fun linked => (nothing (Guarded.holds_of_links linked)).elim
    obtain ⟨index⟩ := id
    cases Nat.lt_one_iff.mp present
    rfl

theorem new_guarded (limits : Limits) (choice : GlobalChoice) :
    (Machine.new limits choice : Machine Code).Guarded [] := by
  have base : (ofLimits limits : Machine Code).Guarded [] := ofLimits_guarded limits
  have root : (ofLimits limits : Machine Code).isRoot [] (.scope ⟨0⟩) = true :=
    isRoot_iff.mpr (.inr (.inr (.inl rfl)))
  have grown := Heap.installBuiltins_grows base.serves (base.live_of_root root)
  have size := Heap.sameScopes_law.installBuiltins (ofLimits limits : Machine Code).heap ⟨0⟩
  have shared : (Machine.new limits .shared : Machine Code).Guarded ([] ++ []) :=
    base.work grown size (List.forall_mem_nil _)
  cases choice with
  | shared => exact shared
  | empty => exact shared.newEmptyGlobal.setGlobal
  | fresh =>
      have own := shared.newGlobal.setGlobal
      unfold Machine.new at own ⊢
      dsimp only [List.append_nil] at own ⊢
      generalize (Heap.ofCapacity limits.arenaCapacity : Heap Code).newGlobal = made at own ⊢
      exact own

end Machine

namespace Client

theorem Reachable.guarded {limits : Limits} {choice : GlobalChoice} {client : Client Code}
    (reachable : Reachable limits choice client) : client.machine.Guarded client.known := by
  induction reachable with
  | refl => exact Machine.new_guarded limits choice
  | tail _ move guarded => exact move.guarded guarded

/-- Whatever code does with a machine, in whatever order: a scope that waits in the pool waits there
once, is no root, and is held by nothing that is alive; and from every scope that something holds
the chain of scopes leads to a global scope without coming back to any, so that names, `this`,
`super` and `callee` resolve. -/
theorem pool_unheld_and_chains_end {limits : Limits} {choice : GlobalChoice} {client : Client Code}
    (reachable : Reachable limits choice client) :
    client.machine.pool.Nodup ∧
      (∀ id ∈ client.machine.pool, client.machine.isHeld client.known id = false ∧
        client.machine.isRoot client.known (.scope id) = false ∧
        ∀ holder ∈ client.machine.heap.holders (.scope id),
          client.machine.heap.isAlive (client.machine.isRoot client.known) holder = false) ∧
      ∀ id, client.machine.isHeld client.known id = true → client.machine.heap.Anchored id := by
  have guarded := reachable.guarded
  refine ⟨guarded.pool_nodup, fun id pooled => ?_, fun id held => ?_⟩
  · have lost := guarded.pool_lost id pooled
    refine ⟨Machine.not_held_of_lost lost, lost.rootless, fun holder listed => ?_⟩
    have holderLost := lost.holder (Heap.mem_holders.mp listed)
    exact (Heap.isAlive_eq_false_iff holderLost.allocated).mpr holderLost
  · exact (guarded.grounded_of_held held).anchored

/-- A frame over the global scope, with one block. -/
def withBlock : Client Script :=
  let machine : Machine Script := .new ⟨2, 8, true, true⟩ .empty
  after [.scope machine.global] (fun id => [.scope id])
    (allocateBlock machine.global .empty [] (machine.openFrame "main" "" machine.global))

theorem withBlock_reachable : Reachable ⟨2, 8, true, true⟩ .empty withBlock := by
  unfold withBlock Reachable
  generalize (Machine.new ⟨2, 8, true, true⟩ .empty : Machine Script) = machine
  have taken : Move ⟨machine, []⟩ ⟨machine, [.scope machine.global]⟩ :=
    .take (Machine.isRoot_iff.mpr (.inr (.inr (.inl rfl))))
  exact .tail (.tail (.single taken) (.openFrame List.mem_cons_self "main" ""))
    (.request (.allocateBlock List.mem_cons_self .empty) [])

theorem pool_unheld_after_one_block :
    let client : Client Script :=
      ⟨withBlock.machine.closeFrame [.scope ⟨1⟩], [.scope ⟨1⟩]⟩
    Reachable ⟨2, 8, true, true⟩ .empty client ∧ client.machine.pool = [⟨2⟩] ∧
      client.machine.isHeld client.known ⟨2⟩ = false ∧ client.machine.heap.Anchored ⟨1⟩ := by
  intro client
  have known : withBlock.known = [.scope ⟨2⟩, .scope ⟨1⟩] := by decide +kernel
  have reached : Reachable ⟨2, 8, true, true⟩ .empty client :=
    .tail withBlock_reachable (.closeFrame (by simp [known]))
  have pool : client.machine.pool = [⟨2⟩] := by decide +kernel
  obtain ⟨-, unheld, anchored⟩ := pool_unheld_and_chains_end reached
  exact ⟨reached, pool, (unheld _ (pool ▸ List.mem_cons_self)).1, anchored _ (by decide +kernel)⟩

end Client

end ScopeMachine
