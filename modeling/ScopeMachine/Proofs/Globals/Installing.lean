import ScopeMachine.Proofs.Frames.Fresh
import ScopeMachine.Proofs.Globals.Immune
import ScopeMachine.Proofs.Storage.Landing
import ScopeMachine.Proofs.Storage.Laws
import ScopeMachine.Proofs.Storage.SingleTable

namespace ScopeMachine

structure Cell.Builtin (cell : Cell) : Prop extends cell.Spent where
  value : ∃ type, cell.value = .type type

def Cell.bindType (type : BuiltinType) (cell : Cell) : Cell :=
  (cell.declare (.union .publicTier .const)).install (.type type)

private theorem Cell.builtin_bindType {cell : Cell} (type : BuiltinType)
    (constant : cell.declared = true → cell.permission.isConst = true) :
    (cell.bindType type).Builtin := by
  unfold bindType declare
  split
  next declared => exact ⟨⟨declared, rfl, constant declared⟩, type, rfl⟩
  next =>
    have isConst : (Permission.publicTier.union .const).declared.isConst = true := by decide
    exact ⟨⟨rfl, rfl, isConst⟩, type, rfl⟩

namespace Memory

private theorem builtin_modifyCell {memory : Memory} {id : CellId} (type : BuiltinType)
    (others : ∀ cell, cell ≠ id → cell.index < memory.cells.size → (memory.cell cell).Builtin)
    (constant : (memory.cell id).declared = true → (memory.cell id).permission.isConst = true)
    (cell : CellId) (present : cell.index < memory.cells.size) :
    ((memory.modifyCell id (·.bindType type)).cell cell).Builtin := by
  by_cases same : cell = id
  · subst same
    rw [cell_modifyCell_self present]
    exact Cell.builtin_bindType type constant
  · rw [cell_modifyCell_ne same]
    exact others cell same present

private theorem builtin_new {memory : Memory} (type : BuiltinType)
    (bound : ∀ cell : CellId, cell.index < memory.cells.size → (memory.cell cell).Builtin)
    (cell : CellId) (present : cell.index < memory.cells.size + 1) :
    (((memory.new .blank).2.modifyCell ⟨memory.cells.size⟩ (·.bindType type)).cell
      cell).Builtin := by
  refine builtin_modifyCell type (fun cell apart present => ?_) (fun declared => ?_) cell
    (by simpa [new] using present)
  · have known : cell.index < memory.cells.size + 1 := by simpa [new] using present
    have indices : cell.index ≠ memory.cells.size := fun same => apart (congrArg CellId.mk same)
    have earlier : cell.index < memory.cells.size := by omega
    rw [cell_new_of_lt earlier]
    exact bound cell earlier
  · have blank : (memory.new .blank).2.cell ⟨memory.cells.size⟩ = .blank :=
      cell_new_self memory .blank
    rw [blank] at declared
    cases declared

end Memory

private theorem Index.insert_cases (index : Index) (name : String) (permission : Permission) :
    ((index.insert name permission).1 < index.size ∧ (index.insert name permission).2 = index) ∨
      ((index.insert name permission).1 = index.size ∧
        (index.insert name permission).2.size = index.size + 1) := by
  unfold insert
  split
  next slot found =>
    obtain ⟨below, -⟩ := Array.findIdx?_eq_some_iff_getElem.mp found
    exact .inl ⟨below, rfl⟩
  next => exact .inr ⟨rfl, by simp [size]⟩

private theorem Table.cellAt_size (cells : Array CellId) (reserved : Option Slice)
    (memory : Memory) :
    (onHeap cells reserved).cellAt cells.size memory =
      (⟨memory.cells.size⟩, onHeap (cells.push ⟨memory.cells.size⟩) reserved,
        (memory.new .blank).2) := by
  rw [cellAt_onHeap, if_neg (Nat.lt_irrefl _)]
  simp [Memory.newAll, Memory.new]

namespace Heap

variable {Code : Type}

/-- Nothing is there but scopes with built-in types in them. -/
structure Pristine (heap : Heap Code) : Prop where
  vacant : ∀ position, heap.memory.arena.peek position = none
  arrays : heap.arrays = #[]
  exceptions : heap.exceptions = #[]
  functions : heap.functions = #[]
  kind : ∀ id, (heap.scope id).kind = .global ∨ (heap.scope id).kind = .basic
  unpooled : ∀ id, (heap.scope id).pooled = false
  table : ∀ id, ∃ cells, (heap.scope id).members = .onHeap cells none ∧
    cells.size = (heap.scope id).index.size ∧ ∀ cell ∈ cells, cell.index < heap.memory.cells.size
  bound : ∀ id : CellId, id.index < heap.memory.cells.size → (heap.cell id).Builtin

private theorem modifyScope_modifyScope (heap : Heap Code) (id : ScopeId)
    (first second : Scope → Scope) :
    (heap.modifyScope id first).modifyScope id second =
      heap.modifyScope id fun scope => second (first scope) := by
  unfold modifyScope
  congr 1
  refine Array.ext (by simp) fun position _ _ => ?_
  by_cases same : id.index = position <;> simp [Array.getElem_modify, same]

private theorem createMember_onHeap {heap : Heap Code} {id : ScopeId} {permission : Permission}
    (still : heap.landing permission id = id) {cells : Array CellId}
    (members : (heap.scope id).members = .onHeap cells none) (name : String) :
    heap.createMember id name permission =
      let (slot, index) := (heap.scope id).index.insert name permission
      let (cell, table, memory) := (Table.onHeap cells none).cellAt slot heap.memory
      (cell, { heap with memory := memory.modifyCell cell (·.declare permission) }.modifyScope id
        fun scope => { scope with index, members := table }) := by
  unfold Heap.createMember
  rw [still]
  dsimp only
  generalize (heap.scope id).index.insert name permission = inserted
  have table : ((heap.modifyScope id fun scope =>
      { scope with index := inserted.2 }).scope id).members = .onHeap cells none := by
    rcases scope_modifyScope_or heap id id fun scope =>
      { scope with index := inserted.2 } with same | ⟨-, same⟩ <;>
      rw [same, members]
  unfold Heap.slotCell
  rw [table]
  generalize touched : (Table.onHeap cells none).cellAt inserted.1 _ = result
  change (Table.onHeap cells none).cellAt inserted.1 heap.memory = result at touched
  rw [touched]
  obtain ⟨cell, table, memory⟩ := result
  exact Prod.ext rfl (modifyScope_modifyScope
    { heap with memory := memory.modifyCell cell (·.declare permission) } id
    (fun scope => { scope with index := inserted.2 }) fun scope => { scope with members := table })

namespace Pristine

variable {heap : Heap Code}

theorem ofCapacity (capacity : Nat) : (Heap.ofCapacity capacity : Heap Code).Pristine := by
  have scopes (id : ScopeId) : (Heap.ofCapacity capacity : Heap Code).scope id = default :=
    scope_of_size_le (Nat.zero_le _)
  exact {
    vacant := fun _ => Arena.peek_of_size_le (Nat.zero_le _)
    arrays := rfl
    exceptions := rfl
    functions := rfl
    kind := fun id => .inr (congrArg Scope.kind (scopes id))
    unpooled := fun id => congrArg Scope.pooled (scopes id)
    table := fun id => ⟨#[], congrArg Scope.members (scopes id),
      (congrArg (·.index.size) (scopes id)).symm, nofun⟩
    bound := nofun }

section

variable (pristine : heap.Pristine)

include pristine

theorem newEmptyGlobal : heap.newEmptyGlobal.2.Pristine := by
  have scopes (id : ScopeId) : heap.newEmptyGlobal.2.scope id = heap.scope id ∨
      heap.newEmptyGlobal.2.scope id = .onHeap none .empty .global := by
    by_cases same : id = heap.newEmptyGlobal.1
    · exact .inr (same ▸ scope_newScope_self heap _)
    · exact .inl (scope_newScope_ne same)
  refine { pristine with kind := fun id => ?_, unpooled := fun id => ?_, table := fun id => ?_ }
  · rcases scopes id with same | same <;> rw [same]
    · exact pristine.kind id
    · exact .inl rfl
  · rcases scopes id with same | same <;> rw [same]
    · exact pristine.unpooled id
    · rfl
  · rcases scopes id with same | same <;> rw [same]
    · exact pristine.table id
    · exact ⟨#[], rfl, rfl, nofun⟩

private theorem rebind {memory : Memory} {id : ScopeId} {index : Index} {cells : Array CellId}
    (arena : memory.arena = heap.memory.arena) (size : cells.size = index.size)
    (grown : heap.memory.cells.size ≤ memory.cells.size)
    (old : ∀ cell ∈ cells, cell.index < memory.cells.size)
    (bound : ∀ id : CellId, id.index < memory.cells.size → (memory.cell id).Builtin) :
    ({ heap with memory }.modifyScope id fun scope =>
      { scope with index, members := .onHeap cells none }).Pristine := by
  have scopes := scope_modifyScope_or { heap with memory } id
  refine { pristine with
    vacant := fun position => ?_, kind := fun other => ?_, unpooled := fun other => ?_
    table := fun other => ?_, bound := bound }
  · exact (congrArg (Arena.peek · position) arena).trans (pristine.vacant position)
  · rcases scopes other _ with same | ⟨-, changed⟩
    · rw [same]
      exact pristine.kind other
    · rw [changed]
      exact pristine.kind other
  · rcases scopes other _ with same | ⟨-, changed⟩
    · rw [same]
      exact pristine.unpooled other
    · rw [changed]
      exact pristine.unpooled other
  · rcases scopes other _ with same | ⟨-, changed⟩
    · rw [same]
      obtain ⟨cells, members, size, earlier⟩ := pristine.table other
      exact ⟨cells, members, size, fun cell listed =>
        Nat.lt_of_lt_of_le (earlier cell listed) grown⟩
    · rw [changed]
      exact ⟨cells, rfl, size, old⟩

/-- One built-in type is bound, in the cell of its name or in one that is made for it. -/
theorem bind (id : ScopeId) (type : BuiltinType) :
    ((heap.createMember id type.name (.union .publicTier .const)).2.modifyCell
      (heap.createMember id type.name (.union .publicTier .const)).1
      (·.install (.type type))).Pristine := by
  obtain ⟨cells, members, size, old⟩ := pristine.table id
  have still : heap.landing (.union .publicTier .const) id = id := by
    rcases pristine.kind id with kind | kind <;>
      exact landingWithin_self (by simp [Scope.variant, kind, ScopeKind.variant])
        (by simp [Scope.variant, kind, ScopeKind.variant]) ..
  rw [createMember_onHeap still members]
  have placed := (heap.scope id).index.insert_cases type.name (.union .publicTier .const)
  generalize (heap.scope id).index.insert type.name (.union .publicTier .const) = inserted
    at placed ⊢
  obtain ⟨slot, index⟩ := inserted
  have whole (memory : Memory) (cell : CellId) (change : Scope → Scope) :
      (({ heap with
          memory := memory.modifyCell cell (·.declare (.union .publicTier .const)) } :
        Heap Code).modifyScope id change).modifyCell cell (·.install (.type type)) =
        { heap with memory := memory.modifyCell cell (·.bindType type) }.modifyScope id change :=
    congrArg (fun memory => { heap with memory }.modifyScope id change)
      (Memory.modifyCell_modifyCell memory cell _ _)
  dsimp only
  rw [whole]
  rcases placed with ⟨below, rfl⟩ | ⟨rfl, longer⟩
  · have known : slot < cells.size := size ▸ below
    rw [Table.cellAt_onHeap, if_pos known]
    have listed : cells.getD slot ⟨0⟩ ∈ cells := by simp [known]
    have same := Memory.size_modifyCell heap.memory (cells.getD slot ⟨0⟩) (·.bindType type)
    refine pristine.rebind rfl size (Nat.le_of_eq same.symm) (fun cell member => ?_)
      fun cell present => ?_
    · exact Nat.lt_of_lt_of_eq (old cell member) same.symm
    · exact Memory.builtin_modifyCell type (fun cell _ => pristine.bound cell)
        (fun _ => (pristine.bound _ (old _ listed)).constant) cell (Nat.lt_of_lt_of_eq present same)
  · rw [← size, Table.cellAt_size]
    have more : ((heap.memory.new .blank).2.modifyCell ⟨heap.memory.cells.size⟩
        (·.bindType type)).cells.size = heap.memory.cells.size + 1 := by
      simp [Memory.new]
    have grown := Nat.le_of_lt (Nat.lt_of_lt_of_eq (Nat.lt_succ_self _) more.symm)
    refine pristine.rebind rfl (by simp [longer, size]) grown (fun cell member => ?_)
      fun cell present => ?_
    · rcases Array.mem_push.mp member with listed | rfl
      · exact Nat.lt_of_lt_of_le (old cell listed) grown
      · exact Nat.lt_of_lt_of_eq (Nat.lt_succ_self _) more.symm
    · exact Memory.builtin_new type pristine.bound cell (Nat.lt_of_lt_of_eq present more)

private theorem installBuiltins (id : ScopeId) : (heap.installBuiltins id).Pristine := by
  unfold Heap.installBuiltins
  generalize BuiltinType.globals = types
  induction types generalizing heap with
  | nil => exact pristine
  | cons type rest induction =>
      rw [List.foldl_cons]
      exact induction (pristine.bind id type)

private theorem newGlobal : heap.newGlobal.2.Pristine := by
  have installed := pristine.newEmptyGlobal.installBuiltins heap.newEmptyGlobal.1
  unfold Heap.newGlobal
  dsimp only
  exact installed

private theorem cell_old {scope : ScopeId} {id : CellId}
    (listed : id ∈ (heap.scope scope).members.heapCells) : id.index < heap.memory.cells.size := by
  obtain ⟨cells, members, -, old⟩ := pristine.table scope
  rw [members] at listed
  exact old id listed

private theorem builtin {id : CellId} (global : heap.GlobalCell id) : (heap.cell id).Builtin := by
  obtain ⟨scope, -, listed⟩ := global
  exact pristine.bound id (pristine.cell_old listed)

theorem isSealed : heap.Sealed where
  unpooled := fun {id} _ => pristine.unpooled id
  heaped := fun {id} _ => by
    obtain ⟨cells, members, -⟩ := pristine.table id
    rw [members]
    rfl
  spent := fun global => (pristine.builtin global).toSpent

theorem shields (trusted : Code → Prop) : heap.Shields trusted heap where
  sound := by
    refine ⟨fun {position id} named => ?_, fun {position other id} named => ?_⟩ <;>
      · rw [pristine.vacant position] at named
        cases named
  scope := fun _ => rfl
  cell := fun _ => rfl
  old := fun ⟨_, _, listed⟩ => pristine.cell_old listed
  unnamed := fun {id} _ position => by
    rw [pristine.vacant position]
    nofun
  values := fun id => by
    by_cases old : id.index < heap.memory.cells.size
    · obtain ⟨type, value⟩ := (pristine.bound id old).value
      have value : heap.memory.value id = .type type := value
      rw [value]
      exact kept_of_no_object nofun
    · have value : heap.memory.value id = .null := by
        simp [Memory.value, Memory.cell, Nat.not_lt.mp old, Cell.blank, Cell.holding]
      rw [value]
      exact Value.kept_null
  arrays := fun {id value} member => by
    simp only [elements, array, pristine.arrays] at member
    cases member
  exceptions := fun {id value} given => by
    simp only [Heap.exception, pristine.exceptions] at given
    cases given
  functions := fun {id function} found => by
    simp [function?, pristine.functions] at found
  inward := fun id => by
    refine ⟨fun handle holds => ?_, fun {maker _} constructs => ?_⟩
    · rcases pristine.kind id with kind | kind <;> rw [kind] at holds <;> cases holds
    · rcases pristine.kind id with kind | kind <;> rw [kind] at constructs <;> cases constructs

end

end Pristine

private theorem sameVariants_law : Law fun before after : Heap Code =>
    ∀ id, (after.scope id).variant = (before.scope id).variant := by
  have modified (heap : Heap Code) (id : ScopeId) {change : Scope → Scope}
      (same : (change (heap.scope id)).variant = (heap.scope id).variant) (other : ScopeId) :
      ((heap.modifyScope id change).scope other).variant = (heap.scope other).variant := by
    rcases scope_modifyScope_or heap id other change with unchanged | ⟨rfl, changed⟩
    · rw [unchanged]
    · rw [changed, same]
  exact {
    refl := fun _ _ => rfl
    trans := fun former latter id => (latter id).trans (former id)
    slotCell := fun heap id slot => modified { heap with memory := _ } id rfl
    trailingCell := fun {heap id invocation} kind other => by
      unfold Heap.trailingCell
      split
      next => rfl
      next =>
        refine modified { heap with memory := _, arrays := _ } id ?_ other
        have earlier : (heap.scope id).variant = .function := by
          simp [Scope.variant, kind, ScopeKind.variant]
        exact earlier.symm
    insertName := fun heap id name permission => modified heap id rfl
    newCell := fun _ _ _ => rfl
    modifyCell := fun _ _ _ _ => rfl }

private theorem global_newEmptyGlobal (heap : Heap Code) :
    heap.newEmptyGlobal.2.Global heap.newEmptyGlobal.1 :=
  congrArg Scope.variant (scope_newScope_self heap (.onHeap none .empty .global))

private theorem global_newGlobal (heap : Heap Code) : heap.newGlobal.2.Global heap.newGlobal.1 := by
  have kept := sameVariants_law.installBuiltins heap.newEmptyGlobal.2 heap.newEmptyGlobal.1
  have still := (kept heap.newEmptyGlobal.1).trans heap.global_newEmptyGlobal
  unfold Heap.newGlobal
  dsimp only
  exact still

end Heap

namespace Machine

variable {Code : Type}

theorem new_pristine (limits : Limits) (choice : GlobalChoice) :
    (new limits choice : Machine Code).heap.Pristine := by
  have shared : (Heap.ofCapacity limits.arenaCapacity : Heap Code).newGlobal.2.Pristine :=
    (Heap.Pristine.ofCapacity _).newGlobal
  cases choice with
  | fresh => exact shared.newGlobal
  | empty => exact shared.newEmptyGlobal
  | shared => exact shared

theorem new_global (limits : Limits) (choice : GlobalChoice) :
    (new limits choice : Machine Code).heap.Global (new limits choice : Machine Code).global := by
  cases choice with
  | fresh => exact Heap.global_newGlobal _
  | empty => exact Heap.global_newEmptyGlobal _
  | shared => exact Heap.global_newGlobal _

end Machine

end ScopeMachine
