import ScopeMachine.Proofs.Liveness.Clients
import ScopeMachine.Proofs.Storage.Drawing

namespace ScopeMachine

open ScopeMachine.Action Relation

theorem FrameStack.mem_modifyTop {stack : FrameStack} {change : Frame → Frame} {frame : Frame}
    (member : frame ∈ (stack.modifyTop change).toList) :
    (∃ top ∈ stack.toList, frame = change top) ∨ frame ∈ stack.toList := by
  obtain ⟨list, depth, depth_eq⟩ := stack
  cases list with
  | nil => cases member
  | cons top outer =>
      rcases List.mem_cons.mp member with rfl | member
      · exact .inl ⟨top, List.mem_cons_self, rfl⟩
      · exact .inr (List.mem_cons_of_mem _ member)

/-- A scope later on: over the same scope, of the same kind, and pooled only if it was. -/
structure Scope.Evolves (before after : Scope) : Prop where
  previous : after.previous = before.previous
  kind : after.kind = before.kind ∨ before.variant = .function ∧ after.variant = .function
  pooled : after.pooled = true → before.pooled = true

namespace Scope.Evolves

theorem refl (scope : Scope) : scope.Evolves scope := ⟨rfl, .inl rfl, id⟩

theorem trans {first second third : Scope} (left : first.Evolves second)
    (right : second.Evolves third) : first.Evolves third := by
  refine ⟨right.previous.trans left.previous, ?_, left.pooled ∘ right.pooled⟩
  rcases left.kind, right.kind with ⟨same | ⟨was, is⟩, same' | ⟨was', is'⟩⟩
  · exact .inl (same'.trans same)
  · refine .inr ⟨?_, is'⟩
    unfold variant at was' ⊢
    rwa [same] at was'
  · refine .inr ⟨was, ?_⟩
    unfold variant at is ⊢
    rwa [same']
  · exact .inr ⟨was, is'⟩

/-- Forks go on standing for what they stood for. -/
theorem target {before after : Scope} (evolves : before.Evolves after) :
    after.kind.target? = before.kind.target? := by
  have targetless {scope : Scope} (called : scope.variant = .function) :
      scope.kind.target? = none := by
    unfold Scope.variant at called
    cases kind : scope.kind with
    | fork object => exact nomatch (kind ▸ called : (ScopeKind.fork object).variant = .function)
    | _ => rfl
  rcases evolves.kind with same | ⟨was, is⟩
  · rw [same]
  · rw [targetless was, targetless is]

/-- A kind that no call has stays. -/
theorem kind_eq {before after : Scope} (evolves : before.Evolves after)
    (uncalled : before.variant ≠ .function) : after.kind = before.kind :=
  evolves.kind.resolve_right fun ⟨was, _⟩ => uncalled was

end Scope.Evolves

namespace Heap

variable {Code : Type} {still : ScopeId → Prop}

/-- A heap later on, with the scopes that stay still. -/
structure Evolves (still : ScopeId → Prop) (before after : Heap Code) : Prop where
  continues : before.memory.Continues after.memory
  functions : ∀ {id function}, before.function? id = some function →
    after.function? id = some function
  size : before.scopes.size ≤ after.scopes.size
  scope : ∀ {id : ScopeId}, id.index < before.scopes.size → still id →
    (before.scope id).Evolves (after.scope id)
  holds : ∀ {id : ScopeId} {cell : CellId}, id.index < before.scopes.size → still id →
    (after.scope id).holds (.cell cell) = true →
      (before.scope id).holds (.cell cell) = true ∨ before.memory.Offers after.memory cell

namespace Evolves

theorem refl (heap : Heap Code) : heap.Evolves still heap :=
  ⟨.refl .., id, Nat.le_refl _, fun _ _ => .refl _, fun _ _ => .inl⟩

theorem trans {first second third : Heap Code} (left : first.Evolves still second)
    (sound : first.memory.Sound) (right : second.Evolves still third) :
    first.Evolves still third where
  continues := left.continues.trans right.continues
  functions := right.functions ∘ left.functions
  size := Nat.le_trans left.size right.size
  scope old stays :=
    (left.scope old stays).trans (right.scope (Nat.lt_of_lt_of_le old left.size) stays)
  holds old stays holds := by
    rcases right.holds (Nat.lt_of_lt_of_le old left.size) stays holds with earlier | offered
    · exact (left.holds old stays earlier).imp_right (·.later right.continues)
    · exact .inr (offered.earlier left.continues sound right.continues)

theorem of_memory (heap : Heap Code) {memory : Memory}
    (continues : heap.memory.Continues memory) : heap.Evolves still { heap with memory } :=
  ⟨continues, id, Nat.le_refl _, fun _ _ => .refl _, fun _ _ => .inl⟩

/-- Nothing but arrays and exceptions has changed, and functions were added at most. -/
theorem of_scopes {before after : Heap Code} (memory : after.memory = before.memory)
    (scopes : after.scopes = before.scopes)
    (functions : ∀ {id function}, before.function? id = some function →
      after.function? id = some function) : before.Evolves still after := by
  have same (id : ScopeId) : after.scope id = before.scope id := by
    unfold Heap.scope
    rw [scopes]
  exact ⟨memory ▸ .refl .., functions, Nat.le_of_eq (congrArg Array.size scopes.symm),
    fun {id} _ _ => same id ▸ .refl _, fun {id _} _ _ holds => .inl (same id ▸ holds)⟩

end Evolves

private theorem workScope_evolves (heap : Heap Code) {id : ScopeId} {memory : Memory}
    (continues : heap.memory.Continues memory) {change : Scope → Scope}
    (evolves : still id → (heap.scope id).Evolves (change (heap.scope id)))
    (holds : ∀ {cell}, still id → (change (heap.scope id)).holds (.cell cell) = true →
      (heap.scope id).holds (.cell cell) = true ∨ heap.memory.Offers memory cell) :
    heap.Evolves still ({ heap with memory }.modifyScope id change) := by
  have either (other : ScopeId) := scope_modifyScope_or { heap with memory } id other change
  refine ⟨continues, fun found => found, Nat.le_of_eq (size_modifyScope ..).symm,
    fun {other} old stays => ?_,
    fun {other _} old stays held => ?_⟩
  · rcases either other with same | ⟨rfl, changed⟩
    · rw [same]
      exact .refl _
    · rw [changed]
      exact evolves stays
  · rcases either other with same | ⟨rfl, changed⟩
    · rw [same] at held
      exact .inl held
    · rw [changed] at held
      exact holds stays held

/-- The cells that a scope holds: those of its table and the binding of `in`. -/
theorem holds_cell_of_members {scope scope' : Scope} {cell : CellId}
    (kind : scope'.kind = scope.kind) (holds : scope'.holds (.cell cell) = true) :
    cell ∈ scope'.members.heapCells ∨ scope.holds (.cell cell) = true := by
  unfold Scope.holds at holds ⊢
  rw [kind] at holds
  simp only [Bool.or_eq_true] at holds ⊢
  rcases holds with (previous | listed) | bound
  · cases linked : scope'.previous with
    | none => rw [linked] at previous; cases previous
    | some outer => rw [linked] at previous; cases previous
  · obtain ⟨other, member, same⟩ := Array.any_eq_true'.mp listed
    cases Handle.eq_of_isCell same
    exact .inl member
  · exact .inr (.inr bound)

theorem holds_cell_of_mem {scope : Scope} {cell : CellId}
    (listed : cell ∈ scope.members.heapCells) : scope.holds (.cell cell) = true := by
  have any : scope.members.heapCells.any (Handle.isCell (.cell cell)) = true :=
    Array.any_eq_true'.mpr ⟨cell, listed, by simp [Handle.isCell]⟩
  simp [Scope.holds, any]

/-- A new scope on the heap holds no cells, except for the binding of `in`. -/
theorem onHeap_holds_cell {previous : Option ScopeId} {index : Index} {kind : ScopeKind}
    {cell : CellId} (holds : kind.holds (.cell cell) = false) :
    (Scope.onHeap previous index kind).holds (.cell cell) = false := by
  cases previous <;>
    simp [Scope.holds, Scope.onHeap, Table.empty, Table.heapCells, Handle.isScope, holds]

/-- Once `in` is bound, a call holds the cell that it is bound to and what it held before. -/
theorem holds_cell_of_binding {scope : Scope} {invocation : Invocation} {bound cell : CellId}
    (kind : scope.kind = .function invocation)
    (held : Scope.holds (.cell cell) { scope with
      kind := .function { invocation with trailingCell := some bound } } = true) :
    scope.holds (.cell cell) = true ∨ cell = bound := by
  simp only [Scope.holds, ScopeKind.holds, Bool.or_eq_true, kind] at held ⊢
  rcases held with outer | ((function | receiver) | values) | here
  · exact .inl (.inl outer)
  · exact .inl (.inr (.inl (.inl (.inl function))))
  · exact .inl (.inr (.inl (.inl (.inr receiver))))
  · exact .inl (.inr (.inl (.inr values)))
  · exact .inr (Handle.cell.inj (Handle.eq_of_isCell here))

private theorem workMembers_evolves (heap : Heap Code) {id : ScopeId} {table : Table}
    {memory : Memory}
    (draws : (heap.scope id).members.Draws heap.memory table memory) {change : Scope → Scope}
    (members : ∀ scope, (change scope).members = table)
    (kind : ∀ scope, (change scope).kind = scope.kind)
    (evolves : (heap.scope id).Evolves (change (heap.scope id))) :
    heap.Evolves still ({ heap with memory }.modifyScope id change) := by
  refine workScope_evolves heap draws.continues (fun _ => evolves) fun _ held => ?_
  rcases holds_cell_of_members (kind _) held with listed | earlier
  · rw [members] at listed
    exact (draws.cells listed).imp_left holds_cell_of_mem
  · exact .inl earlier

private theorem setIndex_evolves (heap : Heap Code) (id : ScopeId) (index : Index) :
    heap.Evolves still (heap.modifyScope id fun scope => { scope with index }) :=
  workScope_evolves heap (.refl ..) (fun _ => ⟨rfl, .inl rfl, fun pooled => pooled⟩) fun _ => .inl

private theorem slotCell_evolves {heap : Heap Code} (sound : heap.memory.Sound) (id : ScopeId)
    (slot : Nat) : heap.Evolves still (heap.slotCell id slot).2 :=
  workMembers_evolves heap (Table.cellAt_draws sound _ slot) (fun _ => rfl) (fun _ => rfl)
    ⟨rfl, .inl rfl, fun pooled => pooled⟩

private theorem newCell_evolves (heap : Heap Code) (cell : Cell) :
    heap.Evolves still (heap.newCell cell).2 :=
  .of_memory heap (Memory.new_confined ..).continues

theorem modifyCell_evolves (heap : Heap Code) (id : CellId) (change : Cell → Cell) :
    heap.Evolves still (heap.modifyCell id change) :=
  .of_memory heap (Memory.modifyCell_confined ..).continues

theorem newArray_evolves (heap : Heap Code) (elements : List Value) (frozen : Bool) :
    heap.Evolves still (heap.newArray elements frozen).2 :=
  .of_scopes rfl rfl id

theorem newFunction_evolves (heap : Heap Code) (function : Function Code) :
    heap.Evolves still (heap.newFunction function).2 := by
  refine .of_scopes rfl rfl fun {id other} found => ?_
  have old : id.index < heap.functions.size := (Array.getElem?_eq_some_iff.mp found).1
  unfold function? newFunction at *
  rw [Array.getElem?_push, if_neg (Nat.ne_of_lt old)]
  exact found

private theorem modifyArray_evolves (heap : Heap Code) (id : ArrayId)
    (change : Array Value → Array Value) :
    heap.Evolves still (heap.modifyArray id change).2 := by
  unfold modifyArray
  split <;> exact .of_scopes rfl rfl fun found => found

private theorem trailingCell_evolves {heap : Heap Code} (sound : heap.memory.Sound) {id : ScopeId}
    {invocation : Invocation} (kind : (heap.scope id).kind = .function invocation) :
    heap.Evolves still (heap.trailingCell id invocation).2 := by
  unfold trailingCell
  split
  next => exact .refl heap
  next =>
    have variant : (heap.scope id).variant = .function := congrArg ScopeKind.variant kind
    have arrayed : heap.Evolves still (heap.newArray invocation.trailing true).2 :=
      newArray_evolves ..
    have bound (content : Cell) : (heap.newArray invocation.trailing true).2.Evolves still
        ({ (heap.newArray invocation.trailing true).2 with
          memory := (heap.memory.new content).2 }.modifyScope id fun scope =>
            { scope with kind := .function { invocation with
              trailingCell := some (heap.memory.new content).1 } }) := by
      refine workScope_evolves _ (Memory.new_confined ..).continues (fun _ => ?_)
        fun {cell} _ held => ?_
      · exact ⟨rfl, .inr ⟨variant, rfl⟩, fun pooled => pooled⟩
      · refine (holds_cell_of_binding kind held).imp_right fun same => .inr ⟨?_, ?_⟩
        · exact Nat.le_of_eq (congrArg CellId.index same).symm
        · rw [same]
          simp [Memory.new, newArray]
    exact arrayed.trans sound (bound _)

/-- Operations on members leave everything in place. -/
theorem evolves_law :
    Law fun before after : Heap Code => before.memory.Sound → before.Evolves still after where
  refl heap _ := .refl heap
  trans left right sound :=
    (left sound).trans sound (right ((left sound).continues.sound sound))
  slotCell _ id slot sound := slotCell_evolves sound id slot
  trailingCell kind sound := trailingCell_evolves sound kind
  insertName heap id _ _ _ := setIndex_evolves heap id _
  newCell heap cell _ := newCell_evolves heap cell
  modifyCell heap id change _ := modifyCell_evolves heap id change

theorem assign_evolves (heap : Heap Code) (id : CellId) (name : String) (value : Value) :
    heap.Evolves still (heap.assign id name value).2 := by
  unfold assign Memory.assign
  cases (heap.memory.cell id).assign name value with
  | ok cell => exact modifyCell_evolves heap id fun _ => cell
  | error fault => exact .refl heap

/-! Scopes that come and go. -/

theorem newScope_evolves (heap : Heap Code) (scope : Scope) :
    heap.Evolves still (heap.newScope scope).2 := by
  have others {id : ScopeId} (old : id.index < heap.scopes.size) :
      (heap.newScope scope).2.scope id = heap.scope id := by
    refine scope_newScope_ne ?_
    rintro rfl
    exact Nat.lt_irrefl _ old
  refine ⟨.refl .., id, ?_, fun old _ => others old ▸ .refl _,
    fun old _ held => .inl (others old ▸ held)⟩
  simp [newScope]

private theorem setScope_evolves (heap : Heap Code) {id : ScopeId} (stirred : ¬ still id)
    (scope : Scope) :
    heap.Evolves still (heap.setScope id scope) :=
  workScope_evolves heap (.refl ..) (fun stays => (stirred stays).elim)
    fun stays => (stirred stays).elim

private theorem detach_evolves {heap : Heap Code} (sound : heap.memory.Sound) (id : ScopeId) :
    heap.Evolves still (heap.detach id) := by
  unfold detach
  dsimp only
  split
  next =>
    exact workMembers_evolves heap (Table.safeCopy_draws sound _).1 (fun _ => rfl) (fun _ => rfl)
      ⟨rfl, .inl rfl, nofun⟩
  next =>
    exact workMembers_evolves heap (.refl ..) (fun _ => rfl) (fun _ => rfl)
      ⟨rfl, .inl rfl, nofun⟩

private theorem newGlobal_evolves {heap : Heap Code} (sound : heap.memory.Sound) :
    heap.Evolves still heap.newGlobal.2 := by
  have made : heap.Evolves still heap.newEmptyGlobal.2 := newScope_evolves ..
  unfold newGlobal
  generalize heap.newEmptyGlobal = result at made ⊢
  obtain ⟨scope, after⟩ := result
  exact made.trans sound (evolves_law.installBuiltins after scope (made.continues.sound sound))

private theorem resetGlobal_evolves {heap : Heap Code} (sound : heap.memory.Sound)
    (scope : ScopeId) :
    heap.Evolves still (heap.resetGlobal scope) := by
  have emptied : heap.Evolves still (heap.modifyScope scope fun data =>
      { data with index := .empty, members := .empty }) := by
    refine workScope_evolves heap (.refl ..) (fun _ => ⟨rfl, .inl rfl, fun pooled => pooled⟩)
      fun _ held => ?_
    have kind : ({ heap.scope scope with index := .empty, members := .empty } : Scope).kind =
        (heap.scope scope).kind := rfl
    rcases holds_cell_of_members kind held with listed | earlier
    · exact absurd listed (Array.not_mem_empty _)
    · exact .inl earlier
  exact emptied.trans sound (evolves_law.installBuiltins _ scope (emptied.continues.sound sound))

end Heap

namespace Machine

variable {Code : Type} {before after machine : Machine Code}

/-- The scope stays out of the pool. -/
def Still (before after : Machine Code) (id : ScopeId) : Prop :=
  id ∉ before.pool ∧ id ∉ after.pool

def Lists (machine : Machine Code) (id : ScopeId) : Prop :=
  ∃ frame ∈ machine.frames.toList, id ∈ frame.blocks

theorem Guarded.live_of_lists {known : List Handle} (guarded : machine.Guarded known) {id : ScopeId}
    (listed : machine.Lists id) : machine.Live known (.scope id) := by
  obtain ⟨frame, member, listed⟩ := listed
  have holds : frame.holds id = true :=
    Bool.or_eq_true _ _ |>.mpr (.inr (List.contains_iff_mem.mpr listed))
  exact guarded.live_of_root (isRoot_iff.mpr (.inr (.inr (.inr (.inr ⟨frame, member, holds⟩)))))

/-- A machine later on. Only blocks and pooled scopes come to wait in the pool, and only scopes from
the pool and new ones become blocks. -/
structure Evolves (before after : Machine Code) : Prop where
  heap : before.heap.Evolves (before.Still after) after.heap
  pool : ∀ {id}, id ∈ after.pool →
    id ∈ before.pool ∨ before.Lists id ∨ (before.heap.scope id).pooled = true
  blocks : ∀ {id}, after.Lists id →
    before.Lists id ∨ id ∈ before.pool ∨ before.heap.scopes.size ≤ id.index

/-- A scope that nothing is to release. -/
structure Lasting (machine : Machine Code) (id : ScopeId) : Prop where
  old : id.index < machine.heap.scopes.size
  unpooled : (machine.heap.scope id).pooled = false
  idle : id ∉ machine.pool
  unlisted : ¬ machine.Lists id

/-- Slots name cells that exist, and the pool and the open frames list scopes that exist. -/
structure Sane (machine : Machine Code) : Prop where
  sound : machine.heap.memory.Sound
  pool_old : ∀ id ∈ machine.pool, id.index < machine.heap.scopes.size
  blocks_old : ∀ {id}, machine.Lists id → id.index < machine.heap.scopes.size

theorem new_sane (limits : Limits) (choice : GlobalChoice) :
    (Machine.new limits choice : Machine Code).Sane where
  sound := (new_detached limits choice).sound
  pool_old := nofun
  blocks_old := fun ⟨_, member, _⟩ => nomatch member

/-- Nothing waits for a scope that is still to come. -/
theorem Sane.lasting_of_new (sane : machine.Sane) {heap : Heap Code} {id : ScopeId}
    (new : machine.heap.scopes.size ≤ id.index) (old : id.index < heap.scopes.size)
    (unpooled : (heap.scope id).pooled = false) :
    ({ machine with heap } : Machine Code).Lasting id where
  old := old
  unpooled := unpooled
  idle pooled := Nat.not_lt_of_le new (sane.pool_old id pooled)
  unlisted listed := Nat.not_lt_of_le new (sane.blocks_old listed)

namespace Evolves

theorem still_of_lasting (evolves : before.Evolves after) {id : ScopeId}
    (lasting : before.Lasting id) : before.Still after id := by
  refine ⟨lasting.idle, fun pooled => ?_⟩
  rcases evolves.pool pooled with earlier | listed | pooled
  · exact lasting.idle earlier
  · exact lasting.unlisted listed
  · exact nomatch lasting.unpooled.symm.trans pooled

theorem scope (evolves : before.Evolves after) {id : ScopeId} (lasting : before.Lasting id) :
    (before.heap.scope id).Evolves (after.heap.scope id) :=
  evolves.heap.scope lasting.old (evolves.still_of_lasting lasting)

theorem lasting (evolves : before.Evolves after) {id : ScopeId} (lasting : before.Lasting id) :
    after.Lasting id where
  old := Nat.lt_of_lt_of_le lasting.old evolves.heap.size
  unpooled := Bool.eq_false_iff.mpr fun pooled =>
    nomatch lasting.unpooled.symm.trans ((evolves.scope lasting).pooled pooled)
  idle := (evolves.still_of_lasting lasting).2
  unlisted listed := by
    rcases evolves.blocks listed with earlier | pooled | new
    · exact lasting.unlisted earlier
    · exact lasting.idle pooled
    · exact Nat.not_lt_of_le new lasting.old

/-- Work on the heap alone. -/
theorem of_heap {heap : Heap Code} (evolves : ∀ still, machine.heap.Evolves still heap) :
    machine.Evolves { machine with heap } :=
  ⟨evolves _, .inl, .inl⟩

theorem refl (machine : Machine Code) : machine.Evolves machine := of_heap fun _ => .refl _

theorem modifyTop (machine : Machine Code) {change : Frame → Frame}
    (blocks : ∀ frame, (change frame).blocks = frame.blocks) :
    machine.Evolves (machine.modifyTop change) := by
  refine ⟨.refl _, .inl, fun {id} listed => .inl ?_⟩
  obtain ⟨frame, member, listed⟩ := listed
  rcases FrameStack.mem_modifyTop member with ⟨top, earlier, rfl⟩ | earlier
  · exact ⟨top, earlier, blocks top ▸ listed⟩
  · exact ⟨frame, earlier, listed⟩

theorem after_memory (sound : machine.heap.memory.Sound) {memory : Memory}
    (continues : machine.heap.memory.Continues memory)
    (evolves : ({ machine with heap := { machine.heap with memory } } : Machine Code).Evolves
    after) :
    machine.Evolves after :=
  ⟨(Heap.Evolves.of_memory machine.heap continues).trans sound evolves.heap, evolves.pool,
    evolves.blocks⟩

end Evolves

/-! Scopes from the pool and back. -/

section Steps

variable (sound : machine.heap.memory.Sound)

theorem allocateTable_evolves (held : List Handle) (size : Nat) :
    ∃ memory, machine.heap.memory.Continues memory ∧
      machineLeft (allocateTable size held machine) =
        { machine with heap := { machine.heap with memory } } := by
  rw [run_allocateTable, run_ofExcept]
  split
  next => exact ⟨machine.heap.memory, .refl .., rfl⟩
  next =>
    cases allocated : machine.heap.memory.arena.allocate size with
    | error fault => exact ⟨machine.heap.memory, .refl .., rfl⟩
    | ok result =>
        obtain ⟨offset, arena⟩ := result
        obtain ⟨-, -, rfl⟩ := Arena.allocate_eq_ok allocated
        exact ⟨{ machine.heap.memory with
          arena := { machine.heap.memory.arena with
            watermark := machine.heap.memory.arena.watermark + size } },
          .of_bookkeeping rfl rfl, rfl⟩

theorem pooledScope_evolves (held : List Handle) (scope : Scope) :
    ∃ id after, pooledScope scope held machine = .ok id after ∧ machine.Evolves after ∧
      after.frames = machine.frames ∧
        (id ∈ machine.pool ∨ machine.heap.scopes.size ≤ id.index) := by
  rw [run_pooledScope]
  cases pool : machine.pool with
  | nil =>
      refine ⟨_, _, rfl, .of_heap fun _ => Heap.newScope_evolves .., rfl, .inr ?_⟩
      exact Nat.le_refl _
  | cons id rest =>
      refine ⟨id, _, rfl, ⟨?_, fun pooled => .inl ?_, .inl⟩, rfl, .inl List.mem_cons_self⟩
      · refine Heap.setScope_evolves _ (fun stays => ?_) scope
        exact stays.1 (pool ▸ List.mem_cons_self)
      · exact pool ▸ List.mem_cons_of_mem id pooled

include sound

theorem allocateBlock_evolves (held : List Handle) (previous : ScopeId) (index : Index) :
    machine.Evolves (machineLeft (allocateBlock previous index held machine)) := by
  rw [run_allocateBlock]
  split
  next => exact .of_heap fun _ => Heap.newScope_evolves ..
  next =>
    obtain ⟨memory, continues, left⟩ := @allocateTable_evolves _ machine held index.size
    cases made : allocateTable index.size held machine with
    | error abort middle =>
        rw [made] at left
        cases left
        exact .after_memory sound continues (.refl _)
    | ok members middle =>
        rw [made] at left
        cases left
        obtain ⟨id, after, taken, evolves, frames, origin⟩ :=
          @pooledScope_evolves _ { machine with heap := { machine.heap with memory } } held
            ⟨some previous, index, members, .basic, true⟩
        rw [andThen_ok, taken]
        refine .after_memory sound continues ⟨evolves.heap, evolves.pool, fun {other} listed => ?_⟩
        obtain ⟨frame, member, listed⟩ := listed
        change frame ∈ (after.frames.modifyTop _).toList at member
        rw [frames] at member
        rcases FrameStack.mem_modifyTop member with ⟨top, earlier, rfl⟩ | earlier
        · rcases List.mem_append.mp listed with old | new
          · exact .inl ⟨top, earlier, old⟩
          · exact List.mem_singleton.mp new ▸ .inr origin
        · exact .inl ⟨frame, earlier, listed⟩

theorem allocateCallScope_evolves (held : List Handle) (previous : ScopeId) (index : Index)
    (members : Table) (invocation : Invocation) :
    machine.Evolves
      (machineLeft (allocateCallScope previous index members invocation held machine)) := by
  have grown := Table.ensureCapacity_draws sound members index.size
  unfold allocateCallScope
  rw [run_bind, run_onMemory, andThen_ok]
  generalize members.ensureCapacity index.size machine.heap.memory = result at grown ⊢
  obtain ⟨table, memory⟩ := result
  refine .after_memory sound grown.continues ?_
  dsimp only
  rw [run_ite]
  split
  next =>
    obtain ⟨id, after, taken, evolves, -⟩ :=
      @pooledScope_evolves _ { machine with heap := { machine.heap with memory } } held
        ⟨some previous, index, table, .function invocation, table.isArena⟩
    rw [taken]
    exact evolves
  next => exact .of_heap fun _ => Heap.newScope_evolves ..

omit sound

theorem openFrame_evolves (id file : String) (scope : ScopeId) :
    machine.Evolves (machine.openFrame id file scope) := by
  have opened : machine.heap.memory.Continues
      (machine.heap.memory.modifyArena (·.openFrame)) := .of_bookkeeping rfl rfl
  refine ⟨.of_memory machine.heap opened, .inl, fun {other} listed => .inl ?_⟩
  obtain ⟨frame, member, listed⟩ := listed
  rcases List.mem_cons.mp member with rfl | member
  · cases listed
  · exact ⟨frame, member, listed⟩

theorem pool_releaseBlocks (held : List Handle) (blocks : List ScopeId) {id : ScopeId}
    (pooled : id ∈ (releaseBlocks held blocks machine).pool) : id ∈ machine.pool ∨ id ∈ blocks := by
  induction blocks generalizing machine with
  | nil => exact .inl pooled
  | cons first rest induction =>
      unfold releaseBlocks at pooled
      rcases induction pooled with earlier | listed
      · split at earlier
        next => exact .inl earlier
        next =>
          rcases List.mem_cons.mp earlier with rfl | earlier
          · exact .inr List.mem_cons_self
          · exact .inl earlier
      · exact .inr (List.mem_cons_of_mem _ listed)

theorem pool_subset_releaseBlocks (held : List Handle) (blocks : List ScopeId) :
    machine.pool ⊆ (releaseBlocks held blocks machine).pool := by
  induction blocks generalizing machine with
  | nil => exact List.Subset.refl _
  | cons first rest induction =>
      unfold releaseBlocks
      refine List.Subset.trans ?_ induction
      split
      next => exact List.Subset.refl _
      next => exact List.subset_cons_self ..

theorem recycle_evolves {still : ScopeId → Prop} {id : ScopeId} (stirred : ¬ still id) :
    machine.heap.Evolves still (machine.recycle id).heap :=
  Heap.workScope_evolves _ (.refl ..) (fun stays => (stirred stays).elim)
    fun stays => (stirred stays).elim

include sound

theorem releaseBlocks_evolves (held : List Handle) (blocks : List ScopeId)
    {still : ScopeId → Prop}
    (stays : ∀ {id}, still id → id ∉ (releaseBlocks held blocks machine).pool) :
    machine.heap.Evolves still (releaseBlocks held blocks machine).heap := by
  induction blocks generalizing machine with
  | nil => exact .refl _
  | cons first rest induction =>
      unfold releaseBlocks at stays ⊢
      have released : machine.heap.Evolves still
          (if machine.isHeld (rest.map .scope ++ held) first then machine.promote first
            else machine.recycle first).heap := by
        split
        next => exact Heap.detach_evolves sound first
        next idle =>
          refine recycle_evolves fun still => stays still ?_
          rw [if_neg idle]
          exact pool_subset_releaseBlocks _ _ List.mem_cons_self
      exact released.trans sound (induction (released.continues.sound sound) stays)

theorem closeFrame_evolves (held : List Handle) : machine.Evolves (machine.closeFrame held) := by
  unfold closeFrame
  cases popped : machine.frames.pop? with
  | none => exact .refl _
  | some frames =>
      obtain ⟨top, outer⟩ := frames
      have listed := FrameStack.toList_of_pop? popped
      have released := @releaseBlocks_evolves _ { machine with frames := outer } sound held
        top.blocks (machine.Still (releaseBlocks held top.blocks { machine with frames := outer }))
        fun stays => stays.2
      refine ⟨released.trans sound (.of_memory _ (Memory.closeFrame_continues ..)),
        fun {id} pooled => ?_, fun {id} blocks => .inl ?_⟩
      · rcases pool_releaseBlocks held top.blocks pooled with earlier | block
        · exact .inl earlier
        · exact .inr (.inl ⟨top, listed ▸ List.mem_cons_self, block⟩)
      · obtain ⟨frame, member, block⟩ := blocks
        change frame ∈ (releaseBlocks held top.blocks
          { machine with frames := outer }).frames.toList at member
        rw [frames_releaseBlocks] at member
        exact ⟨frame, listed ▸ List.mem_cons_of_mem _ member, block⟩

theorem releaseScope_evolves (held : List Handle) (id : ScopeId) :
    machine.Evolves (machine.releaseScope held id) := by
  unfold releaseScope
  dsimp only
  split
  next => exact .refl _
  next lasts =>
    have pooled : (machine.heap.scope id).pooled = true := by
      cases pooled : (machine.heap.scope id).pooled with
      | true => rfl
      | false => simp [pooled] at lasts
    split
    next => exact .of_heap fun _ => Heap.detach_evolves sound id
    next =>
      refine ⟨?_, fun {other} waits => ?_, .inl⟩
      · have recycled : machine.heap.Evolves (machine.Still (machine.recycle id))
            (machine.recycle id).heap := recycle_evolves fun stays => stays.2 List.mem_cons_self
        exact recycled.trans sound (.of_memory _ (Table.free_continues ..))
      · rcases List.mem_cons.mp waits with rfl | waits
        · exact .inr (.inr pooled)
        · exact .inl waits

end Steps

end Machine

private theorem Request.evolves {Code : Type} {known held : List Handle} {machine : Machine Code}
    (sound : machine.heap.memory.Sound) {α : Type} {action : Action Code α}
    {gain : α → List Handle} (asked : Request known action gain) :
    machine.Evolves (machineLeft (action held machine)) := by
  have memory {memory : Memory} (continues : machine.heap.memory.Continues memory) :
      machine.Evolves { machine with heap := { machine.heap with memory } } :=
    .of_heap fun _ => .of_memory _ continues
  have law {still : ScopeId → Prop} := @Heap.evolves_law Code still
  cases asked with
  | newCell => exact .of_heap fun _ => Heap.newCell_evolves ..
  | assign id name =>
      rw [run_tryHeap]
      split <;> exact .of_heap fun _ => Heap.assign_evolves ..
  | changeCell => exact .of_heap fun _ => Heap.modifyCell_evolves ..
  | allocateTable size =>
      obtain ⟨memory, continues, left⟩ := @Machine.allocateTable_evolves _ machine held size
      rw [left]
      exact .of_heap fun _ => .of_memory _ continues
  | tableOf => exact memory (Table.ofValues_draws _).continues
  | cellAt _ slot => exact memory (Table.cellAt_draws sound _ slot).continues
  | pushEach _ _ => exact memory (Table.pushEach_draws sound _ _).continues
  | ensureCapacity _ capacity =>
      exact memory (Table.ensureCapacity_draws sound _ capacity).continues
  | safeCopy => exact memory (Table.copyOut_draws sound _).continues
  | truncate _ length => exact memory (Table.truncate_draws _ _ length).continues
  | resetTable table => exact memory (Table.reset_continues table)
  | freeTable table => exact memory (Table.free_continues ..)
  | newArray => exact .of_heap fun _ => Heap.newArray_evolves ..
  | changeArray id =>
      rw [run_tryHeap]
      split <;> exact .of_heap fun _ => Heap.modifyArray_evolves ..
  | newException => exact .of_heap fun _ => .of_scopes rfl rfl fun found => found
  | changeException => exact .of_heap fun _ => .of_scopes rfl rfl fun found => found
  | newFunction => exact .of_heap fun _ => Heap.newFunction_evolves ..
  | newScope => exact .of_heap fun _ => Heap.newScope_evolves ..
  | newEmptyGlobal => exact .of_heap fun _ => Heap.newScope_evolves ..
  | newGlobal => exact .of_heap fun _ => Heap.newGlobal_evolves sound
  | resetGlobal => exact .of_heap fun _ => Heap.resetGlobal_evolves sound _
  | createMember _ name permission => exact .of_heap fun _ => law.createMember _ _ _ _ sound
  | ownMember _ name => exact .of_heap fun _ => law.ownMember _ _ _ sound
  | lookup _ name => exact .of_heap fun _ => law.lookup _ _ _ sound
  | member _ name => exact .of_heap fun _ => law.member _ _ _ sound
  | allocateBlock => exact Machine.allocateBlock_evolves sound ..
  | allocateCallScope => exact Machine.allocateCallScope_evolves sound ..
  | setScopeAndLine => exact .modifyTop machine fun _ => rfl
  | setLine => exact .modifyTop machine fun _ => rfl

namespace Client

variable {Code : Type} {before after client : Client Code}

/-- Every move lets scopes evolve. -/
theorem Move.evolves (move : Move before after) (sound : before.machine.heap.memory.Sound) :
    before.machine.Evolves after.machine := by
  cases move with
  | @request _ action gain asked held =>
      have evolves := @Request.evolves _ _ held _ sound _ _ _ asked
      unfold Client.after
      cases ending : action held before.machine with
      | ok result machine =>
          rw [ending] at evolves
          exact evolves
      | error abort machine =>
          rw [ending] at evolves
          exact evolves
  | openFrame _ id file => exact Machine.openFrame_evolves ..
  | closeFrame => exact Machine.closeFrame_evolves sound _
  | releaseScope => exact Machine.releaseScope_evolves sound ..
  | follow | take | forget => exact .refl _
  | host => exact ⟨.refl _, .inl, .inl⟩

/-- Code goes on from one state of affairs to another, move by move. -/
abbrev Leads (before after : Client Code) : Prop := ReflTransGen Move before after

/-- Slots name cells that exist, and nothing is amiss with the pool. -/
structure Orderly (client : Client Code) : Prop where
  guarded : client.machine.Guarded client.known
  sound : client.machine.heap.memory.Sound

theorem Orderly.sane (orderly : client.Orderly) : client.machine.Sane where
  sound := orderly.sound
  pool_old id pooled := (orderly.guarded.pool_lost id pooled).allocated
  blocks_old listed := (orderly.guarded.live_of_lists listed).there rfl

theorem Move.orderly (move : Move before after) (orderly : before.Orderly) : after.Orderly :=
  ⟨move.guarded orderly.guarded, (move.evolves orderly.sound).heap.continues.sound orderly.sound⟩

theorem Leads.orderly (leads : Leads before after) (orderly : before.Orderly) : after.Orderly := by
  induction leads with
  | refl => exact orderly
  | tail _ move induction => exact move.orderly induction

theorem Reachable.orderly {limits : Limits} {choice : GlobalChoice}
    (reachable : Reachable limits choice client) : client.Orderly :=
  Leads.orderly reachable ⟨Machine.new_guarded limits choice,
    (Machine.new_detached limits choice).sound⟩

namespace Leads

theorem function? (leads : Leads before after) (orderly : before.Orderly) {id : FunctionId}
    {function : Function Code} (found : before.machine.heap.function? id = some function) :
    after.machine.heap.function? id = some function := by
  induction leads with
  | refl => exact found
  | tail earlier move induction =>
      exact (move.evolves (Leads.orderly earlier orderly).sound).heap.functions induction

theorem size (leads : Leads before after) (orderly : before.Orderly) :
    before.machine.heap.scopes.size ≤ after.machine.heap.scopes.size := by
  induction leads with
  | refl => exact Nat.le_refl _
  | tail earlier move induction =>
      exact Nat.le_trans induction (move.evolves (Leads.orderly earlier orderly).sound).heap.size

/-- A scope that nothing is to release leads on as it did. -/
theorem lasting (leads : Leads before after) (orderly : before.Orderly) {id : ScopeId}
    (lasting : before.machine.Lasting id) :
    after.machine.Lasting id ∧
      (before.machine.heap.scope id).Evolves (after.machine.heap.scope id) := by
  induction leads with
  | refl => exact ⟨lasting, .refl _⟩
  | tail earlier move induction =>
      obtain ⟨lasts, evolves⟩ := induction
      have moved := move.evolves (Leads.orderly earlier orderly).sound
      exact ⟨moved.lasting lasts, evolves.trans (moved.scope lasts)⟩

end Leads

end Client

end ScopeMachine
