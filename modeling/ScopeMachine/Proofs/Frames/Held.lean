import ScopeMachine.Proofs.Frames.Deeds
import ScopeMachine.Proofs.Storage.HeldOnHeap

/-!
Cells that are held outside of the arena's slots outlast everything that releases storage. Whatever
code with tables at hand does, such a cell changes only where it is written.
-/

namespace ScopeMachine

open Memory Table Action

namespace Table

def pushedTogether (table : Table) (values : List Value) (memory : Memory) : List CellId :=
  let (table, memory) := table.ensureCapacity (table.length + values.length) memory
  table.pushed values memory

def restCell? {Code : Type} (table : Table) (definition : Definition Code)
    (shared : CellId → Bool) (memory : Memory) : Option CellId :=
  let (table, memory) := table.settled definition memory
  if definition.accepts table.length && definition.isVariadic then
    let (table, memory) := table.truncate shared definition.arity memory
    some (table.cellAt table.length memory).1
  else none

end Table

def Operation.Writes {Code α : Type} : Operation Code α → Machine Code → CellId → Prop
  | .resetTable table, machine, id => table.Names machine.heap.memory id
  | .push table _, machine, id => id = (table.cellAt table.length machine.heap.memory).1
  | .pushTogether table values, machine, id => id ∈ table.pushedTogether values machine.heap.memory
  | .changeCell cell _, _, id => id = cell
  | .createMember scope name permission, machine, id =>
      id = (machine.heap.createMember scope name permission).1
  | _, _, _ => False

def Operation.Releases {Code α : Type} : Operation Code α → Prop
  | .releaseScope .. | .ensureCapacity .. | .safeCopy .. | .freeTable .. | .reinit ..
  | .truncate .. => True
  | _ => False

namespace Workspace

variable {Code : Type}

/-- The cells that the deed writes. -/
def Writes (state : Workspace Code) : Deed Code → CellId → Prop
  | .move (.work number work), id =>
      ∃ entry ∈ state.entryAt? number, work.written? entry.table state.memory = some id
  | .move (.createMember scope name permission), id =>
      id = (state.machine.heap.createMember scope name permission).1
  | .move (.writeMember scope slot _), id =>
      id = ((state.machine.heap.scope scope).members.cellAt slot state.memory).1
  | .operate operation, id => operation.Writes state.machine id
  | .reset number, id => ∃ entry ∈ state.entryAt? number, entry.table.Names state.memory id
  | .pushTogether number values, id =>
      ∃ entry ∈ state.entryAt? number, id ∈ entry.table.pushedTogether values state.memory
  | .settle number definition, id =>
      ∃ entry ∈ state.entryAt? number,
        entry.table.restCell? definition state.machine.host.shares state.memory = some id
  | _, _ => False

/-- The deed gives storage back: a frame is closed, or a table or a scope gives up what it has in
the arena. -/
def Deed.Releases : Deed Code → Prop
  | .move (.closeFrame _) | .closeFrame _ | .move (.safeCopy _) | .move (.free _)
  | .move (.work _ (.ensureCapacity _)) | .move (.work _ (.truncate _)) | .reinit .. => True
  | .operate operation => operation.Releases
  | _ => False

/-- The deed makes no scope whose `in` is bound already. -/
def Deed.Unbound : Deed Code → Prop
  | .chore (.newScope _ _ kind) => kind.trailingCell? = none
  | .enter _ _ _ invocation => invocation.trailingCell = none
  | _ => True

/-- Something besides a slot of the arena holds the cell: the host, a table at hand, or a scope by
its members or its binding of `in`. -/
structure Holds (state : Workspace Code) (id : CellId) : Prop where
  old : id.index < state.memory.cells.size
  holder : state.machine.host.shares id = true ∨
    (∃ number, ∃ entry ∈ state.entryAt? number, id ∈ entry.table.heapCells) ∨
    (∃ scope, id ∈ (state.machine.heap.scope scope).members.heapCells) ∨
    state.machine.heap.Binds id

structure Parted (state : Workspace Code) : Prop extends state.Detached where
  bound : ∀ {id : CellId}, state.machine.heap.Binds id → state.machine.heap.Apart id

variable {state : Workspace Code}

private theorem Parted.held (parted : state.Parted) {id : CellId} (holds : state.Holds id) :
    state.memory.Held state.machine.host.shares id := by
  rcases holds.holder with shared | ⟨number, entry, held, listed⟩ | ⟨scope, listed⟩ | bound
  · exact .inl shared
  · exact .inr ((parted.entries held).unnamed listed)
  · exact .inr ((parted.machine.aloof scope).unnamed listed)
  · exact .inr (parted.bound bound).2

private theorem work_keepsHeld {written : CellId → Prop} (work : Table.Work) (table : Table)
    (shared : CellId → Bool) (memory : Memory)
    (wrote : ∀ id ∈ work.written? table memory, written id) :
    memory.KeepsHeld shared written (work.run shared table memory).2 := by
  cases work with
  | touch slot => exact cellAt_keepsHeld ..
  | write slot change => exact write_keepsHeld _ _ _ (wrote _ rfl) _
  | push value => exact write_keepsHeld _ _ _ (wrote _ rfl) _
  | ensureCapacity capacity => exact ensureCapacity_keepsHeld ..
  | truncate length => exact truncate_keepsHeld ..

private theorem workOnScope_keepsHeld {written : CellId → Prop} (state : Workspace Code)
    (id : ScopeId)
    (work : Table.Work)
    (wrote : ∀ cell ∈ work.written? (state.machine.heap.scope id).members state.memory,
      written cell) :
    state.machine.heap.KeepsHeld state.machine.host.shares written
      (state.workOnScope id work).machine.heap :=
  Heap.modifyScope_keepsHeld _ _ (work_keepsHeld work _ _ _ wrote) id fun _ => .inr rfl

private theorem onEntry_keepsHeld {written : CellId → Prop} (state : Workspace Code) (number : Nat)
    (work : Table → Memory → Table × Memory)
    (keeps : ∀ entry ∈ state.entryAt? number,
      state.memory.KeepsHeld state.machine.host.shares written (work entry.table state.memory).2) :
    state.machine.heap.KeepsHeld state.machine.host.shares written
      (state.onEntry number work).machine.heap := by
  unfold onEntry
  cases held : state.entryAt? number with
  | none => exact .refl ..
  | some entry => exact .of_memory _ (keeps entry held)

theorem settled_keepsHeld (table : Table) (definition : Definition Code) (shared : CellId → Bool)
    (written : CellId → Prop) (memory : Memory) :
    memory.KeepsHeld shared written (table.settled definition memory).2 := by
  unfold Table.settled
  split
  next => exact copyOut_keepsHeld ..
  next => exact .refl ..

private theorem newArray_keepsHeld (shared : CellId → Bool) (written : CellId → Prop)
    (heap : Heap Code)
    (elements : List Value) : heap.KeepsHeld shared written (heap.newArray elements false).2 :=
  .of_scopes (.refl ..) fun _ => .inr rfl

private theorem mapArguments_keepsHeld {written : CellId → Prop} (definition : Definition Code)
    (arguments : Table) (held : List Handle) (machine : Machine Code)
    (wrote : ∀ id ∈ arguments.restCell? definition machine.host.shares machine.heap.memory,
      written id) :
    machine.heap.KeepsHeld machine.host.shares written
      (machineLeft (mapArguments definition arguments held machine)).heap := by
  have settled := settled_keepsHeld arguments definition machine.host.shares written
    machine.heap.memory
  rw [run_mapArguments]
  unfold restCell? at wrote
  generalize arguments.settled definition machine.heap.memory = result at settled wrote ⊢
  obtain ⟨table, memory⟩ := result
  have mapped : machine.heap.KeepsHeld machine.host.shares written { machine.heap with memory } :=
    .of_memory _ settled
  dsimp only at settled wrote ⊢
  split
  next accepted =>
    split
    next variadic =>
      rw [accepted, variadic] at wrote
      have collected := newArray_keepsHeld machine.host.shares written { machine.heap with memory }
        (table.trailing definition memory)
      refine mapped.trans (collected.trans (.of_memory _ ?_))
      exact (truncate_keepsHeld ..).trans (write_keepsHeld _ _ _ (wrote _ rfl) _)
    next => exact mapped
  next => exact mapped.trans (.of_memory _ (free_keepsHeld ..))

private theorem perform_keepsHeld {α : Type} (operation : Operation Code α) (machine : Machine Code)
    (sound : machine.heap.memory.Sound) :
    machine.heap.KeepsHeld machine.host.shares (operation.Writes machine)
      (operation.perform machine).2.heap := by
  cases operation with
  | ask | keep | setLine | setScopeAndLine => exact .refl ..
  | allocateTable size =>
      exact (Machine.attempt_snd machine [] (Action.allocateTable size)).symm ▸
        Machine.allocateTable_keepsHeld _ _ machine [] size
  | allocateBlock previous index =>
      exact (Machine.attempt_snd machine [] (Action.allocateBlock previous index)).symm ▸
        Machine.allocateBlock_keepsHeld _ _ machine [] previous index
  | releaseScope held scope => exact Machine.releaseScope_keepsHeld ..
  | tableOfValues values => exact .of_memory _ (newAll_keepsHeld ..)
  | cellAt table slot => exact .of_memory _ (cellAt_keepsHeld ..)
  | ensureCapacity table capacity => exact .of_memory _ (ensureCapacity_keepsHeld ..)
  | safeCopy table => exact .of_memory _ (copyOut_keepsHeld ..)
  | resetTable table => exact .of_memory _ (reset_keepsHeld _ _ _ fun _ => id)
  | freeTable table => exact .of_memory _ (free_keepsHeld ..)
  | reinit table capacity => exact .of_memory _ (reinit_keepsHeld ..)
  | truncate table length => exact .of_memory _ (truncate_keepsHeld ..)
  | push table value =>
      have wrote : (Operation.push table value).Writes machine
          (table.cellAt table.length machine.heap.memory).1 := rfl
      exact .of_memory _ (write_keepsHeld table _ _ wrote _)
  | pushTogether table values => exact .of_memory _ (pushTogether_keepsHeld _ _ _ fun _ => id)
  | newCell cell => exact .of_memory _ (new_keepsHeld ..)
  | changeCell cell change =>
      have wrote : (Operation.changeCell cell change).Writes machine cell := rfl
      exact Heap.modifyCell_keepsHeld _ _ wrote change
  | newBasic previous index => exact Heap.newScope_keepsHeld _ _ _ rfl
  | newEmptyGlobal => exact Heap.newScope_keepsHeld _ _ _ rfl
  | newGlobal => exact Heap.newGlobal_keepsHeld ..
  | ownMember scope name => exact (Heap.keepsHeld_law _ _).ownMember _ _ _ sound
  | lookup scope name => exact (Heap.keepsHeld_law _ _).lookup _ _ _ sound
  | scopeMember scope name => exact (Heap.keepsHeld_law _ _).scopeMember _ _ _ sound
  | createMember scope name permission => exact Heap.createMember_keepsHeld _ _ rfl

private theorem chore_keepsHeld {chore : Chore Code} (shared : CellId → Bool)
    (written : CellId → Prop)
    (heap : Heap Code) (unbound : (Deed.chore chore).Unbound) :
    heap.KeepsHeld shared written (chore.run heap) := by
  cases chore with
  | newScope previous index kind => exact Heap.newScope_keepsHeld _ _ _ unbound
  | changeArray id change =>
      change heap.KeepsHeld shared written (heap.modifyArray id change).2
      unfold Heap.modifyArray
      split
      next => exact .refl ..
      next => exact .of_scopes (.refl ..) fun _ => .inr rfl
  | _ => exact .of_scopes (.refl ..) fun _ => .inr rfl

private theorem step_keepsHeld (state : Workspace Code) (move : Move) :
    state.machine.heap.KeepsHeld state.machine.host.shares (state.Writes (.move move))
      (state.step move).machine.heap := by
  cases move with
  | keep change => exact .refl ..
  | openFrame id file scope =>
      unfold Workspace.step
      dsimp only
      split
      next => exact .refl ..
      next => exact .of_memory _ (.of_bookkeeping rfl rfl)
  | closeFrame held => exact Machine.closeFrame_keepsHeld ..
  | allocateTable size =>
      rw [step_allocateTable]
      split
      next => exact .refl ..
      next =>
        split
        next allocated =>
          obtain ⟨-, -, rfl⟩ := Arena.allocate_eq_ok allocated
          exact .of_memory _ (.of_bookkeeping rfl rfl)
        next => exact .refl ..
  | allocateBlock previous index =>
      unfold Workspace.step
      dsimp only
      rw [Machine.attempt_snd]
      exact Machine.allocateBlock_keepsHeld ..
  | work number work =>
      exact onEntry_keepsHeld state number (work.run state.machine.host.shares) fun entry held =>
        work_keepsHeld work _ _ _ fun id wrote => ⟨entry, held, wrote⟩
  | safeCopy number =>
      unfold Workspace.step
      dsimp only
      cases held : state.entryAt? number with
      | none => exact .refl ..
      | some entry => exact .of_memory _ (copyOut_keepsHeld ..)
  | free number =>
      unfold Workspace.step
      dsimp only
      cases held : state.entryAt? number with
      | none => exact .refl ..
      | some entry => exact .of_memory _ (free_keepsHeld ..)
  | createMember scope name permission => exact Heap.createMember_keepsHeld _ _ rfl
  | writeMember scope slot change =>
      exact workOnScope_keepsHeld state scope _ fun _ wrote => (Option.some.inj wrote).symm

private theorem Parted.keepsHeld (parted : state.Parted) {deed : Deed Code}
    (unbound : deed.Unbound) :
    state.machine.heap.KeepsHeld state.machine.host.shares (state.Writes deed)
      (state.act deed).machine.heap := by
  cases deed with
  | move move => exact step_keepsHeld state move
  | closeFrame held => exact Machine.closeFrame_keepsHeld ..
  | operate operation => exact perform_keepsHeld operation state.machine parted.machine.sound
  | chore chore => exact chore_keepsHeld _ _ _ unbound
  | tableOfValues values => exact .of_memory _ (newAll_keepsHeld ..)
  | reset number =>
      exact onEntry_keepsHeld state number (fun table memory => (table, table.reset memory))
        fun entry held => reset_keepsHeld _ _ _ fun id named => ⟨entry, held, named⟩
  | reinit number capacity =>
      exact onEntry_keepsHeld state number _ fun _ _ => reinit_keepsHeld ..
  | pushTogether number values =>
      exact onEntry_keepsHeld state number _ fun entry held =>
        pushTogether_keepsHeld _ _ _ fun id wrote => ⟨entry, held, wrote⟩
  | settle number definition =>
      unfold Workspace.act
      dsimp only
      cases held : state.entryAt? number with
      | none => exact .refl ..
      | some entry =>
          have wrote : ∀ id ∈
              entry.table.restCell? definition state.machine.host.shares state.memory,
              state.Writes (.settle number definition) id := fun _ wrote => ⟨entry, held, wrote⟩
          have keeps := mapArguments_keepsHeld definition entry.table [] state.machine wrote
          dsimp only
          unfold Machine.attempt
          cases ended : mapArguments definition entry.table [] state.machine with
          | error abort after =>
              rw [ended] at keeps
              exact keeps
          | ok result after =>
              rw [ended] at keeps
              exact keeps
  | enter number previous index invocation =>
      unfold Workspace.act
      dsimp only
      cases held : state.entryAt? number with
      | none => exact .refl ..
      | some entry =>
          dsimp only
          rw [Machine.attempt_snd]
          exact Machine.allocateCallScope_keepsHeld _ _ state.machine [] previous index entry.table
            unbound

theorem Parted.act (parted : state.Parted) {deed : Deed Code} (unbound : deed.Unbound) :
    (state.act deed).Parted := by
  have keeps := parted.keepsHeld unbound
  refine ⟨parted.toDetached.act deed, fun bound => ?_⟩
  exact (keeps.binds bound).elim (fun earlier => keeps.apart (parted.bound earlier)) id

theorem Parted.after (parted : state.Parted) {deeds : List (Deed Code)}
    (unbound : ∀ deed ∈ deeds, deed.Unbound) : (state.after deeds).Parted := by
  induction deeds generalizing state with
  | nil => exact parted
  | cons deed rest induction =>
      exact induction (parted.act (unbound deed List.mem_cons_self)) fun other listed =>
        unbound other (List.mem_cons_of_mem _ listed)

theorem fresh_parted (limits : Limits) (choice : GlobalChoice) :
    (fresh limits choice : Workspace Code).Parted := by
  refine ⟨fresh_detached limits choice, fun {id} bound => ?_⟩
  have bare : ¬ (Heap.ofCapacity limits.arenaCapacity : Heap Code).Binds id := by
    rintro ⟨scope, found⟩
    rw [Heap.scope_of_size_le (Nat.zero_le _)] at found
    cases found
  have keeps := Heap.newGlobal_keepsHeld (fun _ => false) (fun _ => False)
    (Heap.ofCapacity limits.arenaCapacity : Heap Code)
  have later : ∀ {heap : Heap Code},
      (Heap.ofCapacity limits.arenaCapacity : Heap Code).newGlobal.2.KeepsHeld (fun _ => false)
        (fun _ => False) heap → heap.Binds id → heap.Apart id := fun more bound =>
    ((keeps.trans more).binds bound).resolve_left bare
  cases choice with
  | fresh => exact later (Heap.newGlobal_keepsHeld ..) bound
  | empty => exact later (Heap.newScope_keepsHeld _ _ _ rfl) bound
  | shared => exact later (.refl ..) bound

private theorem Parted.cell (parted : state.Parted) {id : CellId} (holds : state.Holds id)
    {deed : Deed Code} (unbound : deed.Unbound) (unwritten : ¬ state.Writes deed id) :
    (state.act deed).memory.cell id = state.memory.cell id :=
  (parted.keepsHeld unbound).cell holds.old (parted.held holds) unwritten

private theorem Deed.Releases.unbound {deed : Deed Code} (releases : deed.Releases) :
    deed.Unbound := by
  cases deed with
  | chore => cases releases
  | enter => cases releases
  | _ => trivial

private theorem Deed.Releases.not_writes {deed : Deed Code} (releases : deed.Releases)
    (state : Workspace Code)
    (id : CellId) : ¬ state.Writes deed id := by
  intro wrote
  cases deed with
  | move move =>
      cases move with
      | work number work =>
          obtain ⟨entry, -, wrote⟩ := wrote
          cases work with
          | ensureCapacity => cases wrote
          | truncate => cases wrote
          | _ => cases releases
      | createMember => cases releases
      | writeMember => cases releases
      | _ => cases wrote
  | operate operation =>
      cases operation with
      | resetTable | push | pushTogether | changeCell | createMember => cases releases
      | _ => cases wrote
  | reset | pushTogether | settle => cases releases
  | _ => cases wrote

/-- At every step there is a holder, and the cell is not written. -/
def Spared (state : Workspace Code) (id : CellId) : List (Deed Code) → Prop
  | [] => True
  | deed :: rest =>
      state.Holds id ∧ deed.Unbound ∧ ¬ state.Writes deed id ∧ (state.act deed).Spared id rest

theorem Parted.spared (parted : state.Parted) {id : CellId} {deeds : List (Deed Code)}
    (spared : state.Spared id deeds) :
    (state.after deeds).memory.cell id = state.memory.cell id := by
  induction deeds generalizing state with
  | nil => rfl
  | cons deed rest induction =>
      obtain ⟨holds, unbound, unwritten, later⟩ := spared
      exact (induction (parted.act unbound) later).trans (parted.cell holds unbound unwritten)

/-- Storage that is given back never takes a held cell along: value, permission and flags stay as
they are. Only a write to the cell changes it, however long it is held and whoever holds it. -/
theorem held_cell_survives_release (limits : Limits) (choice : GlobalChoice)
    (deeds : List (Deed Code)) (unbound : ∀ deed ∈ deeds, deed.Unbound) (id : CellId) :
    let state := (fresh limits choice : Workspace Code).after deeds
    (state.Holds id →
      (∀ deed : Deed Code, deed.Releases →
        (state.act deed).memory.cell id = state.memory.cell id) ∧
      (∀ scope, (state.machine.promote scope).heap.memory.cell id = state.memory.cell id) ∧
      (∀ deed : Deed Code, deed.Unbound → (state.act deed).memory.cell id ≠ state.memory.cell id →
        state.Writes deed id)) ∧
    ∀ later : List (Deed Code), state.Spared id later →
      (state.after later).memory.cell id = state.memory.cell id := by
  intro state
  have parted : state.Parted := (fresh_parted limits choice).after unbound
  refine ⟨fun holds => ⟨fun deed releases => ?_, fun scope => ?_, fun deed bare changed => ?_⟩,
    fun later => parted.spared⟩
  · exact parted.cell holds releases.unbound (releases.not_writes state id)
  · have keeps := Heap.detach_keepsHeld state.machine.host.shares (fun _ =>
      False) state.machine.heap scope
    exact keeps.cell holds.old (parted.held holds) not_false
  · exact Classical.byContradiction fun unwritten =>
      changed (parted.cell holds bare unwritten)

/-- A host takes a reference to the only cell of a table. -/
def lent : List (Deed Unit) :=
  [.move (.openFrame "main" "" ⟨0⟩), .move (.allocateTable 1), .move (.work 0 (.push (.bool true))),
    .move (.keep fun host => { host with references := host.references.put "r" ⟨12⟩ })]

theorem held_cell_survives_release_lent :
    let state := (fresh .default .empty : Workspace Unit).after lent
    state.memory.arena.peek 0 = some ⟨12⟩ ∧ (state.memory.value ⟨12⟩).isNull = false ∧
      (state.act (.move (.free 0))).memory.cell ⟨12⟩ = state.memory.cell ⟨12⟩ ∧
      (state.act (.closeFrame [])).memory.cell ⟨12⟩ = state.memory.cell ⟨12⟩ := by
  intro state
  have unbound : ∀ deed ∈ lent, deed.Unbound := by
    intro deed listed
    simp only [lent, List.mem_cons, List.not_mem_nil, or_false] at listed
    rcases listed with rfl | rfl | rfl | rfl <;> trivial
  have holds : state.Holds ⟨12⟩ := by
    refine ⟨?_, .inl ?_⟩
    · decide +kernel
    · decide +kernel
  obtain ⟨outlasts, -⟩ := held_cell_survives_release .default .empty lent unbound ⟨12⟩
  refine ⟨?_, ?_, (outlasts holds).1 (.move (.free 0)) trivial,
    (outlasts holds).1 (.closeFrame []) trivial⟩
  · decide +kernel
  · decide +kernel

end Workspace

end ScopeMachine
