import ScopeMachine.Proofs.Frames.Integrity
import ScopeMachine.Proofs.Running
import ScopeMachine.Proofs.Storage.Stores
import ScopeMachine.Proofs.TableTasks.SlotChanges

/-!
Tables in the arena and tables on the heap cannot be told apart by what they answer: both answer as
their model does.
-/

namespace ScopeMachine

open Memory Table

variable {Code : Type}

private theorem Memory.resetEach_eq (positions : List Nat) (memory : Memory) :
    positions.foldl
        (fun memory position =>
          match memory.arena.peek position with
          | none => memory
          | some id => memory.modifyCell id (·.reset .null)) memory =
      (positions.filterMap memory.arena.peek).foldl
        (fun memory id => memory.modifyCell id (·.reset .null)) memory := by
  induction positions generalizing memory with
  | nil => rfl
  | cons position rest induction =>
      rw [List.foldl_cons]
      cases named : memory.arena.peek position with
      | none =>
          rw [List.filterMap_cons_none named]
          exact induction memory
      | some id =>
          rw [List.filterMap_cons_some named]
          exact induction (memory.modifyCell id (·.reset .null))

private theorem Table.Shows.reset_eq {realise : Nat → Option CellId} {memory : Memory}
    {table : Table}
    {names : List Nat} (shows : table.Shows realise memory names) :
    table.reset memory = (names.filterMap realise).foldl
      (fun memory id => memory.modifyCell id (·.reset .null)) memory := by
  cases table with
  | onHeap cells reserved =>
      have length : cells.toList.length = names.length := shows.length
      have listed : cells.toList.map some = names.map realise := by
        refine List.ext_getElem (by simpa using length) fun slot below below' => ?_
        rw [List.getElem_map, List.getElem_map]
        have shown := shows.cell? (List.getElem?_eq_getElem (by simpa using below'))
        exact (Array.getElem?_eq_getElem (by simpa using below)).symm.trans shown
      have same : names.filterMap realise = cells.toList := by
        have folded := congrArg (List.filterMap id) listed
        rw [List.filterMap_map, List.filterMap_map] at folded
        exact folded.symm.trans List.filterMap_some
      unfold Table.reset
      dsimp only
      rw [same, Array.foldl_toList]
  | inArena slice length =>
      have same : length = names.length := shows.length
      have listed : (List.range' slice.offset length).map memory.arena.peek =
          names.map realise := by
        refine List.ext_getElem (by simpa using same) fun slot below below' => ?_
        rw [List.getElem_map, List.getElem_map, List.getElem_range', Nat.one_mul]
        have shown := shows.cell? (List.getElem?_eq_getElem (by simpa using below'))
        rwa [cell?_inArena (by simpa using below)] at shown
      have same : names.filterMap realise =
          (List.range' slice.offset length).filterMap memory.arena.peek := by
        have folded := congrArg (List.filterMap id) listed
        rw [List.filterMap_map, List.filterMap_map] at folded
        exact folded.symm
      rw [same]
      exact resetEach_eq ..

namespace Machine

variable {machine machine' : Machine Code} {size : Nat} {table : Table}

private theorem attempt_allocateTable_unframed (unframed : machine.frames.isEmpty = true)
    (size : Nat) :
    machine.attempt [] (Action.allocateTable size) = (.ok .empty, machine) := by
  unfold attempt
  rw [Action.run_allocateTable, if_pos unframed]

private theorem attempt_allocateTable_eq_ok
    (allocated : machine.attempt [] (Action.allocateTable size) = (.ok table, machine')) :
    table = .empty ∧ machine' = machine ∨
      table = .inArena ⟨machine.watermark, size⟩ 0 ∧
        machine' = { machine with heap := { machine.heap with
          memory := machine.heap.memory.modifyArena fun arena =>
            { arena with watermark := arena.watermark + size } } } := by
  unfold attempt at allocated
  rw [Action.run_allocateTable] at allocated
  by_cases unframed : machine.frames.isEmpty = true
  · rw [if_pos unframed] at allocated
    cases allocated
    exact .inl ⟨rfl, rfl⟩
  · rw [if_neg unframed] at allocated
    cases room : machine.heap.memory.arena.allocate size with
    | error fault =>
        rw [room] at allocated
        cases allocated
    | ok result =>
        obtain ⟨offset, arena⟩ := result
        obtain ⟨rfl, -, rfl⟩ := Arena.allocate_eq_ok room
        rw [room] at allocated
        cases allocated
        exact .inr ⟨rfl, rfl⟩

end Machine

namespace Represents

variable {realise : Nat → Option CellId} {state : TaskState Code} {model : TableModel}
  {number name : Nat}
  {table : Table} {names : List Nat}

section Reading

variable (represents : Represents realise state model)

include represents

private theorem cell (uses : model.Uses name) :
    model.cell name = (realise name).elim .blank state.memory.cell := by
  unfold TableModel.cell
  rw [List.getD_eq_getElem?_getD, represents.contents uses]
  rfl

private theorem value? (found : state.tables.get? number = some table)
    (found' : model.tables.get? number = some names) (slot : Nat) :
    table.value? slot state.memory = model.valueAt names slot := by
  have shows := represents.tables.like found found'
  unfold Table.value? TableModel.valueAt
  by_cases below : slot < names.length
  · have listed : names[slot]? = some names[slot] := List.getElem?_eq_getElem below
    rw [if_pos (shows.length ▸ below), shows.cell? listed, listed,
      Option.map_some, represents.cell (uses_of_slot found' listed)]
    cases realise names[slot] <;> rfl
  · rw [if_neg (shows.length ▸ below), List.getElem?_eq_none (Nat.le_of_not_lt below)]
    rfl

private theorem values (found : state.tables.get? number = some table)
    (found' : model.tables.get? number = some names) :
    table.values state.memory =
      (List.range names.length).filterMap (model.valueAt names) := by
  unfold Table.values
  rw [(represents.tables.like found found').length]
  exact congrArg (List.filterMap · _) (funext (represents.value? found found'))

end Reading

/-! One task. -/

private theorem touch (represents : Represents realise state model)
    (found : state.tables.get? number = some table)
    (found' : model.tables.get? number = some names) (slot : Nat) :
    ∃ realise', Represents realise'
        (state.place number (some (table.cellAt slot state.memory).2.1)
          (table.cellAt slot state.memory).2.2)
        (model.extend number names (slot + 1)) ∧
      ∀ {name : Nat}, (names ++ model.fresh (slot + 1 - names.length))[slot]? = some name →
        (model.extend number names (slot + 1)).Uses name ∧
          realise' name = some (table.cellAt slot state.memory).1 := by
  have reworks := represents.toTidy.cellAt_reworks found slot
  have length : table.length = names.length := (represents.tables.like found found').length
  rw [length] at reworks
  obtain ⟨realise', represents'⟩ := represents.exists_rework found found' reworks
  refine ⟨realise', represents', fun {name} listed => ?_⟩
  have here := TaskState.get?_place_self found (some (table.cellAt slot state.memory).2.1)
    (table.cellAt slot state.memory).2.2
  have here' : (model.extend number names (slot + 1)).tables.get? number =
      some (names ++ model.fresh (slot + 1 - names.length)) := by
    unfold TableModel.extend TableModel.adjust
    rw [Numbered.get?_put found', if_pos rfl, List.take_length]
  refine ⟨uses_of_slot here' listed, ?_⟩
  rw [← (represents'.tables.like here here').cell? listed]
  exact (cellAt_carries represents.clean (represents.fits found) slot).2

private theorem refer (represents : Represents realise state model)
    (found : state.tables.get? number = some table)
    (found' : model.tables.get? number = some names) (slot : Nat) :
    ∃ realise', Represents realise' (state.onTable number table (.refer slot)).2
      (model.onTable number names (.refer slot)).2 := by
  obtain ⟨realise', represents', named⟩ := represents.touch found found' slot
  have below : slot < (names ++ model.fresh (slot + 1 - names.length)).length := by
    rw [List.length_append, TableModel.fresh, List.length_range']
    omega
  have listed := List.getElem?_eq_getElem below
  obtain ⟨uses, realised⟩ := named listed
  refine ⟨realise', ?_⟩
  have added := represents'.addReference uses realised
  unfold TableModel.onTable
  dsimp only
  rw [List.getD_eq_getElem?_getD, listed]
  exact added

private theorem push (represents : Represents realise state model)
    (found : state.tables.get? number = some table) (value : Value) :
    ∃ realise', Represents realise'
      (state.place number (some (table.push value state.memory).1)
        (table.push value state.memory).2) (model.push number value) := by
  obtain ⟨names, found', shows⟩ := represents.tables.get? found
  obtain ⟨realise', represents', named⟩ := represents.touch found found' table.length
  have listed : (names ++ model.fresh (table.length + 1 - names.length))[table.length]? =
      some model.cells.length := by
    rw [shows.length, List.getElem?_append_right (Nat.le_refl _), Nat.sub_self,
      Nat.add_sub_cancel_left]
    rfl
  obtain ⟨uses, realised⟩ := named listed
  have written := represents'.write uses realised (·.reset value)
  have pushed : model.push number value =
      (model.extend number names (table.length + 1)).change model.cells.length
        (·.reset value) := by
    unfold TableModel.push
    rw [found', shows.length]
  rw [pushed]
  exact ⟨realise', written⟩

private theorem pushEach (represents : Represents realise state model)
    (found : state.tables.get? number = some table) (values : List Value) :
    ∃ realise', Represents realise'
      (state.place number (some (table.pushEach values state.memory).1)
        (table.pushEach values state.memory).2) (values.foldl (·.push number ·) model) := by
  induction values generalizing realise state model table with
  | nil => exact ⟨realise, (TaskState.place_self found).symm ▸ represents⟩
  | cons value rest induction =>
      obtain ⟨realise', pushed⟩ := represents.push found value
      obtain ⟨realise'', later⟩ := induction pushed (TaskState.get?_place_self found _ _)
      rw [TaskState.place_place] at later
      exact ⟨realise'', later⟩

private theorem ensureCapacity (represents : Represents realise state model)
    (found : state.tables.get? number = some table) (capacity : Nat) :
    ∃ realise', Represents realise'
      (state.place number (some (table.ensureCapacity capacity state.memory).1)
        (table.ensureCapacity capacity state.memory).2) model := by
  obtain ⟨names, found', shows⟩ := represents.tables.get? found
  obtain ⟨realise', represents'⟩ := represents.exists_rework found found'
    (represents.toTidy.ensureCapacity_reworks found capacity)
  rw [shows.length, TableModel.adjust_self found'] at represents'
  exact ⟨realise', represents'⟩

private theorem truncate (represents : Represents realise state model)
    (found : state.tables.get? number = some table)
    (found' : model.tables.get? number = some names) (length : Nat) :
    ∃ realise', Represents realise'
      (state.place number (some (table.truncate state.shares length state.memory).1)
        (table.truncate state.shares length state.memory).2)
      (model.adjust number names length 0) := by
  obtain ⟨realise', represents'⟩ := represents.exists_rework found found'
    (represents.toTidy.truncate_reworks found length)
  rw [(represents.tables.like found found').length, TableModel.adjust_min] at represents'
  exact ⟨realise', represents'⟩

private theorem pushTogether (represents : Represents realise state model)
    (found : state.tables.get? number = some table) (values : List Value) :
    ∃ realise', Represents realise'
      (state.place number (some (table.pushTogether values state.memory).1)
        (table.pushTogether values state.memory).2) (values.foldl (·.push number ·) model) := by
  obtain ⟨realise', made⟩ := represents.ensureCapacity found (table.length + values.length)
  obtain ⟨realise'', later⟩ := made.pushEach (TaskState.get?_place_self found _ _) values
  rw [TaskState.place_place] at later
  exact ⟨realise'', later⟩

private theorem resetEach (represents : Represents realise state model)
    (uses : ∀ name ∈ names, model.Uses name) :
    Represents realise
      (state.withMemory ((names.filterMap realise).foldl
        (fun memory id => memory.modifyCell id (·.reset .null)) state.memory))
      (names.foldl (fun model name => model.change name (·.reset .null)) model) := by
  induction names generalizing state model with
  | nil => exact represents
  | cons name rest induction =>
      have here := uses name List.mem_cons_self
      have later := fun name listed => uses name (List.mem_cons_of_mem _ listed)
      rw [List.foldl_cons]
      cases realised : realise name with
      | none =>
          rw [List.filterMap_cons_none realised]
          exact induction (represents.reset_unrealised here realised) later
      | some id =>
          rw [List.filterMap_cons_some realised]
          exact induction (represents.write here realised (·.reset .null)) later

private theorem reinit (represents : Represents realise state model)
    (found : state.tables.get? number = some table)
    (found' : model.tables.get? number = some names) (capacity : Nat) :
    ∃ realise', Represents realise'
      (state.place number (some (table.reinit state.shares capacity state.memory).1)
        (table.reinit state.shares capacity state.memory).2) (model.adjust number names 0 0) := by
  obtain ⟨realise', cut⟩ := represents.truncate found found' 0
  obtain ⟨realise'', made⟩ := cut.ensureCapacity (TaskState.get?_place_self found _ _) capacity
  rw [TaskState.place_place] at made
  exact ⟨realise'', made⟩

private theorem reset (represents : Represents realise state model)
    (found : state.tables.get? number = some table)
    (found' : model.tables.get? number = some names) :
    Represents realise (state.withMemory (table.reset state.memory))
      (names.foldl (fun model name => model.change name (·.reset .null)) model) := by
  rw [(represents.tables.like found found').reset_eq]
  exact represents.resetEach fun name listed => .inl ⟨number, names, found', listed⟩

private theorem safeCopy (represents : Represents realise state model)
    (found : state.tables.get? number = some table)
    (found' : model.tables.get? number = some names) :
    ∃ realise', Represents realise' (state.onTable number table .safeCopy).2
      { model with tables := model.tables.add names } := by
  obtain ⟨realise', moved⟩ := represents.exists_rework found found'
    (represents.toTidy.copyOut_reworks found)
  rw [(represents.tables.like found found').length, TableModel.adjust_self found'] at moved
  have here := TaskState.get?_place_self found (some (table.copyOut state.memory).1)
    (table.copyOut state.memory).2
  have heaped := isArena_copyOut table state.memory
  have shows := moved.tables.like here found'
  have fits := moved.fits here
  refine ⟨realise', ?_⟩
  unfold TaskState.onTable Table.safeCopy
  dsimp only
  generalize (table.copyOut state.memory).1 = copied at *
  cases copied with
  | onHeap cells reserved =>
      have copy := (Alters.forget moved.clean fits).fits
      exact moved.addTable rfl (fun _ => not_spans_onHeap) copy ⟨shows.length, shows.cell?⟩
        fun name listed => ⟨number, _, names, here, rfl, found', listed⟩
  | inArena => cases heaped

private theorem free (represents : Represents realise state model)
    (found : state.tables.get? number = some table)
    (found' : model.tables.get? number = some names) :
    ∃ realise', Represents realise'
      (state.place number none (table.free state.shares state.memory))
      { model with tables := model.tables.put number none } := by
  obtain ⟨realise', emptied⟩ := represents.exists_rework found found'
    (represents.toTidy.free_reworks found)
  have here := TaskState.get?_place_self found (some .empty) (table.free state.shares state.memory)
  have here' : (model.adjust number names 0 0).tables.get? number = some [] := by
    unfold TableModel.adjust
    rw [Numbered.get?_put found', if_pos rfl]
    rfl
  have dropped := emptied.dropTable here here'
  rw [TaskState.place_place] at dropped
  have same : { model.adjust number names 0 0 with
      tables := (model.adjust number names 0 0).tables.put number none } =
      { model with tables := model.tables.put number none } := by
    unfold TableModel.adjust
    simp [Numbered.put_put]
  rw [same] at dropped
  exact ⟨realise', dropped⟩

private theorem allocate (represents : Represents realise state model) {size : Nat} {table : Table}
    {machine : Machine Code}
    (allocated : state.machine.attempt [] (Action.allocateTable size) = (.ok table, machine)) :
    ∃ realise', Represents realise' ({ state with machine }.addTable table)
      { model with tables := model.tables.add [] } := by
  have blank : Table.empty.Shows realise state.memory [] := ⟨rfl, nofun⟩
  have added := represents.addTable rfl (fun _ => not_spans_onHeap) (fits_empty state.memory) blank
    fun name listed => nomatch listed
  rcases Machine.attempt_allocateTable_eq_ok allocated with ⟨rfl, rfl⟩ | ⟨rfl, rfl⟩
  · exact ⟨realise, added⟩
  · -- The empty table becomes a slice of the arena.
    have found : (state.addTable .empty).tables.get? state.tables.size = some .empty := by
      unfold TaskState.addTable
      rw [Numbered.get?_add, if_pos rfl]
    have found' : (model.tables.add []).get? state.tables.size = some [] := by
      rw [Numbered.get?_add, if_pos represents.tables.size]
    obtain ⟨realise', carved⟩ := added.exists_rework found found'
      (added.toTidy.carve_reworks size)
    have listed : (({ model with tables := model.tables.add [] } : TableModel).adjust
        state.tables.size [] 0 0) = { model with tables := model.tables.add [] } :=
      TableModel.adjust_self found'
    have placed := state.place_addTable .empty (.inArena ⟨state.memory.arena.watermark, size⟩ 0)
    rw [listed] at carved
    exact ⟨realise', placed _ ▸ carved⟩

/-! What is asked. -/

private theorem onTable (represents : Represents realise state model)
    (found : state.tables.get? number = some table)
    (found' : model.tables.get? number = some names) (task : TableTask) :
    (∃ realise', Represents realise' (state.onTable number table task).2
      (model.onTable number names task).2) ∧
      (state.onTable number table task).1 = (model.onTable number names task).1 := by
  cases task with
  | refer slot => exact ⟨represents.refer found found' slot, rfl⟩
  | push value => exact ⟨represents.push found value, rfl⟩
  | pushTogether values => exact ⟨represents.pushTogether found values, rfl⟩
  | ensureCapacity capacity => exact ⟨represents.ensureCapacity found capacity, rfl⟩
  | truncate length => exact ⟨represents.truncate found found' length, rfl⟩
  | reinit capacity => exact ⟨represents.reinit found found' capacity, rfl⟩
  | reset => exact ⟨⟨realise, represents.reset found found'⟩, rfl⟩
  | safeCopy => exact ⟨represents.safeCopy found found', rfl⟩
  | free => exact ⟨represents.free found found', rfl⟩
  | drop => exact ⟨⟨realise, represents.dropTable found found'⟩, rfl⟩
  | valueAt slot =>
      exact ⟨⟨realise, represents⟩, congrArg Answer.value (represents.value? found found' slot)⟩
  | values => exact ⟨⟨realise, represents⟩, congrArg Answer.values (represents.values found found')⟩
  | length =>
      exact ⟨⟨realise, represents⟩, congrArg Answer.length
        (represents.tables.like found found').length⟩

private theorem onCell (represents : Represents realise state model) {id : CellId}
    (found : state.references.get? number = some id)
    (found' : model.references.get? number = some name) (task : CellTask) :
    Represents realise (state.onCell number id task).2 (model.onCell number name task).2 ∧
      (state.onCell number id task).1 = (model.onCell number name task).1 := by
  have uses : model.Uses name := .inr ⟨number, found'⟩
  have realised := represents.references.like found found'
  have cell : model.cell name = state.memory.cell id := by
    rw [represents.cell uses, realised]
    rfl
  cases task with
  | read => exact ⟨represents, congrArg Answer.cell cell.symm⟩
  | assign label value =>
      unfold TaskState.onCell TableModel.onCell Memory.assign
      dsimp only
      rw [cell]
      cases (state.memory.cell id).assign label value with
      | ok cell => exact ⟨represents.write uses realised fun _ => cell, rfl⟩
      | error fault => exact ⟨represents, rfl⟩
  | alter change => exact ⟨represents.write uses realised change, rfl⟩
  | same other =>
      unfold TaskState.onCell TableModel.onCell
      dsimp only
      cases held : state.references.get? other with
      | none =>
          rw [represents.references.get?_none held]
          exact ⟨represents, rfl⟩
      | some id' =>
          obtain ⟨name', held', realised'⟩ := represents.references.get? held
          rw [held']
          refine ⟨represents, congrArg Answer.same (Bool.eq_iff_iff.mpr ?_)⟩
          rw [beq_iff_eq, beq_iff_eq]
          constructor
          · rintro rfl
            exact represents.distinct uses (.inr ⟨other, held'⟩) realised realised'
          · rintro rfl
            exact Option.some.inj (realised.symm.trans realised')
  | letGo => exact ⟨represents.dropReference found found', rfl⟩

private theorem act (represents : Represents realise state model) {task : Task} {answer : Answer}
    {state' : TaskState Code} (acted : state.act task = .ok (answer, state')) :
    (∃ realise', Represents realise' state' (model.act task).2) ∧ answer = (model.act task).1 := by
  cases task with
  | allocate size =>
      unfold TaskState.act at acted
      dsimp only at acted
      split at acted
      next table machine allocated =>
        cases acted
        exact ⟨represents.allocate allocated, rfl⟩
      next => cases acted
  | table number task =>
      unfold TaskState.act at acted
      unfold TableModel.act
      dsimp only at acted ⊢
      cases found : state.tables.get? number with
      | none =>
          rw [found] at acted
          rw [represents.tables.get?_none found]
          cases acted
          exact ⟨⟨realise, represents⟩, rfl⟩
      | some table =>
          obtain ⟨names, found', -⟩ := represents.tables.get? found
          rw [found] at acted
          rw [found']
          have acted : state.onTable number table task = (answer, state') := Except.ok.inj acted
          have done := represents.onTable found found' task
          rw [acted] at done
          exact done
  | cell number task =>
      unfold TaskState.act at acted
      unfold TableModel.act
      dsimp only at acted ⊢
      cases found : state.references.get? number with
      | none =>
          rw [found] at acted
          rw [represents.references.get?_none found]
          cases acted
          exact ⟨⟨realise, represents⟩, rfl⟩
      | some id =>
          obtain ⟨name, found', -⟩ := represents.references.get? found
          rw [found] at acted
          rw [found']
          have acted : state.onCell number id task = (answer, state') := Except.ok.inj acted
          have done := represents.onCell found found' task
          rw [acted] at done
          exact ⟨⟨realise, done.1⟩, done.2⟩

private theorem answers (represents : Represents realise state model) {tasks : List Task}
    {given : List Answer}
    (answered : state.answers tasks = .ok given) : given = model.answers tasks := by
  induction tasks generalizing realise state model given with
  | nil =>
      cases answered
      rfl
  | cons task rest induction =>
      unfold TaskState.answers at answered
      cases acted : state.act task with
      | error abort =>
          rw [acted] at answered
          cases answered
      | ok next =>
          obtain ⟨answer, state'⟩ := next
          rw [acted] at answered
          obtain ⟨⟨realise', represents'⟩, rfl⟩ := represents.act acted
          cases later : state'.answers rest with
          | error abort =>
              have answered : (state'.answers rest >>= fun later =>
                pure ((model.act task).1 :: later)) = .ok given := answered
              rw [later] at answered
              cases answered
          | ok given' =>
              have answered : (state'.answers rest >>= fun later =>
                pure ((model.act task).1 :: later)) = .ok given := answered
              rw [later] at answered
              cases answered
              rw [induction represents' later]
              rfl

private theorem start {machine : Machine Code} (clean : machine.heap.memory.Clean) :
    Represents (fun _ => none) (TaskState.start machine) TableModel.start where
  clean := clean
  fits := nofun
  apart _ := nofun
  held listed := nomatch listed
  filled _ listed := nomatch listed
  tables := .empty _
  references := .empty _
  contents uses := by
    rcases uses with ⟨number, names, found, -⟩ | ⟨number, found⟩
    · exact nomatch found
    · exact nomatch found
  old _ := nofun
  distinct _ _ := nofun
  single := nofun

end Represents

namespace TaskState

structure Heaped (state : TaskState Code) : Prop where
  unframed : state.machine.frames.isEmpty = true
  heaped : ∀ {number : Nat} {table : Table}, state.tables.get? number = some table →
    table.isArena = false

namespace Heaped

variable {state : TaskState Code} {number : Nat} {table : Table}

private theorem start {machine : Machine Code} (unframed : machine.frames.isEmpty = true) :
    (TaskState.start machine).Heaped :=
  ⟨unframed, nofun⟩

private theorem become (heaped : state.Heaped) (found : state.tables.get? number = some table)
    {table' : Table} (still : table'.isArena = true → table.isArena = true) (memory : Memory) :
    (state.place number (some table') memory).Heaped := by
  refine ⟨heaped.unframed, fun {other held} here => ?_⟩
  rw [get?_place found] at here
  split at here
  · cases here
    exact Bool.eq_false_iff.mpr fun arena =>
      Bool.eq_false_iff.mp (heaped.heaped found) (still arena)
  · exact heaped.heaped here

private theorem drop (heaped : state.Heaped) (found : state.tables.get? number = some table)
    (memory : Memory) : (state.place number none memory).Heaped := by
  refine ⟨heaped.unframed, fun {other held} here => ?_⟩
  rw [get?_place found] at here
  split at here
  · cases here
  · exact heaped.heaped here

private theorem addTable (heaped : state.Heaped) (onHeap : table.isArena = false) :
    (state.addTable table).Heaped := by
  refine ⟨heaped.unframed, fun {other table'} here => ?_⟩
  have here : (state.tables.add table).get? other = some table' := here
  rw [Numbered.get?_add] at here
  split at here
  · cases here
    exact onHeap
  · exact heaped.heaped here

private theorem onTable (heaped : state.Heaped) (found : state.tables.get? number = some table)
    (task : TableTask) : (state.onTable number table task).2.Heaped := by
  cases task with
  | refer slot =>
      have still : (table.cellAt slot state.memory).2.1.isArena = true → table.isArena = true :=
        isArena_cellAt
      have touched := heaped.become found still (table.cellAt slot state.memory).2.2
      exact ⟨touched.unframed, touched.heaped⟩
  | push value => exact heaped.become found isArena_cellAt _
  | pushTogether values => exact heaped.become found isArena_pushTogether _
  | ensureCapacity capacity => exact heaped.become found isArena_ensureCapacity _
  | truncate length => exact heaped.become found isArena_truncate _
  | reinit capacity =>
      exact heaped.become found (fun arena => isArena_truncate (isArena_ensureCapacity arena)) _
  | reset => exact ⟨heaped.unframed, heaped.heaped⟩
  | safeCopy =>
      have copied := heaped.become found
        (fun arena => nomatch (isArena_copyOut table state.memory).symm.trans arena)
        (table.copyOut state.memory).2
      exact copied.addTable rfl
  | free => exact heaped.drop found _
  | drop => exact heaped.drop found _
  | valueAt slot => exact heaped
  | values => exact heaped
  | length => exact heaped

private theorem onCell (heaped : state.Heaped) (number : Nat) (id : CellId) (task : CellTask) :
    (state.onCell number id task).2.Heaped := by
  cases task with
  | same other =>
      unfold TaskState.onCell
      dsimp only
      split <;> exact heaped
  | _ => exact ⟨heaped.unframed, heaped.heaped⟩

private theorem act (heaped : state.Heaped) (task : Task) :
    ∃ answer state', state.act task = .ok (answer, state') ∧ state'.Heaped := by
  cases task with
  | allocate size =>
      unfold TaskState.act
      dsimp only
      rw [Machine.attempt_allocateTable_unframed heaped.unframed]
      exact ⟨_, _, rfl, heaped.addTable rfl⟩
  | table number task =>
      unfold TaskState.act
      dsimp only
      split
      next => exact ⟨_, _, rfl, heaped⟩
      next table found => exact ⟨_, _, rfl, heaped.onTable found task⟩
  | cell number task =>
      unfold TaskState.act
      dsimp only
      split
      next => exact ⟨_, _, rfl, heaped⟩
      next id found => exact ⟨_, _, rfl, heaped.onCell number id task⟩

private theorem answers (heaped : state.Heaped) (tasks : List Task) :
    ∃ given, state.answers tasks = .ok given := by
  induction tasks generalizing state with
  | nil => exact ⟨[], rfl⟩
  | cons task rest induction =>
      obtain ⟨answer, state', acted, heaped'⟩ := heaped.act task
      obtain ⟨given, later⟩ := induction heaped'
      refine ⟨answer :: given, ?_⟩
      unfold TaskState.answers
      rw [acted]
      change (state'.answers rest >>= fun later => pure (answer :: later)) = _
      rw [later]
      rfl

end Heaped

/-- What tables answer in a machine with any frames open, as long as no allocation fails, is what
tables on the heap answer. -/
theorem answers_on_heap (limits heapLimits : Limits) (choice heapChoice : GlobalChoice)
    {moves : List Workspace.Move}
    (tame : (Workspace.fresh limits choice : Workspace Code).Tame moves)
    {tasks : List Task} {given : List Answer}
    (answered : (start ((Workspace.fresh limits choice : Workspace Code).run moves).machine).answers
    tasks =
      .ok given) :
    (start (Machine.new heapLimits heapChoice : Machine Code)).answers tasks = .ok given := by
  have settled := Workspace.settled_run limits choice tame
  have fresh : (Workspace.fresh heapLimits heapChoice : Workspace Code).Settled :=
    Workspace.fresh_settled heapLimits heapChoice
  have heaped : (start (Machine.new heapLimits heapChoice : Machine Code)).Heaped := .start rfl
  obtain ⟨given', answered'⟩ := heaped.answers tasks
  have here := (Represents.start settled.clean).answers answered
  have there := (Represents.start fresh.clean).answers answered'
  rw [answered', there, here]

/-- Two tables in one frame. The first outgrows its slice under the second and moves to the heap, a
reference to its only cell is held, and the cells of both are given up. -/
def outgrowing : List Task :=
  [.allocate 1, .allocate 2, .table 0 (.push (.bool true)), .table 0 (.refer 0),
    .table 0 (.push .null), .table 0 (.refer 0), .cell 0 (.same 1), .table 1 (.refer 3),
    .cell 2 (.assign "x" (.bool false)), .table 1 .values, .table 0 .safeCopy, .table 0 .free,
    .table 1 (.truncate 1), .cell 0 .read, .cell 2 .read, .table 2 .values, .table 1 .length,
    .table 0 .length]

theorem outgrowing_on_heap :
    (start (Machine.new .default .empty : Machine Unit)).answers outgrowing =
      .ok [.done, .done, .done, .done, .done, .done, .same true, .done, .assigned (.ok ()),
        .values [.null, .null, .null, .bool false], .done, .done, .done,
        .cell ⟨.bool true, .publicTier, false, false⟩,
        .cell ⟨.bool false, .publicTier, false, true⟩, .values [.bool true, .null], .length 1,
        .absent] := by
  have tame :
      (Workspace.fresh .default .empty : Workspace Unit).Tame [.openFrame "main" "" ⟨0⟩] := by
    refine ⟨?_, trivial⟩
    rintro ⟨_, _, _, _, effort, _⟩
    cases effort
  have room : ((start ((Workspace.fresh .default .empty : Workspace Unit).run
      [.openFrame "main" "" ⟨0⟩]).machine).answers outgrowing).isOk = true := by decide +kernel
  cases answered : (start ((Workspace.fresh .default .empty : Workspace Unit).run
      [.openFrame "main" "" ⟨0⟩]).machine).answers outgrowing with
  | error => rw [answered] at room; cases room
  | ok given =>
      have same := (Represents.start (Workspace.settled_run .default .empty tame).clean).answers
        answered
      rw [answers_on_heap .default .default .empty .empty tame answered, same]
      rfl

end TaskState

end ScopeMachine
