import ScopeMachine.Proofs.Calls.ArgumentSteps
import ScopeMachine.Proofs.Frames.Moves
import ScopeMachine.Proofs.Storage.Detached

namespace ScopeMachine

open Memory Table Action

namespace Workspace

variable {Code : Type}

/-- Work on things of the heap that are neither cells nor members. -/
inductive Chore (Code : Type) where
  | newScope (previous : Option ScopeId) (index : Index) (kind : ScopeKind)
  | newFunction (function : Function Code)
  | newArray (elements : List Value) (frozen : Bool)
  | changeArray (id : ArrayId) (change : Array Value → Array Value)
  | newException (exception : ExceptionObject)
  | changeException (id : ExceptionId) (change : ExceptionObject → ExceptionObject)

def Chore.run {Code : Type} : Chore Code → Heap Code → Heap Code
  | .newScope previous index kind, heap => (heap.newScope (.onHeap previous index kind)).2
  | .newFunction function, heap => (heap.newFunction function).2
  | .newArray elements frozen, heap => (heap.newArray elements frozen).2
  | .changeArray id change, heap => (heap.modifyArray id change).2
  | .newException exception, heap => (heap.newException exception).2
  | .changeException id change, heap => heap.modifyException id change

/-- One thing that code does. -/
inductive Deed (Code : Type) : Type 1 where
  | move (move : Move)
  /-- A frame is closed, and the tables on the heap that it made stay at hand. -/
  | closeFrame (held : List Handle)
  /-- Any operation of the machine, whose answer is looked at and let go. -/
  | operate {α : Type} (operation : Operation Code α)
  | chore (chore : Chore Code)
  | tableOfValues (values : List Value)
  | reset (number : Nat)
  | reinit (number capacity : Nat)
  | pushTogether (number : Nat) (values : List Value)
  /-- A table at hand becomes the arguments of a call. -/
  | settle (number : Nat) (definition : Definition Code)
  /-- A table at hand becomes the members of the scope of a call. -/
  | enter (number : Nat) (previous : ScopeId) (index : Index) (invocation : Invocation)

def dropSlices (state : Workspace Code) : Workspace Code :=
  { state with
    entries := state.entries.map fun entry =>
      entry.filter fun entry => entry.birth ≤ state.depth || !entry.table.isArena }

def onEntry (state : Workspace Code) (number : Nat)
    (work : Table → Memory → Table × Memory) : Workspace Code :=
  match state.entryAt? number with
  | none => state
  | some ⟨table, birth⟩ =>
      let (table, memory) := work table state.memory
      (state.withMemory memory).setEntry number (some ⟨table, birth⟩)

def act (state : Workspace Code) : Deed Code → Workspace Code
  | .move move => state.step move
  | .closeFrame held => dropSlices { state with machine := state.machine.closeFrame held }
  | .operate operation => { state with machine := (operation.perform state.machine).2 }
  | .chore chore => state.onHeap chore.run
  | .tableOfValues values =>
      let (table, memory) := Table.ofValues values state.memory
      (state.withMemory memory).addEntry table
  | .reset number => state.onEntry number fun table memory => (table, table.reset memory)
  | .reinit number capacity =>
      state.onEntry number fun table => table.reinit state.machine.host.shares capacity
  | .pushTogether number values => state.onEntry number fun table => table.pushTogether values
  | .settle number definition =>
      match state.entryAt? number with
      | none => state
      | some ⟨table, birth⟩ =>
          match state.machine.attempt [] (mapArguments definition table) with
          | (.ok (table, _), machine) =>
              { state with machine }.setEntry number (some ⟨table, birth⟩)
          | (.error _, machine) => { state with machine }.setEntry number none
  | .enter number previous index invocation =>
      match state.entryAt? number with
      | none => state
      | some ⟨table, _⟩ =>
          { state with
            machine := (state.machine.attempt []
              (allocateCallScope previous index table invocation)).2 }.setEntry number none

/-- The workspace after a list of deeds. -/
def after (state : Workspace Code) (deeds : List (Deed Code)) :
    Workspace Code := deeds.foldl act state

theorem after_moves (state : Workspace Code) (moves : List Move) :
    state.after (moves.map .move) = state.run moves := by
  induction moves generalizing state with
  | nil => rfl
  | cons move rest induction => exact induction (state.step move)

/-- Slots name different cells, and none that a table keeps on the heap. -/
structure Detached (state : Workspace Code) : Prop where
  machine : state.machine.Detached
  entries : ∀ {number : Nat} {entry : Entry}, state.entryAt? number = some entry →
    entry.table.Aloof state.memory

variable {state : Workspace Code}

private theorem Detached.step {state' : Workspace Code} (detached : state.Detached)
    (staysDetached : state.machine.StaysDetached state'.machine)
    (entries : ∀ {number : Nat} {entry : Entry}, state'.entryAt? number = some entry →
      (∃ number, state.entryAt? number = some entry) ∨ entry.table.Aloof state'.memory) :
    state'.Detached := by
  refine ⟨staysDetached.detached detached.machine, fun held => ?_⟩
  rcases entries held with ⟨number, before⟩ | aloof
  · exact (detached.entries before).continues (staysDetached.continues detached.machine)
  · exact aloof

private theorem entryAt?_setEntry {number other : Nat} {content : Option Entry} {entry : Entry}
    (held : (state.setEntry number content).entryAt? other = some entry) :
    state.entryAt? other = some entry ∨ content = some entry := by
  unfold entryAt? setEntry at held
  dsimp only at held
  rw [List.getElem?_set] at held
  split at held
  next =>
    split at held
    next => exact .inr held
    next => cases held
  next => exact .inl held

private theorem Detached.onEntry (detached : state.Detached) (number : Nat)
    (work : Table → Memory → Table × Memory)
    (staysDetached : ∀ table : Table, table.StaysDetached state.memory (work table state.memory).1
      (work table state.memory).2) : (state.onEntry number work).Detached := by
  unfold Workspace.onEntry
  cases held : state.entryAt? number with
  | none => exact detached
  | some entry =>
      have steps := staysDetached entry.table
      refine detached.step (.of_memory state.machine.heap fun sound => steps.continues sound) ?_
      intro other entry' found
      rcases entryAt?_setEntry found with before | same
      · exact .inl ⟨_, before⟩
      · cases same
        exact .inr (steps.aloof detached.machine.sound (detached.entries held))

private theorem mapArguments_staysDetached (definition : Definition Code) (arguments : Table)
    (held : List Handle) (machine : Machine Code) :
    machine.StaysDetached (machineLeft (mapArguments definition arguments held machine)) ∧
      ∀ {table : Table} {trailing : List Value} {after : Machine Code},
        mapArguments definition arguments held machine = .ok (table, trailing) after →
        arguments.StaysDetached machine.heap.memory table after.heap.memory := by
  have settled : arguments.StaysDetached machine.heap.memory
      (arguments.settled definition machine.heap.memory).1
      (arguments.settled definition machine.heap.memory).2 := by
    unfold Table.settled
    split
    · exact (safeCopy_staysDetached ..).1
    · exact .refl ..
  rw [run_mapArguments]
  generalize arguments.settled definition machine.heap.memory = result at settled ⊢
  obtain ⟨table, memory⟩ := result
  have mapped : machine.heap.StaysDetached { machine.heap with memory } :=
    .of_memory _ settled.continues
  dsimp only at settled ⊢
  split
  next =>
    split
    next =>
      have fitted : table.StaysDetached memory
          (table.fitted definition machine.host.shares ⟨machine.heap.arrays.size⟩ memory).1
          (table.fitted definition machine.host.shares ⟨machine.heap.arrays.size⟩ memory).2 :=
        (truncate_staysDetached ..).trans (push_staysDetached ..)
      have collected := Heap.newArray_staysDetached { machine.heap with memory }
        (table.trailing definition memory) false
      refine ⟨mapped.trans (collected.trans (.of_memory _ fitted.continues)), fun ended => ?_⟩
      cases ended
      exact settled.trans fitted
    next =>
      refine ⟨mapped, fun ended => ?_⟩
      cases ended
      exact settled
  next =>
    refine ⟨mapped.trans (.of_memory _ fun _ => free_continues ..), fun ended => ?_⟩
    cases ended

open Machine in
private theorem perform_staysDetached {α : Type} (operation : Operation Code α)
    (machine : Machine Code) :
    machine.StaysDetached (operation.perform machine).2 := by
  cases operation with
  | ask | keep | setLine | setScopeAndLine => exact .refl _
  | allocateTable size =>
      exact (attempt_snd machine [] (Action.allocateTable size)).symm ▸
        allocateTable_staysDetached machine [] size
  | allocateBlock previous index =>
      exact (attempt_snd machine [] (Action.allocateBlock previous index)).symm ▸
        allocateBlock_staysDetached machine [] previous index
  | releaseScope held scope => exact releaseScope_staysDetached machine held scope
  | tableOfValues values => exact .of_memory _ (ofValues_staysDetached ..).continues
  | cellAt table slot => exact .of_memory _ (cellAt_staysDetached table _ slot).continues
  | ensureCapacity table capacity =>
      exact .of_memory _ (ensureCapacity_staysDetached table _ _).continues
  | safeCopy table => exact .of_memory _ (safeCopy_staysDetached table _).1.continues
  | resetTable table => exact .of_memory _ (reset_staysDetached table _).continues
  | freeTable table => exact .of_memory _ fun _ => free_continues ..
  | reinit table capacity => exact .of_memory _ (reinit_staysDetached table _ _ capacity).continues
  | truncate table length => exact .of_memory _ (truncate_staysDetached table _ _ length).continues
  | push table value => exact .of_memory _ (push_staysDetached table _ value).continues
  | pushTogether table values =>
      exact .of_memory _ (pushTogether_staysDetached table _ values).continues
  | newCell cell => exact .of_memory _ fun _ => (new_confined ..).continues
  | changeCell cell change => exact Heap.modifyCell_staysDetached ..
  | newBasic previous index => exact Heap.newScope_staysDetached _ rfl
  | newEmptyGlobal => exact Heap.newEmptyGlobal_staysDetached _
  | newGlobal => exact Heap.newGlobal_staysDetached _
  | ownMember scope name => exact Heap.staysDetached_law.ownMember ..
  | lookup scope name => exact Heap.staysDetached_law.lookup ..
  | scopeMember scope name => exact Heap.staysDetached_law.scopeMember ..
  | createMember scope name permission => exact Heap.staysDetached_law.createMember ..

private theorem chore_staysDetached (chore : Chore Code) (heap : Heap Code) :
    heap.StaysDetached (chore.run heap) := by
  cases chore with
  | newScope previous index kind => exact Heap.newScope_staysDetached _ rfl
  | newArray elements frozen => exact Heap.newArray_staysDetached ..
  | changeArray id change =>
      change heap.StaysDetached (heap.modifyArray id change).2
      unfold Heap.modifyArray
      split
      next => exact .refl _
      next => exact .of_members rfl fun _ => .inl rfl
  | _ => exact .of_members rfl fun _ => .inl rfl

private theorem Detached.onMachine (detached : state.Detached) {machine : Machine Code}
    (staysDetached : state.machine.StaysDetached machine) :
    ({ state with machine } : Workspace Code).Detached :=
  detached.step staysDetached fun held => .inl ⟨_, held⟩

private theorem Detached.onMemory (detached : state.Detached) (memory : Memory)
    (continues : state.memory.Sound → state.memory.Continues memory) :
    (state.withMemory memory).Detached :=
  detached.onMachine (.of_memory state.machine.heap continues)

private theorem Detached.setEntry (detached : state.Detached) (number : Nat)
    (content : Option Entry)
    (aloof : ∀ entry ∈ content, entry.table.Aloof state.memory) :
    (state.setEntry number content).Detached := by
  refine ⟨detached.machine, fun held => ?_⟩
  rcases entryAt?_setEntry held with before | same
  · exact detached.entries before
  · exact aloof _ same

private theorem Detached.addEntry (detached : state.Detached) {table : Table}
    (aloof : table.Aloof state.memory) : (state.addEntry table).Detached := by
  refine ⟨detached.machine, fun held => ?_⟩
  rcases entryAt?_addEntry held with before | ⟨-, rfl⟩
  · exact detached.entries before
  · exact aloof

private theorem Detached.keep (detached : state.Detached) {machine : Machine Code}
    (staysDetached : state.machine.StaysDetached machine) (kept : Entry → Bool) :
    (Workspace.mk machine (state.entries.map (·.filter kept))).Detached := by
  refine detached.step staysDetached fun {number entry} held => .inl ⟨number, ?_⟩
  obtain ⟨content, listed, same⟩ := Option.join_eq_some_iff.mp held |> fun found =>
    (List.getElem?_map ▸ found : (state.entries[number]?).map (·.filter kept) = some (some entry))
      |> Option.map_eq_some_iff.mp
  obtain ⟨rfl, -⟩ := Option.filter_eq_some_iff.mp same
  unfold entryAt?
  rw [listed]
  rfl

private theorem Detached.move (detached : state.Detached) (move : Move) :
    (state.step move).Detached := by
  cases move with
  | keep change => exact detached.onMachine (.refl _)
  | openFrame id file scope =>
      unfold Workspace.step
      dsimp only
      split
      next => exact detached
      next => exact detached.onMachine (Machine.openFrame_staysDetached ..)
  | closeFrame held => exact detached.keep (Machine.closeFrame_staysDetached ..) _
  | allocateTable size =>
      rw [step_allocateTable]
      split
      next => exact (detached.onMemory _ fun _ => .refl ..).addEntry (aloof_empty _)
      next =>
        split
        next allocated =>
          obtain ⟨-, -, rfl⟩ := Arena.allocate_eq_ok allocated
          have carved := detached.onMemory { state.memory with
            arena := { state.memory.arena with
              watermark := state.memory.arena.watermark + size } }
            fun _ => .of_bookkeeping rfl rfl
          exact carved.addEntry (aloof_inArena ..)
        next => exact detached
  | allocateBlock previous index =>
      refine detached.onMachine ?_
      rw [Machine.attempt_snd]
      exact Machine.allocateBlock_staysDetached ..
  | work number work =>
      refine detached.onEntry number (work.run state.machine.host.shares) fun table => ?_
      cases work with
      | touch slot => exact cellAt_staysDetached ..
      | write slot change => exact write_staysDetached ..
      | push value => exact push_staysDetached ..
      | ensureCapacity capacity => exact ensureCapacity_staysDetached ..
      | truncate length => exact truncate_staysDetached ..
  | safeCopy number =>
      unfold Workspace.step
      dsimp only
      cases held : state.entryAt? number with
      | none => exact detached
      | some entry =>
          obtain ⟨copies, stays⟩ := safeCopy_staysDetached entry.table state.memory
          have before := detached.entries held
          have replaced := (detached.onMemory _ stays.continues).setEntry number
            (some ⟨(entry.table.safeCopy state.memory).2.1, entry.birth⟩) fun _ same =>
              Option.some.inj same ▸ stays.aloof detached.machine.sound before
          exact replaced.addEntry (copies.aloof detached.machine.sound before)
  | free number =>
      unfold Workspace.step
      dsimp only
      cases held : state.entryAt? number with
      | none => exact detached
      | some entry =>
          exact (detached.onMemory _ fun _ => free_continues ..).setEntry number none fun _ => nofun
  | createMember scope name permission =>
      exact detached.onMachine (Heap.staysDetached_law.createMember ..)
  | writeMember scope slot change =>
      exact detached.onMachine (Heap.work_staysDetached _ (write_staysDetached ..) fun _ => rfl)

theorem Detached.act (detached : state.Detached) (deed : Deed Code) :
    (state.act deed).Detached := by
  cases deed with
  | move move => exact detached.move move
  | closeFrame held => exact detached.keep (Machine.closeFrame_staysDetached ..) _
  | operate operation => exact detached.onMachine (perform_staysDetached operation state.machine)
  | chore chore => exact detached.onMachine (chore_staysDetached chore state.machine.heap)
  | tableOfValues values =>
      have made := ofValues_staysDetached state.memory values
      exact (detached.onMemory _ made.continues).addEntry
        (made.aloof detached.machine.sound (aloof_empty _))
  | reset number =>
      exact detached.onEntry number (fun table memory => (table, table.reset memory)) fun table =>
        reset_staysDetached table state.memory
  | reinit number capacity =>
      exact detached.onEntry number _ fun table => reinit_staysDetached table state.memory _
        capacity
  | pushTogether number values =>
      exact detached.onEntry number _ fun table =>
        pushTogether_staysDetached table state.memory values
  | settle number definition =>
      unfold Workspace.act
      dsimp only
      cases held : state.entryAt? number with
      | none => exact detached
      | some entry =>
          obtain ⟨staysDetached, fitted⟩ := mapArguments_staysDetached definition entry.table
            [] state.machine
          dsimp only
          unfold Machine.attempt
          cases ended : mapArguments definition entry.table [] state.machine with
          | error abort after =>
              rw [ended] at staysDetached
              exact (detached.onMachine staysDetached).setEntry number none fun _ => nofun
          | ok result after =>
              rw [ended] at staysDetached
              refine (detached.onMachine staysDetached).setEntry number _ fun _ same => ?_
              cases same
              exact (fitted ended).aloof detached.machine.sound (detached.entries held)
  | enter number previous index invocation =>
      unfold Workspace.act
      dsimp only
      cases held : state.entryAt? number with
      | none => exact detached
      | some entry =>
          refine (detached.onMachine ?_).setEntry number none fun _ => nofun
          rw [Machine.attempt_snd]
          exact Machine.allocateCallScope_staysDetached [] detached.machine previous index
            invocation
            (detached.entries held)

theorem Detached.after (detached : state.Detached) (deeds : List (Deed Code)) :
    (state.after deeds).Detached := by
  induction deeds generalizing state with
  | nil => exact detached
  | cons deed rest induction => exact induction (detached.act deed)

theorem fresh_detached (limits : Limits) (choice : GlobalChoice) :
    (fresh limits choice : Workspace Code).Detached := by
  refine ⟨Machine.new_detached limits choice, fun held => ?_⟩
  simp [entryAt?, fresh] at held

end Workspace

end ScopeMachine
