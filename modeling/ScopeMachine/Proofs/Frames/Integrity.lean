import ScopeMachine.Proofs.Frames.Fresh
import ScopeMachine.Proofs.Frames.OpenAndClose

/-!
Slices of the arena keep to the frames they were allocated in. That holds along every run in which
a table grows in place only while its own frame is the innermost one, and along no other run.
-/

namespace ScopeMachine

open Arena

namespace Workspace

variable {Code : Type}

/-! Whole runs. -/

/-- The table that a move works on. -/
def effort? (state : Workspace Code) : Move → Option (Key × Table.Work)
  | .work number work => some (.entry number, work)
  | .createMember id name permission =>
      some (.scope id,
        .write (state.placement id name permission).1 (·.declare permission))
  | .writeMember id slot change => some (.scope id, .write slot change)
  | _ => none

/-- A move that makes room in place for a table of an outer frame. -/
def Stray (state : Workspace Code) (move : Move) : Prop :=
  ∃ key work table birth, state.effort? move = some (key, work) ∧
    state.tableOf key = some (table, birth) ∧ birth < state.depth ∧
    table.growsInPlace (work.demand table) state.memory = true

def written? (state : Workspace Code) (move : Move) : Option CellId := do
  let (key, work) ← state.effort? move
  let (table, _) ← state.tableOf key
  work.written? table state.memory

def Keeps (state : Workspace Code) (written : Option CellId) (state' : Workspace Code) : Prop :=
  ∀ (key : Key) (table table' : Table) (birth birth' slot : Nat),
    state.Live key → state'.Live key → state.tableOf key = some (table, birth) →
    state'.tableOf key = some (table', birth') → slot < table.length → slot < table'.length →
    (∀ {id : CellId}, table.cell? slot state.memory = some id →
      table'.cell? slot state'.memory = some id) ∧
    ((∀ {id : CellId}, written = some id → table'.cell? slot state'.memory ≠ some id) →
      table'.content slot state'.memory = table.content slot state.memory)

private theorem Stays.keeps {state state' : Workspace Code} {key : Key} {writes : CellId → Prop}
    (stays : state.Stays key writes state') {written : Option CellId}
    (only : ∀ {id : CellId}, writes id → written = some id) {table table' : Table}
    {birth birth' : Nat} (found : state.tableOf key = some (table, birth))
    (found' : state'.tableOf key = some (table', birth')) (slot : Nat) :
    (∀ {id : CellId}, table.cell? slot state.memory = some id →
      table'.cell? slot state'.memory = some id) ∧
    ((∀ {id : CellId}, written = some id → table'.cell? slot state'.memory ≠ some id) →
      table'.content slot state'.memory = table.content slot state.memory) := by
  obtain ⟨before, kept⟩ := stays table' birth' found'
  rw [found] at before
  cases before
  refine ⟨fun named => (kept slot).1.trans named, fun elsewhere => (kept slot).2 ?_⟩
  exact fun named writes => elsewhere (only writes) ((kept slot).1.trans named)

private theorem Keeps.of_stays {state state' : Workspace Code} {written : Option CellId}
    (stays : ∀ key held, state.Live key → state'.Live key → state.tableOf key = some held →
      state.Stays key (fun _ => False) state') : state.Keeps written state' :=
  fun key _ _ _ _ slot live live' found found' _ _ =>
    (stays key _ live live' found).keeps False.elim found found' slot

theorem Keeps.refl (state : Workspace Code) (written : Option CellId) : state.Keeps written state :=
  .of_stays fun key _ _ _ _ => .refl state key _

private theorem Settled.keeps_run {state state' : Workspace Code} (settled : state.Settled)
    {own : Key}
    {table : Table} {birth : Nat} (found : state.tableOf own = some (table, birth))
    {work : Table.Work} {shared : CellId → Bool}
    (memory : state'.memory = (work.run shared table state.memory).2)
    (result : ∀ {held birth'}, state'.tableOf own = some (held, birth') →
      held = (work.run shared table state.memory).1 ∨ held = .empty)
    (changes : state.Changes own table (work.run shared table state.memory).1
      (fun id => work.written? table state.memory = some id ∧
        id ∈ (work.run shared table state.memory).1.heapCells) state') :
    state.Keeps (work.written? table state.memory) state' := by
  intro key held held' birth' birth'' slot _ _ before after _ still
  by_cases same : key = own
  · subst same
    rw [found] at before
    cases before
    rcases result after with rfl | rfl
    · rw [memory]
      exact Table.Work.run_keeps shared settled.clean (settled.fits found) work still
    · cases still
  · exact (changes.stays settled same).keeps And.left before after slot

private theorem written?_eq {state : Workspace Code} {move : Move} {key : Key} {work : Table.Work}
    {table : Table} {birth : Nat} (effort : state.effort? move = some (key, work))
    (found : state.tableOf key = some (table, birth)) :
    state.written? move = work.written? table state.memory := by
  simp [written?, effort, found]

private theorem step_work {state : Workspace Code} {number : Nat} {entry : Entry}
    (held : state.entryAt? number = some entry) (work : Table.Work) :
    (state.step (.work number work)).memory =
        (work.run state.machine.host.shares entry.table state.memory).2 ∧
      (state.step (.work number work)).tableOf (.entry number) =
        some ((work.run state.machine.host.shares entry.table state.memory).1, entry.birth) := by
  have stepped : state.step (.work number work) =
      (state.withMemory (work.run state.machine.host.shares entry.table state.memory).2).setEntry
        number (some ⟨(work.run state.machine.host.shares entry.table state.memory).1,
          entry.birth⟩) := by
    unfold step
    dsimp only
    rw [held]
  rw [stepped]
  exact ⟨rfl, tableOf_entry.mpr (entryAt?_setEntry_self held _)⟩

private theorem step_of_absent {state : Workspace Code} {number : Nat}
    (absent : state.entryAt? number = none) :
    (∀ work, state.step (.work number work) = state) ∧ state.step (.free number) = state ∧
      state.step (.safeCopy number) = state := by
  refine ⟨fun work => ?_, ?_, ?_⟩
  all_goals
    unfold step
    dsimp only
    rw [absent]

private theorem Settled.keeps_workOnScope {state : Workspace Code} (settled : state.Settled)
    {id : ScopeId}
    {table : Table} {birth : Nat} (found : state.tableOf (.scope id) = some (table, birth))
    {work : Table.Work}
    (tame : birth < state.depth → ¬ table.growsInPlace (work.demand table) state.memory) :
    state.Keeps (work.written? table state.memory) (state.workOnScope id work) := by
  obtain ⟨memory, own⟩ := tableOf_workOnScope settled found work
  exact settled.keeps_run found memory (fun after => (own _ _ after).2)
    (settled.workOnScope found tame).2

private theorem exists_tableOf_scope (state : Workspace Code) (id : ScopeId) :
    ∃ table birth, state.tableOf (.scope id) = some (table, birth) := by
  unfold tableOf
  dsimp only
  split
  · exact ⟨_, _, rfl⟩
  · exact ⟨_, _, rfl⟩

private theorem Settled.step {state : Workspace Code} (settled : state.Settled) {move : Move}
    (tame : ¬ state.Stray move) :
    (state.step move).Settled ∧ state.Keeps (state.written? move) (state.step move) := by
  cases move with
  | keep change =>
      obtain ⟨kept, stays⟩ := settled.keep change
      exact ⟨kept, .of_stays fun key _ _ _ _ => stays key⟩
  | openFrame id file scope =>
      unfold Workspace.step
      dsimp only
      split
      next => exact ⟨settled, Keeps.refl state _⟩
      next room =>
        obtain ⟨opened, stays⟩ := settled.openFrame (Nat.lt_of_not_le room) id file scope
        exact ⟨opened, .of_stays fun key _ _ _ _ => stays key⟩
  | closeFrame held =>
      obtain ⟨closed, stays⟩ := settled.closeFrame held
      exact ⟨closed, .of_stays fun key _ _ live _ => stays key live⟩
  | allocateTable size =>
      obtain ⟨allocated, stays⟩ := settled.allocateTable size
      exact ⟨allocated, .of_stays fun key _ _ _ found => stays key (ne_of_tableOf found)⟩
  | allocateBlock previous index =>
      obtain ⟨allocated, stays⟩ := settled.allocateBlock previous index
      exact ⟨allocated, .of_stays fun key _ live _ _ => stays key live⟩
  | work number work =>
      cases held : state.entryAt? number with
      | none =>
          rw [(step_of_absent held).1]
          exact ⟨settled, Keeps.refl state _⟩
      | some entry =>
          have holding := tableOf_entry.mpr held
          obtain ⟨worked, changes⟩ := settled.work held fun inner grows =>
            tame ⟨_, _, _, _, rfl, holding, inner, grows⟩
          obtain ⟨memory, own⟩ := step_work held work
          rw [written?_eq rfl holding]
          refine ⟨worked, settled.keeps_run holding memory (fun after => .inl ?_) changes⟩
          exact congrArg Prod.fst (Option.some.inj (after.symm.trans own))
  | safeCopy number =>
      cases held : state.entryAt? number with
      | none =>
          rw [(step_of_absent held).2.2]
          exact ⟨settled, Keeps.refl state _⟩
      | some entry =>
          obtain ⟨copied, own, stays⟩ := settled.safeCopy held
          refine ⟨copied, ?_⟩
          intro key table table' birth birth' slot _ _ found found' _ _
          by_cases same : key = .entry number
          · subst same
            rw [tableOf_entry.mpr held] at found
            cases found
            obtain ⟨named, content⟩ := own table' birth' found'
            exact ⟨named slot, fun _ => content slot⟩
          · exact (stays key same (ne_of_tableOf found)).keeps False.elim found found' slot
  | free number =>
      cases held : state.entryAt? number with
      | none =>
          rw [(step_of_absent held).2.1]
          exact ⟨settled, Keeps.refl state _⟩
      | some entry =>
          obtain ⟨freed, gone, changes⟩ := settled.free held
          refine ⟨freed, .of_stays fun key _ _ _ _ => ?_⟩
          by_cases same : key = .entry number
          · subst same
            exact fun _ _ after => absurd (gone.symm.trans (tableOf_entry.mp after)) nofun
          · exact changes.stays settled same
  | createMember id name permission =>
      obtain ⟨table, birth, found⟩ := exists_tableOf_scope state id
      have calm := fun (inner : birth < state.depth) grows => tame
        ⟨_, .write (state.placement id name permission).1 (·.declare permission), _, _, rfl, found,
          inner, grows⟩
      refine ⟨(settled.createMember found calm).1, ?_⟩
      have change : ∀ scope : Scope,
          { scope with index := (state.placement id name permission).2 }.members =
            scope.members := fun _ => rfl
      obtain ⟨renamed, tables⟩ := settled.modifyScope id change fun _ => rfl
      rw [written?_eq rfl found, step_createMember settled.registered]
      have keeps := renamed.keeps_workOnScope ((tables _).trans found) calm
      exact fun key _ _ _ _ _ live live' before =>
        keeps key _ _ _ _ _ live live' ((tables key).trans before)
  | writeMember id slot change =>
      obtain ⟨table, birth, found⟩ := exists_tableOf_scope state id
      have calm := fun (inner : birth < state.depth) grows => tame
        ⟨_, .write slot change, _, _, rfl, found, inner, grows⟩
      rw [written?_eq rfl found]
      exact ⟨(settled.workOnScope found calm).1, settled.keeps_workOnScope found calm⟩

private theorem tableOf_workOnScope_hosted {state : Workspace Code} (settled : state.Settled)
    {id : ScopeId}
    {table : Table} {birth : Nat} (found : state.tableOf (.scope id) = some (table, birth))
    (live : state.Live (.scope id)) (work : Table.Work) :
    (state.workOnScope id work).tableOf (.scope id) =
      some ((work.run state.machine.host.shares table state.memory).1, birth) := by
  rcases tableOf_scope.mp found with ⟨hosted, rfl⟩ | ⟨unhosted, -⟩
  · have enrolled : id ∈ state.machine.frames.blocks := by
      refine Classical.byContradiction fun absent => ?_
      exact nomatch (hostAmong?_eq_none.mpr absent).symm.trans hosted
    have old := settled.registered.old (List.mem_append_right state.machine.pool enrolled)
    have members : ((state.workOnScope id work).machine.heap.scope id).members =
        (work.run state.machine.host.shares (state.machine.heap.scope id).members state.memory).1 :=
      congrArg Scope.members (Heap.scope_modifyScope_self old _)
    exact tableOf_scope.mpr (.inl ⟨hosted, members.symm⟩)
  · have hosted : (state.host? id).isSome = true := live
    rw [unhosted] at hosted
    cases hosted

private theorem marks_workOnScope (state : Workspace Code) (id : ScopeId) (work : Table.Work) :
    (state.workOnScope id work).machine.bounds.marks = state.machine.bounds.marks := by
  have shifts : state.memory.bounds.Shifts (state.workOnScope id work).memory.bounds :=
    Table.Work.run_shifts ..
  exact shifts.marks

private theorem Settled.broken {state : Workspace Code} (settled : state.Settled) {move : Move}
    (stray : state.Stray move) : ¬ (state.step move).Integrity := by
  obtain ⟨key, work, table, birth, effort, found, inner, growing⟩ := stray
  obtain ⟨offset, capacity, length, length', rfl, lacking, top, grown⟩ :=
    Table.Work.run_growing state.machine.host.shares growing
  have live : state.Live key := by
    cases key with
    | entry number => trivial
    | scope id =>
        rcases tableOf_scope.mp found with ⟨hosted, -⟩ | ⟨-, -, absent⟩
        · exact Option.isSome_iff_exists.mpr ⟨_, hosted⟩
        · cases absent
  generalize Table.inArena ⟨offset, capacity⟩ length = table at *
  have moved : (state.step move).Live key ∧ (state.step move).tableOf key =
      some (.inArena ⟨offset, work.demand table⟩ length', birth) ∧
      (state.step move).machine.bounds.marks = state.machine.bounds.marks := by
    rw [← grown]
    cases move with
    | work number work' =>
        cases effort
        obtain ⟨memory_eq, table_eq⟩ := step_work (tableOf_entry.mp found) work
        refine ⟨trivial, table_eq, ?_⟩
        have shifts := Table.Work.run_shifts state.machine.host.shares work table state.memory
        exact (congrArg (·.bounds.marks) memory_eq).trans shifts.marks
    | createMember id name permission =>
        cases effort
        have change : ∀ scope : Scope,
            { scope with index := (state.placement id name permission).2 }.members =
              scope.members := fun _ => rfl
        obtain ⟨renamed, tables⟩ := settled.modifyScope id change fun _ => rfl
        rw [step_createMember settled.registered]
        exact ⟨live, tableOf_workOnScope_hosted renamed ((tables _).trans found) live _,
          marks_workOnScope ..⟩
    | writeMember id slot change =>
        cases effort
        exact ⟨live, tableOf_workOnScope_hosted settled found live _, marks_workOnScope ..⟩
    | _ => cases effort
  intro integrity
  obtain ⟨live', found', marks⟩ := moved
  have start : Memory.Between offset (work.demand table) offset := ⟨Nat.le_refl _, by omega⟩
  have region := Bounds.region_of_marks marks.symm (integrity.inside live' found' start).1
  refine Bounds.not_region_of_floor_le settled.orderly.sorted ?_ ?_ region
  · rw [length_marks settled]
    exact inner
  · exact (Arena.isTop_iff.mp top).2

/-- No move of a run is stray. -/
def Tame (state : Workspace Code) : List Move → Prop
  | [] => True
  | move :: rest => ¬ state.Stray move ∧ (state.step move).Tame rest

private theorem Settled.integrity_iff_tame {state : Workspace Code} (settled : state.Settled)
    (moves : List Move) :
    (∀ reached ∈ state.trace moves, reached.Integrity) ↔ state.Tame moves := by
  induction moves generalizing state with
  | nil =>
      refine ⟨fun _ => trivial, fun _ reached passed => ?_⟩
      cases List.mem_singleton.mp passed
      exact settled.integrity
  | cons move rest induction =>
      by_cases stray : state.Stray move
      · refine ⟨fun kept => ?_, fun tame => absurd stray tame.1⟩
        have next : state.step move ∈ state.trace (move :: rest) := by
          refine List.mem_cons_of_mem _ ?_
          cases rest <;> exact List.mem_cons_self
        exact absurd (kept _ next) (settled.broken stray)
      · have later := induction (settled.step stray).1
        constructor
        · exact fun kept => ⟨stray, later.mp fun reached passed =>
            kept reached (List.mem_cons_of_mem _ passed)⟩
        · intro tame reached passed
          rcases List.mem_cons.mp passed with rfl | passed
          · exact settled.integrity
          · exact later.mpr tame.2 reached passed

/-! What a slot keeps. -/

def cell? (state : Workspace Code) (key : Key) (slot : Nat) : Option CellId :=
  (state.tableOf key).bind fun (table, _) => table.cell? slot state.memory

def reference? (state : Workspace Code) (key : Key) (slot : Nat) : Option CellId :=
  (state.tableOf key).map fun (table, _) => (table.cellAt slot state.memory).1

def content? (state : Workspace Code) (key : Key) (slot : Nat) : Option Cell :=
  (state.tableOf key).map fun (table, _) => table.content slot state.memory

/-- The table is live and long enough for the slot. -/
def Offers (state : Workspace Code) (key : Key) (slot : Nat) : Prop :=
  state.Live key ∧ ∃ table birth, state.tableOf key = some (table, birth) ∧ slot < table.length

def writes (state : Workspace Code) : List Move → List CellId
  | [] => []
  | move :: rest => (state.written? move).toList ++ (state.step move).writes rest

/-- A slot keeps its cell over a run, and its content unless the run writes that cell. -/
structure Endures (state : Workspace Code) (moves : List Move) (key : Key) (slot : Nat) : Prop where
  cell? : ∀ {id : CellId}, state.cell? key slot = some id →
    (state.run moves).cell? key slot = some id
  reference? : ∀ {id : CellId}, state.cell? key slot = some id →
    (state.run moves).reference? key slot = some id
  content? : (∀ id ∈ state.writes moves, (state.run moves).cell? key slot ≠ some id) →
    (state.run moves).content? key slot = state.content? key slot

private theorem Settled.step_of_offers {state : Workspace Code} (settled : state.Settled)
    {move : Move}
    (tame : ¬ state.Stray move) {key : Key} {slot : Nat} (offers : state.Offers key slot)
    (still : (state.step move).Offers key slot) :
    (∀ {id : CellId}, state.cell? key slot = some id →
        (state.step move).cell? key slot = some id) ∧
      ((∀ {id : CellId}, state.written? move = some id →
          (state.step move).cell? key slot ≠ some id) →
        (state.step move).content? key slot = state.content? key slot) := by
  obtain ⟨live, table, birth, found, below⟩ := offers
  obtain ⟨live', table', birth', found', below'⟩ := still
  have keeps := (settled.step tame).2 key table table' birth birth' slot live live' found found'
    below below'
  unfold Workspace.cell? Workspace.content?
  rw [found, found']
  exact ⟨keeps.1, fun elsewhere => congrArg some (keeps.2 elsewhere)⟩

private theorem reference?_of_cell? {state : Workspace Code} (settled : state.Settled) {key : Key}
    {slot : Nat}
    {id : CellId} (named : state.cell? key slot = some id) :
    state.reference? key slot = some id := by
  obtain ⟨⟨table, birth⟩, found, named⟩ := Option.bind_eq_some_iff.mp named
  obtain ⟨carries, reached⟩ := Table.cellAt_carries settled.clean (settled.fits found) slot
  unfold Workspace.reference?
  rw [found]
  exact congrArg some (Option.some.inj (reached.symm.trans (carries.cell? named)))

private theorem mem_trace_self (state : Workspace Code) (moves : List Move) :
    state ∈ state.trace moves := by
  cases moves <;> exact List.mem_cons_self

private theorem run_mem_trace (state : Workspace Code) (moves : List Move) :
    state.run moves ∈ state.trace moves := by
  induction moves generalizing state with
  | nil => exact List.mem_cons_self
  | cons move rest induction => exact List.mem_cons_of_mem _ (induction _)

private theorem Settled.endures {state : Workspace Code} (settled : state.Settled)
    {moves : List Move}
    (tame : state.Tame moves) {key : Key} {slot : Nat}
    (offers : ∀ reached ∈ state.trace moves, reached.Offers key slot) :
    state.Endures moves key slot := by
  induction moves generalizing state with
  | nil => exact ⟨id, reference?_of_cell? settled, fun _ => rfl⟩
  | cons move rest induction =>
      have next : (state.step move).Offers key slot :=
        offers _ (List.mem_cons_of_mem _ (mem_trace_self ..))
      obtain ⟨named, kept⟩ := settled.step_of_offers tame.1 (offers _ List.mem_cons_self) next
      have later := induction (settled.step tame.1).1 tame.2 fun reached passed =>
        offers reached (List.mem_cons_of_mem _ passed)
      refine ⟨fun before => later.cell? (named before),
        fun before => later.reference? (named before), fun unwritten => ?_⟩
      refine (later.content? fun id written => ?_).trans (kept fun {id} written after => ?_)
      · exact unwritten id (List.mem_append_right _ written)
      · refine unwritten id (List.mem_append_left _ ?_) (later.cell? after)
        rw [written]
        exact List.mem_singleton_self id

private theorem Settled.run {state : Workspace Code} (settled : state.Settled)
    {first later : List Move}
    (tame : state.Tame (first ++ later)) :
    (state.run first).Settled ∧ (state.run first).Tame later := by
  induction first generalizing state with
  | nil => exact ⟨settled, tame⟩
  | cons move rest induction => exact induction (settled.step tame.1).1 tame.2

theorem settled_run (limits : Limits) (choice : GlobalChoice) {moves : List Move}
    (tame : (fresh limits choice : Workspace Code).Tame moves) :
    ((fresh limits choice : Workspace Code).run moves).Settled := by
  rw [← List.append_nil moves] at tame
  exact ((fresh_settled limits choice).run tame).1

/-- A write through a table. -/
def writing (key : Key) (slot : Nat) (change : Cell → Cell) : Move :=
  match key with
  | .entry number => .work number (.write slot change)
  | .scope id => .writeMember id slot change

private theorem Settled.content?_writing {state : Workspace Code} (settled : state.Settled)
    {key : Key}
    {slot : Nat} (offers : state.Offers key slot) (change : Cell → Cell) :
    (state.step (writing key slot change)).content? key slot =
      (state.content? key slot).map change := by
  obtain ⟨live, table, birth, found, -⟩ := offers
  have written := Table.write_content settled.clean (settled.fits found) slot change slot
  rw [if_pos rfl] at written
  have moved : (state.step (writing key slot change)).memory =
        (Table.Work.run state.machine.host.shares (.write slot change) table state.memory).2 ∧
      (state.step (writing key slot change)).tableOf key =
        some ((Table.Work.run state.machine.host.shares (.write slot change) table
          state.memory).1, birth) := by
    cases key with
    | entry number => exact step_work (tableOf_entry.mp found) (.write slot change)
    | scope id =>
        exact ⟨(tableOf_workOnScope settled found _).1,
          tableOf_workOnScope_hosted settled found live _⟩
  unfold content?
  rw [moved.1, moved.2, found]
  exact congrArg some written

/-- In the runs of a machine, slices keep to the regions of their frames and apart from each other
just as long as no table grows in place from an inner frame. Until then a slot keeps its cell, with
what was last written to it. -/
theorem slice_integrity (limits : Limits) (choice : GlobalChoice) (moves : List Move) :
    ((∀ reached ∈ (fresh limits choice : Workspace Code).trace moves, reached.Integrity) ↔
      (fresh limits choice : Workspace Code).Tame moves) ∧
    ((fresh limits choice : Workspace Code).Tame moves →
      ∀ first later, moves = first ++ later → ∀ (key : Key) (slot : Nat),
        (∀ reached ∈ ((fresh limits choice : Workspace Code).run first).trace later,
          reached.Offers key slot) →
        ((fresh limits choice : Workspace Code).run first).Endures later key slot ∧
          ∀ change : Cell → Cell,
            (((fresh limits choice : Workspace Code).run first).step
                (writing key slot change)).content? key slot =
              (((fresh limits choice : Workspace Code).run first).content? key slot).map
                change) := by
  have settled : (fresh limits choice : Workspace Code).Settled := fresh_settled limits choice
  refine ⟨settled.integrity_iff_tame moves, ?_⟩
  rintro tame first later rfl key slot offers
  obtain ⟨settled, tame⟩ := settled.run tame
  exact ⟨settled.endures tame offers, fun change =>
    settled.content?_writing (offers _ (mem_trace_self ..)) change⟩

/-- A table of the outer frame is filled before the inner frame opens. -/
def nested : List Move :=
  [.openFrame "outer" "" ⟨0⟩, .allocateTable 1, .work 0 (.push (.bool true)),
    .openFrame "inner" "" ⟨0⟩, .allocateTable 1, .work 1 (.push .null), .closeFrame []]

theorem not_stray_of_idle {state : Workspace Code} {move : Move}
    (idle : state.effort? move = none) :
    ¬ state.Stray move := by
  rintro ⟨key, work, table, birth, effort, -⟩
  exact nomatch idle.symm.trans effort

theorem not_stray_of_innermost {state : Workspace Code} {number : Nat} {work : Table.Work}
    (innermost : ∀ entry ∈ state.entryAt? number, state.depth ≤ entry.birth) :
    ¬ state.Stray (.work number work) := by
  rintro ⟨key, work, table, birth, effort, found, inner, -⟩
  cases effort
  exact Nat.not_lt_of_le (innermost _ (tableOf_entry.mp found)) inner

private theorem offers_entry {state : Workspace Code} {number slot : Nat}
    (long : (state.entryAt? number).any (slot < ·.table.length) = true) :
    state.Offers (.entry number) slot := by
  obtain ⟨entry, held, below⟩ := (Option.any_eq_true ..).mp long
  exact ⟨trivial, _, _, tableOf_entry.mpr held, of_decide_eq_true below⟩

theorem slice_integrity_nested :
    (∀ reached ∈ (fresh .default .empty : Workspace Unit).trace nested, reached.Integrity) ∧
      ((fresh .default .empty : Workspace Unit).run (nested.take 3)).Endures (nested.drop 3)
        (.entry 0) 0 := by
  have tame : (fresh .default .empty : Workspace Unit).Tame nested := by
    refine ⟨not_stray_of_idle rfl, not_stray_of_idle rfl, not_stray_of_innermost ?_,
      not_stray_of_idle rfl, not_stray_of_idle rfl, not_stray_of_innermost ?_,
      not_stray_of_idle rfl, trivial⟩
    · decide +kernel
    · decide +kernel
  have long : (((fresh .default .empty : Workspace Unit).run (nested.take 3)).trace
      (nested.drop 3)).all (fun state => (state.entryAt? 0).any (0 < ·.table.length)) = true := by
    decide +kernel
  obtain ⟨kept, lasting⟩ := slice_integrity .default .empty nested
  exact ⟨kept.mpr tame, (lasting tame (nested.take 3) (nested.drop 3) rfl (.entry 0) 0
    fun reached passed => offers_entry (List.all_eq_true.mp long reached passed)).1⟩

/-- An empty table of the outer frame stands where the inner frame begins, and is pushed to from
there. -/
def overlapping : List Move :=
  [.openFrame "outer" "" ⟨0⟩, .allocateTable 0, .openFrame "inner" "" ⟨0⟩,
    .work 0 (.push (.bool true)), .closeFrame [], .allocateTable 1,
    .work 1 (.push .null)]

/-- The inner frame takes the new slot with it, and the next table gets it. -/
theorem slices_overlap :
    (∃ reached ∈ (fresh .default .empty : Workspace Unit).trace overlapping, ¬ reached.Integrity) ∧
      (((fresh .default .empty : Workspace Unit).run (overlapping.take 4)).content?
        (.entry 0) 0).map
        (·.value.isNull) = some false ∧
      (((fresh .default .empty : Workspace Unit).run overlapping).content? (.entry 0) 0).map
        (·.value.isNull) = some true := by
  have member : (fresh .default .empty : Workspace Unit).run overlapping ∈
      (fresh .default .empty : Workspace Unit).trace overlapping := run_mem_trace ..
  have earlier : ((fresh .default .empty : Workspace Unit).run overlapping).tableOf (.entry 0) =
      some (.inArena ⟨0, 1⟩ 1, 1) := by decide +kernel
  have later : ((fresh .default .empty : Workspace Unit).run overlapping).tableOf (.entry 1) =
      some (.inArena ⟨0, 1⟩ 1, 1) := by decide +kernel
  refine ⟨⟨_, member, fun integrity => ?_⟩, ?_, ?_⟩
  · have start : Memory.Between 0 1 0 := ⟨Nat.le_refl 0, Nat.one_pos⟩
    have live : ∀ number, ((fresh .default .empty : Workspace Unit).run overlapping).Live
        (.entry number) := fun _ => trivial
    exact integrity.disjoint (live 0) (live 1) (by decide) earlier later start start
  · decide +kernel
  · decide +kernel

end Workspace

end ScopeMachine
