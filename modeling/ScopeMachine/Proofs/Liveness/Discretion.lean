import ScopeMachine.Proofs.Liveness.Findings
import ScopeMachine.Proofs.Liveness.Ties

namespace ScopeMachine

open ScopeMachine.Action Heap

variable {Code : Type} {secrecy : Secrecy}

namespace Machine

variable {machine : Machine Code}

def Watches (machine : Machine Code) (secrecy : Secrecy) : Prop :=
  ∀ {id}, secrecy.watched id → id.index < machine.heap.scopes.size ∧ id ∉ machine.pool

def gained {α : Type} (gain : α → List Handle) : Ending Code α → List Handle
  | .ok result _ => gain result
  | .error .. => []

structure Discloses {α : Type} (secrecy : Secrecy) (before : Machine Code) (gain : α → List Handle)
    (ending : Ending Code α) : Prop where
  heap : (machineLeft ending).heap.Discreet secrecy
  host : (machineLeft ending).host = before.host
  gains : ∀ {cell}, .cell cell ∈ gained gain ending →
    cell.index < (machineLeft ending).heap.memory.cells.size

private theorem Discloses.silent {α : Type} {gain : α → List Handle} {ending : Ending Code α}
    (heap : (machineLeft ending).heap.Discreet secrecy)
    (host : (machineLeft ending).host = machine.host)
    (silent : ∀ result cell, .cell cell ∉ gain result) : machine.Discloses secrecy gain ending :=
  ⟨heap, host, fun {cell} listed => by
    cases ending with
    | ok result after => exact (silent result cell listed).elim
    | error abort after => cases listed⟩

section Scopes

variable (discreet : machine.heap.Discreet secrecy)

include discreet

private theorem newScope_discreet (watches : machine.Watches secrecy) {scope : Scope}
    (aside : scope.variant = .constructor → scope.members.isArena = false)
    (holds : ∀ {cell}, scope.holds (.cell cell) = true →
      cell.index < machine.heap.memory.cells.size ∧ scope.variant = .function) :
    (machine.heap.newScope scope).2.Discreet secrecy := by
  refine Heap.newScope_discreet discreet aside fun {cell} held => ?_
  obtain ⟨present, called⟩ := holds held
  exact ⟨present, called, fun watched => Nat.lt_irrefl _ (watches watched).1⟩

private theorem pooledScope_discreet (watches : machine.Watches secrecy) (held : List Handle)
    {scope : Scope}
    (aside : scope.variant = .constructor → scope.members.isArena = false)
    (holds : ∀ {cell}, scope.holds (.cell cell) = true →
      cell.index < machine.heap.memory.cells.size ∧ scope.variant = .function) :
    ∃ id after, pooledScope scope held machine = .ok id after ∧
      after.heap.Discreet secrecy ∧ after.host = machine.host := by
  rw [run_pooledScope]
  cases pool : machine.pool with
  | nil => exact ⟨_, _, rfl, newScope_discreet discreet watches aside holds, rfl⟩
  | cons id rest =>
      refine ⟨id, _, rfl, discreet.place rfl (fun other => scope_modifyScope_or ..) aside
        fun {cell} held => ?_, rfl⟩
      obtain ⟨present, called⟩ := holds held
      exact ⟨present, called, fun watched => (watches watched).2 (pool ▸ List.mem_cons_self)⟩

private theorem recycle_discreet (id : ScopeId) : (machine.recycle id).heap.Discreet secrecy := by
  have emptied (other : ScopeId) := scope_modifyScope_or machine.heap id other
    fun scope => .vacant scope.index
  have bare (cell : CellId) : (Scope.vacant (machine.heap.scope id).index).holds (.cell cell) =
    false :=
    onHeap_holds_cell rfl
  have either (other : ScopeId) : (machine.recycle id).heap.scope other = machine.heap.scope other ∨
      other = id ∧
        (machine.recycle id).heap.scope other = .vacant (machine.heap.scope id).index :=
    (emptied other).imp_right fun ⟨same, vacated⟩ => ⟨same, same ▸ vacated⟩
  exact discreet.place rfl either (fun made => by cases made) fun {cell} held =>
    nomatch (bare cell).symm.trans held

private theorem releaseBlocks_discreet (held : List Handle) (blocks : List ScopeId) :
    (releaseBlocks held blocks machine).heap.Discreet secrecy ∧
      (releaseBlocks held blocks machine).host = machine.host := by
  induction blocks generalizing machine with
  | nil => exact ⟨discreet, rfl⟩
  | cons first rest induction =>
      unfold releaseBlocks
      dsimp only
      split
      next => exact @induction (machine.promote first) (detach_discreet discreet first)
      next => exact @induction (machine.recycle first) (recycle_discreet discreet first)

private theorem closeFrame_discreet (held : List Handle) :
    (machine.closeFrame held).heap.Discreet secrecy ∧
      (machine.closeFrame held).host = machine.host := by
  unfold closeFrame
  cases machine.frames.pop? with
  | none => exact ⟨discreet, rfl⟩
  | some frames =>
      obtain ⟨top, outer⟩ := frames
      obtain ⟨released, host⟩ :=
        @releaseBlocks_discreet _ _ { machine with frames := outer } discreet held top.blocks
      exact ⟨released.of_scopes (Memory.closeFrame_continues ..) rfl, host⟩

private theorem releaseScope_discreet (held : List Handle) (id : ScopeId) :
    (machine.releaseScope held id).heap.Discreet secrecy ∧
      (machine.releaseScope held id).host = machine.host := by
  unfold releaseScope
  dsimp only
  split
  next => exact ⟨discreet, rfl⟩
  next =>
    split
    next => exact ⟨detach_discreet discreet id, rfl⟩
    next =>
      exact ⟨(recycle_discreet discreet id).of_scopes (Table.free_continues ..) rfl, rfl⟩

end Scopes

end Machine

private theorem Scope.called_of_onHeap {previous : Option ScopeId} {index : Index}
    {kind : ScopeKind}
    {cell : CellId} (held : (Scope.onHeap previous index kind).holds (.cell cell) = true) :
    kind.variant = .function := by
  cases kind with
  | function => rfl
  | object maker => cases maker <;> exact nomatch (onHeap_holds_cell rfl).symm.trans held
  | _ => exact nomatch (onHeap_holds_cell rfl).symm.trans held

private theorem Scope.bare_holds_cell {scope : Scope} {cell : CellId}
    (bare : scope.members.heapCells = #[]) (kind : scope.kind.holds (.cell cell) = false) :
    scope.holds (.cell cell) = false := by
  obtain ⟨previous, index, members, scopeKind, pooled⟩ := scope
  cases previous <;> simp_all [Scope.holds, Handle.isScope]

namespace Machine

variable {machine : Machine Code} (discreet : machine.heap.Discreet secrecy)
  (watches : machine.Watches secrecy)

include discreet watches

private theorem allocateBlock_discloses (held : List Handle) (previous : ScopeId) (index : Index) :
    machine.Discloses secrecy (fun id => [.scope id])
      (allocateBlock previous index held machine) := by
  rw [run_allocateBlock]
  split
  next =>
    refine .silent (newScope_discreet discreet watches nofun fun {cell} held => ?_) rfl (by simp)
    exact nomatch (onHeap_holds_cell rfl).symm.trans held
  next =>
    obtain ⟨memory, continues, left⟩ := @allocateTable_evolves _ machine held index.size
    cases made : allocateTable index.size held machine with
    | error abort middle =>
        rw [made] at left
        cases left
        exact .silent (discreet.of_scopes continues rfl) rfl (by simp)
    | ok members middle =>
        have bare := bare_of_allocateTable made
        rw [made] at left
        cases left
        obtain ⟨id, after, taken, pooled, host⟩ :=
          @pooledScope_discreet _ _ { machine with heap := { machine.heap with memory } }
            (discreet.of_scopes continues rfl) watches held
            ⟨some previous, index, members, .basic, true⟩ nofun
            fun {cell} held => nomatch (Scope.bare_holds_cell bare rfl).symm.trans held
        rw [andThen_ok, taken]
        exact .silent pooled host (by simp)

private theorem allocateCallScope_discloses {held : List Handle} {previous : ScopeId}
    {index : Index}
    {members : Table} {invocation : Invocation} {pooled : Bool}
    (present : ∀ {cell},
      (Scope.mk (some previous) index members (.function invocation) pooled).holds (.cell cell) =
        true → cell.index < machine.heap.memory.cells.size) :
    machine.Discloses secrecy (fun id => [.scope id])
      (allocateCallScope previous index members invocation held machine) := by
  have grown := Table.ensureCapacity_draws discreet.sound members index.size
  unfold allocateCallScope
  rw [run_bind, run_onMemory, andThen_ok]
  generalize members.ensureCapacity index.size machine.heap.memory = result at grown ⊢
  obtain ⟨table, memory⟩ := result
  have roomy : ({ machine.heap with memory } : Heap Code).Discreet secrecy :=
    discreet.of_scopes grown.continues rfl
  have holds (pooled : Bool) {cell : CellId}
      (held : (Scope.mk (some previous) index table (.function invocation) pooled).holds
        (.cell cell) = true) : cell.index < memory.cells.size := by
    have kind : (Scope.mk (some previous) index table (.function invocation) pooled).kind =
        (Scope.mk (some previous) index members (.function invocation) pooled).kind := rfl
    rcases holds_cell_of_members kind held with listed | earlier
    · refine grown.old discreet.sound (fun {id} listed => present ?_) listed
      exact holds_cell_of_mem listed
    · exact Nat.lt_of_lt_of_le (present earlier) grown.continues.size
  dsimp only
  rw [run_ite]
  split
  next =>
    obtain ⟨id, after, taken, pooled, host⟩ :=
      @pooledScope_discreet _ _ { machine with heap := { machine.heap with memory } } roomy watches
        held ⟨some previous, index, table, .function invocation, table.isArena⟩ nofun
        fun {cell} held => ⟨holds _ held, rfl⟩
    rw [taken]
    exact .silent pooled host (by simp)
  next =>
    refine .silent ?_ rfl (by simp)
    exact @newScope_discreet _ _ { machine with heap := { machine.heap with memory } } roomy watches
      _ nofun fun {cell} held => ⟨holds _ held, rfl⟩

end Machine

private theorem Request.discloses {known held : List Handle} {machine : Machine Code}
    (discreet : machine.heap.Discreet secrecy) (watches : machine.Watches secrecy)
    (present : ∀ {cell}, .cell cell ∈ known → cell.index < machine.heap.memory.cells.size)
    {α : Type} {action : Action Code α} {gain : α → List Handle}
    (asked : Request known action gain) :
    machine.Discloses secrecy gain (action held machine) := by
  have sound := discreet.sound
  have memory {memory : Memory} (continues : machine.heap.memory.Continues memory) :
      ({ machine.heap with memory } : Heap Code).Discreet secrecy :=
    discreet.of_scopes continues rfl
  have old {table : Table} (kept : table.Kept (· ∈ known)) {id : CellId}
      (listed : id ∈ table.heapCells) : id.index < machine.heap.memory.cells.size :=
    present (kept id listed)
  have drawn {table table' : Table} {memory' : Memory} (kept : table.Kept (· ∈ known))
      (draws : table.Draws machine.heap.memory table' memory') {cell : CellId}
      (gained : .cell cell ∈ table'.cellHandles) : cell.index < memory'.cells.size := by
    obtain ⟨id, listed, same⟩ := List.mem_map.mp gained
    obtain rfl := Handle.cell.inj same
    exact draws.old sound (old kept) (Array.mem_toList_iff.mp listed)
  have law := @discreet_law Code secrecy
  have finds {among : ScopeId → Prop} {outcome : Option CellId × Heap Code}
      (finding : machine.heap.Finding among outcome) (settles : machine.heap.Settles outcome.2)
      {cell : CellId} (gained : .cell cell ∈ outcome.1.toList.map Handle.cell) :
      cell.index < outcome.2.memory.cells.size := by
    obtain ⟨id, listed, same⟩ := List.mem_map.mp gained
    obtain rfl := Handle.cell.inj same
    exact finding.present discreet settles.evolves.continues (Option.mem_toList.mp listed)
  cases asked with
  | newCell =>
      refine ⟨newCell_discreet discreet _, rfl, fun {cell} gained => ?_⟩
      obtain rfl := Handle.cell.inj (List.mem_singleton.mp gained)
      exact Nat.lt_of_lt_of_eq (Nat.lt_succ_self _) (Array.size_push _).symm
  | assign id name =>
      have assigned (value : Value) : (machine.heap.assign id name value).2.Discreet secrecy :=
        discreet.of_scopes (@assign_evolves _ (fun _ => True) machine.heap id name
          value).continues rfl
      rw [run_tryHeap]
      split <;> exact .silent (assigned _) rfl nofun
  | changeCell => exact .silent (modifyCell_discreet discreet ..) rfl nofun
  | allocateTable size =>
      obtain ⟨after, continues, left⟩ := @Machine.allocateTable_evolves _ machine held size
      exact .silent (left ▸ memory continues) (left ▸ rfl) nofun
  | @tableOf values =>
      have draws := @Table.ofValues_draws machine.heap.memory values
      exact ⟨memory draws.continues, rfl, drawn Table.kept_empty draws⟩
  | @cellAt table kept slot =>
      have draws := Table.cellAt_draws sound table slot
      refine ⟨memory draws.continues, rfl, fun {cell} gained => ?_⟩
      rcases List.mem_cons.mp gained with same | gained
      · obtain rfl := Handle.cell.inj same
        rcases Table.cellAt_offers sound table slot with listed | offered
        · exact Nat.lt_of_lt_of_le (old kept listed) draws.continues.size
        · exact offered.present draws.continues sound
      · exact drawn kept draws gained
  | @pushEach table kept values =>
      have draws := Table.pushEach_draws sound table values
      exact ⟨memory draws.continues, rfl, drawn kept draws⟩
  | @ensureCapacity table kept capacity =>
      have draws := Table.ensureCapacity_draws sound table capacity
      exact ⟨memory draws.continues, rfl, drawn kept draws⟩
  | @safeCopy table kept =>
      obtain ⟨copy, own⟩ := Table.safeCopy_draws sound table
      refine ⟨memory own.continues, rfl, fun {cell} gained => ?_⟩
      exact (List.mem_append.mp gained).elim (drawn kept copy) (drawn kept own)
  | @truncate table kept length =>
      have draws := @Table.truncate_draws machine.heap.memory machine.host.shares table length
      exact ⟨memory draws.continues, rfl, drawn kept draws⟩
  | resetTable table => exact .silent (memory (Table.reset_continues table)) rfl nofun
  | freeTable table => exact .silent (memory (Table.free_continues ..)) rfl nofun
  | newArray => exact .silent (discreet.of_scopes (.refl ..) rfl) rfl (by simp)
  | changeArray id =>
      have changed (change : Array Value → Array Value) :
          (machine.heap.modifyArray id change).2.Discreet secrecy := by
        unfold Heap.modifyArray
        split <;> exact discreet.of_scopes (.refl ..) rfl
      rw [run_tryHeap]
      split <;> exact .silent (changed _) rfl nofun
  | newException => exact .silent (discreet.of_scopes (.refl ..) rfl) rfl (by simp)
  | changeException => exact .silent (discreet.of_scopes (.refl ..) rfl) rfl nofun
  | newFunction => exact .silent (discreet.of_scopes (.refl ..) rfl) rfl (by simp)
  | newScope kept =>
      refine .silent (Machine.newScope_discreet discreet watches (fun _ => rfl) fun {cell} held =>
        ?_)
        rfl (by simp)
      exact ⟨present (kept _ held), Scope.called_of_onHeap held⟩
  | newEmptyGlobal => exact .silent (newEmptyGlobal_discreet discreet) rfl (by simp)
  | newGlobal =>
      have made := newGlobal_discreet discreet
      rw [run_onHeap]
      generalize machine.heap.newGlobal = result at made ⊢
      exact .silent made rfl (by simp)
  | @resetGlobal scope listed =>
      have emptied := resetGlobal_discreet discreet scope
      rw [run_onHeap]
      dsimp only
      generalize machine.heap.resetGlobal scope = after at emptied ⊢
      exact .silent emptied rfl nofun
  | createMember _ name permission =>
      refine ⟨law.createMember _ _ _ _ discreet, rfl, fun {cell} gained => ?_⟩
      obtain rfl := Handle.cell.inj (List.mem_singleton.mp gained)
      exact createMember_present discreet ..
  | ownMember _ name =>
      exact ⟨law.ownMember _ _ _ discreet, rfl,
        finds (ownMember_finding sound _ name) (settles_law.ownMember _ _ _ sound)⟩
  | lookup _ name =>
      exact ⟨law.lookup _ _ _ discreet, rfl,
        finds (lookup_finding sound _ name) (settles_law.lookup _ _ _ sound)⟩
  | member _ name =>
      exact ⟨law.member _ _ _ discreet, rfl,
        finds (member_finding sound _ name) (settles_law.member _ _ _ sound)⟩
  | allocateBlock => exact Machine.allocateBlock_discloses discreet watches ..
  | allocateCallScope kept =>
      exact Machine.allocateCallScope_discloses discreet watches fun {cell} held =>
        present (kept _ held)
  | setScopeAndLine => exact .silent discreet rfl nofun
  | setLine => exact .silent discreet rfl nofun

namespace Client

structure Discreet (secrecy : Secrecy) (client : Client Code) : Prop where
  heap : client.machine.heap.Discreet secrecy
  known : ∀ {cell}, .cell cell ∈ client.known →
    cell.index < client.machine.heap.memory.cells.size
  hosted : ∀ {cell}, .cell cell ∈ client.machine.host.handles →
    cell.index < client.machine.heap.memory.cells.size

variable {before after start later : Client Code}

private theorem holds_cell {heap : Heap Code} {holder : Handle} {cell : CellId}
    (holds : heap.Holds holder (.cell cell)) :
    ∃ id, holder = .scope id ∧ (heap.scope id).holds (.cell cell) = true := by
  have value (value : Value) : value.holds (.cell cell) = false := by cases value <;> rfl
  cases holder with
  | scope id => exact ⟨id, rfl, holds⟩
  | cell id => exact nomatch (value _).symm.trans holds
  | array id =>
      obtain ⟨element, -, held⟩ := Array.any_eq_true'.mp (holds_array.mp holds)
      exact nomatch (value _).symm.trans held
  | exception id =>
      obtain ⟨cause, -, held⟩ := (Option.any_eq_true ..).mp (holds_exception.mp holds)
      exact nomatch (value _).symm.trans held
  | function id =>
      obtain ⟨function, -, holds⟩ := holds
      cases statics : function.statics <;> cases overridden : function.overridden <;>
        simp [Function.holds, Handle.isScope, value, statics, overridden] at holds

private theorem Move.discreet (move : Move before after) (discreet : before.Discreet secrecy)
    (watches : before.machine.Watches secrecy) : after.Discreet secrecy := by
  have later {memory : Memory} (continues : before.machine.heap.memory.Continues memory) :
      (∀ {cell}, .cell cell ∈ before.known → cell.index < memory.cells.size) ∧
        ∀ {cell}, .cell cell ∈ before.machine.host.handles → cell.index < memory.cells.size :=
    ⟨fun listed => Nat.lt_of_lt_of_le (discreet.known listed) continues.size,
      fun listed => Nat.lt_of_lt_of_le (discreet.hosted listed) continues.size⟩
  have continues := (move.evolves discreet.heap.sound).heap.continues
  obtain ⟨known, hosted⟩ := later continues
  cases move with
  | @request _ action gain asked held =>
      have discloses := @Request.discloses _ _ _ held _ discreet.heap watches discreet.known _
        _ _ asked
      obtain ⟨heap, host, gains⟩ := discloses
      unfold Client.after at known hosted ⊢
      cases ending : action held before.machine with
      | ok result machine =>
          rw [ending] at heap host gains known hosted
          refine ⟨heap, fun {cell} listed => ?_, fun {cell} listed => hosted (host ▸ listed)⟩
          exact (List.mem_append.mp listed).elim gains known
      | error abort machine =>
          rw [ending] at heap host known hosted
          exact ⟨heap, known, fun {cell} listed => hosted (host ▸ listed)⟩
  | openFrame _ id file =>
      have opened : before.machine.heap.memory.Continues
        (before.machine.heap.memory.modifyArena (·.openFrame)) := .of_bookkeeping rfl rfl
      exact ⟨discreet.heap.of_scopes opened rfl, known, hosted⟩
  | closeFrame fewer =>
      obtain ⟨heap, host⟩ := Machine.closeFrame_discreet discreet.heap _
      exact ⟨heap, fun listed => known (fewer listed), fun {cell} listed => hosted (host ▸ listed)⟩
  | releaseScope _ fewer =>
      obtain ⟨heap, host⟩ := Machine.releaseScope_discreet discreet.heap _ _
      exact ⟨heap, fun listed => known (fewer listed), fun {cell} listed => hosted (host ▸ listed)⟩
  | follow listed held =>
      refine ⟨discreet.heap, fun {cell} member => ?_, hosted⟩
      rcases List.mem_cons.mp member with same | old
      · obtain ⟨id, -, holds⟩ := holds_cell (same ▸ mem_holders.mp held)
        exact discreet.heap.furnished holds
      · exact known old
  | take root =>
      refine ⟨discreet.heap, fun {cell} member => ?_, hosted⟩
      rcases List.mem_cons.mp member with same | old
      · rcases Machine.isRoot_iff.mp (same ▸ root) with mine | host | pinned
        · exact known mine
        · exact hosted host
        · obtain ⟨position, named⟩ := pinned
          exact discreet.heap.sound.old named
      · exact known old
  | forget fewer => exact ⟨discreet.heap, fun listed => known (fewer listed), hosted⟩
  | host host kept =>
      exact ⟨discreet.heap, known, fun {cell} listed => (kept _ listed).elim known hosted⟩

theorem Discreet.retell {client : Client Code} {secrecy' : Secrecy}
    (discreet : client.Discreet secrecy)
    (secludes : ∀ {owner cell}, secrecy'.secret owner cell ∨
      client.machine.heap.Owns secrecy'.recent owner cell →
        client.machine.heap.Secludes secrecy'.watched owner cell) : client.Discreet secrecy' :=
  ⟨⟨discreet.heap.sound, discreet.heap.furnished, discreet.heap.aside, secludes⟩,
    discreet.known, discreet.hosted⟩

end Client

def Heap.Secrecy.idle : Secrecy := ⟨fun _ => False, fun _ => False, fun _ _ => False⟩

private theorem Heap.ofCapacity_discreet (capacity : Nat) :
    (Heap.ofCapacity capacity : Heap Code).Discreet .idle := by
  have bare (id : ScopeId) : (Heap.ofCapacity capacity : Heap Code).scope id = default :=
    scope_of_size_le (Nat.zero_le _)
  refine ⟨(Heap.ofCapacity_detached capacity).sound, fun {id cell} held => ?_,
    fun {id} made => ?_, fun owned => owned.elim False.elim (·.recent.elim)⟩
  · rw [bare] at held
    exact nomatch held.symm.trans (scope_default_holds _)
  · rw [bare] at made
    cases made

private theorem Machine.new_discreet (limits : Limits) (choice : GlobalChoice) :
    (Machine.new limits choice : Machine Code).heap.Discreet .idle := by
  have shared : (Heap.ofCapacity limits.arenaCapacity : Heap Code).newGlobal.2.Discreet .idle :=
    newGlobal_discreet (Heap.ofCapacity_discreet _)
  cases choice with
  | fresh => exact newGlobal_discreet shared
  | empty => exact newEmptyGlobal_discreet shared
  | shared => exact shared

namespace Client

variable {start later : Client Code} {anchor : ScopeId}

/-- As long as the anchor is within reach, what it is tied to stays tied to it. -/
theorem Leads.tied_carry (leads : Leads start later) (orderly : start.Orderly)
    (lasting : start.machine.Lasting anchor) (anchored : later.Anchored anchor) {target : Handle}
    (tied : start.machine.heap.Tied (.scope anchor) target) :
    later.machine.heap.Tied (.scope anchor) target := by
  induction tied with
  | refl => exact .refl
  | tail tied ties induction =>
      refine .tail induction (ties.carry (Leads.function? leads orderly) fun {id} same => ?_)
      exact (Leads.tied leads orderly lasting anchored (same ▸ tied)).2 rfl

private theorem Anchored.watches {client : Client Code} (anchored : client.Anchored anchor)
    (orderly : client.Orderly)
    (watched : ∀ {id}, secrecy.watched id → client.machine.heap.Tied (.scope anchor) (.scope id)) :
    client.machine.Watches secrecy := fun {_} given =>
  ⟨(anchored.live.tied orderly.guarded (watched given)).there rfl,
    anchored.idle orderly (watched given)⟩

theorem Leads.discreet (leads : Leads start later) (orderly : start.Orderly)
    (lasting : start.machine.Lasting anchor) (anchored : later.Anchored anchor)
    (watched : ∀ {id}, secrecy.watched id → start.machine.heap.Tied (.scope anchor) (.scope id))
    (discreet : start.Discreet secrecy) : later.Discreet secrecy := by
  induction leads with
  | refl => exact discreet
  | @tail middle later earlier move induction =>
      have orderly' := Leads.orderly earlier orderly
      have anchored' :=
        move.anchored_before orderly' (Leads.lasting earlier orderly lasting).1 anchored
      refine move.discreet (induction anchored') (anchored'.watches orderly' fun given => ?_)
      exact Leads.tied_carry earlier orderly lasting anchored' (watched given)

theorem Reachable.discreet {limits : Limits} {choice : GlobalChoice} {client : Client Code}
    (reachable : Reachable limits choice client) : client.Discreet .idle := by
  induction reachable with
  | refl => exact ⟨Machine.new_discreet limits choice, nofun, nofun⟩
  | tail _ move induction => exact move.discreet induction nofun

end Client

end ScopeMachine
