import ScopeMachine.Proofs.Frames.Settled

namespace ScopeMachine

open Arena

namespace Workspace

variable {Code : Type}

/-! Work on a table at hand. -/

section Working

variable {state : Workspace Code} {number : Nat} {entry : Entry}

theorem Settled.replace (settled : state.Settled) (held : state.entryAt? number = some entry)
    {written : CellId → Prop} {table' : Table} {memory' : Memory}
    (alters : entry.table.Alters written state.memory table' memory')
    (shifts : state.memory.bounds.Shifts memory'.bounds)
    (region : ∀ {position : Nat}, table'.Spans position →
      state.machine.bounds.Region entry.birth position)
    (rooted : entry.birth = 0 → table'.isArena = false) :
    ((state.withMemory memory').setEntry number (some ⟨table', entry.birth⟩)).Settled ∧
      state.Changes (.entry number) entry.table table' written
        ((state.withMemory memory').setEntry number (some ⟨table', entry.birth⟩)) := by
  have holding : state.tableOf (.entry number) = some (entry.table, entry.birth) :=
    tableOf_entry.mpr held
  have heldStill : (state.withMemory memory').entryAt? number = some entry := held
  have steady : state.machine.Steady (state.withMemory memory').machine := .of_heap shifts
  have registered := settled.registered
  have changes : state.Changes (.entry number) entry.table table' written
      ((state.withMemory memory').setEntry number (some ⟨table', entry.birth⟩)) := by
    refine ⟨alters, ?_, ?_, ?_⟩
    · intro other table birth position apart found spanned
      exact settled.apart (Ne.symm apart) holding found spanned
    · intro other table birth apart found
      cases other with
      | entry number' =>
          have different : number' ≠ number := fun same => apart (congrArg Key.entry same)
          rw [tableOf_entry, entryAt?_setEntry_ne different] at found
          exact tableOf_entry.mpr found
      | scope id => exact found
    · intro table birth found
      rw [tableOf_entry, entryAt?_setEntry_self heldStill] at found
      cases found
      refine ⟨alters.fits, fun spanned => ⟨spanned, ?_⟩⟩
      exact Bounds.region_of_marks shifts.marks (region spanned)
  refine ⟨settled.changes changes (steady.orderly settled.orderly)
    ⟨registered.nodup, registered.old, registered.kinds, registered.heaped⟩ shifts.marks ?_,
    changes⟩
  intro number' entry' found
  by_cases same : number' = number
  · subst same
    rw [entryAt?_setEntry_self heldStill] at found
    cases found
    exact ⟨(settled.entries held).1, rooted⟩
  · rw [entryAt?_setEntry_ne same] at found
    exact settled.entries (show state.entryAt? number' = some entry' from found)

theorem Settled.work (settled : state.Settled) (held : state.entryAt? number = some entry)
    {work : Table.Work}
    (tame : entry.birth < state.depth →
      ¬ entry.table.growsInPlace (work.demand entry.table) state.memory) :
    (state.step (.work number work)).Settled ∧
      state.Changes (.entry number) entry.table
        (work.run state.machine.host.shares entry.table state.memory).1
        (fun id => work.written? entry.table state.memory = some id ∧
          id ∈ (work.run state.machine.host.shares entry.table state.memory).1.heapCells)
        (state.step (.work number work)) := by
  have holding : state.tableOf (.entry number) = some (entry.table, entry.birth) :=
    tableOf_entry.mpr held
  have stepped : state.step (.work number work) =
      (state.withMemory (work.run state.machine.host.shares entry.table state.memory).2).setEntry
        number (some ⟨(work.run state.machine.host.shares entry.table state.memory).1,
          entry.birth⟩) := by
    unfold step
    dsimp only
    rw [held]
  rw [stepped]
  exact settled.replace held
    (Table.Work.run_alters _ settled.clean (settled.fits holding) work)
    (Table.Work.run_shifts ..) (region_run settled holding _ tame)
    fun root => Table.Work.isArena_run _ ((settled.entries held).2 root)

theorem Settled.free (settled : state.Settled) (held : state.entryAt? number = some entry) :
    (state.step (.free number)).Settled ∧ (state.step (.free number)).entryAt? number = none ∧
      state.Changes (.entry number) entry.table .empty (fun _ => False)
        (state.step (.free number)) := by
  have holding : state.tableOf (.entry number) = some (entry.table, entry.birth) :=
    tableOf_entry.mpr held
  have alters := Table.free_alters state.machine.host.shares settled.clean (settled.fits holding)
  have shifts := Table.free_shifts state.machine.host.shares entry.table state.memory
  have stepped : state.step (.free number) =
      (state.withMemory (entry.table.free state.machine.host.shares state.memory)).setEntry
        number none := by
    unfold step
    dsimp only
    rw [held]
  rw [stepped]
  generalize entry.table.free state.machine.host.shares state.memory = memory' at alters shifts
  have heldStill : (state.withMemory memory').entryAt? number = some entry := held
  have steady : state.machine.Steady (state.withMemory memory').machine := .of_heap shifts
  have registered := settled.registered
  have changes : state.Changes (.entry number) entry.table .empty (fun _ => False)
      ((state.withMemory memory').setEntry number none) := by
    refine ⟨alters, ?_, ?_, ?_⟩
    · intro other table birth position apart found spanned
      exact settled.apart (Ne.symm apart) holding found spanned
    · intro other table birth apart found
      cases other with
      | entry number' =>
          have different : number' ≠ number := fun same => apart (congrArg Key.entry same)
          rw [tableOf_entry, entryAt?_setEntry_ne different] at found
          exact tableOf_entry.mpr found
      | scope id => exact found
    · intro table birth found
      rw [tableOf_entry, entryAt?_setEntry_self heldStill] at found
      cases found
  refine ⟨settled.changes changes (steady.orderly settled.orderly)
    ⟨registered.nodup, registered.old, registered.kinds, registered.heaped⟩ shifts.marks ?_,
    entryAt?_setEntry_self heldStill none, changes⟩
  intro number' entry' found
  by_cases same : number' = number
  · subst same
    rw [entryAt?_setEntry_self heldStill] at found
    cases found
  · rw [entryAt?_setEntry_ne same] at found
    exact settled.entries (show state.entryAt? number' = some entry' from found)

end Working

/-! New tables. -/

section Adding

variable {state : Workspace Code}

theorem Settled.add (settled : state.Settled) {source table : Table} {memory' : Memory}
    (alters : source.Alters (fun _ => False) state.memory table memory')
    (nothing : ∀ {position : Nat}, ¬ source.Spans position)
    (shifts : state.memory.bounds.Shifts memory'.bounds)
    (region : ∀ {position : Nat}, table.Spans position →
      state.machine.bounds.Region state.depth position)
    (rooted : state.depth = 0 → table.isArena = false) :
    ((state.withMemory memory').addEntry table).Settled ∧
      state.Changes (.entry state.entries.length) source table (fun _ => False)
        ((state.withMemory memory').addEntry table) := by
  have steady : state.machine.Steady (state.withMemory memory').machine := .of_heap shifts
  have registered := settled.registered
  have added : ∀ {number : Nat} {entry : Entry},
      ((state.withMemory memory').addEntry table).entryAt? number = some entry →
      state.entryAt? number = some entry ∨
        number = state.entries.length ∧ entry = ⟨table, state.depth⟩ := entryAt?_addEntry
  have absent : state.entryAt? state.entries.length = none := by
    simp [entryAt?]
  have changes : state.Changes (.entry state.entries.length) source table (fun _ => False)
      ((state.withMemory memory').addEntry table) := by
    refine ⟨alters, fun _ _ spanned => (nothing spanned).elim, ?_, ?_⟩
    · intro other held birth apart found
      cases other with
      | entry number =>
          rcases added (tableOf_entry.mp found) with earlier | ⟨rfl, -⟩
          · exact tableOf_entry.mpr earlier
          · exact absurd rfl apart
      | scope id => exact found
    · intro held birth found
      rcases added (tableOf_entry.mp found) with earlier | ⟨-, same⟩
      · rw [absent] at earlier
        cases earlier
      · cases same
        exact ⟨alters.fits, fun spanned =>
          ⟨spanned, Bounds.region_of_marks shifts.marks (region spanned)⟩⟩
  refine ⟨settled.changes changes (steady.orderly settled.orderly)
    ⟨registered.nodup, registered.old, registered.kinds, registered.heaped⟩ shifts.marks ?_,
    changes⟩
  intro number entry found
  rcases added found with earlier | ⟨-, rfl⟩
  · exact settled.entries earlier
  · exact ⟨Nat.le_refl _, rooted⟩

theorem Settled.safeCopy (settled : state.Settled) {number : Nat} {entry : Entry}
    (held : state.entryAt? number = some entry) :
    (state.step (.safeCopy number)).Settled ∧
      (∀ table birth, (state.step (.safeCopy number)).tableOf (.entry number) =
        some (table, birth) →
        (∀ slot {id : CellId}, entry.table.cell? slot state.memory = some id →
          table.cell? slot (state.step (.safeCopy number)).memory = some id) ∧
        ∀ slot, table.content slot (state.step (.safeCopy number)).memory =
          entry.table.content slot state.memory) ∧
      ∀ other : Key, other ≠ .entry number → other ≠ .entry state.entries.length →
        state.Stays other (fun _ => False) (state.step (.safeCopy number)) := by
  have holding : state.tableOf (.entry number) = some (entry.table, entry.birth) :=
    tableOf_entry.mpr held
  have carries := Table.copyOut_carries settled.clean (settled.fits holding)
  have heaped := Table.isArena_copyOut entry.table state.memory
  obtain ⟨replaced, changed⟩ := settled.replace held carries.toAlters
    (Table.copyOut_shifts ..) (fun spanned => settled.region holding (Table.spans_copyOut spanned))
    fun _ => heaped
  have stepped : state.step (.safeCopy number) =
      ((state.withMemory (entry.table.copyOut state.memory).2).setEntry number
        (some ⟨(entry.table.copyOut state.memory).1, entry.birth⟩)).addEntry
          (.onHeap (entry.table.copyOut state.memory).1.heapCells none) := by
    unfold step
    dsimp only
    rw [held]
    rfl
  rw [stepped]
  have fits : (Table.onHeap (entry.table.copyOut state.memory).1.heapCells none).Fits
      (entry.table.copyOut state.memory).2 :=
    ⟨fun spanned => (Table.not_spans_onHeap spanned).elim, nofun, nofun, carries.fits.old,
      carries.fits.unnamed, carries.fits.distinct⟩
  obtain ⟨added, more⟩ := replaced.add (.refl False.elim carries.clean fits)
    Table.not_spans_onHeap (.refl _)
    (fun spanned => (Table.not_spans_onHeap spanned).elim) fun _ => rfl
  refine ⟨added, fun table birth found => ?_, fun other apart last => ?_⟩
  · have same : table = (entry.table.copyOut state.memory).1 := by
      have heldStill : (state.withMemory (entry.table.copyOut state.memory).2).entryAt? number =
          some entry := held
      rcases entryAt?_addEntry (tableOf_entry.mp found) with earlier | ⟨last, -⟩
      · rw [entryAt?_setEntry_self heldStill] at earlier
        exact congrArg Entry.table (Option.some.inj earlier).symm
      · have beyond : state.entryAt? number = none := by
          rw [last]
          simp [entryAt?, setEntry, withMemory, onHeap]
        rw [beyond] at held
        cases held
    subst same
    exact ⟨fun _ => carries.cell?, carries.content⟩
  · refine (changed.stays settled apart).trans (more.stays replaced ?_)
    simpa [setEntry, withMemory, onHeap] using last

theorem step_allocateTable (state : Workspace Code) (size : Nat) :
    state.step (.allocateTable size) =
      if state.machine.frames.isEmpty then (state.withMemory state.memory).addEntry .empty
      else match state.memory.arena.allocate size with
        | .ok (offset, arena) =>
            (state.withMemory { state.memory with arena }).addEntry (.inArena ⟨offset, size⟩ 0)
        | .error _ => state := by
  unfold step
  dsimp only
  unfold Machine.attempt
  rw [Action.run_allocateTable]
  by_cases unframed : state.machine.frames.isEmpty
  · rw [if_pos unframed, if_pos unframed]
    rfl
  · rw [if_neg unframed, if_neg unframed]
    unfold memory
    cases state.machine.heap.memory.arena.allocate size with
    | error fault => rfl
    | ok result => rfl

private theorem depth_pos_of_framed (framed : ¬ state.machine.frames.isEmpty) :
    0 < state.depth := by
  unfold depth Machine.depth
  rw [state.machine.frames.depth_eq]
  refine List.length_pos_iff.mpr fun empty => framed ?_
  unfold FrameStack.isEmpty
  rw [empty]
  rfl

private theorem Settled.region_of_spans_watermark (settled : state.Settled)
    (framed : ¬ state.machine.frames.isEmpty = true) {size reserved position : Nat}
    (spanned : (Table.inArena ⟨state.memory.arena.watermark, size⟩ reserved).Spans position) :
    state.machine.bounds.Region state.depth position := by
  have innermost := depth_pos_of_framed framed
  rw [← length_marks settled] at innermost ⊢
  refine Bounds.region_of_floor_le innermost ?_
  exact Nat.le_trans settled.orderly.inRange.floor_le (Table.spans_inArena.mp spanned).1

theorem Settled.allocateTable (settled : state.Settled) (size : Nat) :
    (state.step (.allocateTable size)).Settled ∧
      ∀ other : Key, other ≠ .entry state.entries.length →
        state.Stays other (fun _ => False) (state.step (.allocateTable size)) := by
  have fits : Table.empty.Fits state.memory :=
    ⟨fun spanned => (Table.not_spans_onHeap spanned).elim, nofun, nofun, nofun, nofun, nofun⟩
  rw [step_allocateTable]
  split
  next unframed =>
    obtain ⟨added, changed⟩ := settled.add (.refl False.elim settled.clean fits)
      Table.not_spans_onHeap (.refl _)
      (fun spanned => (Table.not_spans_onHeap spanned).elim) fun _ => rfl
    exact ⟨added, fun other apart => changed.stays settled apart⟩
  next framed =>
    split
    next offset arena allocated =>
      have shifts := allocate_shifts allocated
      obtain ⟨rfl, -, rfl⟩ := allocate_eq_ok allocated
      obtain ⟨added, changed⟩ := settled.add (Table.allocate_alters settled.clean size)
        Table.not_spans_onHeap shifts (settled.region_of_spans_watermark framed)
        fun root => absurd root (Nat.ne_of_gt (depth_pos_of_framed framed))
      exact ⟨added, fun other apart => changed.stays settled apart⟩
    next => exact ⟨settled, fun other _ => .refl state other _⟩

/-- A new scope on the heap. -/
theorem Settled.newScope (settled : state.Settled) (scope : Scope) (bare : scope.members = .empty)
    (kind : scope.kind = .basic ∨ scope.kind = .global) :
    (state.onHeap fun heap => (heap.newScope scope).2).Settled ∧
      ∀ other : Key, state.Stays other (fun _ => False)
        (state.onHeap fun heap => (heap.newScope scope).2) := by
  have registered := settled.registered
  have tables : ∀ other : Key,
      (state.onHeap fun heap => (heap.newScope scope).2).tableOf other = state.tableOf other := by
    intro other
    cases other with
    | entry number => rfl
    | scope id =>
        by_cases fresh : id = (state.machine.heap.newScope scope).1
        · have absent : state.machine.heap.scope id = default :=
            Heap.scope_of_size_le (by rw [fresh]; exact Nat.le_refl _)
          refine tableOf_scope_congr rfl ?_
          rw [absent]
          subst fresh
          exact (congrArg Scope.members (Heap.scope_newScope_self state.machine.heap scope)).trans
            bare
        · exact tableOf_scope_congr rfl (congrArg Scope.members (Heap.scope_newScope_ne fresh))
  have stays : ∀ other : Key, state.Stays other (fun _ => False)
      (state.onHeap fun heap => (heap.newScope scope).2) :=
    fun other _ _ found => ⟨tables other ▸ found, fun _ => ⟨rfl, fun _ => rfl⟩⟩
  have scopes : ∀ id : ScopeId, (state.machine.heap.newScope scope).2.scope id = scope ∨
      (state.machine.heap.newScope scope).2.scope id = state.machine.heap.scope id := by
    intro id
    by_cases fresh : id = (state.machine.heap.newScope scope).1
    · exact .inl (fresh ▸ Heap.scope_newScope_self ..)
    · exact .inr (Heap.scope_newScope_ne fresh)
  refine ⟨⟨?_, ⟨registered.nodup, ?_, ?_, ?_⟩, ⟨⟨settled.clean.sound.old,
    settled.clean.sound.distinct⟩, settled.clean.above⟩, ?_, ?_, ?_, settled.entries⟩, stays⟩
  · exact (Machine.Steady.of_heap (.of_eq (Heap.bounds_newScope ..))).orderly settled.orderly
  · intro id member
    exact Nat.lt_of_lt_of_le (registered.old member) (by simp [onHeap, Heap.newScope])
  · intro id
    rcases scopes id with new | old
    · exact (congrArg Scope.kind new) ▸ kind
    · exact (congrArg Scope.kind old) ▸ registered.kinds id
  · intro id unhosted
    rcases scopes id with new | old
    · exact (congrArg Scope.members new) ▸ bare ▸ rfl
    · exact (congrArg Scope.members old) ▸ registered.heaped unhosted
  · exact fun found => settled.fits (tables _ ▸ found)
  · exact fun found => settled.region (tables _ ▸ found)
  · exact fun apart found found' => settled.apart apart (tables _ ▸ found) (tables _ ▸ found')

def enroll (state : Workspace Code) (scope : Scope) : ScopeId × Workspace Code :=
  match state.machine.pool with
  | [] =>
      let (id, heap) := state.machine.heap.newScope scope
      (id, { state with
        machine := { state.machine with heap }.modifyTop fun frame =>
          { frame with blocks := frame.blocks ++ [id] } })
  | id :: rest =>
      (id, { state with
        machine := { state.machine with
          heap := state.machine.heap.setScope id scope
          pool := rest }.modifyTop fun frame =>
            { frame with blocks := frame.blocks ++ [id] } })

private theorem step_allocateBlock (state : Workspace Code) (previous : ScopeId) (index : Index) :
    state.step (.allocateBlock previous index) =
      if index.captures || state.machine.frames.isEmpty then
        state.onHeap fun heap => (heap.newScope (.onHeap (some previous) index .basic)).2
      else match state.memory.arena.allocate index.size with
        | .ok (offset, arena) =>
            ((state.withMemory { state.memory with arena }).enroll
              ⟨some previous, index, .inArena ⟨offset, index.size⟩ 0, .basic, true⟩).2
        | .error _ => state := by
  unfold step
  dsimp only
  unfold Machine.attempt
  rw [Action.run_allocateBlock, Action.run_allocateTable]
  by_cases plain : (index.captures || state.machine.frames.isEmpty) = true
  · rw [if_pos plain, if_pos plain]
    rfl
  · have framed : ¬ state.machine.frames.isEmpty = true := fun empty => plain (by simp [empty])
    rw [if_neg plain, if_neg plain, if_neg framed]
    unfold memory
    cases state.machine.heap.memory.arena.allocate index.size with
    | error fault => rfl
    | ok result =>
        simp only [Action.run_ofExcept, Action.andThen_ok]
        rw [Action.run_pooledScope]
        unfold enroll withMemory onHeap
        dsimp only
        cases state.machine.pool with
        | nil => rfl
        | cons id rest => rfl

private theorem hostAmong?_append {id other : ScopeId} {top : Frame} {outer : List Frame} :
    hostAmong? other ({ top with blocks := top.blocks ++ [id] } :: outer) =
      if other = id then some (outer.length + 1) else hostAmong? other (top :: outer) := by
  unfold hostAmong?
  by_cases same : other = id
  · simp [same]
  · simp [same]

structure Enrolls (machine : Machine Code) (scope : Scope) (id : ScopeId)
    (machine' : Machine Code) : Prop where
  memory : machine'.heap.memory = machine.heap.memory
  limits : machine'.limits = machine.limits
  self : machine'.heap.scope id = scope
  others : ∀ {other : ScopeId}, other ≠ id → machine'.heap.scope other = machine.heap.scope other
  size : machine.heap.scopes.size ≤ machine'.heap.scopes.size
  old : id.index < machine'.heap.scopes.size
  pool : machine.pool = machine'.pool ∧ machine.heap.scopes.size ≤ id.index ∨
    machine.pool = id :: machine'.pool
  frames : machine'.frames = machine.frames.modifyTop fun frame =>
    { frame with blocks := frame.blocks ++ [id] }

private theorem enroll_enrolls (registered : state.machine.Registered) (scope : Scope) :
    Enrolls state.machine scope (state.enroll scope).1 (state.enroll scope).2.machine ∧
      (state.enroll scope).2.entries = state.entries := by
  unfold enroll
  cases pooled : state.machine.pool with
  | nil =>
      refine ⟨⟨rfl, rfl, Heap.scope_newScope_self .., Heap.scope_newScope_ne, ?_, ?_,
        .inl ⟨rfl, Nat.le_refl _⟩, rfl⟩, rfl⟩
      · simp [Machine.modifyTop, Heap.newScope]
      · simp [Machine.modifyTop, Heap.newScope]
  | cons id rest =>
      have old : id.index < state.machine.heap.scopes.size :=
        registered.old (by rw [pooled]; exact List.mem_cons_self)
      refine ⟨⟨rfl, rfl, Heap.scope_modifyScope_self old _,
        fun apart => Heap.scope_modifyScope_ne apart _ _, ?_, ?_, .inr pooled, rfl⟩, rfl⟩
      · exact Nat.le_of_eq (Heap.size_modifyScope ..).symm
      · exact Nat.lt_of_lt_of_eq old (Heap.size_modifyScope ..).symm

theorem pushBlock_eq (stack : FrameStack) (framed : ¬ stack.isEmpty = true) :
    ∃ top outer, stack.toList = top :: outer ∧ ∀ id : ScopeId,
      (stack.modifyTop fun frame => { frame with blocks := frame.blocks ++ [id] }).toList =
        { top with blocks := top.blocks ++ [id] } :: outer := by
  obtain ⟨frames, depth, depth_eq⟩ := stack
  cases frames with
  | nil => exact absurd rfl framed
  | cons top outer => exact ⟨top, outer, rfl, fun _ => rfl⟩

private theorem Enrolls.registered {machine machine' : Machine Code} {scope : Scope} {id : ScopeId}
    (enrolls : Enrolls machine scope id machine') (registered : machine.Registered)
    (kind : scope.kind = .basic) (framed : ¬ machine.frames.isEmpty = true) :
    machine'.Registered ∧ hostAmong? id machine.frames.toList = none ∧
      ∀ other : ScopeId, hostAmong? other machine'.frames.toList =
        if other = id then some machine.depth
        else hostAmong? other machine.frames.toList := by
  have unhosted : id ∉ machine.frames.blocks := by
    intro member
    rcases enrolls.pool with ⟨-, fresh⟩ | taken
    · exact Nat.not_lt_of_le fresh (registered.old (List.mem_append_right _ member))
    · have nodup := registered.nodup
      rw [taken] at nodup
      exact (List.nodup_cons.mp nodup).1 (List.mem_append_right _ member)
  obtain ⟨top, outer, shape, pushed⟩ := pushBlock_eq machine.frames framed
  have pushed := pushed id
  rw [← enrolls.frames] at pushed
  have hosts : ∀ other : ScopeId, hostAmong? other machine'.frames.toList =
      if other = id then some machine.depth else hostAmong? other machine.frames.toList := by
    intro other
    rw [pushed, shape, hostAmong?_append, Machine.depth, machine.frames.depth_eq, shape]
    rfl
  have rearranged : (machine'.pool ++ machine'.frames.blocks).Perm
      (id :: (machine'.pool ++ machine.frames.blocks)) := by
    unfold FrameStack.blocks
    rw [pushed, shape]
    simp only [List.flatMap_cons, List.append_assoc]
    rw [← List.append_assoc]
    refine List.perm_middle.trans ?_
    rw [List.append_assoc]
    exact .refl _
  have sizes : ∀ {other : ScopeId}, other ∈ machine'.pool ++ machine.frames.blocks →
      other ∈ machine.pool ++ machine.frames.blocks := by
    intro other member
    rcases enrolls.pool with ⟨same, -⟩ | taken
    · exact same ▸ member
    · rw [taken]
      exact List.mem_cons_of_mem _ member
  refine ⟨⟨?_, ?_, ?_, ?_⟩, hostAmong?_eq_none.mpr unhosted, hosts⟩
  · refine rearranged.nodup_iff.mpr ?_
    rcases enrolls.pool with ⟨same, fresh⟩ | taken
    · refine List.nodup_cons.mpr ⟨fun member => ?_, same ▸ registered.nodup⟩
      exact Nat.not_lt_of_le fresh (registered.old (sizes member))
    · have nodup := registered.nodup
      rw [taken] at nodup
      exact nodup
  · intro other member
    rcases List.mem_cons.mp (rearranged.mem_iff.mp member) with same | earlier
    · exact same ▸ enrolls.old
    · exact Nat.lt_of_lt_of_le (registered.old (sizes earlier)) enrolls.size
  · intro other
    by_cases same : other = id
    · rw [same, enrolls.self]
      exact .inl kind
    · rw [enrolls.others same]
      exact registered.kinds other
  · intro other unhosted
    rw [hosts] at unhosted
    split at unhosted
    next => cases unhosted
    next apart =>
      rw [enrolls.others apart]
      exact registered.heaped unhosted

/-- A block of the innermost frame, with the members that it begins with. -/
private theorem Settled.enroll (settled : state.Settled) (scope : Scope) {memory' : Memory}
    (kind : scope.kind = .basic) (framed : ¬ state.machine.frames.isEmpty = true)
    (alters : Table.empty.Alters (fun _ => False) state.memory scope.members memory')
    (shifts : state.memory.bounds.Shifts memory'.bounds)
    (region : ∀ {position : Nat}, scope.members.Spans position →
      state.machine.bounds.Region state.depth position) :
    ((state.withMemory memory').enroll scope).2.Settled ∧ ∃ id, state.host? id = none ∧
      state.Changes (.scope id) .empty scope.members (fun _ => False)
        ((state.withMemory memory').enroll scope).2 := by
  have registered : (state.withMemory memory').machine.Registered :=
    ⟨settled.registered.nodup, settled.registered.old, settled.registered.kinds,
      settled.registered.heaped⟩
  obtain ⟨enrolls, entries⟩ := enroll_enrolls registered scope
  generalize (state.withMemory memory').enroll scope = result at enrolls entries ⊢
  obtain ⟨id, state'⟩ := result
  dsimp only at enrolls entries ⊢
  obtain ⟨registered', unhosted, hosts⟩ := enrolls.registered registered kind framed
  have memories : state'.memory = memory' := enrolls.memory
  have steady : state.machine.Steady state'.machine := by
    have bounds : state'.machine.bounds = memory'.bounds := congrArg Memory.bounds memories
    refine ⟨?_, bounds ▸ shifts, enrolls.limits⟩
    rw [enrolls.frames]
    apply FrameStack.marks_modifyTop
    exact fun _ => rfl
  have entries' : ∀ number, state'.entryAt? number = state.entryAt? number := by
    intro number
    unfold entryAt?
    rw [entries]
    rfl
  have changes : state.Changes (.scope id) .empty scope.members (fun _ => False) state' := by
    refine ⟨memories ▸ alters, fun _ _ spanned => (Table.not_spans_onHeap spanned).elim, ?_, ?_⟩
    · intro other table birth apart found
      cases other with
      | entry number => exact tableOf_entry.mpr (entries' number ▸ tableOf_entry.mp found)
      | scope other =>
          have apart : other ≠ id := fun same => apart (congrArg Key.scope same)
          exact tableOf_scope_congr ((hosts other).trans (if_neg apart))
            (congrArg Scope.members (enrolls.others apart)) ▸ found
    · intro table birth found
      have hosted : state'.host? id = some state.depth := (hosts id).trans (if_pos rfl)
      rcases tableOf_scope.mp found with ⟨host, same⟩ | ⟨unhosted, -⟩
      · rw [hosted] at host
        cases host
        rw [enrolls.self] at same
        subst same
        exact ⟨memories ▸ alters.fits, fun spanned =>
          ⟨spanned, Bounds.region_of_marks steady.bounds.marks (region spanned)⟩⟩
      · rw [hosted] at unhosted
        cases unhosted
  refine ⟨settled.changes changes (steady.orderly settled.orderly) registered' steady.bounds.marks
    ?_, id, unhosted, changes⟩
  intro number entry found
  rw [entries'] at found
  unfold depth
  rw [steady.depth]
  exact settled.entries found

theorem Settled.allocateBlock (settled : state.Settled) (previous : ScopeId) (index : Index) :
    (state.step (.allocateBlock previous index)).Settled ∧
      ∀ other : Key, state.Live other →
        state.Stays other (fun _ => False) (state.step (.allocateBlock previous index)) := by
  rw [step_allocateBlock]
  split
  next =>
    obtain ⟨kept, stays⟩ := settled.newScope (.onHeap (some previous) index .basic) rfl (.inl rfl)
    exact ⟨kept, fun other _ => stays other⟩
  next plain =>
    split
    next offset arena allocated =>
      have framed : ¬ state.machine.frames.isEmpty = true := fun empty => plain (by simp [empty])
      have shifts := allocate_shifts allocated
      obtain ⟨rfl, -, rfl⟩ := allocate_eq_ok allocated
      obtain ⟨enrolled, id, unhosted, changes⟩ := settled.enroll
        ⟨some previous, index, .inArena ⟨state.memory.arena.watermark, index.size⟩ 0, .basic, true⟩
        rfl framed (Table.allocate_alters settled.clean index.size) shifts
        (settled.region_of_spans_watermark framed)
      refine ⟨enrolled, fun other live => changes.stays settled ?_⟩
      rintro rfl
      have hosted : (state.host? id).isSome := live
      rw [unhosted] at hosted
      cases hosted
    next => exact ⟨settled, fun other _ => .refl state other _⟩

end Adding

/-! Work on the members of a scope. -/

section Scopes

variable {state : Workspace Code}

private theorem run_onHeap (shared : CellId → Bool) (work : Table.Work) (cells : Array CellId)
    (reserved : Option Slice) (memory : Memory) :
    ∃ cells' memory', ∀ slice ∈ [reserved, none],
      work.run shared (.onHeap cells slice) memory = (.onHeap cells' slice, memory') := by
  have touched : ∀ slot : Nat, ∃ id cells' memory', ∀ slice ∈ [reserved, none],
      (Table.onHeap cells slice).cellAt slot memory = (id, .onHeap cells' slice, memory') := by
    intro slot
    by_cases below : slot < cells.size
    · exact ⟨_, _, _, fun slice _ => (Table.cellAt_onHeap ..).trans (if_pos below)⟩
    · exact ⟨_, _, _, fun slice _ => (Table.cellAt_onHeap ..).trans (if_neg below)⟩
  have writing : ∀ (slot : Nat) (change : Cell → Cell), ∃ cells' memory',
      ∀ slice ∈ [reserved, none],
        Table.Work.run shared (.write slot change) (.onHeap cells slice) memory =
          (.onHeap cells' slice, memory') := by
    intro slot change
    obtain ⟨id, cells', memory', touched⟩ := touched slot
    exact ⟨cells', memory'.modifyCell id change, fun slice member =>
      congrArg (fun touched => (touched.2.1, touched.2.2.modifyCell touched.1 change))
        (touched slice member)⟩
  cases work with
  | touch slot =>
      obtain ⟨id, cells', memory', touched⟩ := touched slot
      exact ⟨cells', memory', fun slice member => congrArg Prod.snd (touched slice member)⟩
  | write slot change => exact writing slot change
  | push value => exact writing cells.size (·.reset value)
  | ensureCapacity capacity => exact ⟨cells, memory, fun _ _ => rfl⟩
  | truncate length =>
      by_cases short : cells.size ≤ length
      · exact ⟨cells, memory, fun _ _ => if_pos short⟩
      · exact ⟨cells.take length, memory, fun _ _ => if_neg short⟩

private theorem scope_workOnScope (state : Workspace Code) (id other : ScopeId)
    (work : Table.Work) :
    (state.workOnScope id work).machine.heap.scope other = state.machine.heap.scope other ∨
      other = id ∧ (state.workOnScope id work).machine.heap.scope other =
        { state.machine.heap.scope other with
          members := (work.run state.machine.host.shares (state.machine.heap.scope id).members
            state.memory).1 } :=
  Heap.scope_modifyScope_or
    { state.machine.heap with
      memory := (work.run state.machine.host.shares (state.machine.heap.scope id).members
        state.memory).2 } id other fun scope =>
    { scope with
      members := (work.run state.machine.host.shares (state.machine.heap.scope id).members
        state.memory).1 }

/-- The work done on the members of a scope, as work on the table that the scope counts with. -/
theorem tableOf_workOnScope (settled : state.Settled) {id : ScopeId} {table : Table} {birth : Nat}
    (found : state.tableOf (.scope id) = some (table, birth)) (work : Table.Work) :
    (state.workOnScope id work).memory =
        (work.run state.machine.host.shares table state.memory).2 ∧
      ∀ held birth', (state.workOnScope id work).tableOf (.scope id) = some (held, birth') →
        birth' = birth ∧
          (held = (work.run state.machine.host.shares table state.memory).1 ∨ held = .empty) := by
  have hosts : (state.workOnScope id work).host? id = state.host? id := rfl
  have members : ((state.workOnScope id work).machine.heap.scope id).members =
      (work.run state.machine.host.shares (state.machine.heap.scope id).members state.memory).1 ∨
      ((state.workOnScope id work).machine.heap.scope id).members = .empty := by
    by_cases old : id.index < state.machine.heap.scopes.size
    · exact .inl (congrArg Scope.members (Heap.scope_modifyScope_self old _))
    · refine .inr (congrArg Scope.members (Heap.scope_of_size_le ?_))
      exact Nat.le_trans (Nat.le_of_eq (Heap.size_modifyScope ..)) (Nat.le_of_not_lt old)
  have memories : (state.workOnScope id work).memory =
      (work.run state.machine.host.shares (state.machine.heap.scope id).members state.memory).2 :=
    rfl
  rw [memories]
  rcases tableOf_scope.mp found with ⟨hosted, rfl⟩ | ⟨unhosted, rfl, rfl⟩
  · refine ⟨rfl, fun held birth' after => ?_⟩
    rcases tableOf_scope.mp after with ⟨hosted', rfl⟩ | ⟨unhosted', -⟩
    · rw [hosts, hosted] at hosted'
      cases hosted'
      exact ⟨rfl, members⟩
    · rw [hosts, hosted] at unhosted'
      cases unhosted'
  · have heaped := settled.registered.heaped unhosted
    generalize (state.machine.heap.scope id).members = table at members heaped ⊢
    cases table with
    | inArena slice length => cases heaped
    | onHeap cells reserved =>
        obtain ⟨cells', memory', ran⟩ :=
          run_onHeap state.machine.host.shares work cells reserved state.memory
        have with_ := ran reserved (by simp)
        have without := ran none (by simp)
        rw [with_] at members ⊢
        change _ = (work.run _ (.onHeap cells none) _).2 ∧ _
        refine ⟨(congrArg Prod.snd without).symm, fun held birth' after => ?_⟩
        rcases tableOf_scope.mp after with ⟨hosted', -⟩ | ⟨-, rfl, rfl⟩
        · rw [hosts, unhosted] at hosted'
          cases hosted'
        · refine ⟨rfl, members.imp (fun same => ?_) fun same => ?_⟩
          · rw [same]
            exact (congrArg Prod.fst without).symm
          · rw [same]
            rfl

theorem Settled.workOnScope (settled : state.Settled) {id : ScopeId} {table : Table} {birth : Nat}
    (found : state.tableOf (.scope id) = some (table, birth)) {work : Table.Work}
    (tame : birth < state.depth → ¬ table.growsInPlace (work.demand table) state.memory) :
    (state.workOnScope id work).Settled ∧
      state.Changes (.scope id) table (work.run state.machine.host.shares table state.memory).1
        (fun other => work.written? table state.memory = some other ∧
          other ∈ (work.run state.machine.host.shares table state.memory).1.heapCells)
        (state.workOnScope id work) := by
  obtain ⟨memories, own⟩ := tableOf_workOnScope settled found work
  have fits := settled.fits found
  have alters := Table.Work.run_alters state.machine.host.shares settled.clean fits work
  have shifts : state.memory.bounds.Shifts (state.workOnScope id work).memory.bounds :=
    Table.Work.run_shifts ..
  have registered := settled.registered
  have steady : state.machine.Steady (state.workOnScope id work).machine := .of_heap shifts
  have scopes : ∀ other : ScopeId, other ≠ id →
      (state.workOnScope id work).machine.heap.scope other = state.machine.heap.scope other :=
    fun other apart => Heap.scope_modifyScope_ne apart _ _
  have changes : state.Changes (.scope id) table
      (work.run state.machine.host.shares table state.memory).1
      (fun other => work.written? table state.memory = some other ∧
        other ∈ (work.run state.machine.host.shares table state.memory).1.heapCells)
      (state.workOnScope id work) := by
    refine ⟨memories ▸ alters, fun apart held spanned =>
      settled.apart (Ne.symm apart) found held spanned, ?_, ?_⟩
    · intro other held birth' apart after
      cases other with
      | entry number => exact after
      | scope other =>
          have different : other ≠ id := fun same => apart (congrArg Key.scope same)
          have same : (state.workOnScope id work).tableOf (.scope other) =
              state.tableOf (.scope other) :=
            tableOf_scope_congr rfl (congrArg Scope.members (scopes other different))
          exact same ▸ after
    · intro held birth' after
      obtain ⟨rfl, same | bare⟩ := own held birth' after
      · subst same
        exact ⟨memories ▸ alters.fits, fun spanned => ⟨spanned,
          Bounds.region_of_marks shifts.marks (region_run settled found _ tame spanned)⟩⟩
      · subst bare
        exact ⟨⟨fun spanned => (Table.not_spans_onHeap spanned).elim, nofun, nofun, nofun, nofun,
          nofun⟩, fun spanned => (Table.not_spans_onHeap spanned).elim⟩
  refine ⟨settled.changes changes (steady.orderly settled.orderly) ⟨registered.nodup, ?_, ?_, ?_⟩
    shifts.marks ?_, changes⟩
  · intro other member
    exact Nat.lt_of_lt_of_eq (registered.old member) (Heap.size_modifyScope ..).symm
  · intro other
    rcases scope_workOnScope state id other work with same | ⟨-, same⟩
    · rw [same]
      exact registered.kinds other
    · rw [same]
      exact registered.kinds other
  · intro other unhosted
    rcases scope_workOnScope state id other work with same | ⟨rfl, same⟩
    · rw [same]
      exact registered.heaped unhosted
    · rw [same]
      exact Table.Work.isArena_run _ (registered.heaped unhosted)
  · exact fun held => settled.entries held

/-- A change of a scope that spares its members. -/
theorem Settled.modifyScope (settled : state.Settled) (id : ScopeId) {change : Scope → Scope}
    (members : ∀ scope, (change scope).members = scope.members)
    (kind : ∀ scope, (change scope).kind = scope.kind) :
    (state.onHeap (·.modifyScope id change)).Settled ∧
      ∀ key, (state.onHeap (·.modifyScope id change)).tableOf key = state.tableOf key := by
  have registered := settled.registered
  have scopes : ∀ other : ScopeId,
      ((state.machine.heap.modifyScope id change).scope other).members =
          (state.machine.heap.scope other).members ∧
        ((state.machine.heap.modifyScope id change).scope other).kind =
          (state.machine.heap.scope other).kind := by
    intro other
    rcases Heap.scope_modifyScope_or state.machine.heap id other change with same | ⟨-, same⟩
    · rw [same]
      exact ⟨rfl, rfl⟩
    · rw [same]
      exact ⟨members _, kind _⟩
  have tables : ∀ key, (state.onHeap (·.modifyScope id change)).tableOf key =
      state.tableOf key := by
    intro key
    cases key with
    | entry number => rfl
    | scope other => exact tableOf_scope_congr rfl (scopes other).1
  refine ⟨⟨?_, ⟨registered.nodup, ?_, ?_, ?_⟩, ⟨⟨settled.clean.sound.old,
    settled.clean.sound.distinct⟩, settled.clean.above⟩, ?_, ?_, ?_, settled.entries⟩, tables⟩
  · exact (Machine.Steady.of_heap (.of_eq (Heap.bounds_modifyScope ..))).orderly settled.orderly
  · intro other member
    exact Nat.lt_of_lt_of_eq (registered.old member) (Heap.size_modifyScope ..).symm
  · exact fun other => (scopes other).2 ▸ registered.kinds other
  · exact fun {other} unhosted => (scopes other).1 ▸ registered.heaped unhosted
  · exact fun found => settled.fits (tables _ ▸ found)
  · exact fun found => settled.region (tables _ ▸ found)
  · exact fun apart found found' => settled.apart apart (tables _ ▸ found) (tables _ ▸ found')

def placement (state : Workspace Code) (id : ScopeId) (name : String) (permission : Permission) :
    Nat × Index :=
  (state.machine.heap.scope id).index.insert name permission

theorem step_createMember (registered : state.machine.Registered) (id : ScopeId) (name : String)
    (permission : Permission) :
    state.step (.createMember id name permission) =
      (state.onHeap (·.modifyScope id fun scope =>
          { scope with index := (state.placement id name permission).2 })).workOnScope id
        (.write (state.placement id name permission).1 (·.declare permission)) := by
  change { state with
    machine := { state.machine with
      heap := (state.machine.heap.createMember id name permission).2 } } = _
  unfold Heap.createMember
  rw [registered.landing]
  unfold workOnScope Table.Work.run onHeap Heap.slotCell Heap.modifyCell
  dsimp only
  rfl

theorem Settled.createMember (settled : state.Settled) {id : ScopeId} {name : String}
    {permission : Permission} {table : Table} {birth : Nat}
    (found : state.tableOf (.scope id) = some (table, birth))
    (tame : birth < state.depth →
      ¬ table.growsInPlace
        (Table.Work.demand (.write (state.placement id name permission).1
          (·.declare permission)) table) state.memory) :
    (state.step (.createMember id name permission)).Settled ∧
      state.Changes (.scope id) table
        (Table.Work.run state.machine.host.shares
          (.write (state.placement id name permission).1 (·.declare permission)) table
          state.memory).1
        (fun other => Table.Work.written?
            (.write (state.placement id name permission).1 (·.declare permission)) table
            state.memory = some other ∧
          other ∈ (Table.Work.run state.machine.host.shares
            (.write (state.placement id name permission).1 (·.declare permission)) table
            state.memory).1.heapCells)
        (state.step (.createMember id name permission)) := by
  rw [step_createMember settled.registered]
  generalize Table.Work.write (state.placement id name permission).1 (·.declare permission) =
    work at tame ⊢
  have change : ∀ scope : Scope,
      { scope with index := (state.placement id name permission).2 }.members = scope.members :=
    fun _ => rfl
  obtain ⟨renamed, tables⟩ := settled.modifyScope id change fun _ => rfl
  obtain ⟨worked, changes⟩ := renamed.workOnScope ((tables _).trans found) tame
  refine ⟨worked, changes.alters, ?_, ?_, changes.own⟩
  · exact fun apart held => changes.apart apart ((tables _).trans held)
  · exact fun apart held => (tables _).symm.trans (changes.others apart held)

end Scopes

end Workspace

end ScopeMachine
