import ScopeMachine.Proofs.Frames.Balance
import ScopeMachine.Proofs.Frames.Regions
import ScopeMachine.Proofs.Frames.Work
import ScopeMachine.Proofs.Frames.Workspace
import ScopeMachine.Proofs.Storage.ScopesById

namespace ScopeMachine

open Arena

/-- Block scopes of the open frames. -/
def FrameStack.blocks (stack : FrameStack) : List ScopeId :=
  stack.toList.flatMap (·.blocks)

theorem hostAmong?_eq_none {id : ScopeId} {frames : List Frame} :
    hostAmong? id frames = none ↔ id ∉ frames.flatMap (·.blocks) := by
  induction frames with
  | nil => simp [hostAmong?]
  | cons top outer induction =>
      unfold hostAmong?
      rw [List.flatMap_cons, List.mem_append, not_or, ← induction]
      by_cases member : id ∈ top.blocks <;> simp [member]

theorem hostAmong?_le {id : ScopeId} {frames : List Frame} {depth : Nat}
    (hosted : hostAmong? id frames = some depth) : 0 < depth ∧ depth ≤ frames.length := by
  induction frames with
  | nil => cases hosted
  | cons top outer induction =>
      unfold hostAmong? at hosted
      split at hosted
      next => cases hosted; exact ⟨Nat.succ_pos _, Nat.le_refl _⟩
      next =>
        have inner := induction hosted
        exact ⟨inner.1, Nat.le_succ_of_le inner.2⟩

namespace Machine

variable {Code : Type}

/-- The block scopes of the open frames and the scopes in the pool are all different, every scope is
a block or a global scope, and only blocks of open frames have slices. -/
structure Registered (machine : Machine Code) : Prop where
  nodup : (machine.pool ++ machine.frames.blocks).Nodup
  old : ∀ {id : ScopeId}, id ∈ machine.pool ++ machine.frames.blocks →
    id.index < machine.heap.scopes.size
  kinds : ∀ id : ScopeId, (machine.heap.scope id).kind = .basic ∨
    (machine.heap.scope id).kind = .global
  heaped : ∀ {id : ScopeId}, hostAmong? id machine.frames.toList = none →
    (machine.heap.scope id).members.isArena = false

theorem Registered.landing {machine : Machine Code} (registered : machine.Registered)
    (permission : Permission) (id : ScopeId) :
    machine.heap.landing permission id = id := by
  unfold Heap.landing
  cases machine.heap.scopes.size with
  | zero => rfl
  | succ budget =>
      unfold Heap.landingWithin
      dsimp only
      rcases registered.kinds id with basic | global
      · rw [basic]
      · rw [global]

end Machine

namespace Workspace

variable {Code : Type}

/-- The tables that are in use: those at hand and the members of the block scopes of open
frames. -/
def Live (state : Workspace Code) : Key → Prop
  | .entry _ => True
  | .scope id => (state.host? id).isSome

/-- Every live table has its slice inside the region of its own frame and below the watermark, and
no slot in common with another live table. -/
structure Integrity (state : Workspace Code) : Prop where
  inside : ∀ {key : Key} {slice : Slice} {length birth position : Nat}, state.Live key →
    state.tableOf key = some (.inArena slice length, birth) →
    Memory.Between slice.offset slice.capacity position →
    state.machine.bounds.Region birth position ∧ position < state.machine.watermark
  disjoint : ∀ {key key' : Key} {slice slice' : Slice} {length length' birth birth' position : Nat},
    state.Live key → state.Live key' → key ≠ key' →
    state.tableOf key = some (.inArena slice length, birth) →
    state.tableOf key' = some (.inArena slice' length', birth') →
    Memory.Between slice.offset slice.capacity position →
    ¬ Memory.Between slice'.offset slice'.capacity position

/-- What holds of every workspace whose tables have kept to their frames. -/
structure Settled (state : Workspace Code) : Prop where
  orderly : state.machine.Orderly
  registered : state.machine.Registered
  clean : state.memory.Clean
  fits : ∀ {key : Key} {table : Table} {birth : Nat}, state.tableOf key = some (table, birth) →
    table.Fits state.memory
  region : ∀ {key : Key} {table : Table} {birth position : Nat},
    state.tableOf key = some (table, birth) → table.Spans position →
    state.machine.bounds.Region birth position
  apart : ∀ {key key' : Key} {table table' : Table} {birth birth' position : Nat},
    key ≠ key' → state.tableOf key = some (table, birth) →
    state.tableOf key' = some (table', birth') → table.Spans position → ¬ table'.Spans position
  entries : ∀ {number : Nat} {entry : Entry}, state.entryAt? number = some entry →
    entry.birth ≤ state.depth ∧ (entry.birth = 0 → entry.table.isArena = false)

theorem Settled.integrity {state : Workspace Code} (settled : state.Settled) : state.Integrity where
  inside _ held within :=
    have spanned := Table.spans_inArena.mpr within
    ⟨settled.region held spanned, (settled.fits held).within spanned⟩
  disjoint _ _ apart held held' within within' :=
    settled.apart apart held held' (Table.spans_inArena.mpr within)
      (Table.spans_inArena.mpr within')

/-- One table has changed; all others are as they were. -/
structure Changes (state : Workspace Code) (key : Key) (table table' : Table)
    (written : CellId → Prop) (state' : Workspace Code) : Prop where
  alters : table.Alters written state.memory table' state'.memory
  apart : ∀ {other : Key} {held : Table} {birth position : Nat}, other ≠ key →
    state.tableOf other = some (held, birth) → table.Spans position → ¬ held.Spans position
  others : ∀ {other : Key} {held : Table} {birth : Nat}, other ≠ key →
    state'.tableOf other = some (held, birth) → state.tableOf other = some (held, birth)
  own : ∀ {held : Table} {birth : Nat}, state'.tableOf key = some (held, birth) →
    held.Fits state'.memory ∧ ∀ {position : Nat}, held.Spans position →
      table'.Spans position ∧ state'.machine.bounds.Region birth position

theorem Settled.changes {state state' : Workspace Code} {key : Key} {table table' : Table}
    {written : CellId → Prop} (settled : state.Settled)
    (changes : state.Changes key table table' written state')
    (orderly : state'.machine.Orderly) (registered : state'.machine.Registered)
    (marks : state'.machine.bounds.marks = state.machine.bounds.marks)
    (entries : ∀ {number : Nat} {entry : Entry}, state'.entryAt? number = some entry →
      entry.birth ≤ state'.depth ∧ (entry.birth = 0 → entry.table.isArena = false)) :
    state'.Settled := by
  have away : ∀ {other : Key} {held : Table} {birth position : Nat}, other ≠ key →
      state'.tableOf other = some (held, birth) → table'.Spans position →
      ¬ held.Spans position := by
    intro other held birth position apart found spanned taken
    have before := changes.others apart found
    rcases changes.alters.spans spanned with ours | above
    · exact changes.apart apart before ours taken
    · exact Nat.not_lt_of_le above ((settled.fits before).within taken)
  refine ⟨orderly, registered, changes.alters.clean, ?_, ?_, ?_, entries⟩
  · intro other held birth found
    by_cases same : other = key
    · subst same
      exact (changes.own found).1
    · have before := changes.others same found
      exact changes.alters.fits_other settled.clean.sound (settled.fits before)
        fun spanned => changes.apart same before spanned
  · intro other held birth position found spanned
    by_cases same : other = key
    · subst same
      exact ((changes.own found).2 spanned).2
    · exact Bounds.region_of_marks marks (settled.region (changes.others same found) spanned)
  · intro first second held held' birth birth' position apart found found' spanned spanned'
    by_cases same : first = key
    · subst same
      exact away (Ne.symm apart) found' ((changes.own found).2 spanned).1 spanned'
    · by_cases same' : second = key
      · subst same'
        exact away apart found ((changes.own found').2 spanned').1 spanned
      · exact settled.apart apart (changes.others same found) (changes.others same' found') spanned
          spanned'

/-- A table with its cells and their contents, but for the written ones, as it was. -/
def Stays (state : Workspace Code) (key : Key) (written : CellId → Prop) (state' : Workspace Code) :
    Prop :=
  ∀ (table : Table) (birth : Nat), state'.tableOf key = some (table, birth) →
    state.tableOf key = some (table, birth) ∧
      ∀ slot : Nat, table.cell? slot state'.memory = table.cell? slot state.memory ∧
        ((∀ {id : CellId}, table.cell? slot state.memory = some id → ¬ written id) →
          table.content slot state'.memory = table.content slot state.memory)

theorem Changes.stays {state state' : Workspace Code} {key other : Key} {table table' : Table}
    {written : CellId → Prop} (settled : state.Settled)
    (changes : state.Changes key table table' written state') (apart : other ≠ key) :
    state.Stays other written state' := by
  intro held birth found
  have before := changes.others apart found
  have separate := fun {position : Nat} (spanned : table.Spans position) =>
    changes.apart apart before spanned
  exact ⟨before, fun slot =>
    ⟨changes.alters.cell?_other (settled.fits before) separate slot,
      changes.alters.content_other settled.clean.sound (settled.fits before) separate⟩⟩

theorem Stays.trans {first second third : Workspace Code} {key : Key}
    (left : first.Stays key (fun _ => False) second)
    (right : second.Stays key (fun _ => False) third) :
    first.Stays key (fun _ => False) third := by
  intro table birth found
  obtain ⟨middle, later⟩ := right table birth found
  obtain ⟨before, earlier⟩ := left table birth middle
  refine ⟨before, fun slot => ⟨(later slot).1.trans (earlier slot).1, fun _ => ?_⟩⟩
  exact ((later slot).2 fun _ => id).trans ((earlier slot).2 fun _ => id)

theorem Stays.refl (state : Workspace Code) (key : Key) (written : CellId → Prop) :
    state.Stays key written state :=
  fun _ _ found => ⟨found, fun _ => ⟨rfl, fun _ => rfl⟩⟩

structure Narrows (state state' : Workspace Code) : Prop where
  memory : ∃ marks, state'.memory =
    { state.memory with arena := { state.memory.arena with marks } }
  tables : ∀ {key : Key} {table : Table} {birth : Nat}, state'.tableOf key = some (table, birth) →
    state.tableOf key = some (table, birth)

theorem Narrows.stays {state state' : Workspace Code} (narrows : state.Narrows state') (key : Key) :
    state.Stays key (fun _ => False) state' := by
  obtain ⟨marks, memory⟩ := narrows.memory
  intro table birth found
  refine ⟨narrows.tables found, fun slot => ?_⟩
  rw [memory]
  cases table <;> exact ⟨rfl, fun _ => rfl⟩

theorem Narrows.settled {state state' : Workspace Code} (narrows : state.Narrows state')
    (settled : state.Settled) (orderly : state'.machine.Orderly)
    (registered : state'.machine.Registered)
    (region : ∀ {key : Key} {table : Table} {birth position : Nat},
      state'.tableOf key = some (table, birth) → table.Spans position →
      state.machine.bounds.Region birth position → state'.machine.bounds.Region birth position)
    (entries : ∀ {number : Nat} {entry : Entry}, state'.entryAt? number = some entry →
      entry.birth ≤ state'.depth ∧ (entry.birth = 0 → entry.table.isArena = false)) :
    state'.Settled := by
  obtain ⟨marks, memory⟩ := narrows.memory
  refine ⟨orderly, registered, ?_, fun found => ?_, fun found spanned => ?_,
    fun apart found found' => settled.apart apart (narrows.tables found) (narrows.tables found'),
    entries⟩
  · rw [memory]
    exact ⟨⟨settled.clean.sound.old, settled.clean.sound.distinct⟩, settled.clean.above⟩
  · have fits := settled.fits (narrows.tables found)
    rw [memory]
    exact ⟨fits.within, fits.room, fits.rest, fits.old, fits.unnamed, fits.distinct⟩
  · exact region found spanned (settled.region (narrows.tables found) spanned)

theorem entryAt?_setEntry_self {state : Workspace Code} {number : Nat} {entry : Entry}
    (held : state.entryAt? number = some entry) (content : Option Entry) :
    (state.setEntry number content).entryAt? number = content := by
  have below : number < state.entries.length := by
    refine Nat.lt_of_not_le fun beyond => ?_
    simp [entryAt?, List.getElem?_eq_none beyond] at held
  simp [entryAt?, setEntry, below]

theorem entryAt?_setEntry_ne {number other : Nat} (apart : other ≠ number) (state : Workspace Code)
    (content : Option Entry) :
    (state.setEntry number content).entryAt? other = state.entryAt? other := by
  simp [entryAt?, setEntry, Ne.symm apart]

theorem entryAt?_addEntry {state : Workspace Code} {table : Table} {number : Nat} {entry : Entry}
    (held : (state.addEntry table).entryAt? number = some entry) :
    state.entryAt? number = some entry ∨
      number = state.entries.length ∧ entry = ⟨table, state.depth⟩ := by
  unfold entryAt? addEntry at held
  dsimp only at held
  rw [List.getElem?_append] at held
  split at held
  next => exact .inl held
  next beyond =>
    by_cases last : number = state.entries.length
    · subst last
      simp at held
      exact .inr ⟨rfl, held.symm⟩
    · rw [List.getElem?_eq_none (by simp; omega)] at held
      cases held

theorem tableOf_entry {state : Workspace Code} {number birth : Nat} {table : Table} :
    state.tableOf (.entry number) = some (table, birth) ↔
      state.entryAt? number = some ⟨table, birth⟩ := by
  unfold tableOf
  constructor
  · intro found
    obtain ⟨entry, held, same⟩ := Option.map_eq_some_iff.mp found
    cases same
    exact held
  · exact fun held => congrArg (Option.map fun entry => (entry.table, entry.birth)) held

/-- The members of a scope that an open frame hosts count with their slice, any others without. -/
theorem tableOf_scope {state : Workspace Code} {id : ScopeId} {table : Table} {birth : Nat} :
    state.tableOf (.scope id) = some (table, birth) ↔
      state.host? id = some birth ∧ table = (state.machine.heap.scope id).members ∨
        state.host? id = none ∧ birth = 0 ∧
          table = .onHeap (state.machine.heap.scope id).members.heapCells none := by
  unfold tableOf
  dsimp only
  cases state.host? id with
  | some host => simp [eq_comm, and_comm]
  | none => simp [eq_comm, and_comm]

theorem ne_of_tableOf {state : Workspace Code} {key : Key} {held : Table × Nat}
    (found : state.tableOf key = some held) : key ≠ .entry state.entries.length := by
  rintro rfl
  have absent := tableOf_entry.mp found
  simp [entryAt?] at absent

theorem tableOf_scope_congr {state state' : Workspace Code} {id : ScopeId}
    (hosts : state'.host? id = state.host? id)
    (members : (state'.machine.heap.scope id).members = (state.machine.heap.scope id).members) :
    state'.tableOf (.scope id) = state.tableOf (.scope id) := by
  unfold tableOf
  dsimp only
  rw [hosts, members]

theorem length_marks {state : Workspace Code} (settled : state.Settled) :
    state.machine.bounds.marks.length = state.depth := by
  rw [settled.orderly.marks]
  exact (FrameStack.depth_eq_length_marks _).symm

theorem birth_le {state : Workspace Code} (settled : state.Settled) {key : Key} {table : Table}
    {birth : Nat} (found : state.tableOf key = some (table, birth)) :
    birth ≤ state.depth ∧ (birth = 0 → table.isArena = false) := by
  cases key with
  | entry number => exact settled.entries (tableOf_entry.mp found)
  | scope id =>
      rcases tableOf_scope.mp found with ⟨hosted, rfl⟩ | ⟨-, rfl, rfl⟩
      · have bounded := hostAmong?_le hosted
        rw [← state.machine.frames.depth_eq] at bounded
        exact ⟨bounded.2, fun none => absurd bounded.1 (by omega)⟩
      · exact ⟨Nat.zero_le _, fun _ => rfl⟩

theorem region_run {state : Workspace Code} (settled : state.Settled) {key : Key} {table : Table}
    {birth : Nat} (found : state.tableOf key = some (table, birth)) (shared : CellId → Bool)
    {work : Table.Work}
    (tame : birth < state.depth → ¬ table.growsInPlace (work.demand table) state.memory)
    {position : Nat} (spanned : (work.run shared table state.memory).1.Spans position) :
    state.machine.bounds.Region birth position := by
  have depth_eq := length_marks settled
  obtain ⟨bounded, rooted⟩ := birth_le settled found
  by_cases inner : birth < state.depth
  · exact settled.region found (Table.Work.spans_run shared (tame inner) spanned)
  · have innermost : birth = state.depth := by omega
    rcases (Table.Work.run_alters shared settled.clean (settled.fits found) work).spans spanned
      with ours | above
    · exact settled.region found ours
    · subst innermost
      by_cases framed : 0 < state.depth
      · rw [← depth_eq]
        refine Bounds.region_of_floor_le (depth_eq ▸ framed) ?_
        exact Nat.le_trans settled.orderly.inRange.floor_le above
      · have heaped := rooted (by omega)
        cases table with
        | inArena slice length => cases heaped
        | onHeap cells reserved =>
            have still : ¬ (Table.onHeap cells reserved).growsInPlace
                (work.demand (.onHeap cells reserved)) state.memory := Bool.false_ne_true
            exact settled.region found (Table.Work.spans_run shared still spanned)

end Workspace

end ScopeMachine
