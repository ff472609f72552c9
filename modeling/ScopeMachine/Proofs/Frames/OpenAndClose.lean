import ScopeMachine.Proofs.Frames.Moves

namespace ScopeMachine

open Arena

namespace Workspace

variable {Code : Type}

/-! Opening and closing frames. -/

section Framing

variable {state : Workspace Code}

theorem Settled.keep (settled : state.Settled) (change : Host → Host) :
    (state.step (.keep change)).Settled ∧
      ∀ key, state.Stays key (fun _ => False) (state.step (.keep change)) := by
  have narrows : state.Narrows (state.step (.keep change)) :=
    ⟨⟨_, rfl⟩, fun {key _ _} found => by cases key <;> exact found⟩
  have orderly := settled.orderly
  have registered := settled.registered
  exact ⟨narrows.settled settled
    ⟨orderly.marks, orderly.sorted, orderly.inRange, orderly.capacity, orderly.depth_le⟩
    ⟨registered.nodup, registered.old, registered.kinds, registered.heaped⟩
    (fun _ _ region => region) settled.entries, narrows.stays⟩

theorem Settled.openFrame (settled : state.Settled)
    (room : state.depth < state.machine.limits.maxDepth) (id file : String) (scope : ScopeId) :
    Settled { state with machine := state.machine.openFrame id file scope } ∧
      ∀ key, state.Stays key (fun _ => False)
        { state with machine := state.machine.openFrame id file scope } := by
  have registered := settled.registered
  have hosts : ∀ other : ScopeId,
      hostAmong? other (state.machine.openFrame id file scope).frames.toList =
        hostAmong? other state.machine.frames.toList := fun _ => if_neg Bool.false_ne_true
  have tables : ∀ key,
      tableOf { state with machine := state.machine.openFrame id file scope } key =
        state.tableOf key := by
    intro key
    cases key with
    | entry number => rfl
    | scope other => exact tableOf_scope_congr (hosts other) rfl
  have narrows : state.Narrows { state with machine := state.machine.openFrame id file scope } :=
    ⟨⟨_, rfl⟩, fun {key _ _} found => (tables key).symm.trans found⟩
  refine ⟨narrows.settled settled (Machine.openFrame_orderly settled.orderly room id file scope)
    ⟨registered.nodup, registered.old, registered.kinds,
      fun unhosted => registered.heaped (hosts _ ▸ unhosted)⟩ ?_ ?_, narrows.stays⟩
  · intro key table birth position found spanned region
    have before := narrows.tables found
    refine Bounds.region_cons ?_ ((settled.fits before).within spanned) region
    exact Nat.le_trans (birth_le settled before).1 (Nat.le_of_eq (length_marks settled).symm)
  · intro number entry held
    exact ⟨Nat.le_succ_of_le (settled.entries held).1, (settled.entries held).2⟩

def hosting (entries : List (Option Entry)) (top : Frame) (outer : FrameStack)
    (blocks : List ScopeId) (machine : Machine Code) : Workspace Code :=
  ⟨{ machine with frames := outer.push { top with blocks } }, entries⟩

structure Dismisses (machine : Machine Code) (id : ScopeId) (machine' : Machine Code) : Prop where
  limits : machine'.limits = machine.limits
  others : ∀ {other : ScopeId}, other ≠ id → machine'.heap.scope other = machine.heap.scope other
  size : machine'.heap.scopes.size = machine.heap.scopes.size
  pool : machine'.pool = machine.pool ∨ machine'.pool = id :: machine.pool
  kind : (machine'.heap.scope id).kind = .basic ∨
    (machine'.heap.scope id).kind = (machine.heap.scope id).kind
  heaped : (machine'.heap.scope id).members.isArena = false
  shifts : machine.heap.Shifts machine'.heap
  members : ∃ table', (machine.heap.scope id).members.Alters (fun _ => False)
      machine.heap.memory table' machine'.heap.memory ∧
    ((machine'.heap.scope id).members.heapCells = table'.heapCells ∨
      (machine'.heap.scope id).members.heapCells = #[])

private theorem recycle_dismisses {machine : Machine Code} {id : ScopeId}
    (old : id.index < machine.heap.scopes.size) (clean : machine.heap.memory.Clean)
    (fits : (machine.heap.scope id).members.Fits machine.heap.memory) :
    Dismisses machine id (machine.recycle id) := by
  have self : (machine.recycle id).heap.scope id = .vacant (machine.heap.scope id).index :=
    Heap.scope_modifyScope_self old _
  refine ⟨rfl, fun apart => Heap.scope_modifyScope_ne apart _ _, Heap.size_modifyScope .., .inr rfl,
    .inl ?_, ?_, .refl _, _, .refl False.elim clean fits, .inr ?_⟩
  all_goals
    rw [self]
    rfl

private theorem promote_dismisses {machine : Machine Code} {id : ScopeId}
    (old : id.index < machine.heap.scopes.size) (clean : machine.heap.memory.Clean)
    (fits : (machine.heap.scope id).members.Fits machine.heap.memory) :
    Dismisses machine id (machine.promote id) := by
  have carries := Table.copyOut_carries clean fits
  have heaped := Table.isArena_copyOut (machine.heap.scope id).members machine.heap.memory
  have shifts := Table.copyOut_shifts (machine.heap.scope id).members machine.heap.memory
  unfold Machine.promote Heap.detach
  dsimp only
  by_cases inside : (machine.heap.scope id).members.isArena = true
  · rw [if_pos inside]
    have self : ∀ (memory : Memory) (members : Table),
        (({ machine.heap with memory }.modifyScope id fun scope =>
          { scope with members, pooled := false }).scope id) =
        { machine.heap.scope id with members, pooled := false } := by
      intro memory members
      exact Heap.scope_modifyScope_self old _
    refine ⟨rfl, fun apart => Heap.scope_modifyScope_ne apart _ _, Heap.size_modifyScope ..,
      .inl rfl, .inr ?_, ?_, shifts, _, carries.toAlters, .inl ?_⟩
    · dsimp only
      rw [self]
    · dsimp only
      rw [self]
      rfl
    · dsimp only
      rw [self]
      rfl
  · rw [if_neg inside]
    have self : ((machine.heap.modifyScope id fun scope =>
          { scope with members := (machine.heap.scope id).members, pooled := false }).scope id) =
        { machine.heap.scope id with pooled := false } := Heap.scope_modifyScope_self old _
    refine ⟨rfl, fun apart => Heap.scope_modifyScope_ne apart _ _, Heap.size_modifyScope ..,
      .inl rfl, .inr ?_, ?_, .refl _, _, .refl False.elim clean fits, .inl ?_⟩
    · dsimp only
      rw [self]
    · dsimp only
      rw [self]
      exact Bool.eq_false_iff.mpr inside
    · dsimp only
      rw [self]

variable {entries : List (Option Entry)} {top : Frame} {outer : FrameStack} {id : ScopeId}
  {rest : List ScopeId} {machine machine' : Machine Code}

private theorem host?_hosting_ne (machine machine' : Machine Code) {other : ScopeId}
    (apart : other ≠ id) :
    (hosting entries top outer rest machine').host? other =
      (hosting entries top outer (id :: rest) machine).host? other := by
  change hostAmong? other ({ top with blocks := rest } :: outer.toList) =
    hostAmong? other ({ top with blocks := id :: rest } :: outer.toList)
  unfold hostAmong?
  simp [apart]

section Dismissing

variable (settled : (hosting entries top outer (id :: rest) machine).Settled)
  (dismisses : Dismisses machine id machine')

include settled

private theorem Settled.nodup_hosting : (id :: (machine.pool ++ (rest ++ outer.blocks))).Nodup := by
  have nodup : (machine.pool ++ (id :: rest ++ outer.blocks)).Nodup := settled.registered.nodup
  exact List.perm_middle.nodup_iff.mp nodup

private theorem Settled.unhosted_rest (machine' : Machine Code) :
    (hosting entries top outer rest machine').host? id = none :=
  hostAmong?_eq_none.mpr fun member =>
    (List.nodup_cons.mp settled.nodup_hosting).1 (List.mem_append_right _ member)

include dismisses

private theorem Dismisses.registered :
    (hosting entries top outer rest machine').machine.Registered := by
  have registered := settled.registered
  have others {other : ScopeId} (apart : other ≠ id) :
      (hosting entries top outer rest machine').machine.heap.scope other =
        (hosting entries top outer (id :: rest) machine).machine.heap.scope other :=
    dismisses.others apart
  have listed : machine'.pool ++ (rest ++ outer.blocks) ⊆
      id :: (machine.pool ++ (rest ++ outer.blocks)) := by
    rcases dismisses.pool with same | added
    · rw [same]
      exact List.subset_cons_self _ _
    · rw [added]
      exact List.Subset.refl _
  refine ⟨?_, fun {other} member => ?_, fun other => ?_, fun {other} free => ?_⟩
  · change (machine'.pool ++ (rest ++ outer.blocks)).Nodup
    rcases dismisses.pool with same | added
    · rw [same]
      exact (List.nodup_cons.mp settled.nodup_hosting).2
    · rw [added]
      exact settled.nodup_hosting
  · have earlier : other ∈ machine.pool ++ (id :: rest ++ outer.blocks) :=
      List.perm_middle.mem_iff.mpr (listed member)
    exact Nat.lt_of_lt_of_eq (registered.old earlier) dismisses.size.symm
  · by_cases same : other = id
    · subst same
      exact dismisses.kind.elim .inl fun kept => kept ▸ registered.kinds other
    · exact others same ▸ registered.kinds other
  · by_cases same : other = id
    · subst same
      exact dismisses.heaped
    · rw [others same]
      exact registered.heaped ((host?_hosting_ne machine machine' same).symm.trans free)

private theorem Dismisses.changes {table' : Table}
    (alters : (machine.heap.scope id).members.Alters (fun _ => False) machine.heap.memory table'
      machine'.heap.memory)
    (cells : (machine'.heap.scope id).members.heapCells = table'.heapCells ∨
      (machine'.heap.scope id).members.heapCells = #[]) :
    (hosting entries top outer (id :: rest) machine).Changes (.scope id)
      (machine.heap.scope id).members table' (fun _ => False)
      (hosting entries top outer rest machine') := by
  have found : (hosting entries top outer (id :: rest) machine).tableOf (.scope id) =
      some ((machine.heap.scope id).members, outer.toList.length + 1) :=
    tableOf_scope.mpr (.inl ⟨if_pos (by simp), rfl⟩)
  refine ⟨alters, fun apart held spanned => settled.apart (Ne.symm apart) found held spanned,
    fun {other held birth} apart after => ?_, fun {held birth} after => ?_⟩
  · cases other with
    | entry number => exact after
    | scope other =>
        have different : other ≠ id := fun same => apart (congrArg Key.scope same)
        have same : (hosting entries top outer rest machine').tableOf (.scope other) =
            (hosting entries top outer (id :: rest) machine).tableOf (.scope other) :=
          tableOf_scope_congr (host?_hosting_ne machine machine' different)
            (congrArg Scope.members (dismisses.others different))
        exact same ▸ after
  · rcases tableOf_scope.mp after with ⟨hosted, -⟩ | ⟨-, -, rfl⟩
    · exact absurd (hosted.symm.trans (settled.unhosted_rest machine')) (Option.some_ne_none _)
    · refine ⟨?_, fun spanned => (Table.not_spans_onHeap spanned).elim⟩
      change (Table.onHeap (machine'.heap.scope id).members.heapCells none).Fits
        machine'.heap.memory
      rcases cells with same | empty
      · rw [same]
        exact .onHeap alters.fits.old alters.fits.unnamed alters.fits.distinct
      · rw [empty]
        exact .onHeap (fun member => absurd member (Array.not_mem_empty _))
          (fun member => absurd member (Array.not_mem_empty _)) fun found => by cases found

private theorem Settled.dismiss :
    (hosting entries top outer rest machine').Settled ∧
      ∀ key, key ≠ .scope id →
        (hosting entries top outer (id :: rest) machine).Stays key (fun _ => False)
          (hosting entries top outer rest machine') := by
  obtain ⟨table', alters, cells⟩ := dismisses.members
  have steady : (hosting entries top outer (id :: rest) machine).machine.Steady
      (hosting entries top outer rest machine').machine :=
    ⟨rfl, dismisses.shifts, dismisses.limits⟩
  have changes := dismisses.changes settled alters cells
  exact ⟨settled.changes changes (steady.orderly settled.orderly) (dismisses.registered settled)
    steady.bounds.marks settled.entries, fun key apart => changes.stays settled apart⟩

end Dismissing

theorem releaseBlocks_cons (held : List Handle) (id : ScopeId) (rest : List ScopeId)
    (machine : Machine Code) :
    Machine.releaseBlocks held (id :: rest) machine =
      Machine.releaseBlocks held rest
        (if machine.isHeld (rest.map .scope ++ held) id then machine.promote id
        else machine.recycle id) := rfl

private theorem Settled.releaseBlocks (held : List Handle) (blocks : List ScopeId)
    {machine : Machine Code} (settled : (hosting entries top outer blocks machine).Settled) :
    (hosting entries top outer [] (Machine.releaseBlocks held blocks machine)).Settled ∧
      ∀ key, (∀ id ∈ blocks, key ≠ .scope id) →
        (hosting entries top outer blocks machine).Stays key (fun _ => False)
          (hosting entries top outer [] (Machine.releaseBlocks held blocks machine)) := by
  induction blocks generalizing machine with
  | nil => exact ⟨settled, fun key _ => .refl _ key _⟩
  | cons id rest induction =>
      have old : id.index < machine.heap.scopes.size :=
        settled.registered.old (List.mem_append_right _ List.mem_cons_self)
      have fits : (machine.heap.scope id).members.Fits machine.heap.memory :=
        settled.fits (tableOf_scope.mpr (.inl ⟨if_pos (by simp), rfl⟩))
      have released : ∃ machine', Dismisses machine id machine' ∧
          Machine.releaseBlocks held (id :: rest) machine =
            Machine.releaseBlocks held rest machine' := by
        rw [releaseBlocks_cons]
        split
        · exact ⟨_, promote_dismisses old settled.clean fits, rfl⟩
        · exact ⟨_, recycle_dismisses old settled.clean fits, rfl⟩
      obtain ⟨machine', dismisses, stepped⟩ := released
      rw [stepped]
      obtain ⟨dismissed, first⟩ := settled.dismiss dismisses
      obtain ⟨final, later⟩ := induction dismissed
      refine ⟨final, fun key apart => (first key (apart id List.mem_cons_self)).trans ?_⟩
      exact later key fun other member => apart other (List.mem_cons_of_mem _ member)

private theorem closeFrame_eq_free (shared : CellId → Bool) {memory : Memory} {mark : Nat}
    {marks : List Nat} (inner : memory.bounds.marks = mark :: marks)
    (sorted : (mark :: marks).Pairwise (· ≥ ·)) (above : mark ≤ memory.arena.watermark) :
    memory.closeFrame shared mark =
      (Table.onHeap #[] (some ⟨mark, memory.arena.watermark - mark⟩)).free shared
        (memory.modifyArena (·.closeFrame)) := by
  have stop : mark + (memory.arena.watermark - mark) = memory.arena.watermark := by omega
  have floor : (memory.modifyArena (·.closeFrame)).arena.floor ≤ mark := by
    change (memory.arena.marks.tail).headD 0 ≤ mark
    have inner : memory.arena.marks = mark :: marks := inner
    rw [inner]
    cases marks with
    | nil => exact Nat.zero_le _
    | cons next deeper => exact List.rel_of_pairwise_cons sorted List.mem_cons_self
  have released := Memory.bounds_release shared (memory.modifyArena (·.closeFrame)) mark
    memory.arena.watermark
  unfold Table.free Table.slice? Memory.closeFrame Memory.releaseTo Slice.stop
  dsimp only
  rw [stop]
  have top : ((memory.modifyArena (·.closeFrame)).release shared mark
      memory.arena.watermark).arena.isTop mark (memory.arena.watermark - mark) = true := by
    refine isTop_iff.mpr ⟨?_, ?_⟩
    · exact stop.trans (congrArg Bounds.watermark released).symm
    · rw [floor_eq]
      exact (congrArg Bounds.floor released) ▸ floor
  unfold Arena.popTop?
  rw [if_pos top]
  split
  next low =>
    have low : memory.arena.watermark ≤ mark := low
    have same : mark = memory.arena.watermark := Nat.le_antisymm above low
    have nothing : (memory.modifyArena (·.closeFrame)).release shared mark
        memory.arena.watermark = memory.modifyArena (·.closeFrame) := by
      unfold Memory.release
      have none : min memory.arena.watermark
          (memory.modifyArena (·.closeFrame)).arena.slots.size - mark = 0 := by omega
      rw [none]
      rfl
    rw [nothing]
    subst same
    rfl
  next => rfl

private theorem entryAt?_dropEntries {state : Workspace Code} {number : Nat} {entry : Entry} :
    state.dropEntries.entryAt? number = some entry ↔
      state.entryAt? number = some entry ∧ entry.birth ≤ state.depth := by
  unfold entryAt? dropEntries
  dsimp only
  rw [List.getElem?_map]
  cases state.entries[number]? with
  | none => simp
  | some content =>
      cases content with
      | none => simp
      | some held =>
          simp only [Option.map_some, Option.join_some, Option.filter_eq_some_iff]
          constructor
          · rintro ⟨same, open_⟩
            cases same
            exact ⟨rfl, by simpa using open_⟩
          · rintro ⟨same, open_⟩
            cases same
            exact ⟨rfl, by simpa using open_⟩

private theorem push_of_pop? {stack outer : FrameStack} {top : Frame}
    (popped : stack.pop? = some (top, outer)) : outer.push top = stack := by
  obtain ⟨frames, depth, depth_eq⟩ := stack
  subst depth_eq
  cases frames with
  | nil => cases popped
  | cons first rest => cases popped; rfl

theorem frames_releaseBlocks (held : List Handle) (blocks : List ScopeId)
    (machine : Machine Code) :
    (Machine.releaseBlocks held blocks machine).frames = machine.frames ∧
      (Machine.releaseBlocks held blocks machine).host = machine.host := by
  induction blocks generalizing machine with
  | nil => exact ⟨rfl, rfl⟩
  | cons id rest induction =>
      rw [releaseBlocks_cons]
      split
      · exact induction _
      · exact induction _

def unwound (entries : List (Option Entry)) (machine : Machine Code) (memory : Memory) :
    Workspace Code :=
  dropEntries ⟨{ machine with heap := { machine.heap with memory } }, entries⟩

private theorem Settled.marks_hosting {blocks : List ScopeId}
    (settled : (hosting entries top outer blocks machine).Settled) :
    machine.heap.memory.bounds.marks = top.mark :: outer.marks ∧
      (top.mark :: outer.marks).Pairwise (· ≥ ·) ∧
      top.mark ≤ machine.heap.memory.arena.watermark := by
  have inner : machine.heap.memory.bounds.marks = top.mark :: outer.marks := settled.orderly.marks
  have floor_le : machine.heap.memory.bounds.marks.headD 0 ≤ machine.heap.memory.arena.watermark :=
    settled.orderly.inRange.floor_le
  rw [inner] at floor_le
  exact ⟨inner, inner ▸ settled.orderly.sorted, floor_le⟩

private theorem orderly_unwound
    (settled : (hosting entries top machine.frames [] machine).Settled) :
    (unwound entries machine
      (machine.heap.memory.modifyArena (·.closeFrame))).machine.Orderly := by
  have orderly := settled.orderly
  obtain ⟨inner, sorted, above⟩ := settled.marks_hosting
  have marks : machine.heap.memory.bounds.marks.tail = machine.frames.marks :=
    congrArg List.tail inner
  refine ⟨marks, ?_, ⟨?_, orderly.inRange.le_capacity⟩, orderly.capacity,
    Nat.le_of_succ_le orderly.depth_le⟩
  · change machine.heap.memory.bounds.marks.tail.Pairwise (· ≥ ·)
    rw [marks]
    exact (List.pairwise_cons.mp sorted).2
  · change machine.heap.memory.bounds.marks.tail.headD 0 ≤ machine.heap.memory.arena.watermark
    rw [marks]
    cases deeper : machine.frames.marks with
    | nil => exact Nat.zero_le _
    | cons next rest =>
        rw [deeper] at sorted
        exact Nat.le_trans (List.rel_of_pairwise_cons sorted List.mem_cons_self) above

private theorem tableOf_unwound {memory : Memory} {key : Key} {table : Table} {birth : Nat}
    (found : (unwound entries machine memory).tableOf key = some (table, birth)) :
    (hosting entries top machine.frames [] machine).tableOf key = some (table, birth) ∧
      birth ≤ machine.frames.marks.length := by
  have depth_eq : (unwound entries machine memory).depth = machine.frames.marks.length :=
    FrameStack.depth_eq_length_marks machine.frames
  have hosts (other : ScopeId) : (unwound entries machine memory).host? other =
      (hosting entries top machine.frames [] machine).host? other :=
    (if_neg Bool.false_ne_true : hostAmong? other ({ top with blocks := [] } ::
      machine.frames.toList) = hostAmong? other machine.frames.toList).symm
  cases key with
  | entry number =>
      obtain ⟨held, bounded⟩ := entryAt?_dropEntries.mp (tableOf_entry.mp found)
      exact ⟨tableOf_entry.mpr held, depth_eq ▸ bounded⟩
  | scope id =>
      refine ⟨(tableOf_scope_congr (hosts id) rfl).symm.trans found, ?_⟩
      rcases tableOf_scope.mp found with ⟨hosted, -⟩ | ⟨-, rfl, -⟩
      · have bounded := (hostAmong?_le hosted).2
        exact Nat.le_trans bounded (Nat.le_of_eq ((FrameStack.depth_eq _).symm.trans depth_eq))
      · exact Nat.zero_le _

private theorem Settled.pop (settled : (hosting entries top machine.frames [] machine).Settled) :
    (unwound entries machine (machine.heap.memory.modifyArena (·.closeFrame))).Settled ∧
      (hosting entries top machine.frames [] machine).Narrows
        (unwound entries machine (machine.heap.memory.modifyArena (·.closeFrame))) ∧
      ∀ {key : Key} {table : Table} {birth position : Nat},
        (unwound entries machine (machine.heap.memory.modifyArena (·.closeFrame))).tableOf key =
          some (table, birth) → table.Spans position → position < top.mark := by
  have registered := settled.registered
  obtain ⟨inner, sorted, -⟩ := settled.marks_hosting
  have narrows : (hosting entries top machine.frames [] machine).Narrows
      (unwound entries machine (machine.heap.memory.modifyArena (·.closeFrame))) :=
    ⟨⟨_, rfl⟩, fun found => (tableOf_unwound found).1⟩
  have inward {birth position : Nat}
      (region : (hosting entries top machine.frames [] machine).machine.bounds.Region birth
        position) : (Bounds.mk machine.heap.bounds.watermark
          (top.mark :: machine.frames.marks) machine.heap.bounds.capacity).Region birth position :=
    Bounds.region_of_marks inner.symm region
  refine ⟨narrows.settled settled (orderly_unwound settled) ⟨registered.nodup, registered.old,
    registered.kinds, fun {id} unhosted => registered.heaped ?_⟩ ?_ ?_, narrows, ?_⟩
  · exact (if_neg Bool.false_ne_true : hostAmong? id ({ top with blocks := [] } ::
      machine.frames.toList) = hostAmong? id machine.frames.toList).trans unhosted
  · intro key table birth position found _ region
    have outward : (Bounds.mk machine.heap.bounds.watermark machine.frames.marks
        machine.heap.bounds.capacity).Region birth position :=
      Bounds.region_of_cons (@tableOf_unwound _ _ top _ _ _ _ _ found).2 (inward region)
    exact Bounds.region_of_marks (congrArg List.tail inner) outward
  · intro number entry found
    obtain ⟨held, bounded⟩ := entryAt?_dropEntries.mp found
    exact ⟨bounded, (settled.entries held).2⟩
  · intro key table birth position found spanned
    obtain ⟨before, bounded⟩ := @tableOf_unwound _ _ top _ _ _ _ _ found
    exact Bounds.lt_of_region sorted bounded (inward (settled.region before spanned))

private theorem Settled.vacate {memory : Memory}
    (settled : (unwound entries machine memory).Settled)
    {mark : Nat} (below : ∀ {key : Key} {table : Table} {birth position : Nat},
      (unwound entries machine memory).tableOf key = some (table, birth) →
      table.Spans position → position < mark) :
    let slots : Table := .onHeap #[] (some ⟨mark, memory.arena.watermark - mark⟩)
    (unwound entries machine (slots.free machine.host.shares memory)).Settled ∧
      ∀ key, (unwound entries machine memory).Stays key (fun _ => False)
        (unwound entries machine (slots.free machine.host.shares memory)) := by
  intro slots
  have fits : slots.Fits memory := by
    refine ⟨fun spanned => ?_, nofun, nofun, nofun, nofun, nofun⟩
    obtain ⟨first, last⟩ := Table.spans_reserved.mp spanned
    dsimp only at first last
    omega
  have alters := Table.free_alters machine.host.shares settled.clean fits
  have shifts := Table.free_shifts machine.host.shares slots memory
  have steady : (unwound entries machine memory).machine.Steady
      (unwound entries machine (slots.free machine.host.shares memory)).machine :=
    ⟨rfl, shifts, rfl⟩
  have changes : (unwound entries machine memory).Changes
      (.entry (unwound entries machine memory).entries.length) slots .empty (fun _ => False)
      (unwound entries machine (slots.free machine.host.shares memory)) := by
    refine ⟨alters, fun _ found spanned taken => ?_, fun {other _ _} _ found => ?_,
      fun found => absurd rfl (ne_of_tableOf found)⟩
    · exact Nat.not_lt_of_le (Table.spans_reserved.mp spanned).1 (below found taken)
    · cases other <;> exact found
  have registered := settled.registered
  refine ⟨settled.changes changes (steady.orderly settled.orderly) ⟨registered.nodup,
    registered.old, registered.kinds, registered.heaped⟩ shifts.marks settled.entries, ?_⟩
  exact fun key table birth found => changes.stays settled (ne_of_tableOf found) table birth found

private theorem Settled.drop (settled : state.Settled) :
    state.dropEntries.Settled ∧ ∀ key, state.Stays key (fun _ => False) state.dropEntries := by
  have narrows : state.Narrows state.dropEntries := by
    refine ⟨⟨_, rfl⟩, fun {key _ _} found => ?_⟩
    cases key with
    | entry number =>
        exact tableOf_entry.mpr (entryAt?_dropEntries.mp (tableOf_entry.mp found)).1
    | scope id => exact found
  have registered := settled.registered
  exact ⟨narrows.settled settled settled.orderly
    ⟨registered.nodup, registered.old, registered.kinds, registered.heaped⟩
    (fun _ _ region => region)
    fun held => settled.entries (entryAt?_dropEntries.mp held).1, narrows.stays⟩

private theorem Settled.unhosted {blocks : List ScopeId}
    (settled : (hosting entries top outer blocks machine).Settled) {id : ScopeId}
    (listed : id ∈ blocks) : hostAmong? id outer.toList = none := by
  refine hostAmong?_eq_none.mpr fun deeper => ?_
  have nodup : (machine.pool ++ (blocks ++ outer.blocks)).Nodup := settled.registered.nodup
  exact (List.nodup_append.mp (List.nodup_append.mp nodup).2.1).2.2 id listed id deeper rfl

theorem Settled.closeFrame (settled : state.Settled) (held : List Handle) :
    (state.step (.closeFrame held)).Settled ∧
      ∀ key, (state.step (.closeFrame held)).Live key →
        state.Stays key (fun _ => False) (state.step (.closeFrame held)) := by
  have stepped : state.step (.closeFrame held) =
      dropEntries { state with machine := state.machine.closeFrame held } := rfl
  rw [stepped]
  unfold Machine.closeFrame
  cases popping : state.machine.frames.pop? with
  | none => exact settled.drop.imp id fun stays key _ => stays key
  | some popped =>
      obtain ⟨top, outer⟩ := popped
      dsimp only
      have whole : state = hosting state.entries top outer top.blocks
          { state.machine with frames := outer } := by
        unfold hosting
        have pushed : outer.push { top with blocks := top.blocks } = state.machine.frames :=
          push_of_pop? popping
        rw [pushed]
      rw [whole] at settled
      obtain ⟨released, stays⟩ := settled.releaseBlocks held top.blocks
      obtain ⟨frames, -⟩ := frames_releaseBlocks held top.blocks
        { state.machine with frames := outer }
      generalize Machine.releaseBlocks held top.blocks { state.machine with frames := outer } =
        machine at released stays frames ⊢
      obtain rfl : machine.frames = outer := frames
      obtain ⟨inner, sorted, above⟩ := released.marks_hosting
      obtain ⟨gone, narrows, below⟩ := released.pop
      rw [closeFrame_eq_free machine.host.shares inner sorted above]
      obtain ⟨final, later⟩ := gone.vacate below
      refine ⟨final, fun key live => ?_⟩
      have start := stays key ?_
      · rw [← whole] at start
        exact (start.trans (narrows.stays key)).trans (later key)
      · rintro id listed rfl
        exact absurd live (Option.not_isSome_iff_eq_none.mpr (settled.unhosted listed))

end Framing

end Workspace

end ScopeMachine
