import ScopeMachine.Proofs.Placement.PlainActions

namespace ScopeMachine

open Memory Arena ScopeMachine.Action

namespace Arena

variable {arena arena' : Arena}

private theorem isTop_congr (bounds : arena.bounds = arena'.bounds) (offset length : Nat) :
    arena.isTop offset length = arena'.isTop offset length := by
  have watermark : arena.watermark = arena'.watermark := congrArg Bounds.watermark bounds
  rw [isTop, isTop, floor_eq, floor_eq, bounds, watermark]

def Together (after? after?' : Option Arena) : Prop :=
  after? = none ∧ after?' = none ∨
    ∃ after after', after? = some after ∧ after?' = some after' ∧ after.bounds = after'.bounds

private theorem popTop?_together (bounds : arena.bounds = arena'.bounds) (offset length : Nat) :
    Together (arena.popTop? offset length) (arena'.popTop? offset length) := by
  rw [popTop?, popTop?, isTop_congr bounds]
  split
  next =>
    refine .inr ⟨_, _, rfl, rfl, ?_⟩
    exact congrArg (fun bounds : Bounds => ({ bounds with watermark := offset } : Bounds)) bounds
  next => exact .inl ⟨rfl, rfl⟩

private theorem grow?_together (bounds : arena.bounds = arena'.bounds) (offset length extra : Nat) :
    Together (arena.grow? offset length extra) (arena'.grow? offset length extra) := by
  have available : arena.available = arena'.available :=
    congrArg (fun bounds : Bounds => bounds.capacity - bounds.watermark) bounds
  rw [grow?, grow?, isTop_congr bounds, available]
  split
  next =>
    refine .inr ⟨_, _, rfl, rfl, ?_⟩
    exact congrArg (fun bounds : Bounds =>
      ({ bounds with watermark := bounds.watermark + extra } : Bounds)) bounds
  next => exact .inl ⟨rfl, rfl⟩

theorem allocate_congr (bounds : arena.bounds = arena'.bounds) (size : Nat) :
    (∃ fault, arena.allocate size = .error fault ∧ arena'.allocate size = .error fault) ∨
      ∃ offset after after', arena.allocate size = .ok (offset, after) ∧
        arena'.allocate size = .ok (offset, after') ∧ after.bounds = after'.bounds := by
  have available : arena.available = arena'.available :=
    congrArg (fun bounds : Bounds => bounds.capacity - bounds.watermark) bounds
  have watermark : arena.watermark = arena'.watermark := congrArg Bounds.watermark bounds
  have capacity : arena.capacity = arena'.capacity := congrArg Bounds.capacity bounds
  rw [allocate, allocate, available, watermark]
  split
  next => exact .inl ⟨_, congrArg _ (congrArg _ capacity), rfl⟩
  next =>
    refine .inr ⟨_, _, _, rfl, rfl, ?_⟩
    exact congrArg (fun bounds : Bounds =>
      ({ bounds with watermark := arena'.watermark + size } : Bounds)) bounds

end Arena

namespace Table

structure SamePlace (table table' : Table) (memory memory' : Memory) : Prop where
  length : table.length = table'.length
  slice? : table.slice? = table'.slice?
  isArena : table.isArena = table'.isArena
  bounds : memory.bounds = memory'.bounds

namespace SamePlace

variable {table table' : Table} {memory memory' : Memory}

private theorem cases (samePlace : table.SamePlace table' memory memory') :
    (∃ slice length, table = .inArena slice length ∧ table' = .inArena slice length) ∨
      ∃ cells cells' reserved, table = .onHeap cells reserved ∧
        table' = .onHeap cells' reserved ∧ cells.size = cells'.size := by
  obtain ⟨length, slices, inside, -⟩ := samePlace
  cases table with
  | onHeap cells reserved =>
      cases table' with
      | onHeap cells' reserved' =>
          cases (show reserved = reserved' from slices)
          exact .inr ⟨cells, cells', reserved, rfl, rfl, length⟩
      | inArena => cases inside
  | inArena slice count =>
      cases table' with
      | onHeap => cases inside
      | inArena slice' count' =>
          cases (show count = count' from length)
          cases (show some slice = some slice' from slices)
          exact .inl ⟨slice, count, rfl, rfl⟩

variable (samePlace : table.SamePlace table' memory memory')
include samePlace

private theorem copyOut :
    (table.copyOut memory).1.SamePlace (table'.copyOut memory').1 (table.copyOut memory).2
      (table'.copyOut memory').2 := by
  have place : (table.copyOut memory).1.slice? = (table'.copyOut memory').1.slice? ∧
      (table.copyOut memory).2.bounds = (table'.copyOut memory').2.bounds := by
    rcases samePlace.cases with ⟨slice, length, rfl, rfl⟩ | ⟨cells, cells', reserved, rfl, rfl, -⟩
    · have taken : (memory.take slice.offset length).2.bounds =
          (memory'.take slice.offset length).2.bounds := by
        rw [bounds_take, bounds_take, samePlace.bounds]
      simp only [Table.copyOut]
      rcases popTop?_together taken slice.offset slice.capacity with
        ⟨here, there⟩ | ⟨_, _, here, there, same⟩
      · simp only [here, there]
        exact ⟨rfl, taken⟩
      · simp only [here, there]
        exact ⟨rfl, same⟩
    · exact ⟨rfl, samePlace.bounds⟩
  exact ⟨by rw [length_copyOut, length_copyOut, samePlace.length], place.1,
    by rw [isArena_copyOut, isArena_copyOut], place.2⟩

theorem ensureCapacity (capacity : Nat) :
    (table.ensureCapacity capacity memory).1.SamePlace (table'.ensureCapacity capacity memory').1
      (table.ensureCapacity capacity memory).2 (table'.ensureCapacity capacity memory').2 := by
  have copied := samePlace.copyOut
  rcases samePlace.cases with ⟨slice, length, rfl, rfl⟩ | ⟨cells, cells', reserved, rfl, rfl, -⟩
  · simp only [Table.ensureCapacity]
    split
    next => exact samePlace
    next =>
      rcases grow?_together samePlace.bounds slice.offset slice.capacity
        (capacity - slice.capacity) with ⟨here, there⟩ | ⟨_, _, here, there, same⟩
      · simp only [here, there]
        exact copied
      · simp only [here, there]
        exact ⟨rfl, rfl, rfl, same⟩
  · exact samePlace

private theorem extendTo {length : Nat} (longer : table.length ≤ length) :
    (table.extendTo length memory).1.SamePlace (table'.extendTo length memory').1
      (table.extendTo length memory).2 (table'.extendTo length memory').2 := by
  have lengths : (table.extendTo length memory).1.length =
    (table'.extendTo length memory').1.length := by
    rw [length_extendTo longer, length_extendTo (samePlace.length ▸ longer)]
  have bounds : (table.extendTo length memory).2.bounds =
    (table'.extendTo length memory').2.bounds := by
    rw [bounds_extendTo, bounds_extendTo, samePlace.bounds]
  rcases samePlace.cases with ⟨slice, old, rfl, rfl⟩ | ⟨cells, cells', reserved, rfl, rfl, -⟩
  · exact ⟨lengths, rfl, rfl, bounds⟩
  · exact ⟨lengths, rfl, rfl, bounds⟩

private theorem extended (slot : Nat) :
    (table.extended slot memory).1.SamePlace (table'.extended slot memory').1
      (table.extended slot memory).2 (table'.extended slot memory').2 := by
  unfold Table.extended
  rw [samePlace.length]
  split
  next => exact samePlace
  next short =>
    refine (samePlace.ensureCapacity (slot + 1)).extendTo ?_
    rw [length_ensureCapacity, samePlace.length]
    omega

private theorem cellAt (slot : Nat) :
    (table.cellAt slot memory).2.1.SamePlace (table'.cellAt slot memory').2.1
      (table.cellAt slot memory).2.2 (table'.cellAt slot memory').2.2 := by
  have longer := samePlace.extended slot
  rw [cellAt_eq, cellAt_eq]
  generalize table.extended slot memory = result at longer
  generalize table'.extended slot memory' = result' at longer
  obtain ⟨table, memory⟩ := result
  obtain ⟨table', memory'⟩ := result'
  rcases longer.cases with ⟨slice, length, rfl, rfl⟩ | ⟨cells, cells', reserved, rfl, rfl, -⟩
  · exact { longer with
      bounds := (bounds_slot ..).trans (longer.bounds.trans (bounds_slot ..).symm) }
  · exact longer

theorem push (value value' : Value) :
    (table.push value memory).1.SamePlace (table'.push value' memory').1
      (table.push value memory).2 (table'.push value' memory').2 := by
  have touched := samePlace.cellAt table.length
  have same : table'.push value' memory' =
      ((table'.cellAt table.length memory').2.1, (table'.cellAt table.length memory').2.2.modifyCell
        (table'.cellAt table.length memory').1 (·.reset value')) := by
    rw [samePlace.length]
    rfl
  rw [same]
  exact ⟨touched.length, touched.slice?, touched.isArena, touched.bounds⟩

theorem truncate (shared shared' : CellId → Bool) (length : Nat) :
    (table.truncate shared length memory).1.SamePlace (table'.truncate shared' length memory').1
      (table.truncate shared length memory).2 (table'.truncate shared' length memory').2 := by
  have bounds : (table.truncate shared length memory).2.bounds =
      (table'.truncate shared' length memory').2.bounds := by
    rw [bounds_truncate, bounds_truncate, samePlace.bounds]
  refine ⟨by rw [length_truncate, length_truncate, samePlace.length], ?_, ?_, bounds⟩
  all_goals
    have same := samePlace.length
    rcases samePlace.cases with ⟨slice, old, rfl, rfl⟩ | ⟨cells, cells', reserved, rfl, rfl, -⟩
    all_goals
      unfold Table.truncate
      rw [same]
      split <;> rfl

theorem free (shared shared' : CellId → Bool) :
    (table.free shared memory).bounds = (table'.free shared' memory').bounds := by
  unfold Table.free
  rw [samePlace.slice?]
  cases table'.slice? with
  | none => exact samePlace.bounds
  | some slice =>
      have released : (memory.release shared slice.offset slice.stop).bounds =
          (memory'.release shared' slice.offset slice.stop).bounds := by
        rw [bounds_release, bounds_release, samePlace.bounds]
      dsimp only
      rcases popTop?_together released slice.offset slice.capacity with
        ⟨here, there⟩ | ⟨_, _, here, there, same⟩
      · rw [here, there]
        exact released
      · rw [here, there]
        exact same

theorem settled {Code : Type} {definition definition' : Definition Code}
    (captures : definition.captures = definition'.captures) :
    (table.settled definition memory).1.SamePlace (table'.settled definition' memory').1
      (table.settled definition memory).2 (table'.settled definition' memory').2 := by
  unfold Table.settled
  rw [captures]
  split
  next =>
    exact ⟨(safeCopy_saves 0 table memory).2.trans
      (samePlace.length.trans (safeCopy_saves 0 table' memory').2.symm), rfl, rfl,
      samePlace.copyOut.bounds⟩
  next => exact samePlace

end SamePlace

theorem length_ofValues (values : List Value) (memory : Memory) :
    (ofValues values memory).1.length = values.length := by
  unfold ofValues
  rw [newAll_eq]
  simp [Table.length]

theorem content_ofValues (values : List Value) (memory : Memory) (slot : Nat) :
    (ofValues values memory).1.content slot (ofValues values memory).2 =
      (values.map Cell.holding).getD slot .blank := by
  have appended := content_append (fits_empty memory) (values.map .holding) slot
  rw [Array.empty_append] at appended
  exact appended

section Contents

variable {table : Table} {memory : Memory} (clean : memory.Clean) (fits : table.Fits memory)
include clean fits

theorem content_push (value : Value) (slot : Nat) :
    (table.push value memory).1.content slot (table.push value memory).2 =
      if slot = table.length then .holding value else table.content slot memory := by
  refine (write_content clean fits table.length (·.reset value) slot).trans ?_
  split
  next =>
    rw [content_of_cell?_none (cell?_of_length_le (Nat.le_refl _) _)]
    rfl
  next => rfl

theorem content_settled {Code : Type} (definition : Definition Code) (slot : Nat) :
    (table.settled definition memory).1.content slot (table.settled definition memory).2 =
      table.content slot memory := by
  unfold settled
  split
  next =>
    exact (content_forget (isArena_copyOut ..) slot _).trans
      ((copyOut_carries clean fits).content slot)
  next => rfl

theorem content_truncate (shared : CellId → Bool) (length slot : Nat) :
    (table.truncate shared length memory).1.content slot (table.truncate shared length memory).2 =
      if slot < length then table.content slot memory else .blank := by
  split
  next below => exact ((truncate_alters shared clean fits length).2 below).2
  next beyond =>
    refine content_of_cell?_none (cell?_of_length_le ?_ _)
    rw [length_truncate]
    omega

end Contents

end Table

namespace Machine.Arranged

variable {Code : Type} {machine : Machine Code} {args : Table} {o : ScopeId → Prop}

section Args

variable (arranged : machine.Arranged args)
include arranged

theorem pushArgs (value : Value) :
    Calm o machine (args.push value machine.heap.memory).1
      (machine.withMemory (args.push value machine.heap.memory).2) :=
  arranged.workArgs (Table.push_shifts ..)
    (Table.write_alters arranged.heap.laid.clean arranged.heap.fits_args _ _) (fun written =>
      written.2)
    (.refl _)

theorem settleArgs (definition : Definition Code) :
    Calm o machine (args.settled definition machine.heap.memory).1
      (machine.withMemory (args.settled definition machine.heap.memory).2) := by
  unfold Table.settled
  split
  next =>
    exact arranged.workArgs (Table.safeCopy_shifts ..)
      (Table.copyOut_carries arranged.heap.laid.clean arranged.heap.fits_args).toAlters
      False.elim (.forget _)
  next =>
    exact arranged.workArgs (.refl _)
      (.refl nofun arranged.heap.laid.clean arranged.heap.fits_args) False.elim (.refl _)

theorem truncateArgs (shared : CellId → Bool) (length : Nat) :
    Calm o machine (args.truncate shared length machine.heap.memory).1
      (machine.withMemory (args.truncate shared length machine.heap.memory).2) :=
  arranged.workArgs (.of_eq (Table.bounds_truncate ..))
    (Table.truncate_alters shared arranged.heap.laid.clean arranged.heap.fits_args length).1
    False.elim (.refl _)

theorem roomArgs (capacity : Nat) :
    Calm o machine (args.ensureCapacity capacity machine.heap.memory).1
      (machine.withMemory (args.ensureCapacity capacity machine.heap.memory).2) :=
  arranged.workArgs (Table.ensureCapacity_shifts ..)
    (Table.ensureCapacity_carries arranged.heap.laid.clean arranged.heap.fits_args
      capacity).toAlters False.elim (.refl _)

theorem freeArgs (shared : CellId → Bool) :
    Calm o machine .empty (machine.withMemory (args.free shared machine.heap.memory)) :=
  arranged.workArgs (Table.free_shifts ..)
    (Table.free_alters shared arranged.heap.laid.clean arranged.heap.fits_args) False.elim (.refl _)

end Args

theorem makeArgs (arranged : machine.Arranged .empty) (values : List Value) :
    Calm o machine (Table.ofValues values machine.heap.memory).1
      (machine.withMemory (Table.ofValues values machine.heap.memory).2) := by
  have alters := Table.append_alters arranged.heap.laid.clean arranged.heap.fits_args
    (values.map .holding)
  rw [Array.empty_append] at alters
  exact arranged.workArgs (.of_eq (Table.bounds_ofValues ..)) alters False.elim (.refl _)

end Machine.Arranged

end ScopeMachine
