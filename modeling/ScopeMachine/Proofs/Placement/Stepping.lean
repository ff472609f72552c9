import ScopeMachine.Proofs.Placement.Arrangement

namespace ScopeMachine

open Arena

namespace Heap

variable {Code : Type} {heap : Heap Code} {id : ScopeId} {args : Table}

/-- A scope with members in the arena keeps its names. -/
theorem Arranged.reindex (arranged : heap.Arranged args) (old : id.index < heap.scopes.size)
    (index : Index) (room : (heap.scope id).pooled = true → index = (heap.scope id).index) :
    (heap.modifyScope id fun scope => { scope with index }).Arranged args ∧
      (∀ other, other ≠ id →
        heap.SameView (heap.modifyScope id fun scope => { scope with index }) other) ∧
      (∀ slot, (heap.modifyScope id fun scope => { scope with index }).contentAt id slot =
        heap.contentAt id slot) ∧
      (heap.modifyScope id fun scope => { scope with index }).binding? id = heap.binding? id := by
  have self := scope_modifyScope_self old fun scope => { scope with index }
  have others : ∀ {other}, other ≠ id →
      (heap.modifyScope id fun scope => { scope with index }).scope other = heap.scope other :=
    fun apart => scope_modifyScope_ne apart heap _
  generalize made : (heap.modifyScope id fun scope => { scope with index }) = heap' at *
  have memory : heap'.memory = heap.memory := by rw [← made]; rfl
  have stored : ∀ key, heap'.store args key = heap.store args key := by
    intro key
    cases key with
    | args => rfl
    | members other =>
        by_cases same : other = id
        · simp only [store, same, self]
        · exact (store_congr (others same)).1
    | trailing other =>
        by_cases same : other = id
        · simp only [store, same, self]
        · exact (store_congr (others same)).2
  refine ⟨⟨arranged.laid.rearrange memory (fun key => key) (fun key => stored key ▸ .refl _)
    fun apart => .inl apart, fun other => ?_⟩, fun other apart =>
      sameView_of_ne (arranged.housed other) memory (others apart), fun slot => ?_, ?_⟩
  · by_cases same : other = id
    · subst same
      rw [self]
      have housed := arranged.housed other
      refine ⟨fun pooled => ?_, housed.outside, housed.variant⟩
      rw [room pooled]
      exact housed.inside pooled
    · rw [others same]
      exact arranged.housed other
  · simp only [contentAt, self, memory]
  · have cell : heap'.cell = heap.cell := congrArg Memory.cell memory
    rw [binding?, binding?, self, cell]

end Heap

namespace Machine

variable {Code : Type} {machine : Machine Code} {args args' : Table} {o : ScopeId → Prop}

/-- Nothing was touched. -/
abbrev Calm (o : ScopeId → Prop) (before : Machine Code) (args : Table)
    (after : Machine Code) : Prop :=
  Steps (fun _ => False) o before args after

namespace Arranged

variable (arranged : machine.Arranged args)
include arranged

/-- Work on the table on its way, of which a part goes on. -/
theorem workArgs {table : Table} {written : CellId → Prop} {memory : Memory}
    (shifts : machine.heap.memory.bounds.Shifts memory.bounds)
    (alters : args.Alters written machine.heap.memory table memory)
    (listed : ∀ {id : CellId}, written id → id ∈ table.heapCells) (part : args'.Part table) :
    Calm o machine args' (machine.withMemory memory) := by
  obtain ⟨next, sameView⟩ := arranged.heap.workArgs alters listed part
  exact .of_heap arranged (Heap.onMemory_keepsPlace _ shifts) next
    (.of_storage rfl rfl rfl rfl fun _ => ⟨.refl _, .refl _, fun _ => sameView _⟩)

theorem slotCell {id : ScopeId} (busy : machine.Busy id) (slot : Nat)
    (room : (machine.heap.scope id).pooled = true → slot < (machine.heap.scope id).index.size) :
    Calm o machine args (machine.withHeap (machine.heap.slotCell id slot).2) ∧
      ((machine.heap.slotCell id slot).2.scope id).members.cell? slot
        (machine.heap.slotCell id slot).2.memory = some (machine.heap.slotCell id slot).1 ∧
      (machine.withHeap (machine.heap.slotCell id slot).2).bounds = machine.bounds := by
  obtain ⟨next, sameView, named, pooled, slices⟩ := arranged.heap.slotCell busy.1 slot room
  have still : (machine.withHeap (machine.heap.slotCell id slot).2).bounds = machine.bounds := by
    refine Table.bounds_cellAt_of_room (fun {slice length} inside => ?_) machine.heap.memory
    have housed := arranged.heap.housed id
    cases pooled : (machine.heap.scope id).pooled with
    | false => exact absurd (housed.outside pooled) (by rw [inside]; nofun)
    | true =>
        obtain ⟨slice', length', inside', capacity⟩ := housed.inside pooled
        obtain ⟨rfl, rfl⟩ := Table.inArena.inj (inside.symm.trans inside')
        exact Nat.lt_of_lt_of_le (room pooled) capacity
  refine ⟨.of_heap arranged (Heap.slotCell_keepsPlace ..) next
    (.of_storage rfl rfl rfl (Heap.size_modifyScope ..) fun {other} old => ?_), named, still⟩
  have same := sameView other
  refine ⟨⟨fun _ => same.kind, same.variant, fun {name} known => ?_, ?_, ?_⟩,
    ⟨same.previous, congrArg ScopeKind.target? same.kind, same.variant⟩, fun _ => same⟩
  · rw [same.index]
    exact known
  · by_cases here : other = id
    · exact here ▸ pooled
    · exact congrArg Scope.pooled (Heap.scope_modifyScope_ne here _ _)
  · intro inside
    by_cases here : other = id
    · subst here
      exact slices inside
    · exact congrArg (·.members.slice?) (Heap.scope_modifyScope_ne here _ _)

theorem modifyMember {id : ScopeId} {slot : Nat} {cell : CellId}
    (named : (machine.heap.scope id).members.cell? slot machine.heap.memory = some cell)
    (change : Cell → Cell) :
    Steps (· = .scope id) o machine args
        (machine.withHeap (machine.heap.modifyCell cell change)) ∧
      (∀ slot', (machine.heap.modifyCell cell change).contentAt id slot' =
        if slot' = slot then change (machine.heap.contentAt id slot)
        else machine.heap.contentAt id slot') ∧
      (machine.heap.modifyCell cell change).binding? id = machine.heap.binding? id := by
  obtain ⟨next, sameView, content, binding⟩ := arranged.heap.modifyMember named change
  exact ⟨.of_heap arranged (Heap.modifyCell_keepsPlace ..) next
    (.of_storage rfl rfl rfl rfl fun _ => ⟨.refl _, .refl _,
      fun spared => sameView _ fun same => spared (congrArg Handle.scope same)⟩), content, binding⟩

theorem modifyBinding {id : ScopeId} {cell : CellId}
    (named : (machine.heap.scope id).kind.trailingCell? = some cell) (change : Cell → Cell) :
    Steps (· = .scope id) o machine args
        (machine.withHeap (machine.heap.modifyCell cell change)) ∧
      (∀ slot, (machine.heap.modifyCell cell change).contentAt id slot =
        machine.heap.contentAt id slot) ∧
      (machine.heap.modifyCell cell change).binding? id =
        (machine.heap.binding? id).map change := by
  obtain ⟨next, sameView, content, binding⟩ := arranged.heap.modifyBinding named change
  exact ⟨.of_heap arranged (Heap.modifyCell_keepsPlace ..) next
    (.of_storage rfl rfl rfl rfl fun _ => ⟨.refl _, .refl _,
      fun spared => sameView _ fun same => spared (congrArg Handle.scope same)⟩), content, binding⟩

theorem insertName {id : ScopeId} (busy : machine.Busy id) (name : String)
    (permission : Permission)
    (room : (machine.heap.scope id).pooled = true →
      (machine.heap.scope id).index.contains name = true) :
    let index := ((machine.heap.scope id).index.insert name permission).2
    let named := machine.heap.modifyScope id fun scope => { scope with index }
    Steps (· = .scope id) o machine args (machine.withHeap named) ∧
      (∀ slot, named.contentAt id slot = machine.heap.contentAt id slot) ∧
      named.binding? id = machine.heap.binding? id := by
  intro index named
  have self : named.scope id = { machine.heap.scope id with index } :=
    Heap.scope_modifyScope_self busy.1 _
  have known : ∀ {other : String} {slot}, (machine.heap.scope id).index.slot? other = some slot →
      index.slot? other = some slot := fun found => Index.slot?_insert found name permission
  obtain ⟨next, sameView, content, binding⟩ := arranged.heap.reindex busy.1 index
    fun pooled => by
      obtain ⟨slot, found⟩ := Option.isSome_iff_exists.mp (room pooled)
      simp only [index, Index.insert, found]
  refine ⟨.of_heap arranged (Heap.modifyScope_keepsPlace _ id (.refl _) ⟨rfl, rfl, .refl ..⟩) next
    (.of_storage rfl rfl rfl (Heap.size_modifyScope ..) fun {other} _ => ?_), content, binding⟩
  by_cases same : other = id
  · subst same
    rw [show (Heap.modifyScope machine.heap other _).scope other = _ from self]
    refine ⟨⟨fun _ => rfl, rfl, fun {name} contained => ?_, rfl, fun _ => rfl⟩, ⟨rfl, rfl, rfl⟩,
      fun spared => absurd rfl spared⟩
    obtain ⟨slot, found⟩ := Option.isSome_iff_exists.mp contained
    exact Option.isSome_iff_exists.mpr ⟨slot, known found⟩
  · have kept : named.scope other = machine.heap.scope other :=
      Heap.scope_modifyScope_ne same _ _
    rw [show (Heap.modifyScope machine.heap id _).scope other = _ from kept]
    exact ⟨.refl _, .refl _, fun _ => sameView other same⟩

theorem bindTrailing {id : ScopeId} (busy : machine.Busy id) {invocation : Invocation}
    (kind : (machine.heap.scope id).kind = .function invocation)
    (unbound : invocation.trailingCell = none) (cell : Cell) :
    let bound := (machine.heap.bindTrailing id invocation cell).2
    Steps (· = .scope id) o machine args (machine.withHeap bound) ∧
      (∀ slot, bound.contentAt id slot = machine.heap.contentAt id slot) ∧
      bound.binding? id = some cell := by
  intro bound
  obtain ⟨next, sameView, content, binding⟩ := arranged.heap.bindTrailing busy.1 kind unbound cell
  have variant : (machine.heap.scope id).variant = .function := congrArg ScopeKind.variant kind
  have self := Heap.scope_bindTrailing busy.1 invocation cell
  have keeps : machine.heap.KeepsPlace bound := (Heap.newCell_keepsPlace machine.heap cell).trans
    (Heap.modifyScope_keepsPlace (machine.heap.newCell cell).2 id (.refl _)
      ⟨rfl, variant.symm, .refl ..⟩)
  refine ⟨.of_heap arranged keeps next
    (.of_storage rfl rfl rfl (Heap.size_modifyScope ..) fun {other} _ => ?_), content, binding⟩
  by_cases same : other = id
  · subst same
    rw [self]
    exact ⟨⟨fun uncalled => absurd variant uncalled, variant.symm, fun known => known, rfl,
      fun _ => rfl⟩,
      ⟨rfl, by rw [kind]; rfl, variant.symm⟩, fun spared => absurd rfl spared⟩
  · rw [Heap.scope_bindTrailing_ne same]
    exact ⟨.refl _, .refl _, fun _ => sameView other same⟩

omit arranged in
theorem newCell (arranged : machine.Arranged .empty) (cell : Cell) :
    Calm o machine .empty (machine.withHeap (machine.heap.newCell cell).2) := by
  obtain ⟨next, sameView⟩ := arranged.heap.newCell cell
  exact .of_heap arranged (Heap.newCell_keepsPlace machine.heap cell) next
    (.of_storage rfl rfl rfl rfl fun _ => ⟨.refl _, .refl _, fun _ => sameView _⟩)

theorem workItems {touched : Handle → Prop} {heap : Heap Code}
    (scopes : heap.scopes = machine.heap.scopes) (memory : heap.memory = machine.heap.memory)
    (array : ∀ {id : ArrayId}, id.index < machine.heap.arrays.size →
      id.index < heap.arrays.size ∧ heap.array id = machine.heap.array id)
    (exception : ∀ {id : ExceptionId}, id.index < machine.heap.exceptions.size →
      id.index < heap.exceptions.size ∧
        (heap.exception id).cause = (machine.heap.exception id).cause ∧
        (¬ touched (.exception id) → heap.exception id = machine.heap.exception id))
    (function? : ∀ {id : FunctionId}, id.index < machine.heap.functions.size →
      heap.function? id = machine.heap.function? id) :
    Steps touched o machine args (machine.withHeap heap) :=
  .of_heap arranged
    (.of_scopes scopes (.of_eq (congrArg Memory.bounds memory)))
    (arranged.heap.of_eq (fun id => congrArg (·.getD id.index default) scopes) memory)
    (.of_items scopes memory array exception function?)

theorem newArray (elements : List Value) (frozen : Bool) :
    Calm o machine args (machine.withHeap (machine.heap.newArray elements frozen).2) := by
  refine arranged.workItems rfl rfl (fun {id} old => ⟨?_, ?_⟩) (fun old => ⟨old, rfl, fun _ => rfl⟩)
    fun _ => rfl
  · exact Nat.lt_of_lt_of_le old (by simp [Heap.newArray])
  · simp only [Heap.array, Heap.newArray, Array.getD_eq_getD_getElem?, Array.getElem?_push,
      if_neg (Nat.ne_of_lt old)]

theorem newException (exception : ExceptionObject) :
    Calm o machine args (machine.withHeap (machine.heap.newException exception).2) := by
  refine arranged.workItems rfl rfl (fun old => ⟨old, rfl⟩) (fun {id} old => ?_) fun _ => rfl
  have same : (machine.heap.newException exception).2.exception id =
      machine.heap.exception id := by
    simp only [Heap.exception, Heap.newException, Array.getD_eq_getD_getElem?,
      Array.getElem?_push, if_neg (Nat.ne_of_lt old)]
  exact ⟨Nat.lt_of_lt_of_le old (by simp [Heap.newException]),
    congrArg ExceptionObject.cause same, fun _ => same⟩

theorem newFunction (function : Function Code) :
    Calm o machine args (machine.withHeap (machine.heap.newFunction function).2) := by
  refine arranged.workItems rfl rfl (fun old => ⟨old, rfl⟩) (fun old => ⟨old, rfl, fun _ => rfl⟩)
    fun {id} old => ?_
  simp only [Heap.function?, Heap.newFunction, Array.getElem?_push, if_neg (Nat.ne_of_lt old)]

theorem preserveBacktrace (id : ExceptionId) (backtrace : Backtrace) :
    Steps (· = .exception id) o machine args
      (machine.withHeap (machine.heap.preserveBacktrace id backtrace)) := by
  refine arranged.workItems rfl rfl (fun old => ⟨old, rfl⟩) (fun {other} old => ?_) fun _ => rfl
  refine ⟨Nat.lt_of_lt_of_eq old (by simp [Heap.preserveBacktrace, Heap.modifyException]), ?_,
    fun spared => ?_⟩
  · simp only [Heap.exception, Heap.preserveBacktrace, Heap.modifyException,
      Array.getD_eq_getD_getElem?, Array.getElem?_modify]
    split
    · cases machine.heap.exceptions[other.index]? <;> rfl
    · rfl
  · have apart : id.index ≠ other.index := by
      intro same
      cases id
      cases other
      exact spared (congrArg (fun index => Handle.exception ⟨index⟩) same.symm)
    simp only [Heap.exception, Heap.preserveBacktrace, Heap.modifyException,
      Array.getD_eq_getD_getElem?, Array.getElem?_modify, if_neg apart]

end Arranged

end Machine

end ScopeMachine
