import ScopeMachine.Heap.Members
import ScopeMachine.Proofs.Calls.Layouts

namespace ScopeMachine

/-- A scope that returns to the pool is a block's or a call's and has its members in a slice with
room for all of its names. Any other has them on the heap. -/
structure Scope.Housed (scope : Scope) : Prop where
  inside : scope.pooled = true →
    ∃ slice length, scope.members = .inArena slice length ∧ scope.index.size ≤ slice.capacity
  outside : scope.pooled = false → scope.members.isArena = false
  variant : scope.pooled = true → scope.variant = .basic ∨ scope.variant = .function

theorem Scope.housed_onHeap {scope : Scope} (unpooled : scope.pooled = false)
    (outside : scope.members.isArena = false) : scope.Housed :=
  ⟨fun pooled => absurd (unpooled.symm.trans pooled) nofun, fun _ => outside,
    fun pooled => absurd (unpooled.symm.trans pooled) nofun⟩

theorem Scope.housed_vacant (index : Index) : (Scope.vacant index).Housed :=
  housed_onHeap rfl rfl

namespace Table

/-- A table on the heap shows what its cells hold, whatever slice it still holds on to. -/
theorem content_forget {table : Table} (outside : table.isArena = false) (slot : Nat)
    (memory : Memory) :
    (onHeap table.heapCells none).content slot memory = table.content slot memory := by
  cases table with
  | onHeap cells reserved => rfl
  | inArena slice length => cases outside

private theorem cell?_forget {table : Table} (outside : table.isArena = false) (slot : Nat)
    (memory : Memory) :
    (onHeap table.heapCells none).cell? slot memory = table.cell? slot memory := by
  cases table with
  | onHeap cells reserved => rfl
  | inArena slice length => cases outside

private theorem cellAt_forget {table : Table} (outside : table.isArena = false) (slot : Nat)
    (memory : Memory) :
    (onHeap table.heapCells none).cellAt slot memory =
        ((table.cellAt slot memory).1, onHeap (table.cellAt slot memory).2.1.heapCells none,
          (table.cellAt slot memory).2.2) ∧
      (table.cellAt slot memory).2.1.isArena = false := by
  cases table with
  | inArena slice length => cases outside
  | onHeap cells reserved =>
      have bare := cellAt_onHeap cells none slot memory
      have full := cellAt_onHeap cells reserved slot memory
      change (onHeap cells none).cellAt slot memory = _ ∧ _
      rw [bare, full]
      split <;> exact ⟨rfl, rfl⟩

private theorem cellAt_of_room {slice : Slice} (length : Nat) {slot : Nat}
    (room : slot < slice.capacity)
    (memory : Memory) :
    ∃ longer, ((inArena slice length).cellAt slot memory).2.1 = .inArena slice longer := by
  by_cases below : slot < length
  · exact ⟨length, cellAt_of_lt below memory⟩
  · have roomy : (inArena slice length).ensureCapacity (slot + 1) memory =
        (inArena slice length, memory) := if_pos (Nat.succ_le_of_lt room)
    have extended : (inArena slice length).extended slot memory =
        (inArena slice (slot + 1), memory) := by
      rw [Table.extended, if_neg (show ¬ slot < (inArena slice length).length from below), roomy]
      rfl
    refine ⟨slot + 1, ?_⟩
    rw [cellAt_eq, extended]

theorem bounds_cellAt_of_room {table : Table} {slot : Nat}
    (room : ∀ {slice length}, table = .inArena slice length → slot < slice.capacity)
    (memory : Memory) : (table.cellAt slot memory).2.2.bounds = memory.bounds := by
  cases table with
  | onHeap cells reserved =>
      rw [cellAt_onHeap]
      split
      next => rfl
      next => exact Memory.bounds_newAll ..
  | inArena slice length =>
      have extended : ((inArena slice length).extended slot memory).2 = memory ∧
          ∃ longer, ((inArena slice length).extended slot memory).1 = .inArena slice longer := by
        unfold Table.extended
        split
        next => exact ⟨rfl, _, rfl⟩
        next =>
          rw [show (inArena slice length).ensureCapacity (slot + 1) memory =
            (inArena slice length, memory) from if_pos (Nat.succ_le_of_lt (room rfl))]
          exact ⟨rfl, _, rfl⟩
      obtain ⟨same, longer, there⟩ := extended
      rw [cellAt_eq]
      generalize (inArena slice length).extended slot memory = result at same there
      obtain ⟨wider, memory'⟩ := result
      obtain ⟨rfl, rfl⟩ : wider = .inArena slice longer ∧ memory' = memory := ⟨there, same⟩
      exact Memory.bounds_slot ..

end Table

namespace Heap

variable {Code : Type} {heap heap' heap'' : Heap Code} {id other : ScopeId} {args args' : Table}

/-- What a scope holds at a slot. -/
def contentAt (heap : Heap Code) (id : ScopeId) (slot : Nat) : Cell :=
  (heap.scope id).members.content slot heap.memory

/-- What `in` is bound to in a scope, once it is bound. -/
def binding? (heap : Heap Code) (id : ScopeId) : Option Cell :=
  (heap.scope id).kind.trailingCell?.map heap.cell

/-- The scope shows the same in both heaps. -/
structure SameView (before after : Heap Code) (id : ScopeId) : Prop where
  previous : (after.scope id).previous = (before.scope id).previous
  index : (after.scope id).index = (before.scope id).index
  kind : (after.scope id).kind = (before.scope id).kind
  content : ∀ slot, after.contentAt id slot = before.contentAt id slot
  binding : after.binding? id = before.binding? id

namespace SameView

theorem refl (heap : Heap Code) (id : ScopeId) : heap.SameView heap id :=
  ⟨rfl, rfl, rfl, fun _ => rfl, rfl⟩

theorem trans (left : heap.SameView heap' id) (right : heap'.SameView heap'' id) :
    heap.SameView heap'' id :=
  ⟨right.previous.trans left.previous, right.index.trans left.index, right.kind.trans left.kind,
    fun slot => (right.content slot).trans (left.content slot),
    right.binding.trans left.binding⟩

theorem variant (sameView : heap.SameView heap' id) :
    (heap'.scope id).variant = (heap.scope id).variant :=
  congrArg ScopeKind.variant sameView.kind

theorem of_eq (scopes : heap'.scopes = heap.scopes) (memory : heap'.memory = heap.memory)
    (id : ScopeId) : heap.SameView heap' id := by
  have scope : heap'.scope id = heap.scope id := congrArg (·.getD id.index default) scopes
  refine ⟨by rw [scope], by rw [scope], by rw [scope], fun slot => ?_, ?_⟩
  · simp only [contentAt, scope, memory]
  · have cell : heap'.cell = heap.cell := congrArg Memory.cell memory
    rw [binding?, binding?, scope, cell]

end SameView

/-! Tables by their key. -/

theorem store_pooled (pooled : (heap.scope id).pooled = true) :
    heap.store args (.members id) = (heap.scope id).members := if_pos pooled

theorem store_unpooled (unpooled : (heap.scope id).pooled = false) :
    heap.store args (.members id) = .onHeap (heap.scope id).members.heapCells none :=
  if_neg (by rw [unpooled]; exact Bool.false_ne_true)

section Store

variable (args : Table) (housed : (heap.scope id).Housed)
include housed

theorem content_store (slot : Nat) (memory : Memory) :
    (heap.store args (.members id)).content slot memory =
      (heap.scope id).members.content slot memory := by
  cases pooled : (heap.scope id).pooled with
  | true => rw [store_pooled pooled]
  | false => rw [store_unpooled pooled, Table.content_forget (housed.outside pooled)]

theorem cell?_store (slot : Nat) (memory : Memory) :
    (heap.store args (.members id)).cell? slot memory =
      (heap.scope id).members.cell? slot memory := by
  cases pooled : (heap.scope id).pooled with
  | true => rw [store_pooled pooled]
  | false => rw [store_unpooled pooled, Table.cell?_forget (housed.outside pooled)]

end Store

theorem store_trailing {bound : CellId} (named : (heap.scope id).kind.trailingCell? = some bound) :
    heap.store args (.trailing id) = .onHeap #[bound] none := by
  simp only [store, named]
  rfl

theorem store_trailing_none (unbound : (heap.scope id).kind.trailingCell? = none) :
    heap.store args (.trailing id) = .empty := by
  simp only [store, unbound]
  rfl

theorem store_congr (scope : heap'.scope id = heap.scope id) :
    heap'.store args' (.members id) = heap.store args (.members id) ∧
      heap'.store args' (.trailing id) = heap.store args (.trailing id) := by
  simp only [store, scope, and_self]

/-- The binding of `in` is spared. -/
theorem binding_of_stands
    (kind : (heap'.scope id).kind = (heap.scope id).kind)
    (stands : (heap.store args (.trailing id)).Stands heap.memory heap'.memory) :
    heap'.binding? id = heap.binding? id := by
  unfold binding?
  rw [kind]
  cases named : (heap.scope id).kind.trailingCell? with
  | none => rfl
  | some bound =>
      rw [store_trailing named] at stands
      exact congrArg some (stands.content 0)

/-- A scope whose tables are spared shows the same. -/
theorem SameView.of_stands (housed : (heap.scope id).Housed)
    (scope : heap'.scope id = heap.scope id)
    (members : (heap.store args (.members id)).Stands heap.memory heap'.memory)
    (trailing : (heap.store args (.trailing id)).Stands heap.memory heap'.memory) :
    heap.SameView heap' id := by
  refine ⟨by rw [scope], by rw [scope], by rw [scope], fun slot => ?_,
    binding_of_stands (by rw [scope]) trailing⟩
  unfold contentAt
  rw [scope, ← content_store args housed, ← content_store args housed]
  exact members.content slot

/-! The binding of `in`. -/

def bindTrailing (heap : Heap Code) (id : ScopeId) (invocation : Invocation) (cell : Cell) :
    CellId × Heap Code :=
  ((heap.newCell cell).1, (heap.newCell cell).2.modifyScope id fun scope =>
    { scope with kind := .function { invocation with trailingCell := some (heap.newCell cell).1 } })

theorem scope_bindTrailing (old : id.index < heap.scopes.size) (invocation : Invocation)
    (cell : Cell) :
    (heap.bindTrailing id invocation cell).2.scope id = { heap.scope id with
      kind := .function
        { invocation with trailingCell := some (heap.bindTrailing id invocation cell).1 } } :=
  scope_modifyScope_self (show id.index < (heap.newCell cell).2.scopes.size from old) _

theorem scope_bindTrailing_ne (apart : other ≠ id) (invocation : Invocation) (cell : Cell) :
    (heap.bindTrailing id invocation cell).2.scope other = heap.scope other :=
  scope_modifyScope_ne apart (heap.newCell cell).2 _

/-! Heaps whose tables are all where they should be. -/

/-- Every scope is housed, and all tables lie apart from each other. -/
structure Arranged (heap : Heap Code) (args : Table) : Prop where
  laid : heap.Laid args
  housed : ∀ id, (heap.scope id).Housed

namespace Arranged

variable (arranged : heap.Arranged args)
include arranged

theorem fits_args : args.Fits heap.memory := arranged.laid.fits .args

/-- Only what lies where counts. -/
theorem of_eq (scope : ∀ id, heap'.scope id = heap.scope id)
    (memory : heap'.memory = heap.memory) : heap'.Arranged args := by
  refine ⟨arranged.laid.rearrange memory id (fun key => ?_) (fun apart => .inl apart),
    fun id => by rw [scope]; exact arranged.housed id⟩
  cases key with
  | members id => rw [(store_congr (scope id)).1]; exact .refl _
  | trailing id => rw [(store_congr (scope id)).2]; exact .refl _
  | args => exact .refl _

/-- Work on the table on its way, of which a part goes on. -/
theorem workArgs {table args' : Table} {written : CellId → Prop} {memory : Memory}
    (alters : args.Alters written heap.memory table memory)
    (listed : ∀ {id : CellId}, written id → id ∈ table.heapCells) (part : args'.Part table) :
    ({ heap with memory } : Heap Code).Arranged args' ∧
      ∀ id, heap.SameView { heap with memory } id := by
  have others : ∀ other, other ≠ Key.args →
      ({ heap with memory } : Heap Code).store args' other = heap.store args other := by
    intro other apart
    cases other with
    | args => exact absurd rfl apart
    | members id => rfl
    | trailing id => rfl
  obtain ⟨laid, stands⟩ := (@Heap.Laid.alter _ _ { heap with memory } _ args' arranged.laid
    .args) alters listed part others
  exact ⟨⟨laid, arranged.housed⟩, fun id => .of_stands (arranged.housed id) rfl
    (stands (.members id) nofun) (stands (.trailing id) nofun)⟩

/-! Members of one scope. -/

theorem workMembers {table : Table} {written : CellId → Prop} {memory : Memory}
    (old : id.index < heap.scopes.size)
    (alters : (heap.store args (.members id)).Alters written heap.memory
      (({ heap with memory }.modifyScope id fun scope => { scope with members := table }).store
        args (.members id)) memory)
    (listed : ∀ {cell : CellId}, written cell →
      cell ∈ (({ heap with memory }.modifyScope id fun scope =>
        { scope with members := table }).store args (.members id)).heapCells)
    (housed : ({ heap.scope id with members := table } : Scope).Housed) :
    ({ heap with memory }.modifyScope id fun scope =>
        { scope with members := table }).Arranged args ∧
      (∀ other, other ≠ id → heap.SameView
        ({ heap with memory }.modifyScope id fun scope => { scope with members := table }) other) ∧
      ({ heap with memory }.modifyScope id fun scope =>
        { scope with members := table }).binding? id = heap.binding? id := by
  have self := scope_modifyScope_self (show id.index < { heap with memory }.scopes.size from old)
    fun scope => { scope with members := table }
  have apart : ∀ {other}, other ≠ id →
      ({ heap with memory }.modifyScope id fun scope => { scope with members := table }).scope
        other = heap.scope other := fun apart => scope_modifyScope_ne apart { heap with memory } _
  generalize made : ({ heap with memory } : Heap Code).modifyScope id
    (fun scope => { scope with members := table }) = heap' at *
  have memory' : heap'.memory = memory := by rw [← made]; rfl
  subst memory'
  have others : ∀ key, key ≠ Key.members id →
      heap'.store args key = heap.store args key := by
    intro key different
    cases key with
    | args => rfl
    | members other =>
        exact (store_congr (apart fun same => different (congrArg Key.members same))).1
    | trailing other =>
        by_cases same : other = id
        · simp only [store, same, self]
          rfl
        · exact (store_congr (apart same)).2
  obtain ⟨laid, stands⟩ := arranged.laid.alter alters listed (.refl _) others
  refine ⟨⟨laid, fun other => ?_⟩, fun other different => ?_, ?_⟩
  · by_cases same : other = id
    · rw [same, self]
      exact housed
    · rw [apart same]
      exact arranged.housed other
  · exact .of_stands (arranged.housed other) (apart different)
      (stands (.members other) fun same => different (Key.members.inj same))
      (stands (.trailing other) nofun)
  · exact binding_of_stands (by rw [self]; rfl) (stands (.trailing id) nofun)

/-- Touching a slot that a scope has room for. -/
theorem slotCell (old : id.index < heap.scopes.size) (slot : Nat)
    (room : (heap.scope id).pooled = true → slot < (heap.scope id).index.size) :
    (heap.slotCell id slot).2.Arranged args ∧
      (∀ other, heap.SameView (heap.slotCell id slot).2 other) ∧
      ((heap.slotCell id slot).2.scope id).members.cell? slot (heap.slotCell id slot).2.memory =
        some (heap.slotCell id slot).1 ∧
      ((heap.slotCell id slot).2.scope id).pooled = (heap.scope id).pooled ∧
      ((heap.scope id).pooled = true →
        ((heap.slotCell id slot).2.scope id).members.slice? = (heap.scope id).members.slice?) := by
  have housed := arranged.housed id
  have clean := arranged.laid.clean
  have fits := arranged.laid.fits (.members id)
  have self : (heap.slotCell id slot).2.scope id = { heap.scope id with
      members := ((heap.scope id).members.cellAt slot heap.memory).2.1 } :=
    scope_modifyScope_self (show id.index < ({ heap with
      memory := ((heap.scope id).members.cellAt slot heap.memory).2.2 } : Heap Code).scopes.size
      from old) _
  have touched := Table.cellAt_carries clean fits slot
  have kept : ({ heap.scope id with
      members := ((heap.scope id).members.cellAt slot heap.memory).2.1 } : Scope).Housed ∧
      ((heap.scope id).pooled = true →
        ((heap.scope id).members.cellAt slot heap.memory).2.1.slice? =
          (heap.scope id).members.slice?) := by
    cases pooled : (heap.scope id).pooled with
    | true =>
        obtain ⟨slice, length, members, capacity⟩ := housed.inside pooled
        obtain ⟨longer, stays⟩ := Table.cellAt_of_room length
          (Nat.lt_of_lt_of_le (room pooled) capacity) heap.memory
        rw [members, stays]
        exact ⟨⟨fun _ => ⟨slice, longer, rfl, capacity⟩,
          fun unpooled => absurd (pooled.symm.trans unpooled) nofun, housed.variant⟩, fun _ => rfl⟩
    | false =>
        exact ⟨Scope.housed_onHeap pooled (Table.cellAt_forget (housed.outside pooled) slot _).2,
          nofun⟩
  have carries : (heap.store args (.members id)).Carries heap.memory
      ((heap.slotCell id slot).2.store args (.members id)) (heap.slotCell id slot).2.memory := by
    cases pooled : (heap.scope id).pooled with
    | true =>
        have still : ((heap.slotCell id slot).2.scope id).pooled = true := self ▸ pooled
        rw [store_pooled still, self]
        rw [store_pooled pooled] at touched ⊢
        exact touched.1
    | false =>
        have still : ((heap.slotCell id slot).2.scope id).pooled = false := self ▸ pooled
        rw [store_unpooled still, self]
        rw [store_unpooled pooled, (Table.cellAt_forget (housed.outside pooled) slot _).1]
          at touched
        rw [store_unpooled pooled]
        exact touched.1
  obtain ⟨arranged', others, binding⟩ := arranged.workMembers old carries.toAlters
    (fun written => written.elim) kept.1
  change (heap.slotCell id slot).2.Arranged args at arranged'
  refine ⟨arranged', fun other => ?_, ?_, by rw [self], fun pooled => ?_⟩
  · by_cases same : other = id
    · subst same
      refine ⟨by rw [self], by rw [self], by rw [self], fun slot' => ?_, binding⟩
      have content := carries.content slot'
      rw [content_store _ housed, content_store _ (arranged'.housed other)] at content
      exact content
    · exact others other same
  · rw [self]
    exact Table.cell?_cellAt _ slot _
  · rw [self]
    exact kept.2 pooled

/-! Writing. -/

theorem modifyStored {key : Key} {slot : Nat} {cell : CellId}
    (named : (heap.store args key).cell? slot heap.memory = some cell) (change : Cell → Cell) :
    (heap.modifyCell cell change).Arranged args ∧
      (∀ other, other ≠ key →
        (heap.store args other).Stands heap.memory (heap.modifyCell cell change).memory) ∧
      ∀ slot', (heap.store args key).content slot' (heap.modifyCell cell change).memory =
        if slot' = slot then change ((heap.store args key).content slot heap.memory)
        else (heap.store args key).content slot' heap.memory := by
  have clean := arranged.laid.clean
  have fits := arranged.laid.fits key
  obtain ⟨laid, stands⟩ := (@Heap.Laid.alter _ _ (heap.modifyCell cell change) _ args)
    arranged.laid (Table.modifyCell_alters clean fits named change)
    (fun {id} written => written.1 ▸ written.2) (.refl _) fun _ _ => rfl
  exact ⟨⟨laid, arranged.housed⟩, stands, Table.content_modifyCell clean fits named change⟩

theorem modifyMember {slot : Nat} {cell : CellId}
    (named : (heap.scope id).members.cell? slot heap.memory = some cell) (change : Cell → Cell) :
    (heap.modifyCell cell change).Arranged args ∧
      (∀ other, other ≠ id → heap.SameView (heap.modifyCell cell change) other) ∧
      (∀ slot', (heap.modifyCell cell change).contentAt id slot' =
        if slot' = slot then change (heap.contentAt id slot) else heap.contentAt id slot') ∧
      (heap.modifyCell cell change).binding? id = heap.binding? id := by
  have housed := arranged.housed id
  rw [← cell?_store args housed] at named
  obtain ⟨arranged', stands, content⟩ := arranged.modifyStored named change
  refine ⟨arranged', fun other apart => ?_, fun slot' => ?_, ?_⟩
  · exact .of_stands (arranged.housed other) rfl
      (stands (.members other) fun same => apart (Key.members.inj same))
      (stands (.trailing other) nofun)
  · have here := content slot'
    rw [content_store _ housed, content_store _ housed, content_store _ housed] at here
    exact here
  · exact binding_of_stands rfl (stands (.trailing id) nofun)

theorem modifyBinding {cell : CellId}
    (named : (heap.scope id).kind.trailingCell? = some cell) (change : Cell → Cell) :
    (heap.modifyCell cell change).Arranged args ∧
      (∀ other, other ≠ id → heap.SameView (heap.modifyCell cell change) other) ∧
      (∀ slot, (heap.modifyCell cell change).contentAt id slot = heap.contentAt id slot) ∧
      (heap.modifyCell cell change).binding? id = (heap.binding? id).map change := by
  have housed := arranged.housed id
  have stored : (heap.store args (.trailing id)).cell? 0 heap.memory = some cell := by
    rw [store_trailing named]
    rfl
  obtain ⟨arranged', stands, content⟩ := arranged.modifyStored stored change
  refine ⟨arranged', fun other apart => ?_, fun slot => ?_, ?_⟩
  · exact .of_stands (arranged.housed other) rfl (stands (.members other) nofun)
      (stands (.trailing other) fun same => apart (Key.trailing.inj same))
  · have here := (stands (.members id) nofun).content slot
    rw [content_store _ housed, content_store _ housed] at here
    exact here
  · have here := content 0
    rw [store_trailing named, if_pos rfl] at here
    unfold binding?
    change (heap.scope id).kind.trailingCell?.map _ = _
    rw [named]
    exact congrArg some here

/-! Making cells. -/

theorem bindTrailing (old : id.index < heap.scopes.size) {invocation : Invocation}
    (kind : (heap.scope id).kind = .function invocation)
    (unbound : invocation.trailingCell = none) (cell : Cell) :
    let bound := (heap.bindTrailing id invocation cell).2
    bound.Arranged args ∧ (∀ other, other ≠ id → heap.SameView bound other) ∧
      (∀ slot, bound.contentAt id slot = heap.contentAt id slot) ∧
      bound.binding? id = some cell := by
  intro bound
  have self : bound.scope id = _ := scope_bindTrailing old invocation cell
  have apart : ∀ {other}, other ≠ id → bound.scope other = heap.scope other := fun apart =>
    scope_bindTrailing_ne apart invocation cell
  have named : (bound.scope id).kind.trailingCell? = some (heap.newCell cell).1 := by
    rw [self]
    rfl
  have bare : heap.store args (.trailing id) = .empty :=
    store_trailing_none (by rw [kind]; exact unbound)
  have housed := arranged.housed id
  have alters := Table.append_alters arranged.laid.clean
    (bare ▸ arranged.laid.fits (.trailing id)) [cell]
  change Table.Alters _ .empty _ (.onHeap #[(heap.newCell cell).1] none) _ at alters
  rw [← bare] at alters
  have others : ∀ key, key ≠ Key.trailing id → bound.store args key = heap.store args key := by
    intro key different
    cases key with
    | args => rfl
    | trailing other =>
        exact (store_congr (apart fun same => different (congrArg Key.trailing same))).2
    | members other =>
        by_cases same : other = id
        · subst same
          simp only [store, self]
        · exact (store_congr (apart same)).1
  obtain ⟨laid, stands⟩ := (@Heap.Laid.alter _ _ bound _ args) arranged.laid alters
    False.elim (by rw [store_trailing named]; exact .refl _) others
  have housed' : (bound.scope id).Housed := by
    rw [self]
    refine ⟨housed.inside, housed.outside, fun pooled => ?_⟩
    have variant := housed.variant pooled
    unfold Scope.variant at variant ⊢
    rw [kind] at variant
    exact variant
  have here : bound.Arranged args := by
    refine ⟨laid, fun other => ?_⟩
    by_cases same : other = id
    · exact same ▸ housed'
    · rw [apart same]
      exact arranged.housed other
  refine ⟨here, fun other different => ?_, fun slot => ?_, ?_⟩
  · exact .of_stands (arranged.housed other) (apart different) (stands (.members other) nofun)
      (stands (.trailing other) fun same => different (Key.trailing.inj same))
  · have content := (stands (.members id) nofun).content slot
    rw [← others (.members id) nofun, content_store _ housed', others (.members id) nofun,
      content_store _ housed] at content
    exact content
  · unfold binding?
    rw [named]
    exact congrArg some (Memory.cell_new_self heap.memory cell)

end Arranged

theorem Arranged.newCell (arranged : heap.Arranged .empty) (cell : Cell) :
    (heap.newCell cell).2.Arranged .empty ∧ ∀ id, heap.SameView (heap.newCell cell).2 id :=
  arranged.workArgs (Table.append_alters arranged.laid.clean arranged.fits_args [cell])
    False.elim (.empty _)

end Heap

end ScopeMachine
