import ScopeMachine.Machine.Storage
import ScopeMachine.Proofs.Placement.SameView
import ScopeMachine.Proofs.Storage.Retaining

namespace ScopeMachine

open Memory Arena

namespace Table

variable {table : Table} {memory : Memory}

private theorem marks_alters (clean : memory.Clean) (fits : table.Fits memory) (marks : List Nat) :
    Alters (fun _ => False) table memory table
      { memory with arena := { memory.arena with marks } } where
  confined := .of_bookkeeping rfl rfl
  unnamed := False.elim
  clean := ⟨⟨clean.sound.old, clean.sound.distinct⟩, clean.above⟩
  fits := ⟨fits.within, fits.room, fits.rest, fits.old, fits.unnamed, fits.distinct⟩
  outside := fun below _ => below
  spans := .inl
  cells := .inl

private theorem releaseTo_alters (shared : CellId → Bool) (clean : memory.Clean) {mark : Nat}
    (below : mark < memory.arena.watermark) :
    let rest := inArena ⟨mark, memory.arena.watermark - mark⟩ (memory.arena.watermark - mark)
    rest.Fits memory ∧ Alters (fun _ => False) rest memory .empty
    (memory.releaseTo shared mark) := by
  intro rest
  have stop : mark + (memory.arena.watermark - mark) = memory.arena.watermark := by omega
  have fits : rest.Fits memory := by
    refine ⟨fun spanned => ?_, ?_, ?_, nofun, nofun, nofun⟩
    · have within := spans_inArena.mp spanned
      exact stop ▸ within.2
    · intro slice length same
      obtain ⟨rfl, rfl⟩ := inArena.inj same
      exact Nat.le_refl _
    · intro slice length position same above under
      obtain ⟨rfl, rfl⟩ := inArena.inj same
      exact absurd under (Nat.not_lt_of_le above)
  obtain ⟨alters, emptied⟩ := release_alters shared clean fits rfl
  have whole : memory.release shared mark (mark + (memory.arena.watermark - mark)) =
      memory.release shared mark memory.arena.watermark := by rw [stop]
  change Alters _ rest memory _ (memory.release shared mark
    (mark + (memory.arena.watermark - mark))) at alters
  change ∀ {position : Nat}, Between mark (memory.arena.watermark - mark) position →
    (memory.release shared mark (mark + (memory.arena.watermark - mark))).content position =
      .blank at emptied
  rw [whole] at alters emptied
  refine ⟨fits, ?_⟩
  rw [releaseTo, if_neg (Nat.not_le_of_lt below)]
  have marked : (memory.release shared mark memory.arena.watermark).arena.watermark =
      memory.arena.watermark := congrArg Arena.Bounds.watermark (bounds_release ..)
  generalize memory.release shared mark memory.arena.watermark = released at alters emptied marked
  constructor
  · exact alters.confined.trans (.of_bookkeeping rfl rfl)
  · exact False.elim
  · refine ⟨⟨alters.clean.sound.old, alters.clean.sound.distinct⟩, fun {position} above => ?_⟩
    change released.content position = .blank
    by_cases under : position < mark + (memory.arena.watermark - mark)
    · exact emptied ⟨above, under⟩
    · exact alters.clean.above (by omega)
  · exact fits_empty _
  · intro position under unspanned
    refine Nat.lt_of_not_le fun above => unspanned (spans_inArena.mpr ⟨above, ?_⟩)
    change position < mark + (memory.arena.watermark - mark)
    omega
  · exact fun spanned => (not_spans_onHeap spanned).elim
  · nofun

end Table

namespace Heap

variable {Code : Type} {heap heap' : Heap Code} {id : ScopeId} {args args' : Table}

private theorem Laid.pass (laid : heap.Laid args) (memory : heap'.memory = heap.memory)
    (giver taker : Key)
    (given : (heap'.store args' taker).Part (heap.store args giver))
    (bare : heap'.store args' giver = .empty)
    (others : ∀ key, key ≠ giver → key ≠ taker →
      (heap'.store args' key).Part (heap.store args key)) : heap'.Laid args' := by
  refine laid.rearrange memory (fun key => if key = taker then giver else key) (fun key => ?_) ?_
  · split
    next same => exact same ▸ given
    next different =>
      by_cases gave : key = giver
      · rw [gave, bare]
        exact .empty _
      · exact others key gave different
  · intro key key' different
    by_cases gave : key = giver
    · exact .inr (.inl (gave ▸ bare))
    by_cases gave' : key' = giver
    · exact .inr (.inr (gave' ▸ bare))
    refine .inl ?_
    split
    next same =>
      rw [if_neg fun same' => different (same.trans same'.symm)]
      exact Ne.symm gave'
    next =>
      split
      next => exact gave
      next => exact different

/-- Changing the record of one scope changes what no other shows. -/
theorem sameView_of_ne (housed : (heap.scope id).Housed) (memory : heap'.memory = heap.memory)
    (scope : heap'.scope id = heap.scope id) : heap.SameView heap' id := by
  have stands (key : Key) : (heap.store .empty key).Stands heap.memory heap'.memory :=
    memory ▸ .refl _ _
  exact .of_stands housed scope (stands (.members id)) (stands (.trailing id))

private theorem detach_unpooled (housed : (heap.scope id).Housed)
    (old : id.index < heap.scopes.size)
    (unpooled : (heap.scope id).pooled = false) :
    (heap.detach id).memory = heap.memory ∧
      ∀ other, (heap.detach id).scope other = heap.scope other := by
  have outside := housed.outside unpooled
  constructor
  · rw [memory_detach]
    cases members : (heap.scope id).members with
    | onHeap => rfl
    | inArena => rw [members] at outside; cases outside
  · intro other
    by_cases here : other = id
    · rw [here, scope_detach_self old]
      cases scope : heap.scope id with
      | mk previous index members kind pooled =>
          rw [scope] at unpooled outside
          cases members with
          | inArena => cases outside
          | onHeap => rw [show pooled = false from unpooled]; rfl
    · exact scope_detach_ne here heap

private theorem store_detach_ne (old : id.index < heap.scopes.size) {key : Key}
    (different : key ≠ .members id) :
    (heap.detach id).store .empty key = heap.store .empty key := by
  cases key with
  | args => rfl
  | members other =>
      exact (store_congr (scope_detach_ne
        (fun same => different (congrArg Key.members same)) heap)).1
  | trailing other =>
      by_cases same : other = id
      · subst same
        simp only [store, scope_detach_self old]
      · exact (store_congr (scope_detach_ne same heap)).2

namespace Arranged

/-- The table on its way is let go. -/
theorem drop (arranged : heap.Arranged args) : heap.Arranged .empty := by
  refine ⟨arranged.laid.rearrange rfl id (fun key => ?_) fun apart => .inl apart,
    arranged.housed⟩
  cases key with
  | args => exact .empty _
  | members id => exact .refl _
  | trailing id => exact .refl _

theorem take (arranged : heap.Arranged .empty) (fits : args.Fits heap.memory)
    (apart : ∀ {id : ScopeId} {position : Nat}, (heap.scope id).pooled = true →
      (heap.scope id).members.Spans position → ¬ args.Spans position)
    (bare : args.heapCells = #[]) : heap.Arranged args := by
  have others : ∀ key, key ≠ Key.args → heap.store args key = heap.store .empty key := by
    intro key flown
    cases key with
    | args => exact absurd rfl flown
    | members id => rfl
    | trailing id => rfl
  have unspanned : ∀ {key : Key} {position : Nat}, key ≠ .args →
      (heap.store .empty key).Spans position → ¬ args.Spans position := by
    intro key position flown spanned
    cases key with
    | args => exact absurd rfl flown
    | trailing id => exact absurd spanned Table.not_spans_onHeap
    | members id =>
        cases pooled : (heap.scope id).pooled with
        | true =>
            rw [store_pooled pooled] at spanned
            exact apart pooled spanned
        | false =>
            rw [store_unpooled pooled] at spanned
            exact absurd spanned Table.not_spans_onHeap
  refine ⟨⟨arranged.laid.clean, fun key => ?_, ?_, ?_⟩, arranged.housed⟩
  · by_cases flown : key = .args
    · exact flown ▸ fits
    · exact others key flown ▸ arranged.laid.fits key
  · intro key key' position different spanned spanned'
    by_cases flown : key = .args
    · subst flown
      rw [others key' (Ne.symm different)] at spanned'
      exact unspanned (Ne.symm different) spanned' spanned
    · rw [others key flown] at spanned
      by_cases flown' : key' = .args
      · subst flown'
        exact unspanned flown spanned spanned'
      · rw [others key' flown'] at spanned'
        exact arranged.laid.apart different spanned spanned'
  · intro key key' id different member member'
    by_cases flown : key = .args
    · subst flown
      change id ∈ args.heapCells at member
      rw [bare] at member
      exact absurd member (Array.not_mem_empty _)
    · rw [others key flown] at member
      by_cases flown' : key' = .args
      · subst flown'
        change id ∈ args.heapCells at member'
        rw [bare] at member'
        exact absurd member' (Array.not_mem_empty _)
      · rw [others key' flown'] at member'
        exact arranged.laid.separate different member member'

theorem replace (arranged : heap.Arranged args) (memory : heap'.memory = heap.memory)
    (others : ∀ other, other ≠ id → heap'.scope other = heap.scope other)
    (housed : (heap'.scope id).Housed) (laid : heap'.Laid args') :
    heap'.Arranged args' ∧ ∀ other, other ≠ id → heap.SameView heap' other := by
  refine ⟨⟨laid, fun other => ?_⟩, fun other apart =>
    sameView_of_ne (arranged.housed other) memory (others other apart)⟩
  by_cases same : other = id
  · exact same ▸ housed
  · rw [others other same]
    exact arranged.housed other

theorem place (arranged : heap.Arranged args) (memory : heap'.memory = heap.memory)
    (others : ∀ other, other ≠ id → heap'.scope other = heap.scope other)
    (housed : (heap'.scope id).Housed)
    (unbound : (heap'.scope id).kind.trailingCell? = none)
    (members : (heap'.scope id).members = args) :
    heap'.Arranged .empty ∧ ∀ other, other ≠ id → heap.SameView heap' other := by
  have stored : (heap'.store .empty (.members id)).Part args := by
    rw [← members]
    cases pooled : (heap'.scope id).pooled with
    | true =>
        rw [store_pooled pooled]
        exact .refl _
    | false =>
        rw [store_unpooled pooled]
        exact .forget _
  have laid : heap'.Laid .empty := by
    refine arranged.laid.pass memory .args _ stored rfl fun key flown different => ?_
    cases key with
    | args => exact absurd rfl flown
    | members other =>
        rw [(store_congr (others _ fun same => different (congrArg Key.members same))).1]
        exact .refl _
    | trailing other =>
        by_cases same : other = id
        · subst same
          rw [store_trailing_none unbound]
          exact .empty _
        · rw [(store_congr (others _ same)).2]
          exact .refl _
  exact arranged.replace memory others housed laid

/-- A scope comes into use, or is let go, with no members of its own. -/
theorem clear (arranged : heap.Arranged args) (memory : heap'.memory = heap.memory)
    (others : ∀ other, other ≠ id → heap'.scope other = heap.scope other)
    (unpooled : (heap'.scope id).pooled = false)
    (unbound : (heap'.scope id).kind.trailingCell? = none)
    (members : (heap'.scope id).members = .empty) :
    heap'.Arranged args ∧ ∀ other, other ≠ id → heap.SameView heap' other := by
  have laid : heap'.Laid args := by
    refine arranged.laid.rearrange memory (fun key => key) (fun key => ?_) fun apart => .inl apart
    cases key with
    | args => exact .refl _
    | members other =>
        by_cases same : other = id
        · rw [same, store_unpooled unpooled, members]
          exact .empty _
        · rw [(store_congr (others _ same)).1]
          exact .refl _
    | trailing other =>
        by_cases same : other = id
        · rw [same, store_trailing_none unbound]
          exact .empty _
        · rw [(store_congr (others _ same)).2]
          exact .refl _
  exact arranged.replace memory others (Scope.housed_onHeap unpooled (by rw [members]; rfl)) laid

theorem vacate (arranged : heap.Arranged .empty) (memory : heap'.memory = heap.memory)
    {index : Index} (self : heap'.scope id = .vacant index)
    (others : ∀ other, other ≠ id → heap'.scope other = heap.scope other)
    (pooled : (heap.scope id).pooled = true) :
    heap'.Arranged (heap.scope id).members ∧ ∀ other, other ≠ id → heap.SameView heap' other := by
  have empty : heap'.store (heap.scope id).members (.members id) = .empty := by
    rw [store_unpooled (by rw [self]; rfl), self]
    rfl
  have laid : heap'.Laid (heap.scope id).members := by
    refine arranged.laid.pass memory (.members id) .args
      (by rw [store_pooled pooled]; exact .refl _) empty fun key different flown => ?_
    cases key with
    | args => exact absurd rfl flown
    | members other =>
        rw [(store_congr (others _ fun same => different (congrArg Key.members same))).1]
        exact .refl _
    | trailing other =>
        by_cases same : other = id
        · subst same
          rw [store_trailing_none (by rw [self]; rfl)]
          exact .empty _
        · rw [(store_congr (others _ same)).2]
          exact .refl _
  exact arranged.replace memory others (by rw [self]; exact Scope.housed_vacant index) laid

theorem detach (arranged : heap.Arranged .empty) (old : id.index < heap.scopes.size) :
    (heap.detach id).Arranged .empty ∧ ∀ other, heap.SameView (heap.detach id) other := by
  have self := scope_detach_self old
  have memory := memory_detach heap id
  cases pooled : (heap.scope id).pooled with
  | false =>
      obtain ⟨memory, same⟩ := detach_unpooled (arranged.housed id) old pooled
      exact ⟨arranged.of_eq same memory, fun other =>
        sameView_of_ne (arranged.housed other) memory (same other)⟩
  | true =>
      have housed := arranged.housed id
      obtain ⟨slice, length, inside, -⟩ := housed.inside pooled
      have detached : (heap.scope id).members.detached heap.memory =
          .onHeap ((heap.scope id).members.copyOut heap.memory).1.heapCells none := by
        rw [inside]
        rfl
      have fits : (heap.scope id).members.Fits heap.memory :=
        store_pooled pooled ▸ arranged.laid.fits (.members id)
      have carries := Table.copyOut_carries arranged.laid.clean fits
      rw [← memory] at carries
      have outside := Table.isArena_copyOut (heap.scope id).members heap.memory
      have stored : (heap.detach id).store .empty (.members id) =
          .onHeap ((heap.scope id).members.copyOut heap.memory).1.heapCells none := by
        rw [store_unpooled (by rw [self]), self, detached]
        rfl
      obtain ⟨laid, stands⟩ := (@Heap.Laid.alter _ _ (heap.detach id) _ .empty arranged.laid _
        ((heap.scope id).members.copyOut _).1)
        (by rw [store_pooled pooled]; exact carries.toAlters)
        False.elim (by rw [stored]; exact .forget _) fun _ => store_detach_ne old
      have housed' : ((heap.detach id).scope id).Housed := by
        rw [self]
        exact Scope.housed_onHeap rfl (by rw [detached]; rfl)
      refine ⟨⟨laid, fun other => ?_⟩, fun other => ?_⟩
      · by_cases same : other = id
        · exact same ▸ housed'
        · rw [scope_detach_ne same]
          exact arranged.housed other
      · have unlike : Key.trailing other ≠ Key.members id := by
          intro same
          cases same
        by_cases same : other = id
        · subst same
          refine ⟨by rw [self], by rw [self], by rw [self], fun slot => ?_,
            binding_of_stands (by rw [self]) (stands (.trailing other) unlike)⟩
          rw [contentAt, ← content_store .empty housed', stored,
            Table.content_forget outside]
          exact carries.content slot
        · exact .of_stands (arranged.housed other) (scope_detach_ne same heap)
            (stands (.members other) fun equal => same (Key.members.inj equal))
            (stands (.trailing other) unlike)

/-- Marks come and go. -/
theorem marks (arranged : heap.Arranged args) (marks : List Nat) :
    ({ heap with memory := { heap.memory with arena := { heap.memory.arena with marks } } } :
        Heap Code).Arranged args ∧
      ∀ id, heap.SameView
        { heap with memory := { heap.memory with arena := { heap.memory.arena with marks } } } id :=
  arranged.workArgs (Table.marks_alters arranged.laid.clean arranged.fits_args marks)
    False.elim (.refl _)

theorem closeFrame (arranged : heap.Arranged .empty) (shared : CellId → Bool) {mark : Nat}
    (clear : ∀ {id : ScopeId} {position : Nat}, (heap.scope id).pooled = true →
      (heap.scope id).members.Spans position → position < mark) :
    ({ heap with memory := heap.memory.closeFrame shared mark } : Heap Code).Arranged .empty ∧
      ∀ id, heap.SameView { heap with memory := heap.memory.closeFrame shared mark } id := by
  obtain ⟨unmarked, sameView⟩ := arranged.marks heap.memory.arena.marks.tail
  by_cases low : heap.memory.arena.watermark ≤ mark
  · have kept : heap.memory.closeFrame shared mark = { heap.memory with
        arena := { heap.memory.arena with marks := heap.memory.arena.marks.tail } } := if_pos low
    rw [kept]
    exact ⟨unmarked, sameView⟩
  · obtain ⟨fits, alters⟩ := Table.releaseTo_alters shared unmarked.laid.clean
      (Nat.lt_of_not_le low)
    have rest := unmarked.take fits (fun {id} _ pooled spanned above => ?_) rfl
    · obtain ⟨closed, sameView'⟩ := rest.workArgs alters False.elim (.refl _)
      exact ⟨closed, fun id => (sameView id).trans (sameView' id)⟩
    · exact Nat.not_lt_of_le (Table.spans_inArena.mp above).1 (clear pooled spanned)

end Arranged

end Heap

end ScopeMachine
