import ScopeMachine.Proofs.Liveness.Guarded
import ScopeMachine.Proofs.Placement.Allocation

namespace ScopeMachine

open Arena

namespace Heap.Supplies

variable {Code : Type} {before after : Heap Code} {given : Handle → Prop}

theorem of_eq (supplies : before.Supplies given) (arrays : after.arrays = before.arrays)
    (exceptions : after.exceptions = before.exceptions) : after.Supplies given := by
  refine supplies.carry (fun {handle} listed => ?_)
    (fun {id} _ => congrArg (·.getD id.index default) arrays)
    fun {id} _ => congrArg ExceptionObject.cause (congrArg (·.getD id.index default) exceptions)
  have has := supplies.has listed
  rcases supplies.sort listed with ⟨id, rfl⟩ | ⟨id, rfl⟩
  · exact Nat.lt_of_lt_of_eq has (congrArg Array.size arrays.symm)
  · exact Nat.lt_of_lt_of_eq has (congrArg Array.size exceptions.symm)

private theorem shows (supplies : before.Supplies given) {handle target : Handle}
    (listed : given handle)
    (shows : before.Displays handle target) : given target := by
  rcases supplies.sort listed with ⟨id, rfl⟩ | ⟨id, rfl⟩
  · exact supplies.holds listed shows
  · exact supplies.holds listed shows

end Heap.Supplies

namespace Machine

variable {Code : Type} {machine before middle after : Machine Code} {given : Handle → Prop}
  {held known : List Handle} {ids ids' : List ScopeId} {id : ScopeId}

private theorem not_lost_of_shows {handle target : Handle}
    (shows : machine.heap.Displays handle target)
    (found : ¬ machine.Lost known handle) : ¬ machine.Lost known target := by
  intro lost
  have cell : ∀ {cell : CellId}, ¬ machine.Lost known (.cell cell) →
      (machine.heap.cell cell).value.holds target = true → False := fun found holds =>
    found (lost.holder (show machine.heap.Holds (.cell _) target from holds))
  cases handle with
  | cell id => exact shows
  | array id => exact found (lost.holder (show machine.heap.Holds (.array id) target from shows))
  | exception id =>
      exact found (lost.holder (show machine.heap.Holds (.exception id) target from shows))
  | function id =>
      exact found (lost.holder (show machine.heap.Holds (.function id) target from shows))
  | scope id =>
      have direct : ∀ {inner}, (machine.heap.scope id).holds inner = true →
          ¬ machine.Lost known inner := fun holds gone =>
        found (gone.holder (Heap.holds_scope.mpr holds))
      rcases shows with previous | kind | ⟨slot, holds⟩ | ⟨bound, binding, holds⟩
      · exact direct (by simp [Scope.holds, previous]) lost
      · exact direct (by simp [Scope.holds, kind]) lost
      · rw [Heap.contentAt, Table.content] at holds
        cases named : (machine.heap.scope id).members.cell? slot machine.heap.memory with
        | none =>
            rw [named] at holds
            exact Bool.false_ne_true ((Heap.holds_null target).symm.trans holds)
        | some inner =>
            rw [named] at holds
            refine @cell inner ?_ holds
            cases members : (machine.heap.scope id).members with
            | onHeap cells reserved =>
                rw [members] at named
                have listed : inner ∈ cells := Array.mem_iff_getElem?.mpr ⟨slot, named⟩
                refine direct ?_
                simp only [Scope.holds, members, Table.heapCells, Bool.or_eq_true,
                  Array.any_eq_true]
                obtain ⟨position, here, same⟩ := Array.mem_iff_getElem.mp listed
                exact .inl (.inr ⟨position, here, by rw [same]; exact beq_self_eq_true inner⟩)
            | inArena slice length =>
                rw [members] at named
                have peeked := (Table.peek_of_cell? named).2
                exact fun gone => Bool.false_ne_true
                  (gone.rootless.symm.trans (isRoot_iff.mpr (.inr (.inr ⟨_, peeked⟩))))
      · obtain ⟨inner, named, rfl⟩ := Option.map_eq_some_iff.mp binding
        refine cell (direct ?_) holds
        cases kind : (machine.heap.scope id).kind with
        | function invocation =>
            rw [kind] at named
            have named : invocation.trailingCell = some inner := named
            simp [Scope.holds, kind, ScopeKind.holds, named, Handle.isCell]
        | _ =>
            rw [kind] at named
            cases named

/-- Something was let go, but nothing that is given or held. -/
structure Lets (given : Handle → Prop) (held : List Handle) (keep : Handle → Prop)
    (before after : Machine Code) : Prop extends Sheds keep before after where
  given : ∀ {handle}, given handle → keep handle
  held : ∀ {handle}, handle ∈ held → keep handle
  root : keep (.scope before.global)

theorem Lets.trans {keep keep' : Handle → Prop} (left : Lets given held keep before middle)
    (right : Lets given held keep' middle after) :
    Lets given held (fun handle => keep handle ∧ keep' handle) before after :=
  { left.toSheds.trans right.toSheds with
    given := fun listed => ⟨left.given listed, right.given listed⟩
    held := fun listed => ⟨left.held listed, right.held listed⟩
    root := ⟨left.root, left.global ▸ right.root⟩ }

structure Frees (given : Handle → Prop) (held : List Handle) (ids : List ScopeId)
    (before after : Machine Code) : Prop where
  lets : ∃ keep, Lets given held keep before after
  heap : after.heap.Arranged .empty
  others : ∀ {other}, other ∉ ids → after.heap.scope other = before.heap.scope other
  unpooled : ∀ {id}, id ∈ ids → (after.heap.scope id).pooled = false
  size : after.heap.scopes.size = before.heap.scopes.size

namespace Frees

theorem refl (arranged : machine.heap.Arranged .empty) : Frees given held [] machine machine :=
  ⟨⟨_, { Sheds.refl machine with
      given := fun _ => trivial, held := fun _ => trivial, root := trivial }⟩,
    arranged, fun _ => rfl, nofun, rfl⟩

theorem trans (left : Frees given held ids before middle)
    (right : Frees given held ids' middle after) : Frees given held (ids ++ ids') before after where
  lets :=
    have ⟨_, left⟩ := left.lets
    have ⟨_, right⟩ := right.lets
    ⟨_, left.trans right⟩
  heap := right.heap
  others apart :=
    (right.others (apart ∘ List.mem_append_right _)).trans
      (left.others (apart ∘ List.mem_append_left _))
  unpooled {id} listed := by
    by_cases later : id ∈ ids'
    · exact right.unpooled later
    · rw [right.others later]
      exact left.unpooled ((List.mem_append.mp listed).resolve_right later)
  size := right.size.trans left.size

theorem work (frees : Frees given held ids before after) {memory : Memory}
    (next : ({ after.heap with memory } : Heap Code).Arranged .empty)
    (sameView : ∀ id, after.heap.SameView { after.heap with memory } id) :
    Frees given held ids before (after.withMemory memory) :=
  have ⟨keep, lets⟩ := frees.lets
  ⟨⟨keep, { lets with sameView := fun kept => (lets.sameView kept).trans (sameView _) }⟩, next,
    frees.others, frees.unpooled, frees.size⟩

end Frees

private theorem promote_frees (arranged : machine.heap.Arranged .empty)
    (old : id.index < machine.heap.scopes.size) :
    Frees given held [id] machine (machine.promote id) := by
  obtain ⟨next, sameView⟩ := arranged.detach old
  refine ⟨⟨fun _ => True, ⟨fun _ _ => trivial, fun {other} _ => sameView other, fun _ busy =>
    ?_, rfl,
      rfl, rfl, rfl⟩, fun _ => trivial, fun _ => trivial, trivial⟩, next,
    fun apart => Heap.scope_detach_ne (apart ∘ List.mem_singleton.mpr) _, fun listed => ?_,
    Heap.size_detach ..⟩
  · exact ⟨Nat.lt_of_lt_of_eq busy.1 (Heap.size_detach ..).symm, busy.2⟩
  · rw [List.mem_singleton.mp listed]
    exact congrArg Scope.pooled (Heap.scope_detach_self old)

private theorem sheds_of_lost (supplies : machine.heap.Supplies given) (more : held ⊆ known)
    (lost : machine.Lost known (.scope id))
    {after : Machine Code}
    (sameView : ∀ {other}, other ≠ id → machine.heap.SameView after.heap other)
    (busy : ∀ {other}, other ≠ id → machine.Busy other → after.Busy other)
    (arrays : after.heap.arrays = machine.heap.arrays)
    (exceptions : after.heap.exceptions = machine.heap.exceptions)
    (functions : after.heap.functions = machine.heap.functions)
    (same : after.global = machine.global) :
    Lets given held (fun handle => given handle ∨ ¬ machine.Lost known handle) machine after := by
  have apart : ∀ {other}, given (.scope other) ∨ ¬ machine.Lost known (.scope other) →
      other ≠ id := by
    rintro other (listed | found) rfl
    · rcases supplies.sort listed with ⟨id, same⟩ | ⟨id, same⟩ <;> cases same
    · exact found lost
  have rooted : ∀ {handle}, machine.isRoot known handle = true → ¬ machine.Lost known handle :=
    fun root gone => Bool.false_ne_true (gone.rootless.symm.trans root)
  refine ⟨⟨fun kept shows => kept.imp (supplies.shows · shows) (not_lost_of_shows shows),
      fun kept => sameView (apart kept), fun kept => busy (apart kept), arrays, exceptions,
        functions,
      same⟩, .inl,
    fun listed => .inr (rooted (isRoot_iff.mpr (.inl (more listed)))),
    .inr (rooted (isRoot_iff.mpr (.inr (.inr (.inl rfl)))))⟩

private theorem recycle_scope (old : id.index < machine.heap.scopes.size) :
    (machine.recycle id).heap.scope id = .vacant (machine.heap.scope id).index ∧
      ∀ {other}, other ≠ id → (machine.recycle id).heap.scope other = machine.heap.scope other :=
  ⟨Heap.scope_modifyScope_self old _, fun apart => Heap.scope_modifyScope_ne apart _ _⟩

private theorem recycle_frees (arranged : machine.heap.Arranged .empty)
    (supplies : machine.heap.Supplies given) (more : held ⊆ known)
    (old : id.index < machine.heap.scopes.size) (lost : machine.Lost known (.scope id)) :
    Frees given held [id] machine (machine.recycle id) := by
  obtain ⟨self, others⟩ := recycle_scope old
  obtain ⟨next, sameView⟩ := (@Heap.Arranged.clear _ _ (machine.recycle id).heap) arranged rfl
    (fun _ => others) (by rw [self]; rfl) (by rw [self]; rfl) (by rw [self]; rfl)
  refine ⟨⟨_, sheds_of_lost supplies more lost (fun apart => sameView _ apart)
    (fun apart busy => ?_)
    rfl rfl rfl rfl⟩, next, fun apart => others (apart ∘ List.mem_singleton.mpr), fun listed => ?_,
    Heap.size_modifyScope ..⟩
  · refine ⟨Nat.lt_of_lt_of_eq busy.1 (Heap.size_modifyScope ..).symm, fun listed => ?_⟩
    exact (List.mem_cons.mp listed).elim apart busy.2
  · rw [List.mem_singleton.mp listed, self]
    rfl

private theorem releaseBlocks_frees (arranged : machine.heap.Arranged .empty)
    (supplies : machine.heap.Supplies given) (blocks : List ScopeId)
    (old : ∀ id ∈ blocks, id.index < machine.heap.scopes.size) :
    Frees given held blocks machine (releaseBlocks held blocks machine) := by
  induction blocks generalizing machine with
  | nil => exact .refl arranged
  | cons id rest induction =>
      have here := old id (.head _)
      have onward : ∀ {middle : Machine Code}, Frees given held [id] machine middle →
          Frees given held (id :: rest) machine (releaseBlocks held rest middle) := by
        intro middle frees
        obtain ⟨keep, lets⟩ := frees.lets
        exact frees.trans (induction frees.heap (supplies.of_eq lets.arrays lets.exceptions)
          fun other listed => Nat.lt_of_lt_of_eq (old other (.tail _ listed)) frees.size.symm)
      rw [releaseBlocks]
      split
      next => exact onward (promote_frees arranged here)
      next unheld =>
        refine onward (recycle_frees arranged supplies
          (List.subset_append_right (rest.map Handle.scope) held) here ?_)
        exact (Heap.isAlive_eq_false_iff (show machine.heap.Has (.scope id) from here)).mp
          (Bool.not_eq_true _ ▸ unheld)

theorem closeFrame_frees (arranged : machine.heap.Arranged .empty)
    (supplies : machine.heap.Supplies given) {top : Frame} {outer : FrameStack}
    (popped : machine.frames.pop? = some (top, outer))
    (old : ∀ id ∈ top.blocks, id.index < machine.heap.scopes.size)
    (clear : ∀ {id position}, id ∉ top.blocks → (machine.heap.scope id).pooled = true →
      (machine.heap.scope id).members.Spans position → position < top.mark) :
    Frees given held top.blocks machine (machine.closeFrame held) := by
  have released : Frees given held top.blocks { machine with frames := outer }
      (releaseBlocks held top.blocks { machine with frames := outer }) :=
    (@releaseBlocks_frees _ { machine with frames := outer }) arranged supplies _ old
  unfold closeFrame
  rw [popped]
  obtain ⟨next, sameView⟩ := (@Heap.Arranged.closeFrame _ _ released.heap
    (releaseBlocks held top.blocks { machine with frames := outer }).host.shares top.mark)
    fun {id position} pooled spanned => by
      by_cases listed : id ∈ top.blocks
      · exact absurd ((released.unpooled listed).symm.trans pooled) nofun
      · rw [released.others listed] at pooled spanned
        exact clear listed pooled spanned
  obtain ⟨⟨keep, lets⟩, arranged', others, unpooled, size⟩ := released.work next sameView
  exact ⟨⟨keep, ⟨lets.closed, lets.sameView, lets.busy, lets.arrays, lets.exceptions,
    lets.functions,
    lets.global⟩, lets.given, lets.held, lets.root⟩, arranged', others, unpooled, size⟩

theorem releaseScope_frees (arranged : machine.heap.Arranged .empty)
    (supplies : machine.heap.Supplies given) (old : id.index < machine.heap.scopes.size)
    (called : (machine.heap.scope id).variant = .function) :
    Frees given held [id] machine (machine.releaseScope held id) := by
  unfold releaseScope
  dsimp only
  split
  next idle =>
    have unpooled : (machine.heap.scope id).pooled = false := by
      rw [called] at idle
      simpa using idle
    have frees : Frees given held [] machine machine := .refl arranged
    refine ⟨frees.lets, frees.heap, fun _ => rfl, fun listed => ?_, rfl⟩
    rw [List.mem_singleton.mp listed]
    exact unpooled
  next active =>
    have pooled : (machine.heap.scope id).pooled = true := by
      rw [called] at active
      simpa using active
    split
    next => exact promote_frees arranged old
    next unheld =>
      have lost : machine.Lost held (.scope id) :=
        (Heap.isAlive_eq_false_iff (show machine.heap.Has (.scope id) from old)).mp
          (Bool.not_eq_true _ ▸ unheld)
      have recycled : Frees given held [id] machine (machine.recycle id) :=
        recycle_frees arranged supplies (List.Subset.refl _) old lost
      obtain ⟨self, others⟩ := recycle_scope old
      obtain ⟨handed, -⟩ := (@Heap.Arranged.vacate _ _ (machine.recycle id).heap) arranged rfl self
        (fun _ => others) pooled
      obtain ⟨next, sameView⟩ := handed.workArgs
        (Table.free_alters machine.host.shares handed.laid.clean handed.fits_args)
        False.elim (.refl _)
      exact recycled.work next sameView

end Machine

end ScopeMachine
