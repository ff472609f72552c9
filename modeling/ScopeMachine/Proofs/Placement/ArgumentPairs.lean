import ScopeMachine.Proofs.Calls.Seats
import ScopeMachine.Proofs.Placement.ArgumentTables

namespace ScopeMachine

open Memory Arena ScopeMachine.Action

private theorem Table.SamePlace.of_seated {table table' : Table} {memory memory' : Memory}
    {offset : Nat}
    (length : table.length = table'.length) (inside : table.isArena = table'.isArena)
    (bounds : memory.bounds = memory'.bounds) (seated : table.Seated offset memory)
    (seated' : table'.Seated offset memory') : table.SamePlace table' memory memory' := by
  refine ⟨length, ?_, inside, bounds⟩
  cases table with
  | onHeap cells reserved =>
      cases table' with
      | onHeap cells' reserved' => exact seated.1.trans seated'.1.symm
      | inArena => cases inside
  | inArena slice count =>
      cases table' with
      | onHeap => cases inside
      | inArena slice' count' =>
          have watermark : memory.arena.watermark = memory'.arena.watermark :=
            congrArg Bounds.watermark bounds
          have stop := (isTop_iff.mp seated.2).1
          have stop' := (isTop_iff.mp seated'.2).1
          obtain ⟨start, capacity⟩ := slice
          obtain ⟨start', capacity'⟩ := slice'
          have starts : start = offset := seated.1
          have starts' : start' = offset := seated'.1
          have capacities : capacity = capacity' := by
            dsimp only at stop stop'
            omega
          rw [starts, starts', capacities]
          rfl

namespace Terms

variable {Code α β : Type} (terms : Terms Code)

/-- Tables on their way that hold linked values, over machines that mirror each other. -/
structure Flies (link : Link) (args args' : Table) (left right : Machine Code) : Prop
    extends terms.Mirrors link args args' left right where
  content : ∀ slot, link.Cells (args.content slot left.heap.memory)
    (args'.content slot right.heap.memory)
  length : args.length = args'.length
  inside : terms.inStep → args.isArena = args'.isArena
  seated : terms.inStep → ∃ offset, args.Seated offset left.heap.memory ∧
    args'.Seated offset right.heap.memory

variable {terms} {link link' : Link} {left left' right right' : Machine Code}
  {args args' : Table}

namespace Flies

/-- No table at all. -/
theorem none (mirrors : terms.Mirrors link .empty .empty left right) :
    terms.Flies link .empty .empty left right where
  toMirrors := mirrors
  content _ := .blank link
  length := rfl
  inside _ := rfl
  seated inStep := ⟨left.heap.memory.arena.watermark, ⟨rfl, rfl⟩, rfl,
    (congrArg Bounds.watermark (mirrors.bounds inStep)).symm⟩

variable (flies : terms.Flies link args args' left right)
include flies

theorem samePlace (inStep : terms.inStep) :
    args.SamePlace args' left.heap.memory right.heap.memory :=
  have ⟨_, seated, seated'⟩ := flies.seated inStep
  .of_seated flies.length (flies.inside inStep) (flies.bounds inStep) seated seated'

theorem values : List.Forall₂ link.Values (args.values left.heap.memory)
    (args'.values right.heap.memory) := by
  rw [Table.values_eq, Table.values_eq, flies.length, List.forall₂_map_left_iff,
    List.forall₂_map_right_iff, List.forall₂_same]
  exact fun slot _ => (flies.content slot).value

theorem work {table table' : Table} {memory memory' : Memory}
    (steps : left.Calm (fun _ => False) table (left.withMemory memory))
    (steps' : right.Calm (fun _ => False) table' (right.withMemory memory'))
    (content : ∀ slot, link.Cells (table.content slot memory) (table'.content slot memory'))
    (length : table.length = table'.length)
    (samePlace : terms.inStep → table.SamePlace table' memory memory')
    (seated : ∀ {offset}, args.Seated offset left.heap.memory → table.Seated offset memory)
    (seated' : ∀ {offset}, args'.Seated offset right.heap.memory →
      table'.Seated offset memory') :
    Onward link left right link (left.withMemory memory) (right.withMemory memory') ∧
      terms.Flies link table table' (left.withMemory memory) (right.withMemory memory') := by
  refine ⟨onward_of_steps steps steps' (.refl link),
    flies.toMirrors.quiet steps steps' fun inStep => (samePlace inStep).bounds, content, length,
    fun inStep => (samePlace inStep).isArena, fun inStep => ?_⟩
  obtain ⟨offset, here, there⟩ := flies.seated inStep
  exact ⟨offset, seated here, seated' there⟩

theorem push {value value' : Value} (values : link.Values value value') :
    Onward link left right link
        (left.withMemory (args.push value left.heap.memory).2)
        (right.withMemory (args'.push value' right.heap.memory).2) ∧
      terms.Flies link (args.push value left.heap.memory).1
        (args'.push value' right.heap.memory).1
        (left.withMemory (args.push value left.heap.memory).2)
        (right.withMemory (args'.push value' right.heap.memory).2) := by
  refine flies.work (flies.arranged.pushArgs value) (flies.arranged'.pushArgs value')
    (fun slot => ?_) (by rw [Table.length_push, Table.length_push, flies.length])
    (fun inStep => (flies.samePlace inStep).push value value') (·.push value) (·.push value')
  rw [Table.content_push flies.arranged.heap.laid.clean flies.arranged.heap.fits_args,
    Table.content_push flies.arranged'.heap.laid.clean flies.arranged'.heap.fits_args, flies.length]
  split
  · exact .holding values
  · exact flies.content slot

theorem settle {definition definition' : Definition Code}
    (captures : terms.inStep → definition.captures = definition'.captures) :
    Onward link left right link
        (left.withMemory (args.settled definition left.heap.memory).2)
        (right.withMemory (args'.settled definition' right.heap.memory).2) ∧
      terms.Flies link (args.settled definition left.heap.memory).1
        (args'.settled definition' right.heap.memory).1
        (left.withMemory (args.settled definition left.heap.memory).2)
        (right.withMemory (args'.settled definition' right.heap.memory).2) := by
  refine flies.work (flies.arranged.settleArgs definition)
    (flies.arranged'.settleArgs definition') (fun slot => ?_) ?_
    (fun inStep => (flies.samePlace inStep).settled (captures inStep)) (·.settled definition)
    (·.settled definition')
  · rw [Table.content_settled flies.arranged.heap.laid.clean flies.arranged.heap.fits_args,
      Table.content_settled flies.arranged'.heap.laid.clean flies.arranged'.heap.fits_args]
    exact flies.content slot
  · exact (Table.settled_saves 0 args definition _).2.trans
      (flies.length.trans (Table.settled_saves 0 args' definition' _).2.symm)

theorem truncate (shared shared' : CellId → Bool) (length : Nat) :
    Onward link left right link
        (left.withMemory (args.truncate shared length left.heap.memory).2)
        (right.withMemory (args'.truncate shared' length right.heap.memory).2) ∧
      terms.Flies link (args.truncate shared length left.heap.memory).1
        (args'.truncate shared' length right.heap.memory).1
        (left.withMemory (args.truncate shared length left.heap.memory).2)
        (right.withMemory (args'.truncate shared' length right.heap.memory).2) := by
  refine flies.work (flies.arranged.truncateArgs shared length)
    (flies.arranged'.truncateArgs shared' length) (fun slot => ?_)
    (by rw [Table.length_truncate, Table.length_truncate, flies.length])
    (fun inStep => (flies.samePlace inStep).truncate shared shared' length)
    (·.truncate shared length) (·.truncate shared' length)
  rw [Table.content_truncate flies.arranged.heap.laid.clean flies.arranged.heap.fits_args,
    Table.content_truncate flies.arranged'.heap.laid.clean flies.arranged'.heap.fits_args]
  split
  · exact flies.content slot
  · exact .blank link

theorem room (capacity : Nat) :
    Onward link left right link
        (left.withMemory (args.ensureCapacity capacity left.heap.memory).2)
        (right.withMemory (args'.ensureCapacity capacity right.heap.memory).2) ∧
      terms.Flies link (args.ensureCapacity capacity left.heap.memory).1
        (args'.ensureCapacity capacity right.heap.memory).1
        (left.withMemory (args.ensureCapacity capacity left.heap.memory).2)
        (right.withMemory (args'.ensureCapacity capacity right.heap.memory).2) := by
  refine flies.work (flies.arranged.roomArgs capacity) (flies.arranged'.roomArgs capacity)
    (fun slot => ?_) (by rw [Table.length_ensureCapacity, Table.length_ensureCapacity,
      flies.length])
    (fun inStep => (flies.samePlace inStep).ensureCapacity capacity) (·.ensureCapacity capacity)
    (·.ensureCapacity capacity)
  have same := (Table.ensureCapacity_carries flies.arranged.heap.laid.clean
    flies.arranged.heap.fits_args capacity).content slot
  have same' := (Table.ensureCapacity_carries flies.arranged'.heap.laid.clean
    flies.arranged'.heap.fits_args capacity).content slot
  rw [same, same']
  exact flies.content slot

/-- Something else happens that leaves the storage alone. -/
theorem across (grows : link.Grows link') (mirrors : terms.Mirrors link' args args' left' right')
    (memory : left'.heap.memory = left.heap.memory)
    (memory' : right'.heap.memory = right.heap.memory) :
    terms.Flies link' args args' left' right' where
  toMirrors := mirrors
  content slot := by
    rw [memory, memory']
    exact grows.cells (flies.content slot)
  length := flies.length
  inside := flies.inside
  seated := by
    rw [memory, memory']
    exact flies.seated

theorem free (shared shared' : CellId → Bool) :
    Onward link left right link (left.withMemory (args.free shared left.heap.memory))
        (right.withMemory (args'.free shared' right.heap.memory)) ∧
      terms.Mirrors link .empty .empty (left.withMemory (args.free shared left.heap.memory))
        (right.withMemory (args'.free shared' right.heap.memory)) := by
  have steps := flies.arranged.freeArgs (o := fun _ => False) shared
  have steps' := flies.arranged'.freeArgs (o := fun _ => False) shared'
  exact ⟨onward_of_steps steps steps' (.refl link),
    flies.toMirrors.quiet steps steps' fun inStep => (flies.samePlace inStep).free shared shared'⟩

end Flies

theorem Flies.pushEach {values values' : List Value}
    (alike : List.Forall₂ link.Values values values')
    (flies : terms.Flies link args args' left right) :
    Onward link left right link
        (left.withMemory (args.pushEach values left.heap.memory).2)
        (right.withMemory (args'.pushEach values' right.heap.memory).2) ∧
      terms.Flies link (args.pushEach values left.heap.memory).1
        (args'.pushEach values' right.heap.memory).1
        (left.withMemory (args.pushEach values left.heap.memory).2)
        (right.withMemory (args'.pushEach values' right.heap.memory).2) := by
  induction alike generalizing left right args args' with
  | nil => exact ⟨flies.stay _, flies⟩
  | cons first _ induction =>
      have ⟨onward, after⟩ := flies.push first
      have ⟨further, final⟩ := induction after
      exact ⟨onward.trans further, final⟩

theorem Flies.ofValues {values values' : List Value}
    (mirrors : terms.Mirrors link .empty .empty left right)
    (alike : List.Forall₂ link.Values values values') :
    Onward link left right link
        (left.withMemory (Table.ofValues values left.heap.memory).2)
        (right.withMemory (Table.ofValues values' right.heap.memory).2) ∧
      terms.Flies link (Table.ofValues values left.heap.memory).1
        (Table.ofValues values' right.heap.memory).1
        (left.withMemory (Table.ofValues values left.heap.memory).2)
        (right.withMemory (Table.ofValues values' right.heap.memory).2) := by
  have lengths : (Table.ofValues values left.heap.memory).1.length =
      (Table.ofValues values' right.heap.memory).1.length := by
    rw [Table.length_ofValues, Table.length_ofValues, alike.length_eq]
  refine Flies.work (.none mirrors) (mirrors.arranged.makeArgs values)
    (mirrors.arranged'.makeArgs values') (fun slot => ?_) lengths
    (fun inStep => ⟨lengths, rfl, rfl, ?_⟩) (fun seated => ⟨rfl, ?_⟩) (fun seated => ⟨rfl, ?_⟩)
  · rw [Table.content_ofValues, Table.content_ofValues]
    clear lengths
    induction alike generalizing slot with
    | nil => exact .blank link
    | cons first _ induction =>
        cases slot with
        | zero => exact .holding first
        | succ slot => exact induction slot
  · rw [Table.bounds_ofValues, Table.bounds_ofValues]
    exact mirrors.bounds inStep
  · exact (congrArg Bounds.watermark (Table.bounds_ofValues ..)).trans seated.2
  · exact (congrArg Bounds.watermark (Table.bounds_ofValues ..)).trans seated.2

end Terms

end ScopeMachine
