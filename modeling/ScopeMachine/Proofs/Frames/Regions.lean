import ScopeMachine.Proofs.Frames.Steady

namespace ScopeMachine

open Arena

namespace Arena.Bounds

def markOf? (bounds : Bounds) : Nat → Option Nat
  | 0 => none
  | depth + 1 => bounds.marks.reverse[depth]?

/-- The slots of one frame: from its mark up to the mark of the next inner frame. -/
def Region (bounds : Bounds) (depth position : Nat) : Prop :=
  (∃ mark, bounds.markOf? depth = some mark ∧ mark ≤ position) ∧
    ∀ inner, bounds.markOf? (depth + 1) = some inner → position < inner

theorem markOf?_cons (watermark mark capacity depth : Nat) (marks : List Nat) :
    (Bounds.mk watermark (mark :: marks) capacity).markOf? depth =
      if depth = marks.length + 1 then some mark
      else (Bounds.mk watermark marks capacity).markOf? depth := by
  cases depth with
  | zero => rfl
  | succ depth =>
      simp only [markOf?, List.reverse_cons, Nat.add_right_cancel_iff]
      rw [List.getElem?_append, List.length_reverse]
      split
      next below => rw [if_neg (Nat.ne_of_lt below)]
      next beyond =>
        split
        next same => simp [same]
        next apart =>
          have past : marks.length < depth := by omega
          rw [List.getElem?_eq_none (by simp; omega), List.getElem?_eq_none (by simp; omega)]

theorem markOf?_eq_none {bounds : Bounds} {depth : Nat} (past : bounds.marks.length < depth) :
    bounds.markOf? depth = none := by
  cases depth with
  | zero => rfl
  | succ depth => exact List.getElem?_eq_none (by simp; omega)

/-- Every slot from the innermost mark up belongs to the innermost frame. -/
theorem region_of_floor_le {bounds : Bounds} {position : Nat} (framed : 0 < bounds.marks.length)
    (above : bounds.floor ≤ position) : bounds.Region bounds.marks.length position := by
  obtain ⟨watermark, marks, capacity⟩ := bounds
  cases marks with
  | nil => cases framed
  | cons mark marks =>
      constructor
      · refine ⟨mark, ?_, above⟩
        rw [markOf?_cons]
        exact if_pos rfl
      · intro inner found
        rw [markOf?_eq_none (Nat.lt_succ_self _)] at found
        cases found

/-- A slot of an outer frame lies below the innermost mark. -/
theorem lt_of_region {watermark mark capacity depth position : Nat} {marks : List Nat}
    (sorted : (mark :: marks).Pairwise (· ≥ ·)) (outer : depth ≤ marks.length)
    (region : (Bounds.mk watermark (mark :: marks) capacity).Region depth position) :
    position < mark := by
  by_cases last : depth = marks.length
  · refine region.2 mark ?_
    rw [markOf?_cons, if_pos (congrArg Nat.succ last)]
  · have below : depth < marks.reverse.length := by
      rw [List.length_reverse]
      omega
    have found : (Bounds.mk watermark (mark :: marks) capacity).markOf? (depth + 1) =
        some marks.reverse[depth] := by
      rw [markOf?_cons, if_neg (by omega)]
      exact List.getElem?_eq_getElem below
    refine Nat.lt_of_lt_of_le (region.2 _ found) ?_
    exact List.rel_of_pairwise_cons sorted (List.mem_reverse.mp (List.getElem_mem below))

theorem not_region_of_floor_le {bounds : Bounds} {depth position : Nat}
    (sorted : bounds.marks.Pairwise (· ≥ ·)) (outer : depth < bounds.marks.length)
    (above : bounds.floor ≤ position) : ¬ bounds.Region depth position := by
  obtain ⟨watermark, marks, capacity⟩ := bounds
  cases marks with
  | nil => cases outer
  | cons mark marks =>
      intro region
      exact Nat.not_lt_of_le above (lt_of_region sorted (Nat.le_of_lt_succ outer) region)

theorem region_of_cons {watermark watermark' mark capacity depth position : Nat}
    {marks : List Nat} (outer : depth ≤ marks.length)
    (region : (Bounds.mk watermark (mark :: marks) capacity).Region depth position) :
    (Bounds.mk watermark' marks capacity).Region depth position := by
  obtain ⟨⟨start, found, above⟩, below⟩ := region
  constructor
  · rw [markOf?_cons, if_neg (by omega)] at found
    exact ⟨start, found, above⟩
  · intro inner found
    refine below inner ?_
    rw [markOf?_cons]
    split
    next same =>
      have past : (Bounds.mk watermark' marks capacity).markOf? (depth + 1) = none :=
        markOf?_eq_none (Nat.lt_succ_of_le (Nat.le_of_eq (Nat.succ.inj same).symm))
      rw [past] at found
      cases found
    next => exact found

theorem region_cons {watermark watermark' mark capacity depth position : Nat}
    {marks : List Nat} (outer : depth ≤ marks.length) (below : position < mark)
    (region : (Bounds.mk watermark marks capacity).Region depth position) :
    (Bounds.mk watermark' (mark :: marks) capacity).Region depth position := by
  obtain ⟨⟨start, found, above⟩, inside⟩ := region
  constructor
  · refine ⟨start, ?_, above⟩
    rw [markOf?_cons, if_neg (by omega)]
    exact found
  · intro inner found
    rw [markOf?_cons] at found
    split at found
    next => cases found; exact below
    next => exact inside inner found

theorem region_of_marks {bounds bounds' : Bounds} (same : bounds'.marks = bounds.marks)
    {depth position : Nat} (region : bounds.Region depth position) :
    bounds'.Region depth position := by
  unfold Region markOf? at region ⊢
  rw [same]
  exact region

end Arena.Bounds

end ScopeMachine
