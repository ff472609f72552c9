import Mathlib
import ScopeMachine.Value.Equality

/-!
Equality of values is the greatest relation that looks through arrays element by element. The
comparison without a bound on its depth comes to an end, and the bound never cuts it short.
-/

namespace ScopeMachine

inductive Value.SameLeaf : Value → Value → Prop where
  | null : SameLeaf .null .null
  | bool (value : Bool) : SameLeaf (.bool value) (.bool value)
  | exact (value : Int64) : SameLeaf (.exact value) (.exact value)
  | inexact {left right : Float} (same : (left == right) = true) :
      SameLeaf (.inexact left) (.inexact right)
  | text (value : String) : SameLeaf (.text value) (.text value)
  | function (id : FunctionId) : SameLeaf (.function id) (.function id)
  | object (scope : ScopeId) : SameLeaf (.object scope) (.object scope)
  | type (type : BuiltinType) : SameLeaf (.type type) (.type type)
  | exception (id : ExceptionId) : SameLeaf (.exception id) (.exception id)

namespace Value.SameLeaf

variable {first second third : Value}

theorem symm (same : first.SameLeaf second) : second.SameLeaf first := by
  cases same with
  | inexact same =>
      rw [Float.beq_iff_ne_nan_and_eq] at same
      exact .inexact (Float.beq_iff_ne_nan_and_eq.mpr (by tauto))
  | _ => constructor

theorem trans (left : first.SameLeaf second) (right : second.SameLeaf third) :
    first.SameLeaf third := by
  cases left with
  | inexact left =>
      cases right with
      | inexact right =>
          rw [Float.beq_iff_ne_nan_and_eq] at left right
          refine .inexact (Float.beq_iff_ne_nan_and_eq.mpr ⟨left.1, right.2.1, ?_⟩)
          grind
  | _ => exact right

end Value.SameLeaf

namespace Heap

variable {Code : Type} {heap : Heap Code}

private theorem leafEqual_iff {left right : Value} :
    leafEqual left right = true ↔ left.SameLeaf right := by
  constructor
  · intro equal
    cases left <;> cases right <;> simp only [leafEqual, beq_iff_eq, Bool.false_eq_true] at equal
    all_goals first | subst equal; constructor | constructor
    exact equal
  · rintro (_ | _ | _ | same | _ | _ | _ | _ | _) <;> simp [leafEqual]
    exact same

inductive Alike (heap : Heap Code) (relation : Value → Value → Prop) : Value → Value → Prop where
  | same (id : ArrayId) : Alike heap relation (.array id) (.array id)
  | elements {left right : ArrayId}
      (related : List.Forall₂ relation (heap.elements left) (heap.elements right)) :
      Alike heap relation (.array left) (.array right)
  | leaf {left right : Value} (same : left.SameLeaf right) : Alike heap relation left right

/-- Related values are alike by the relation itself. -/
def IsBisimulation (heap : Heap Code) (relation : Value → Value → Prop) : Prop :=
  ∀ left right, relation left right → heap.Alike relation left right

theorem Alike.mono {relation wider : Value → Value → Prop}
    (wider_of : ∀ {left right}, relation left right → wider left right) {left right : Value}
    (alike : heap.Alike relation left right) : heap.Alike wider left right := by
  cases alike with
  | same id => exact .same id
  | elements related => exact .elements (related.imp fun _ _ => wider_of)
  | leaf same => exact .leaf same

private theorem Alike.forall₂ {relation : Value → Value → Prop} {a b : ArrayId}
    (alike : heap.Alike relation (.array a) (.array b)) (apart : a ≠ b) :
    List.Forall₂ relation (heap.elements a) (heap.elements b) := by
  cases alike with
  | same => exact absurd rfl apart
  | elements related => exact related
  | leaf same => cases same

/-- Comparing two values while the opened pairs of arrays count as equal. Elements are compared
from left to right, up to the first difference. -/
inductive Comparison (heap : Heap Code) :
    List (ArrayId × ArrayId) → Value → Value → Bool → Prop where
  | leaf {opened : List (ArrayId × ArrayId)} {left right : Value}
      (leaves : ∀ a b, ¬ (left = .array a ∧ right = .array b)) :
      Comparison heap opened left right (leafEqual left right)
  | met {opened : List (ArrayId × ArrayId)} {a b : ArrayId} (met : a = b ∨ (a, b) ∈ opened) :
      Comparison heap opened (.array a) (.array b) true
  | unequal {opened : List (ArrayId × ArrayId)} {a b : ArrayId} (apart : a ≠ b)
      (unmet : (a, b) ∉ opened) (lengths : (heap.elements a).length ≠ (heap.elements b).length) :
      Comparison heap opened (.array a) (.array b) false
  | equal {opened : List (ArrayId × ArrayId)} {a b : ArrayId} (apart : a ≠ b)
      (unmet : (a, b) ∉ opened) (lengths : (heap.elements a).length = (heap.elements b).length)
      (same : ∀ pair ∈ (heap.elements a).zip (heap.elements b),
        Comparison heap ((a, b) :: opened) pair.1 pair.2 true) :
      Comparison heap opened (.array a) (.array b) true
  | different {opened : List (ArrayId × ArrayId)} {a b : ArrayId} (apart : a ≠ b)
      (unmet : (a, b) ∉ opened) (lengths : (heap.elements a).length = (heap.elements b).length)
      {before after : List (Value × Value)} {pair : Value × Value}
      (elements : (heap.elements a).zip (heap.elements b) = before ++ pair :: after)
      (same : ∀ earlier ∈ before,
        Comparison heap ((a, b) :: opened) earlier.1 earlier.2 true)
      (differs : Comparison heap ((a, b) :: opened) pair.1 pair.2 false) :
      Comparison heap opened (.array a) (.array b) false

private theorem Comparison.unique {opened : List (ArrayId × ArrayId)} {left right : Value}
    {answer other : Bool} (first : heap.Comparison opened left right answer)
    (second : heap.Comparison opened left right other) : answer = other := by
  induction first generalizing other with
  | leaf leaves =>
      cases second with
      | leaf => rfl
      | met | unequal | equal | different => exact absurd ⟨rfl, rfl⟩ (leaves _ _)
  | met met =>
      cases second with
      | leaf leaves => exact absurd ⟨rfl, rfl⟩ (leaves _ _)
      | met | equal => rfl
      | unequal apart unmet | different apart unmet => exact absurd met (not_or.mpr ⟨apart, unmet⟩)
  | unequal apart unmet lengths =>
      cases second with
      | leaf leaves => exact absurd ⟨rfl, rfl⟩ (leaves _ _)
      | met met => exact absurd met (not_or.mpr ⟨apart, unmet⟩)
      | unequal | different => rfl
      | equal _ _ same => exact absurd same lengths
  | equal apart unmet lengths _ induction =>
      cases second with
      | leaf leaves => exact absurd ⟨rfl, rfl⟩ (leaves _ _)
      | met | equal => rfl
      | unequal _ _ differ => exact absurd lengths differ
      | different _ _ _ elements _ differs =>
          exact induction _ (elements ▸ List.mem_append_right _ List.mem_cons_self) differs
  | different apart unmet lengths elements _ _ _ induction =>
      cases second with
      | leaf leaves => exact absurd ⟨rfl, rfl⟩ (leaves _ _)
      | met met => exact absurd met (not_or.mpr ⟨apart, unmet⟩)
      | unequal | different => rfl
      | equal _ _ _ same =>
          exact induction (same _ (elements ▸ List.mem_append_right _ List.mem_cons_self))

structure Proper (heap : Heap Code) (opened : List (ArrayId × ArrayId)) : Prop where
  nodup : opened.Nodup
  left : ∀ pair ∈ opened, pair.1.index < heap.arrays.size
  right : ∀ pair ∈ opened, pair.2.index < heap.arrays.size

private theorem Proper.length_le {opened : List (ArrayId × ArrayId)} (proper : heap.Proper opened) :
    opened.length ≤ heap.arrays.size * heap.arrays.size := by
  have listed : opened ⊆ (List.range heap.arrays.size ×ˢ List.range heap.arrays.size).map
      fun pair => (⟨pair.1⟩, ⟨pair.2⟩) := by
    intro pair opens
    refine List.mem_map.mpr ⟨(pair.1.index, pair.2.index), ?_, rfl⟩
    exact List.mem_product.mpr ⟨List.mem_range.mpr (proper.left pair opens),
      List.mem_range.mpr (proper.right pair opens)⟩
  calc opened.length
      ≤ (List.range heap.arrays.size ×ˢ List.range heap.arrays.size).length := by
        simpa only [List.length_map] using (proper.nodup.subperm listed).length_le
    _ = heap.arrays.size * heap.arrays.size := by
        rw [List.length_product, List.length_range]

private theorem Proper.cons {opened : List (ArrayId × ArrayId)} (proper : heap.Proper opened)
    {a b : ArrayId} (unmet : (a, b) ∉ opened) {pair : Value × Value}
    (listed : pair ∈ (heap.elements a).zip (heap.elements b)) :
    heap.Proper ((a, b) :: opened) := by
  have left := index_lt_of_mem_elements (List.of_mem_zip listed).1
  have right := index_lt_of_mem_elements (List.of_mem_zip listed).2
  exact ⟨List.nodup_cons.mpr ⟨unmet, proper.nodup⟩, List.forall_mem_cons.mpr ⟨left, proper.left⟩,
    List.forall_mem_cons.mpr ⟨right, proper.right⟩⟩

private theorem equalWithin_comparison {budget : Nat} {opened : List (ArrayId × ArrayId)}
    (proper : heap.Proper opened)
    (enough : heap.arrays.size * heap.arrays.size < budget + opened.length)
    (left right : Value) :
    heap.Comparison opened left right (heap.equalWithin budget opened left right) := by
  induction budget generalizing opened left right with
  | zero => exact absurd proper.length_le (by omega)
  | succ budget induction =>
      unfold equalWithin
      split
      next a b =>
        by_cases met : a = b ∨ (a, b) ∈ opened
        · have passes : (a == b || opened.contains (a, b)) = true := by simpa using met
          simpa only [passes, Bool.true_or] using .met met
        · obtain ⟨apart, unmet⟩ := not_or.mp met
          have fails : (a == b || opened.contains (a, b)) = false := by simpa using ⟨apart, unmet⟩
          have element : ∀ pair ∈ (heap.elements a).zip (heap.elements b),
              heap.Comparison ((a, b) :: opened) pair.1 pair.2
                (heap.equalWithin budget ((a, b) :: opened) pair.1 pair.2) :=
            fun pair listed => induction (proper.cons unmet listed) (by simp; omega) ..
          simp only [fails, Bool.false_or]
          by_cases lengths : (heap.elements a).length = (heap.elements b).length
          · have sizes : ((heap.array a).elements.size == (heap.array b).elements.size) = true := by
              simpa [elements] using lengths
            simp only [sizes, Bool.true_and]
            cases all : ((heap.elements a).zip (heap.elements b)).all fun pair =>
                heap.equalWithin budget ((a, b) :: opened) pair.1 pair.2 with
            | true =>
                refine .equal apart unmet lengths fun pair listed => ?_
                have same := List.all_eq_true.mp all pair listed
                exact same ▸ element pair listed
            | false =>
                have fails : (((heap.elements a).zip (heap.elements b)).find? fun pair =>
                    ! heap.equalWithin budget ((a, b) :: opened) pair.1 pair.2).isSome := by
                  simpa [List.find?_isSome] using all
                obtain ⟨pair, first⟩ := Option.isSome_iff_exists.mp fails
                obtain ⟨differs, before, after, listed, passes⟩ :=
                  List.find?_eq_some_iff_append.mp first
                simp only [Bool.not_not, Bool.not_eq_true'] at passes differs
                refine .different apart unmet lengths listed (fun earlier early => ?_) ?_
                · exact passes earlier early ▸
                    element earlier (listed ▸ List.mem_append_left _ early)
                · exact differs ▸
                    element pair (listed ▸ List.mem_append_right _ List.mem_cons_self)
          · have sizes : ((heap.array a).elements.size == (heap.array b).elements.size) =
              false := by
              simpa [elements] using lengths
            simpa only [sizes, Bool.false_and] using .unequal apart unmet lengths
      next leaves =>
        exact .leaf fun a b both => leaves a b both.1 both.2

private theorem equal_comparison (heap : Heap Code) (left right : Value) :
    heap.Comparison [] left right (heap.equal left right) :=
  equalWithin_comparison ⟨.nil, nofun, nofun⟩ (Nat.lt_succ_self _) left right

inductive Justified (heap : Heap Code) : List (ArrayId × ArrayId) → Prop where
  | nil : Justified heap []
  | cons {opened : List (ArrayId × ArrayId)} {a b : ArrayId} (outer : Justified heap opened)
      (lengths : (heap.elements a).length = (heap.elements b).length)
      (same : ∀ pair ∈ (heap.elements a).zip (heap.elements b),
        heap.Comparison ((a, b) :: opened) pair.1 pair.2 true) :
      Justified heap ((a, b) :: opened)

def Upheld (heap : Heap Code) (left right : Value) : Prop :=
  ∃ opened, heap.Justified opened ∧ heap.Comparison opened left right true

private theorem Justified.elements {opened : List (ArrayId × ArrayId)}
    (justified : heap.Justified opened)
    {a b : ArrayId} (opens : (a, b) ∈ opened) :
    List.Forall₂ heap.Upheld (heap.elements a) (heap.elements b) := by
  induction justified with
  | nil => cases opens
  | @cons outer a' b' within lengths same induction =>
      rcases List.mem_cons.mp opens with here | further
      · cases here
        exact List.forall₂_iff_zip.mpr ⟨lengths, fun listed =>
          ⟨_, .cons within lengths same, same _ listed⟩⟩
      · exact induction further

private theorem isBisimulation_upheld : heap.IsBisimulation heap.Upheld := by
  rintro left right ⟨opened, justified, compared⟩
  generalize answered : true = answer at compared
  cases compared with
  | leaf => exact .leaf (leafEqual_iff.mp answered.symm)
  | @met _ a b met =>
      rcases met with rfl | opens
      · exact .same a
      · exact .elements (justified.elements opens)
  | equal apart unmet lengths same =>
      exact .elements (List.forall₂_iff_zip.mpr ⟨lengths, fun listed =>
        ⟨_, .cons justified lengths same, same _ listed⟩⟩)
  | unequal | different => cases answered

private theorem IsBisimulation.compares {relation : Value → Value → Prop}
    (bisimulation : heap.IsBisimulation relation) {opened : List (ArrayId × ArrayId)}
    {left right : Value} {answer : Bool} (related : relation left right)
    (compared : heap.Comparison opened left right answer) : answer = true := by
  induction compared with
  | leaf leaves =>
      refine leafEqual_iff.mpr ?_
      cases bisimulation _ _ related with
      | same | elements => exact absurd ⟨rfl, rfl⟩ (leaves _ _)
      | leaf same => exact same
  | met | equal => rfl
  | unequal apart _ lengths =>
      exact absurd ((bisimulation _ _ related).forall₂ apart).length_eq lengths
  | different apart _ _ listed _ _ _ induction =>
      have elements := (bisimulation _ _ related).forall₂ apart
      refine induction (List.forall₂_zip elements ?_)
      exact listed ▸ List.mem_append_right _ List.mem_cons_self

private theorem isBisimulation_equal (heap : Heap Code) :
    heap.IsBisimulation fun left right => heap.equal left right = true := by
  intro left right equal
  have upheld : heap.Upheld left right := ⟨[], .nil, equal ▸ equal_comparison heap left right⟩
  refine (isBisimulation_upheld _ _ upheld).mono ?_
  exact fun upheld => isBisimulation_upheld.compares upheld (equal_comparison heap _ _)

private theorem IsBisimulation.equal {relation : Value → Value → Prop}
    (bisimulation : heap.IsBisimulation relation) {left right : Value}
    (related : relation left right) : heap.equal left right = true :=
  bisimulation.compares related (equal_comparison heap left right)

private theorem IsBisimulation.swap {relation : Value → Value → Prop}
    (bisimulation : heap.IsBisimulation relation) :
    heap.IsBisimulation fun left right => relation right left := by
  intro left right related
  cases bisimulation _ _ related with
  | same id => exact .same id
  | elements elements => exact .elements (List.Forall₂.flip elements)
  | leaf same => exact .leaf same.symm

private theorem IsBisimulation.across {relation : Value → Value → Prop}
    (bisimulation : heap.IsBisimulation relation) :
    heap.IsBisimulation fun left right =>
      relation left right ∨ ∃ middle, relation left middle ∧ relation middle right := by
  rintro left right (related | ⟨middle, first, second⟩)
  · exact (bisimulation _ _ related).mono .inl
  · have next := bisimulation _ _ second
    cases bisimulation _ _ first with
    | same => exact next.mono .inl
    | leaf same =>
        cases next with
        | same | elements => cases same
        | leaf next => exact .leaf (same.trans next)
    | elements outer =>
        cases next with
        | same => exact .elements (outer.imp fun _ _ => .inl)
        | leaf same => cases same
        | elements inner =>
            refine .elements (List.forall₂_iff_get.mpr
              ⟨outer.length_eq.trans inner.length_eq, fun slot here there => ?_⟩)
            have between := outer.length_eq ▸ here
            exact .inr ⟨_, outer.get here between, inner.get between there⟩

private theorem equal_self_iff {value : Value} : heap.equal value value = true ↔
    ∀ number : Float, value = .inexact number → number.isNaN = false := by
  cases value with
  | inexact number =>
      simp [equal, equalWithin, leafEqual, Float.isNaN_eq_decide_eq_nan, Float.beq_self_iff]
  | _ => simp [equal, equalWithin, leafEqual]

private theorem equal_symm (heap : Heap Code) (left right : Value) :
    heap.equal left right = heap.equal right left := by
  have swapped : ∀ {left right}, heap.equal left right = true → heap.equal right left = true :=
    fun related => (isBisimulation_equal heap).swap.equal related
  exact Bool.eq_iff_iff.mpr ⟨swapped, swapped⟩

private theorem equal_trans {first second third : Value} (left : heap.equal first second = true)
    (right : heap.equal second third = true) : heap.equal first third = true :=
  (isBisimulation_equal heap).across.equal (.inr ⟨second, left, right⟩)

/-- The comparison ends on all values, with one answer; it calls two values equal exactly when the
greatest bisimulation relates them, which makes equality symmetric, transitive, and reflexive but
for the number that is not a number. -/
theorem equal_is_greatest_bisimulation (heap : Heap Code) :
    (∀ left right answer, heap.Comparison [] left right answer ↔ answer = heap.equal left right) ∧
      (heap.IsBisimulation fun left right => heap.equal left right = true) ∧
      (∀ relation, heap.IsBisimulation relation → ∀ left right, relation left right →
        heap.equal left right = true) ∧
      (∀ left right, heap.equal left right = heap.equal right left) ∧
      (∀ first second third, heap.equal first second = true → heap.equal second third = true →
        heap.equal first third = true) ∧
      ∀ value, heap.equal value value = true ↔
        ∀ number : Float, value = .inexact number → number.isNaN = false := by
  refine ⟨fun left right answer => ⟨fun compared => ?_, ?_⟩, isBisimulation_equal heap,
    fun _ bisimulation _ _ => bisimulation.equal, equal_symm heap, fun _ _ _ => equal_trans,
    fun _ => equal_self_iff⟩
  · exact compared.unique (equal_comparison heap left right)
  · rintro rfl
    exact equal_comparison heap left right

def loops : Heap Unit :=
  { ofCapacity 0 with
    arrays := #[⟨#[.array ⟨0⟩], false⟩, ⟨#[.array ⟨2⟩], false⟩, ⟨#[.array ⟨1⟩], false⟩] }

theorem equal_is_greatest_bisimulation_loops :
    loops.equal (.array ⟨0⟩) (.array ⟨1⟩) = true := by
  refine (equal_is_greatest_bisimulation loops).2.2.1
    (fun left right => left = .array ⟨0⟩ ∧ (right = .array ⟨1⟩ ∨ right = .array ⟨2⟩)) ?_ _ _
    ⟨rfl, .inl rfl⟩
  rintro _ _ ⟨rfl, rfl | rfl⟩
  · exact .elements (.cons ⟨rfl, .inr rfl⟩ .nil)
  · exact .elements (.cons ⟨rfl, .inl rfl⟩ .nil)

end Heap

end ScopeMachine
