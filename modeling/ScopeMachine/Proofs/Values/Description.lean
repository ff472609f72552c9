import Mathlib.Data.List.Nodup
import Mathlib.Data.List.Perm.Subperm
import Mathlib.Logic.Relation
import ScopeMachine.Value.Rendering

/-!
The text of a value. Writing it down without a bound on the depth comes to an end on every value,
also where arrays and causes form cycles, and where they form none the two guards leave no trace.
-/

namespace ScopeMachine.Heap

variable {Code : Type} {heap : Heap Code}

def arrayText (texts : List String) : String := "[" ++ ", ".intercalate texts ++ "]"

def headText (exception : ExceptionObject) : String :=
  exception.type.name ++ ": " ++ exception.message

def causedText (exception : ExceptionObject) (cause : String) : String :=
  headText exception ++ "\ncaused by: " ++ cause

def IsLeaf (value : Value) : Prop :=
  (∀ id, value ≠ .array id) ∧ ∀ id, value ≠ .exception id

/-- Writing down a value that stands `links` causes deep inside the arrays `opened`. -/
inductive Writes (heap : Heap Code) : Nat → List ArrayId → Value → String → Prop where
  | tooDeep {links : Nat} {opened : List ArrayId} {value : Value} (deep : maxLinks < links) :
      Writes heap links opened value unknownMessage
  | met {links : Nat} {opened : List ArrayId} {id : ArrayId} (shallow : links ≤ maxLinks)
      (opens : id ∈ opened) : Writes heap links opened (.array id) "[...]"
  | array {links : Nat} {opened : List ArrayId} {id : ArrayId} (shallow : links ≤ maxLinks)
      (unmet : id ∉ opened) {texts : List String}
      (lengths : (heap.elements id).length = texts.length)
      (elements : ∀ pair ∈ (heap.elements id).zip texts,
        Writes heap links (id :: opened) pair.1 pair.2) :
      Writes heap links opened (.array id) (arrayText texts)
  | uncaused {links : Nat} {opened : List ArrayId} {id : ExceptionId} (shallow : links ≤ maxLinks)
      (none : (heap.exception id).cause = none) :
      Writes heap links opened (.exception id) (headText (heap.exception id))
  | caused {links : Nat} {opened : List ArrayId} {id : ExceptionId} (shallow : links ≤ maxLinks)
      {cause : Value} (some : (heap.exception id).cause = some cause) {text : String}
      (rest : Writes heap (links + 1) opened cause text) :
      Writes heap links opened (.exception id) (causedText (heap.exception id) text)
  | leaf {links : Nat} {opened : List ArrayId} {value : Value} (shallow : links ≤ maxLinks)
      (leaf : IsLeaf value) : Writes heap links opened value (heap.leafText value)

/-- Writing down a value in full, with no guard at all. -/
inductive WritesPlainly (heap : Heap Code) : Value → String → Prop where
  | array {id : ArrayId} {texts : List String}
      (lengths : (heap.elements id).length = texts.length)
      (elements : ∀ pair ∈ (heap.elements id).zip texts, WritesPlainly heap pair.1 pair.2) :
      WritesPlainly heap (.array id) (arrayText texts)
  | uncaused {id : ExceptionId} (none : (heap.exception id).cause = none) :
      WritesPlainly heap (.exception id) (headText (heap.exception id))
  | caused {id : ExceptionId} {cause : Value} (some : (heap.exception id).cause = some cause)
      {text : String} (rest : WritesPlainly heap cause text) :
      WritesPlainly heap (.exception id) (causedText (heap.exception id) text)
  | leaf {value : Value} (leaf : IsLeaf value) : WritesPlainly heap value (heap.leafText value)

private theorem eq_of_zip_unique {α β : Type} {items : List α} {left right : List β}
    {relation : α → β → Prop} (leftLength : items.length = left.length)
    (rightLength : items.length = right.length)
    (related : ∀ pair ∈ items.zip right, relation pair.1 pair.2)
    (unique : ∀ pair ∈ items.zip left, ∀ other, relation pair.1 other → pair.2 = other) :
    left = right := by
  refine List.ext_getElem (leftLength.symm.trans rightLength) fun slot here there => ?_
  have inside : slot < items.length := leftLength ▸ here
  refine unique (items[slot], left[slot]) ?_ right[slot] (related (items[slot], right[slot]) ?_)
  · exact List.mem_iff_getElem.mpr
      ⟨slot, List.length_zip ▸ Nat.lt_min.mpr ⟨inside, here⟩, List.getElem_zip⟩
  · exact List.mem_iff_getElem.mpr
      ⟨slot, List.length_zip ▸ Nat.lt_min.mpr ⟨inside, there⟩, List.getElem_zip⟩

private theorem Writes.unique {links : Nat} {opened : List ArrayId} {value : Value}
    {text other : String}
    (first : heap.Writes links opened value text) (second : heap.Writes links opened value other) :
    text = other := by
  induction first generalizing other with
  | tooDeep deep =>
      cases second with
      | tooDeep => rfl
      | met shallow | array shallow | uncaused shallow | caused shallow | leaf shallow =>
          exact absurd shallow (Nat.not_le.mpr deep)
  | met shallow opens =>
      cases second with
      | tooDeep deep => exact absurd shallow (Nat.not_le.mpr deep)
      | met => rfl
      | array _ unmet => exact absurd opens unmet
      | leaf _ leaf => exact absurd rfl (leaf.1 _)
  | array shallow unmet lengths _ induction =>
      cases second with
      | tooDeep deep => exact absurd shallow (Nat.not_le.mpr deep)
      | met _ opens => exact absurd opens unmet
      | array _ _ lengths' elements' =>
          rw [eq_of_zip_unique lengths lengths' elements' fun pair listed _ =>
            induction pair listed]
      | leaf _ leaf => exact absurd rfl (leaf.1 _)
  | uncaused shallow none =>
      cases second with
      | tooDeep deep => exact absurd shallow (Nat.not_le.mpr deep)
      | uncaused => rfl
      | caused _ some => cases none.symm.trans some
      | leaf _ leaf => exact absurd rfl (leaf.2 _)
  | caused shallow some _ induction =>
      cases second with
      | tooDeep deep => exact absurd shallow (Nat.not_le.mpr deep)
      | uncaused _ none => cases none.symm.trans some
      | caused _ some' rest =>
          cases some.symm.trans some'
          rw [induction rest]
      | leaf _ leaf => exact absurd rfl (leaf.2 _)
  | leaf shallow leaf =>
      cases second with
      | tooDeep deep => exact absurd shallow (Nat.not_le.mpr deep)
      | met | array => exact absurd rfl (leaf.1 _)
      | uncaused | caused => exact absurd rfl (leaf.2 _)
      | leaf => rfl

private theorem WritesPlainly.unique {value : Value} {text other : String}
    (first : heap.WritesPlainly value text) (second : heap.WritesPlainly value other) :
    text = other := by
  induction first generalizing other with
  | array lengths _ induction =>
      cases second with
      | array lengths' elements' =>
          rw [eq_of_zip_unique lengths lengths' elements' fun pair listed _ =>
            induction pair listed]
      | leaf leaf => exact absurd rfl (leaf.1 _)
  | uncaused none =>
      cases second with
      | uncaused => rfl
      | caused some => cases none.symm.trans some
      | leaf leaf => exact absurd rfl (leaf.2 _)
  | caused some _ induction =>
      cases second with
      | uncaused none => cases none.symm.trans some
      | caused some' rest =>
          cases some.symm.trans some'
          rw [induction rest]
      | leaf leaf => exact absurd rfl (leaf.2 _)
  | leaf leaf =>
      cases second with
      | array => exact absurd rfl (leaf.1 _)
      | uncaused | caused => exact absurd rfl (leaf.2 _)
      | leaf => rfl

private theorem opened_length_le {opened : List ArrayId} (nodup : opened.Nodup)
    (old : ∀ id ∈ opened, id.index < heap.arrays.size) : opened.length ≤ heap.arrays.size := by
  have listed : opened ⊆ (List.range heap.arrays.size).map ArrayId.mk := fun id opens =>
    List.mem_map.mpr ⟨id.index, List.mem_range.mpr (old id opens), rfl⟩
  simpa using (nodup.subperm listed).length_le

private theorem textWithin_writes {budget links : Nat} {opened : List ArrayId}
    (nodup : opened.Nodup)
    (old : ∀ id ∈ opened, id.index < heap.arrays.size)
    (enough : heap.arrays.size + maxLinks + 2 ≤ budget + opened.length + links)
    (within : links ≤ maxLinks + 1) (value : Value) :
    heap.Writes links opened value (heap.textWithin budget links opened value) := by
  induction budget generalizing links opened value with
  | zero => exact absurd (opened_length_le nodup old) (by omega)
  | succ budget induction =>
      unfold textWithin
      split
      next deep => exact .tooDeep deep
      next shallow =>
        have shallow := Nat.not_lt.mp shallow
        split
        next id =>
          split
          next opens => exact .met shallow (by simpa using opens)
          next unmet =>
            have unmet : id ∉ opened := by simpa using unmet
            refine .array shallow unmet (List.length_map _).symm fun pair listed => ?_
            rw [List.zip_map_right, List.zip_eq_zipWith, List.zipWith_self, List.map_map] at listed
            obtain ⟨element, member, rfl⟩ := List.mem_map.mp listed
            exact induction (List.nodup_cons.mpr ⟨unmet, nodup⟩)
              (List.forall_mem_cons.mpr ⟨index_lt_of_mem_elements member, old⟩)
              (by rw [List.length_cons]; omega) within element
        next id =>
          dsimp only
          split
          next none => exact .uncaused shallow none
          next cause some =>
            exact .caused shallow some (induction nodup old (by omega) (by omega) cause)
        next arrays exceptions => exact .leaf shallow ⟨arrays, exceptions⟩

theorem writes_iff {value : Value} {text : String} :
    heap.Writes 0 [] value text ↔ text = heap.text value := by
  have written : heap.Writes 0 [] value (heap.text value) :=
    textWithin_writes .nil nofun (by simp) (Nat.zero_le _) value
  exact ⟨fun other => other.unique written, fun same => same ▸ written⟩

inductive Leads (heap : Heap Code) : Value → Value → Prop where
  | element {id : ArrayId} {value : Value} (listed : value ∈ heap.elements id) :
      Leads heap (.array id) value
  | cause {id : ExceptionId} {value : Value} (some : (heap.exception id).cause = some value) :
      Leads heap (.exception id) value

/-- Nothing that can be reached from the value leads back to itself. -/
def Acyclic (heap : Heap Code) (value : Value) : Prop :=
  ∀ reached, Relation.ReflTransGen heap.Leads value reached →
    ¬ Relation.TransGen heap.Leads reached reached

/-- A path from one value to another that follows so many causes. -/
inductive Path (heap : Heap Code) : Nat → Value → Value → Prop where
  | here (value : Value) : Path heap 0 value value
  | element {causes : Nat} {id : ArrayId} {value last : Value} (listed : value ∈ heap.elements id)
      (rest : Path heap causes value last) : Path heap causes (.array id) last
  | cause {causes : Nat} {id : ExceptionId} {value last : Value}
      (some : (heap.exception id).cause = some value) (rest : Path heap causes value last) :
      Path heap (causes + 1) (.exception id) last

private theorem Acyclic.of_leads {value next : Value} (acyclic : heap.Acyclic value)
    (leads : heap.Leads value next) : heap.Acyclic next :=
  fun reached path => acyclic reached (.head leads path)

private theorem Writes.plainly {links : Nat} {opened : List ArrayId} {value : Value} {text : String}
    (written : heap.Writes links opened value text) (acyclic : heap.Acyclic value)
    (unmet : ∀ id ∈ opened, ¬ Relation.ReflTransGen heap.Leads value (.array id))
    (short : ∀ causes last, heap.Path causes value last → links + causes ≤ maxLinks) :
    heap.WritesPlainly value text := by
  induction written with
  | tooDeep deep => exact absurd (short 0 _ (.here _)) (Nat.not_le.mpr deep)
  | met _ opens => exact absurd .refl (unmet _ opens)
  | array _ _ lengths elements induction =>
      refine .array lengths fun pair listed => ?_
      have leads : heap.Leads _ pair.1 := .element (List.of_mem_zip listed).1
      refine induction pair listed (acyclic.of_leads leads) (List.forall_mem_cons.mpr ⟨?_, ?_⟩) ?_
      · exact fun back => acyclic _ .refl (.head' leads back)
      · exact fun id opens path => unmet id opens (.head leads path)
      · exact fun causes last path => short causes last (.element (List.of_mem_zip listed).1 path)
  | uncaused _ none => exact .uncaused none
  | caused _ some _ induction =>
      refine .caused some (induction (acyclic.of_leads (.cause some)) ?_ ?_)
      · exact fun id opens path => unmet id opens (.head (.cause some) path)
      · intro causes last path
        have := short (causes + 1) last (.cause some path)
        omega
  | leaf _ leaf => exact .leaf leaf

/-- Writing a value down ends on every value, with one text, which is also the description of the
value when it is thrown. On a value without cycles from which no path follows more than five causes
that is the text written in full. -/
theorem text_ends_and_guards_unseen (heap : Heap Code) :
    (∀ value text, heap.Writes 0 [] value text ↔ text = heap.text value) ∧
      (∀ value, heap.faultMessage (.thrown value) = heap.text value) ∧
      ∀ value, heap.Acyclic value → (∀ causes last, heap.Path causes value last → causes ≤ 5) →
        ∀ text, heap.WritesPlainly value text ↔ text = heap.text value := by
  refine ⟨fun _ _ => writes_iff, fun _ => rfl, fun value acyclic short text => ?_⟩
  have plainly : heap.WritesPlainly value (heap.text value) :=
    (writes_iff.mpr rfl).plainly acyclic nofun fun causes last path =>
      (Nat.zero_add causes).symm ▸ short causes last path
  exact ⟨fun other => other.unique plainly, fun same => same ▸ plainly⟩

/-- An array that holds another one twice, and a chain of exceptions, five causes long. -/
def sharing : Heap Unit :=
  let link (name : String) (cause : Value) : ExceptionObject := ⟨.exception, name, some cause, none⟩
  { ofCapacity 0 with
    arrays := #[⟨#[.array ⟨1⟩, .array ⟨1⟩], false⟩, ⟨#[.text "x"], false⟩]
    exceptions := #[link "a" (.exception ⟨1⟩), link "b" (.exception ⟨2⟩), link "c" (.exception ⟨3⟩),
      link "d" (.exception ⟨4⟩), link "e" (.array ⟨0⟩)] }

def sharingHeight : Value → Nat × Nat
  | .exception ⟨position⟩ => (7 - position, 5 - position)
  | .array ⟨position⟩ => (2 - position, 0)
  | _ => (0, 0)

private theorem element_sharing {id : ArrayId} {value : Value}
    (listed : value ∈ sharing.elements id) :
    (sharingHeight value).1 < (sharingHeight (.array id)).1 ∧ (sharingHeight value).2 = 0 := by
  match id with
  | ⟨0⟩ | ⟨1⟩ =>
      simp [elements, array, sharing] at listed
      subst listed
      decide
  | ⟨position + 2⟩ =>
      have old := index_lt_of_mem_elements listed
      exact absurd old (by simp [sharing])

private theorem cause_sharing {id : ExceptionId} {value : Value}
    (some : (sharing.exception id).cause = some value) :
    (sharingHeight value).1 < (sharingHeight (.exception id)).1 ∧
      (sharingHeight value).2 < (sharingHeight (.exception id)).2 := by
  match id with
  | ⟨0⟩ | ⟨1⟩ | ⟨2⟩ | ⟨3⟩ | ⟨4⟩ =>
      cases some
      decide
  | ⟨position + 5⟩ =>
      simp [exception, sharing] at some
      cases some

private theorem acyclic_sharing (value : Value) : sharing.Acyclic value := by
  intro reached _ cycle
  have falls : ∀ {first last}, Relation.TransGen sharing.Leads first last →
      (sharingHeight last).1 < (sharingHeight first).1 := by
    intro first last path
    have step : ∀ {value next}, sharing.Leads value next →
        (sharingHeight next).1 < (sharingHeight value).1
      | _, _, .element listed => (element_sharing listed).1
      | _, _, .cause caused => (cause_sharing caused).1
    induction path with
    | single leads => exact step leads
    | tail _ leads induction => exact Nat.lt_trans (step leads) induction
  exact Nat.lt_irrefl _ (falls cycle)

private theorem causes_sharing {causes : Nat} {value last : Value}
    (path : sharing.Path causes value last) : causes ≤ (sharingHeight value).2 := by
  induction path with
  | here => exact Nat.zero_le _
  | element listed _ induction =>
      rw [(element_sharing listed).2] at induction
      exact Nat.le_trans induction (Nat.zero_le _)
  | cause some _ induction => exact Nat.le_trans (Nat.succ_le_succ induction) (cause_sharing some).2

theorem text_ends_and_guards_unseen_sharing :
    sharing.WritesPlainly (.exception ⟨0⟩)
      ("Exception: a\ncaused by: Exception: b\ncaused by: Exception: c\ncaused by: " ++
        "Exception: d\ncaused by: Exception: e\ncaused by: [[x], [x]]") :=
  ((text_ends_and_guards_unseen sharing).2.2 (.exception ⟨0⟩) (acyclic_sharing _)
    (fun _ _ path => causes_sharing path) _).mpr (by decide +kernel)

end ScopeMachine.Heap
