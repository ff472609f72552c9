import Mathlib.Data.List.Induction
import Mathlib.Data.List.Nodup
import Mathlib.Data.List.Perm.Subperm
import ScopeMachine.Interner

/-!
Names and ids over any history of calls. An interner's two stores stay inverse to each other, and
ids go to the names in the order in which they are first interned.
-/

namespace ScopeMachine

/-- A list without its repetitions, when one more item comes last. -/
theorem eraseDups_concat {α : Type} [BEq α] [LawfulBEq α] (items : List α) (item : α) :
    (items ++ [item]).eraseDups =
      if items.eraseDups.contains item then items.eraseDups else items.eraseDups ++ [item] := by
  rw [List.eraseDups_append]
  by_cases known : item ∈ items
  · simp [List.removeAll, known, List.mem_eraseDups]
  · simp [List.removeAll, known, List.mem_eraseDups, List.eraseDups_cons]

theorem nodup_eraseDups {α : Type} [BEq α] [LawfulBEq α] (items : List α) :
    items.eraseDups.Nodup := by
  induction items using List.reverseRecOn with
  | nil => exact List.nodup_nil
  | append_singleton items item induction =>
      rw [eraseDups_concat]
      split
      next => exact induction
      next new =>
        refine List.nodup_append.mpr ⟨induction, List.nodup_singleton item, ?_⟩
        rintro other listed _ last rfl
        obtain rfl := List.mem_singleton.mp last
        exact new (List.contains_iff_mem.mpr listed)

namespace Interner

/-- A call that asks for the symbol of a name. -/
inductive Call where
  | intern (name : String)
  | tryIntern (name : String)
  | get (name : String)

namespace Call

def name : Call → String
  | intern name | tryIntern name | get name => name

/-- The name that the call is to make known. -/
def interned? : Call → Option String
  | intern name | tryIntern name => some name
  | get _ => none

end Call

inductive Answer where
  | symbol (symbol : Symbol)
  | unknown
  | failure (error : InternError)
  | crash (message : String)

def perform (interner : Interner) : Call → Answer × Interner
  | .intern name =>
      match interner.intern name with
      | (.ok symbol, interner) => (.symbol symbol, interner)
      | (.error message, interner) => (.crash message, interner)
  | .tryIntern name =>
      match interner.tryIntern name with
      | (.ok symbol, interner) => (.symbol symbol, interner)
      | (.error error, interner) => (.failure error, interner)
  | .get name =>
      match interner.get? name with
      | some symbol => (.symbol symbol, interner)
      | none => (.unknown, interner)

/-- Makes calls one after the other and notes their answers. -/
def run (interner : Interner) : List Call → List (Call × Answer) × Interner
  | [] => ([], interner)
  | call :: calls =>
      let (answer, interner) := interner.perform call
      let (history, interner) := interner.run calls
      ((call, answer) :: history, interner)

variable {interner : Interner} {name : String} {symbol : Symbol} {call : Call} {calls : List Call}

private theorem tryIntern_of_known (known : interner.get? name = some symbol) :
    interner.tryIntern name = (.ok symbol, interner) := by
  unfold tryIntern
  rw [known]

private theorem tryIntern_of_room (new : interner.get? name = none)
    (room : interner.names.size < UInt32.size) :
    interner.tryIntern name =
      (.ok ⟨interner.names.size.toUInt32⟩,
        ⟨(name, ⟨interner.names.size.toUInt32⟩) :: interner.ids, interner.names.push name⟩) := by
  unfold tryIntern
  rw [new]
  exact if_pos room

private theorem tryIntern_of_full (new : interner.get? name = none)
    (full : ¬ interner.names.size < UInt32.size) :
    interner.tryIntern name = (.error (.overflow interner.names.size), interner) := by
  unfold tryIntern
  rw [new]
  exact if_neg full

structure Inverse (interner : Interner) : Prop where
  bounded : interner.names.size ≤ UInt32.size
  known : ∀ {name symbol},
    interner.get? name = some symbol ↔ interner.names[symbol.id.toNat]? = some name

def Keeps (before after : Interner) : Prop :=
  ∀ {position : Nat} {name : String},
    before.names[position]? = some name → after.names[position]? = some name

private theorem new_inverse : new.Inverse where
  bounded := by decide
  known {name symbol} := by
    have forth : ∀ entry ∈ new.ids, new.names[entry.2.id.toNat]? = some entry.1 := by
      decide +kernel
    have back : ∀ position < new.names.size,
        new.get? (new.names.getD position "") = some ⟨position.toUInt32⟩ := by
      decide +kernel
    constructor
    · intro found
      obtain ⟨earlier, later, split, -⟩ := List.lookup_eq_some_iff.mp found
      exact forth (name, symbol) (split ▸ List.mem_append_right _ List.mem_cons_self)
    · intro listed
      obtain ⟨inside, rfl⟩ := Array.getElem?_eq_some_iff.mp listed
      have found := back symbol.id.toNat inside
      rw [Array.getD_eq_getD_getElem?, listed, Option.getD_some] at found
      rw [found]
      exact congrArg (some ∘ Symbol.mk) UInt32.ofNat_toNat

private theorem perform_intern (interner : Interner) (call : Call) :
    (interner.perform call).2 =
      match call.interned? with
      | some name => (interner.tryIntern name).2
      | none => interner := by
  cases call with
  | intern name =>
      unfold perform Interner.intern
      dsimp only [Call.interned?]
      cases interner.tryIntern name with
      | mk result next => cases result <;> rfl
  | tryIntern name =>
      unfold perform
      dsimp only [Call.interned?]
      cases interner.tryIntern name with
      | mk result next => cases result <;> rfl
  | get name =>
      unfold perform
      dsimp only [Call.interned?]
      cases interner.get? name <;> rfl

private theorem tryIntern_keeps (interner : Interner) (name : String) :
    interner.Keeps (interner.tryIntern name).2 := by
  intro position other listed
  cases found : interner.get? name with
  | some symbol =>
      rw [tryIntern_of_known found]
      exact listed
  | none =>
      by_cases room : interner.names.size < UInt32.size
      · rw [tryIntern_of_room found room]
        have inside := (Array.getElem?_eq_some_iff.mp listed).1
        exact (Array.getElem?_push_lt inside).trans (Array.getElem?_eq_getElem inside ▸ listed)
      · rw [tryIntern_of_full found room]
        exact listed

private theorem get?_tryIntern (done : (interner.tryIntern name).1 = .ok symbol) :
    (interner.tryIntern name).2.get? name = some symbol := by
  cases found : interner.get? name with
  | some known =>
      rw [tryIntern_of_known found] at done ⊢
      cases done
      exact found
  | none =>
      by_cases room : interner.names.size < UInt32.size
      · rw [tryIntern_of_room found room] at done ⊢
        cases done
        exact List.lookup_cons_self
      · rw [tryIntern_of_full found room] at done
        cases done

private theorem get?_perform (answered : (interner.perform call).1 = .symbol symbol) :
    (interner.perform call).2.get? call.name = some symbol := by
  cases call with
  | intern name =>
      have known := @get?_tryIntern interner name symbol
      dsimp only [perform, Interner.intern, Call.name] at *
      generalize interner.tryIntern name = made at *
      obtain ⟨_ | found, next⟩ := made
      · cases answered
      · cases answered
        exact known rfl
  | tryIntern name =>
      have known := @get?_tryIntern interner name symbol
      dsimp only [perform, Call.name] at *
      generalize interner.tryIntern name = made at *
      obtain ⟨_ | found, next⟩ := made
      · cases answered
      · cases answered
        exact known rfl
  | get name =>
      dsimp only [perform, Call.name] at *
      cases found : interner.get? name with
      | some known =>
          rw [found] at answered
          cases answered
          exact found
      | none =>
          rw [found] at answered
          cases answered

namespace Inverse

variable (inverse : interner.Inverse)

include inverse

private theorem tryIntern (name : String) : (interner.tryIntern name).2.Inverse := by
  cases found : interner.get? name with
  | some symbol =>
      rw [tryIntern_of_known found]
      exact inverse
  | none =>
      by_cases room : interner.names.size < UInt32.size
      · rw [tryIntern_of_room found room]
        have taken : interner.names.size.toUInt32.toNat = interner.names.size :=
          UInt32.toNat_ofNat_of_lt' room
        refine ⟨?_, fun {other symbol} => ?_⟩
        · rw [Array.size_push]
          exact room
        · change List.lookup other ((name, _) :: interner.ids) = some symbol ↔ _
          rw [List.lookup_cons, Array.getElem?_push]
          by_cases same : other = name
          · subst same
            rw [beq_self_eq_true]
            dsimp only
            constructor
            · intro here
              cases here
              exact if_pos taken
            · intro listed
              by_cases last : symbol.id.toNat = interner.names.size
              · rw [← last]
                exact congrArg (some ∘ Symbol.mk) UInt32.ofNat_toNat
              · rw [if_neg last] at listed
                cases found.symm.trans (inverse.known.mpr listed)
          · rw [beq_eq_false_iff_ne.mpr same]
            by_cases last : symbol.id.toNat = interner.names.size
            · rw [if_pos last]
              constructor
              · intro known
                have inside := (Array.getElem?_eq_some_iff.mp (inverse.known.mp known)).1
                exact absurd last (Nat.ne_of_lt inside)
              · intro here
                exact absurd (Option.some.inj here).symm same
            · rw [if_neg last]
              exact inverse.known
      · rw [tryIntern_of_full found room]
        exact inverse

private theorem perform (call : Call) : (interner.perform call).2.Inverse := by
  rw [perform_intern]
  cases call.interned? with
  | some name => exact inverse.tryIntern name
  | none => exact inverse

private theorem run (calls : List Call) : (interner.run calls).2.Inverse := by
  induction calls generalizing interner with
  | nil => exact inverse
  | cons call calls induction => exact induction (inverse.perform call)

private theorem get?_of_keeps {after : Interner} (inverse' : after.Inverse)
    (keeps : interner.Keeps after)
    (found : interner.get? name = some symbol) : after.get? name = some symbol :=
  inverse'.known.mpr (keeps (inverse.known.mp found))

private theorem mem_names : name ∈ interner.names.toList ↔ ∃ symbol,
    interner.get? name = some symbol := by
  constructor
  · intro listed
    obtain ⟨position, inside, rfl⟩ := Array.mem_iff_getElem.mp (Array.mem_toList_iff.mp listed)
    refine ⟨⟨position.toUInt32⟩, inverse.known.mpr ?_⟩
    rw [UInt32.toNat_ofNat_of_lt' (Nat.lt_of_lt_of_le inside inverse.bounded)]
    exact Array.getElem?_eq_getElem inside
  · rintro ⟨symbol, found⟩
    exact Array.mem_toList_iff.mpr (Array.mem_of_getElem? (inverse.known.mp found))

private theorem names_tryIntern (name : String) :
    (interner.tryIntern name).2.names.toList =
      if interner.names.toList.contains name then interner.names.toList
      else (interner.names.toList ++ [name]).take UInt32.size := by
  have bounded := inverse.bounded
  cases found : interner.get? name with
  | some symbol =>
      have known := List.contains_iff_mem.mpr (inverse.mem_names.mpr ⟨symbol, found⟩)
      rw [tryIntern_of_known found, if_pos known]
  | none =>
      have unknown : ¬ interner.names.toList.contains name = true := fun listed => by
        obtain ⟨symbol, known⟩ := inverse.mem_names.mp (List.contains_iff_mem.mp listed)
        cases found.symm.trans known
      rw [if_neg unknown]
      by_cases room : interner.names.size < UInt32.size
      · have fits : (interner.names.toList ++ [name]).length ≤ UInt32.size := by
          rw [List.length_append]
          exact room
        rw [tryIntern_of_room found room, List.take_of_length_le fits]
        exact Array.toList_push
      · have full : UInt32.size ≤ interner.names.toList.length := Nat.le_of_not_lt room
        rw [tryIntern_of_full found room, List.take_append_of_le_length full,
          List.take_of_length_le bounded]

private theorem lookup (found : interner.get? name = some symbol) :
    interner.lookup symbol = name := by
  unfold Interner.lookup
  rw [Array.getD_eq_getD_getElem?, inverse.known.mp found]
  rfl

end Inverse

private theorem perform_keeps (interner : Interner) (call : Call) :
    interner.Keeps (interner.perform call).2 := by
  rw [perform_intern]
  cases call.interned? with
  | some name => exact tryIntern_keeps interner name
  | none => exact id

private theorem run_keeps (interner : Interner) (calls : List Call) :
    interner.Keeps (interner.run calls).2 := by
  induction calls generalizing interner with
  | nil => exact id
  | cons call calls induction =>
      exact fun listed => induction _ (perform_keeps interner call listed)

private theorem get?_of_mem_run (inverse : interner.Inverse)
    (answered : (call, .symbol symbol) ∈ (interner.run calls).1) :
    (interner.run calls).2.get? call.name = some symbol := by
  induction calls generalizing interner with
  | nil => cases answered
  | cons first calls induction =>
      rcases List.mem_cons.mp answered with here | later
      · obtain ⟨rfl, here⟩ := Prod.mk.inj here
        have known := get?_perform here.symm
        have next := inverse.perform call
        exact next.get?_of_keeps (next.run calls) (run_keeps _ calls) known
      · exact induction (inverse.perform first) later

/-- The names after some that have been interned in turn. -/
def numbered (asked : List String) : List String := asked.eraseDups.take UInt32.size

private theorem numbered_concat (asked : List String) (name : String) :
    numbered (asked ++ [name]) =
      if (numbered asked).contains name then numbered asked
      else (numbered asked ++ [name]).take UInt32.size := by
  unfold numbered
  rw [eraseDups_concat]
  generalize UInt32.size = count
  by_cases fits : asked.eraseDups.length ≤ count
  · rw [List.take_of_length_le fits]
    split
    · exact List.take_of_length_le fits
    · rfl
  · -- the ids have run out, so the name makes no difference
    have full : count ≤ asked.eraseDups.length := Nat.le_of_not_le fits
    have cut : (asked.eraseDups.take count).length = count := List.length_take_of_le full
    have same : (if asked.eraseDups.contains name then asked.eraseDups
        else asked.eraseDups ++ [name]).take count = asked.eraseDups.take count := by
      split
      · rfl
      · exact List.take_append_of_le_length full
    rw [same]
    split
    · rfl
    · rw [List.take_append_of_le_length (Nat.le_of_eq cut.symm), List.take_take, Nat.min_self]

private theorem names_perform (inverse : interner.Inverse) {asked : List String}
    (names : interner.names.toList = numbered asked) (call : Call) :
    (interner.perform call).2.names.toList = numbered (asked ++ call.interned?.toList) := by
  rw [perform_intern]
  cases call.interned? with
  | some name =>
      refine (inverse.names_tryIntern name).trans ?_
      rw [names]
      exact (numbered_concat asked name).symm
  | none =>
      refine names.trans ?_
      rw [Option.toList_none, List.append_nil]

private theorem names_run (inverse : interner.Inverse) {asked : List String}
    (names : interner.names.toList = numbered asked) (calls : List Call) :
    (interner.run calls).2.names.toList = numbered (asked ++ calls.filterMap Call.interned?) := by
  induction calls generalizing interner asked with
  | nil => rwa [List.filterMap_nil, List.append_nil]
  | cons call calls induction =>
      have after := induction (inverse.perform call) (names_perform inverse names call)
      have shown : (call :: calls).filterMap Call.interned? =
          call.interned?.toList ++ calls.filterMap Call.interned? := by
        rw [List.filterMap_cons]
        cases call.interned? <;> rfl
      rw [shown, ← List.append_assoc]
      exact after

private theorem names_new : new.names.toList = numbered Symbol.reservedNames := by
  decide +kernel

/-- Whatever is asked of a new interner, names and symbols stand for each other one to one and for
good. The ids are those below the number of names, in the order in which the names come first, the
reserved ones before all others. Only interning adds a name, and where no id is left it fails and
changes nothing. -/
theorem symbols_stand_for_names (calls : List Call) :
    let history := (new.run calls).1
    let interner := (new.run calls).2
    let names := numbered (Symbol.reservedNames ++ calls.filterMap Call.interned?)
    (∀ call symbol, (call, .symbol symbol) ∈ history →
      (∀ other another, (other, .symbol another) ∈ history →
        (symbol = another ↔ call.name = other.name)) ∧
      ∀ further, (interner.run further).2.lookup symbol = call.name) ∧
    interner.size = names.length ∧
    (∀ name symbol, interner.get? name = some symbol ↔ names[symbol.id.toNat]? = some name) ∧
    (∀ symbol, (∃ name, interner.get? name = some symbol) ↔ symbol.id.toNat < interner.size) ∧
    (∀ name, (interner.perform (.get name)).2 = interner) ∧
    ∀ name,
      if interner.get? name = none ∧ interner.size = UInt32.size then
        interner.tryIntern name = (.error (.overflow UInt32.size), interner) ∧
          interner.intern name = (.error (InternError.overflow UInt32.size).message, interner)
      else ∃ symbol after,
        interner.tryIntern name = (.ok symbol, after) ∧
          interner.intern name = (.ok symbol, after) := by
  intro history interner names
  have inverse : interner.Inverse := new_inverse.run calls
  have listed : interner.names.toList = names := names_run new_inverse names_new calls
  have named (position : Nat) : names[position]? = interner.names[position]? := by
    rw [← listed, Array.getElem?_toList]
  have found {call : Call} {symbol : Symbol} (answered : (call, .symbol symbol) ∈ history) :
      interner.get? call.name = some symbol := get?_of_mem_run new_inverse answered
  refine ⟨fun call symbol answered => ⟨fun other another again => ?_, fun further => ?_⟩, ?_,
    fun name symbol => ?_, fun symbol => ?_, fun name => perform_intern interner (.get name),
    fun name => ?_⟩
  · constructor
    · rintro rfl
      have first := inverse.known.mp (found answered)
      exact Option.some.inj (first.symm.trans (inverse.known.mp (found again)))
    · intro same
      have second := found again
      rw [← same] at second
      exact Option.some.inj ((found answered).symm.trans second)
  · have later := inverse.run further
    exact later.lookup (inverse.get?_of_keeps later (run_keeps interner further) (found answered))
  · rw [← listed]
    rfl
  · rw [named]
    exact inverse.known
  · constructor
    · rintro ⟨name, known⟩
      exact (Array.getElem?_eq_some_iff.mp (inverse.known.mp known)).1
    · intro inside
      exact ⟨interner.names[symbol.id.toNat], inverse.known.mpr (Array.getElem?_eq_getElem inside)⟩
  · split
    next out =>
      have full : interner.names.size = UInt32.size := out.2
      have failed := tryIntern_of_full out.1 (Nat.not_lt_of_le (Nat.le_of_eq full.symm))
      rw [full] at failed
      unfold Interner.intern
      rw [failed]
      exact ⟨rfl, rfl⟩
    next left =>
      obtain ⟨symbol, after, done⟩ : ∃ symbol after, interner.tryIntern name =
        (.ok symbol, after) := by
        cases known : interner.get? name with
        | some symbol => exact ⟨_, _, tryIntern_of_known known⟩
        | none =>
            have room : interner.names.size < UInt32.size :=
              Nat.lt_of_le_of_ne inverse.bounded fun full => left ⟨known, full⟩
            exact ⟨_, _, tryIntern_of_room known room⟩
      refine ⟨symbol, after, done, ?_⟩
      unfold Interner.intern
      rw [done]
      rfl

section

variable {names : List String}

private theorem names_run_interning (names : List String) :
    (new.run (names.map .intern)).2.names.toList = numbered (Symbol.reservedNames ++ names) := by
  rw [names_run new_inverse names_new, List.filterMap_map]
  exact congrArg (numbered <| Symbol.reservedNames ++ ·) List.filterMap_some

private theorem size_run_interning (nodup : names.Nodup) (enough : UInt32.size ≤ names.length) :
    (new.run (names.map .intern)).2.size = UInt32.size := by
  have size := congrArg List.length (names_run_interning names)
  have among : names ⊆ (Symbol.reservedNames ++ names).eraseDups :=
    fun _ listed => List.mem_eraseDups.mpr (List.mem_append_right _ listed)
  have fills := Nat.le_trans enough (List.subperm_of_subset nodup among).length_le
  exact size.trans (List.length_take_of_le fills)

private theorem get?_run_interning (apart : name ∉ Symbol.reservedNames ++ names) :
    (new.run (names.map .intern)).2.get? name = none := by
  cases found : (new.run (names.map .intern)).2.get? name with
  | none => rfl
  | some symbol =>
      have listed := (new_inverse.run _).mem_names.mpr ⟨symbol, found⟩
      rw [names_run_interning] at listed
      exact absurd (List.mem_eraseDups.mp (List.mem_of_mem_take listed)) apart

end

/-- Distinct names of one letter. -/
def fillers (count : Nat) : List String :=
  (List.range count).map fun length => String.ofList (List.replicate (length + 1) 'a')

private theorem fillers_nodup (count : Nat) : (fillers count).Nodup := by
  refine List.Nodup.map (fun length other same => ?_) List.nodup_range
  have lengths := congrArg List.length (String.ofList_inj.mp same)
  rw [List.length_replicate, List.length_replicate] at lengths
  exact Nat.succ.inj lengths

private theorem length_fillers (count : Nat) : (fillers count).length = count :=
  (List.length_map _).trans List.length_range

private theorem not_mem_fillers (count : Nat) : "b" ∉ fillers count := by
  intro filler
  obtain ⟨length, -, same⟩ := List.mem_map.mp filler
  have letters := congrArg String.toList same
  rw [String.toList_ofList, List.replicate_succ] at letters
  cases letters

theorem symbols_stand_for_names_full :
    let interner := (new.run ((fillers UInt32.size).map .intern)).2
    interner.get? "b" = none ∧ interner.size = UInt32.size ∧
      interner.tryIntern "b" = (.error (.overflow UInt32.size), interner) := by
  have nodup := fillers_nodup UInt32.size
  have enough : UInt32.size ≤ (fillers UInt32.size).length := Nat.le_of_eq (length_fillers _).symm
  have apart := not_mem_fillers UInt32.size
  generalize fillers UInt32.size = names at *
  have unknown : (new.run (names.map .intern)).2.get? "b" = none :=
    get?_run_interning fun listed => (List.mem_append.mp listed).elim (by decide) apart
  have full : (new.run (names.map .intern)).2.size = UInt32.size := size_run_interning nodup enough
  obtain ⟨-, -, -, -, -, out⟩ := symbols_stand_for_names (names.map .intern)
  generalize (new.run (names.map .intern)).2 = interner at *
  have failed := out "b"
  split at failed
  next => exact ⟨unknown, full, failed.1⟩
  next left => exact absurd ⟨unknown, full⟩ left

end Interner

end ScopeMachine
