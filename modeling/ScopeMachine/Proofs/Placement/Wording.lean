import ScopeMachine.Proofs.Placement.Walking
import ScopeMachine.Proofs.Values.Description
import ScopeMachine.Value.Protocol

namespace ScopeMachine

private theorem Fault.messageWith_of_unthrown {fault : Fault}
    (unthrown : ∀ value, fault ≠ .thrown value)
    (describe describe' : Value → String) :
    fault.messageWith describe = fault.messageWith describe' := by
  unfold messageWith
  cases fault with
  | thrown value => exact absurd rfl (unthrown value)
  | _ => dsimp only

namespace Terms.Agree

variable {Code : Type} {terms : Terms Code} {link : Link} {left right : Machine Code}
  (agree : terms.Agree link left right)
include agree

private theorem typeOf {value value' : Value} (values : link.Values value value') :
    left.heap.typeOf value = right.heap.typeOf value' := by
  cases values with
  | plain bare => cases value <;> first | rfl | cases bare
  | exception paired => exact (agree.exception paired).type
  | array => rfl
  | function => rfl
  | object => rfl

theorem typeName {value value' : Value} (values : link.Values value value') :
    left.heap.typeName value = right.heap.typeName value' :=
  congrArg BuiltinType.name (agree.typeOf values)

private theorem functionName {f g : FunctionId} (paired : link.pairs (.function f) (.function g)) :
    left.heap.functionName f = right.heap.functionName g := by
  obtain ⟨function, function', found, found', functions, -⟩ := agree.function paired
  rw [Heap.functionName, Heap.functionName, found, found']
  exact functions.definition.name

private theorem leafText {value value' : Value} (values : link.Values value value') :
    left.heap.leafText value = right.heap.leafText value' := by
  cases values with
  | plain bare => cases value <;> first | rfl | cases bare
  | array => rfl
  | exception => rfl
  | function paired =>
      exact congrArg (fun name => "[function: " ++ name ++ "]") (agree.functionName paired)
  | object paired _ =>
      have made := agree.constructedBy? paired
      unfold Heap.leafText
      dsimp only
      generalize left.heap.constructedBy? _ = maker at made
      generalize right.heap.constructedBy? _ = maker' at made
      cases made with
      | none => rfl
      | some paired =>
          exact congrArg (fun name => "[object: " ++ name ++ "]") (agree.functionName paired)

private theorem mem_opened {opened opened' : List ArrayId}
    (opens : List.Forall₂ (fun a b => link.pairs (.array a) (.array b)) opened opened')
    {a b : ArrayId} (paired : link.pairs (.array a) (.array b)) : a ∈ opened ↔ b ∈ opened' := by
  induction opens with
  | nil => simp
  | cons first _ induction =>
      rw [List.mem_cons, List.mem_cons, induction]
      refine or_congr_left ⟨?_, ?_⟩
      · rintro rfl
        exact Handle.array.inj (agree.unique paired first)
      · rintro rfl
        exact Handle.array.inj (agree.unique' paired first)

private theorem headText {a b : ExceptionId} (paired : link.pairs (.exception a) (.exception b)) :
    Heap.headText (left.heap.exception a) = Heap.headText (right.heap.exception b) := by
  have same := agree.exception paired
  rw [Heap.headText, Heap.headText, same.type, same.message]

private theorem writes {links : Nat} {opened opened' : List ArrayId} {value value' : Value}
    {text : String}
    (written : left.heap.Writes links opened value text)
    (opens : List.Forall₂ (fun a b => link.pairs (.array a) (.array b)) opened opened')
    (values : link.Values value value') : right.heap.Writes links opened' value' text := by
  induction written generalizing opened' value' with
  | tooDeep deep => exact .tooDeep deep
  | met shallow opens_ =>
      cases values with
      | plain bare => cases bare
      | array paired => exact .met shallow ((agree.mem_opened opens paired).mp opens_)
  | @array links opened id shallow unmet texts lengths _ induction =>
      cases values with
      | plain bare => cases bare
      | array paired =>
          have elements : List.Forall₂ link.Values (left.heap.elements id) _ :=
            (agree.array paired).elements
          refine .array shallow (mt (agree.mem_opened opens paired).mpr unmet)
            (elements.length_eq.symm.trans lengths) fun pair listed => ?_
          obtain ⟨position, below, rfl⟩ := List.mem_iff_getElem.mp listed
          rw [List.length_zip, Nat.lt_min] at below
          have here := elements.get (i := position)
            (Nat.lt_of_lt_of_eq below.1 elements.length_eq.symm) below.1
          have found := induction ((left.heap.elements id).get ⟨position,
              Nat.lt_of_lt_of_eq below.1 elements.length_eq.symm⟩, texts[position])
            (List.mem_iff_getElem.mpr ⟨position, by
              rw [List.length_zip, Nat.lt_min]
              exact ⟨Nat.lt_of_lt_of_eq below.1 elements.length_eq.symm, below.2⟩, by simp⟩)
            (.cons paired opens) here
          rw [List.getElem_zip]
          exact found
  | @uncaused links opened id shallow uncaused =>
      cases values with
      | plain bare => cases bare
      | @exception _ b paired =>
          have same := agree.exception paired
          have cause := same.cause
          rw [uncaused] at cause
          rw [agree.headText paired]
          exact .uncaused shallow cause.eq_none
  | @caused links opened id shallow cause some text _ induction =>
      cases values with
      | plain bare => cases bare
      | @exception _ b paired =>
          have same := agree.exception paired
          have causes := same.cause
          rw [some] at causes
          obtain ⟨cause', some', values⟩ := causes.exists_some
          have head : Heap.causedText (left.heap.exception id) text =
              Heap.causedText (right.heap.exception b) text := by
            rw [Heap.causedText, Heap.causedText, agree.headText paired]
          rw [head]
          exact .caused shallow some' (induction opens values)
  | leaf shallow leaf =>
      rw [agree.leafText values]
      refine .leaf shallow ?_
      cases values with
      | plain => exact leaf
      | array => exact absurd rfl (leaf.1 _)
      | exception => exact absurd rfl (leaf.2 _)
      | function => exact ⟨fun _ same => (by cases same), fun _ same => (by cases same)⟩
      | object => exact ⟨fun _ same => (by cases same), fun _ same => (by cases same)⟩

theorem text {value value' : Value} (values : link.Values value value') :
    left.heap.text value = right.heap.text value' :=
  Heap.writes_iff.mp (agree.writes (Heap.writes_iff.mpr rfl) .nil values)

theorem faultMessage {fault fault' : Fault} (faults : link.Faults fault fault') :
    left.heap.faultMessage fault = right.heap.faultMessage fault' := by
  cases faults with
  | thrown values => exact agree.text values
  | plain unthrown => exact Fault.messageWith_of_unthrown unthrown _ _

theorem failureMessage {failure failure' : Failure} (failures : link.Failures failure failure') :
    left.heap.failureMessage failure = right.heap.failureMessage failure' := by
  rw [Heap.failureMessage, Heap.failureMessage, agree.faultMessage failures.fault, failures.notes]

theorem unsupported {value value' : Value} (values : link.Values value value')
    (operation : String) :
    left.heap.unsupported value operation = right.heap.unsupported value' operation := by
  rw [Heap.unsupported, Heap.unsupported, agree.typeName values]

theorem toBool {value value' : Value} (values : link.Values value value') :
    left.heap.toBool value = right.heap.toBool value' := by
  have refused := agree.unsupported values "castToBoolean"
  cases values with
  | plain bare => cases value <;> first | rfl | cases bare
  | _ => exact congrArg Except.error refused

theorem toExact {value value' : Value} (values : link.Values value value') :
    left.heap.toExact value = right.heap.toExact value' := by
  have refused := agree.unsupported values "castToExactNumber"
  cases values with
  | plain bare => cases value <;> first | rfl | cases bare
  | _ => exact congrArg Except.error refused

theorem toInexact {value value' : Value} (values : link.Values value value') :
    left.heap.toInexact value = right.heap.toInexact value' := by
  have refused := agree.unsupported values "castToInexactNumber"
  cases values with
  | plain bare => cases value <;> first | rfl | cases bare
  | _ => exact congrArg Except.error refused

end Terms.Agree

end ScopeMachine
