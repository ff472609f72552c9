import Mathlib.Data.List.Forall2
import Mathlib.Data.Option.Basic
import ScopeMachine.Heap.Basic
import ScopeMachine.Proofs.Liveness.Leading

theorem Option.Rel.imp {α β : Type} {relation wider : α → β → Prop} {left : Option α}
    {right : Option β} (related : Option.Rel relation left right)
    (implies : ∀ a b, left = Option.some a → right = Option.some b → relation a b → wider a b) :
    Option.Rel wider left right := by
  cases related with
  | none => exact .none
  | some related => exact .some (implies _ _ rfl rfl related)

theorem Option.Rel.eq_none {α β : Type} {relation : α → β → Prop} {right : Option β}
    (related : Option.Rel relation Option.none right) : right = Option.none := by
  cases related
  rfl

theorem Option.Rel.exists_some {α β : Type} {relation : α → β → Prop} {a : α} {right : Option β}
    (related : Option.Rel relation (Option.some a) right) :
    ∃ b, right = Option.some b ∧ relation a b := by
  cases related with
  | some related => exact ⟨_, rfl, related⟩

namespace ScopeMachine

/-- What code can tell of the scope it runs in, beside the members that it finds from there:
`callee`, `in`, the member that a function made there replaces, and that it is no constructor's. -/
inductive Reading where
  | callee
  | trailing
  | replaced
  | outside

/-- Which things of two heaps stand for each other. Of the scopes that do, the firm ones never have
members in the arena. A veil is a scope on the right that stands for nothing: everything is looked
for in the scope under it. -/
structure Link where
  pairs : Handle → Handle → Prop
  firm : ScopeId → ScopeId → Prop
  veil : ScopeId → ScopeId → Prop
  /-- Scopes from which the reading is the same. -/
  sure : Reading → ScopeId → ScopeId → Prop

namespace Link

/-- Scopes that stand for each other once the veils over the right one are lifted. -/
inductive Under (link : Link) (a : ScopeId) : ScopeId → Prop where
  | pair {b : ScopeId} (paired : link.pairs (.scope a) (.scope b)) : Under link a b
  | veil {b next : ScopeId} (veiled : link.veil b next) (under : Under link a next) :
      Under link a b

/-- Values that stand for each other: plain values for themselves, things by the link. -/
inductive Values (link : Link) : Value → Value → Prop where
  | plain {value : Value} (bare : value.handles = []) : Values link value value
  | array {a b : ArrayId} (paired : link.pairs (.array a) (.array b)) :
      Values link (.array a) (.array b)
  | exception {a b : ExceptionId} (paired : link.pairs (.exception a) (.exception b)) :
      Values link (.exception a) (.exception b)
  | function {a b : FunctionId} (paired : link.pairs (.function a) (.function b)) :
      Values link (.function a) (.function b)
  | object {a b : ScopeId} (paired : link.pairs (.scope a) (.scope b)) (firm : link.firm a b) :
      Values link (.object a) (.object b)

structure Cells (link : Link) (left right : Cell) : Prop where
  value : link.Values left.value right.value
  permission : left.permission = right.permission
  declared : left.declared = right.declared
  written : left.written = right.written

/-- The bindings of `in` are compared apart, by what they hold. -/
inductive Kinds (link : Link) : ScopeKind → ScopeKind → Prop where
  | global : Kinds link .global .global
  | basic : Kinds link .basic .basic
  | function {left right : Invocation}
      (paired : link.pairs (.function left.function) (.function right.function))
      (receiver : Option.Rel link.Values left.receiver right.receiver)
      (trailing : List.Forall₂ link.Values left.trailing right.trailing) :
      Kinds link (.function left) (.function right)
  | constructor {left right : FunctionId} (paired : link.pairs (.function left) (.function right)) :
      Kinds link (.constructor left) (.constructor right)
  | plainObject : Kinds link (.object none) (.object none)
  | object {left right : FunctionId} (paired : link.pairs (.function left) (.function right)) :
      Kinds link (.object (some left)) (.object (some right))
  | fork {left right : ScopeId} (paired : link.pairs (.scope left) (.scope right))
      (firm : link.firm left right) : Kinds link (.fork left) (.fork right)

inductive Faults (link : Link) : Fault → Fault → Prop where
  | thrown {left right : Value} (values : link.Values left right) :
      Faults link (.thrown left) (.thrown right)
  | plain {fault : Fault} (unthrown : ∀ value, fault ≠ .thrown value) : Faults link fault fault

structure Failures (link : Link) (left right : Failure) : Prop where
  fault : link.Faults left.fault right.fault
  backtrace : left.backtrace = right.backtrace
  notes : left.notes = right.notes

variable {link link' : Link}

theorem Values.of_bare {left right : Value} (values : link.Values left right)
    (bare : left.handles = []) : left = right := by
  cases values with
  | plain => rfl
  | array => cases bare
  | exception => cases bare
  | function => cases bare
  | object => cases bare

theorem Values.eq_iff_of_bare {left right value : Value} (values : link.Values left right)
    (bare : value.handles = []) : left = value ↔ right = value := by
  constructor
  · rintro rfl
    exact (values.of_bare bare).symm
  · rintro rfl
    cases values with
    | plain => rfl
    | array => cases bare
    | exception => cases bare
    | function => cases bare
    | object => cases bare

theorem Values.of_function {f : FunctionId} {right : Value}
    (values : link.Values (.function f) right) :
    ∃ g, right = .function g ∧ link.pairs (.function f) (.function g) := by
  cases values with
  | plain bare => cases bare
  | function paired => exact ⟨_, rfl, paired⟩

theorem Values.to_function {g : FunctionId} {left : Value}
    (values : link.Values left (.function g)) :
    ∃ f, left = .function f ∧ link.pairs (.function f) (.function g) := by
  cases values with
  | plain bare => cases bare
  | function paired => exact ⟨_, rfl, paired⟩

/-- The things that two values name, side by side. -/
def Values.sides (left right : Value) : List (Handle × Handle) := left.handles.zip right.handles

theorem Values.handles {left right : Value} (values : link.Values left right) :
    (sides left right).map Prod.fst = left.handles ∧
      (sides left right).map Prod.snd = right.handles ∧
      ∀ pair ∈ sides left right, link.pairs pair.1 pair.2 := by
  unfold sides
  cases values with
  | plain bare => rw [bare]; exact ⟨rfl, rfl, nofun⟩
  | array paired => exact ⟨rfl, rfl, fun _ listed => List.mem_singleton.mp listed ▸ paired⟩
  | exception paired => exact ⟨rfl, rfl, fun _ listed => List.mem_singleton.mp listed ▸ paired⟩
  | function paired => exact ⟨rfl, rfl, fun _ listed => List.mem_singleton.mp listed ▸ paired⟩
  | object paired _ => exact ⟨rfl, rfl, fun _ listed => List.mem_singleton.mp listed ▸ paired⟩

/-- The things that values name, side by side. -/
def Values.listSides (left right : List Value) : List (Handle × Handle) :=
  (left.zip right).flatMap fun pair => sides pair.1 pair.2

theorem Values.listHandles {left right : List Value}
    (values : List.Forall₂ link.Values left right) :
    (listSides left right).map Prod.fst = left.flatMap Value.handles ∧
      (listSides left right).map Prod.snd = right.flatMap Value.handles ∧
      ∀ pair ∈ listSides left right, link.pairs pair.1 pair.2 := by
  induction values with
  | nil => exact ⟨rfl, rfl, nofun⟩
  | cons first _ induction =>
      obtain ⟨here, there, paired⟩ := first.handles
      obtain ⟨left, right, others⟩ := induction
      unfold listSides at left right others ⊢
      simp only [List.zip_cons_cons, List.flatMap_cons, List.map_append, here, there, left, right,
        List.mem_append, true_and]
      exact fun pair listed => listed.elim (paired pair) (others pair)

theorem Values.listSides_append {left right : List Value} (left' right' : List Value)
    (length : left.length = right.length) :
    listSides (left ++ left') (right ++ right') =
      listSides left right ++ listSides left' right' := by
  unfold listSides
  rw [List.zip_append length, List.flatMap_append]

theorem Values.toList {left right : Option Value} (values : Option.Rel link.Values left right) :
    List.Forall₂ link.Values left.toList right.toList := by
  cases values with
  | none => exact .nil
  | some values => exact .cons values .nil

theorem Values.getD {left right : Option Value} (values : Option.Rel link.Values left right)
    {default : Value} (bare : default.handles = []) :
    link.Values (left.getD default) (right.getD default) := by
  cases values with
  | none => exact .plain bare
  | some values => exact values

/-- The cells that slots are blank with. -/
theorem Cells.blank (link : Link) : link.Cells .blank .blank := ⟨.plain rfl, rfl, rfl, rfl⟩

theorem Cells.holding {left right : Value} (values : link.Values left right) :
    link.Cells (.holding left) (.holding right) := ⟨values, rfl, rfl, rfl⟩

namespace Cells

variable {left right : Cell} (cells : link.Cells left right)
include cells

theorem isInvalid : left.isInvalid = right.isInvalid :=
  congrArg Permission.isInvalid cells.permission

theorem isVisible : left.isVisible = right.isVisible := by
  unfold Cell.isVisible
  rw [cells.declared, cells.isInvalid]

theorem declare (permission : Permission) :
    link.Cells (left.declare permission) (right.declare permission) := by
  unfold Cell.declare
  rw [cells.declared]
  split
  next => exact cells
  next => exact ⟨cells.value, rfl, rfl, cells.written⟩

theorem install {value value' : Value} (values : link.Values value value') :
    link.Cells (left.install value) (right.install value') :=
  ⟨values, cells.permission, cells.declared, rfl⟩

theorem assign (name : String) {value value' : Value} (values : link.Values value value') :
    (∃ cell cell', left.assign name value = .ok cell ∧ right.assign name value' = .ok cell' ∧
        link.Cells cell cell') ∨
      left.assign name value = .error (.constReassignment name) ∧
        right.assign name value' = .error (.constReassignment name) := by
  unfold Cell.assign
  rw [cells.written, cells.permission]
  split
  next => exact .inr ⟨rfl, rfl⟩
  next => exact .inl ⟨_, _, rfl, rfl, values, rfl, cells.declared, rfl⟩

end Cells

theorem Kinds.targets {left right : ScopeKind} (kinds : link.Kinds left right) :
    Option.Rel (fun a b => link.pairs (.scope a) (.scope b)) left.target? right.target? := by
  cases kinds with
  | fork paired _ => exact .some paired
  | _ => exact .none

theorem Kinds.variant {left right : ScopeKind} (kinds : link.Kinds left right) :
    left.variant = right.variant := by
  cases kinds <;> rfl

private theorem Faults.severity {left right : Fault} (faults : link.Faults left right) :
    left.severity = right.severity := by
  cases faults <;> rfl

theorem Failures.isCatchable {left right : Failure} (failures : link.Failures left right) :
    left.isCatchable = right.isCatchable :=
  congrArg (· == .script) failures.fault.severity

/-- Everything that is linked stays linked. -/
structure Grows (before after : Link) : Prop where
  pairs : ∀ {left right}, before.pairs left right → after.pairs left right
  firm : ∀ {left right}, before.firm left right → after.firm left right
  veil : ∀ {id next}, before.veil id next → after.veil id next
  sure : ∀ {reading left right}, before.sure reading left right → after.sure reading left right

namespace Grows

theorem refl (link : Link) : link.Grows link := ⟨id, id, id, id⟩

theorem trans {link'' : Link} (left : link.Grows link') (right : link'.Grows link'') :
    link.Grows link'' :=
  ⟨right.pairs ∘ left.pairs, right.firm ∘ left.firm, right.veil ∘ left.veil,
    right.sure ∘ left.sure⟩

variable (grows : link.Grows link')
include grows

theorem under {a b : ScopeId} (under : link.Under a b) : link'.Under a b := by
  induction under with
  | pair paired => exact .pair (grows.pairs paired)
  | veil veiled _ induction => exact .veil (grows.veil veiled) induction

theorem values {left right : Value} (values : link.Values left right) :
    link'.Values left right := by
  cases values with
  | plain bare => exact .plain bare
  | array paired => exact .array (grows.pairs paired)
  | exception paired => exact .exception (grows.pairs paired)
  | function paired => exact .function (grows.pairs paired)
  | object paired firm => exact .object (grows.pairs paired) (grows.firm firm)

theorem listValues {left right : List Value} (values : List.Forall₂ link.Values left right) :
    List.Forall₂ link'.Values left right :=
  values.imp fun _ _ => grows.values

theorem cells {left right : Cell} (cells : link.Cells left right) : link'.Cells left right :=
  ⟨grows.values cells.value, cells.permission, cells.declared, cells.written⟩

theorem kinds {left right : ScopeKind} (kinds : link.Kinds left right) :
    link'.Kinds left right := by
  cases kinds with
  | global => exact .global
  | basic => exact .basic
  | function paired receiver trailing =>
      exact .function (grows.pairs paired) (receiver.imp fun _ _ _ _ => grows.values)
        (grows.listValues trailing)
  | constructor paired => exact .constructor (grows.pairs paired)
  | plainObject => exact .plainObject
  | object paired => exact .object (grows.pairs paired)
  | fork paired firm => exact .fork (grows.pairs paired) (grows.firm firm)

end Grows

/-- A further pair of things, which may be firm, and sure for some readings. -/
def add (link : Link) (left right : Handle) (firm : Prop) (sure : Reading → Prop) : Link where
  pairs a b := link.pairs a b ∨ a = left ∧ b = right
  firm a b := link.firm a b ∨ firm ∧ .scope a = left ∧ .scope b = right
  veil := link.veil
  sure reading a b := link.sure reading a b ∨ sure reading ∧ .scope a = left ∧ .scope b = right

section Add

variable (link : Link) (left right : Handle) (firm : Prop) (sure : Reading → Prop)

theorem grows_add : link.Grows (link.add left right firm sure) := ⟨.inl, .inl, id, .inl⟩

theorem pairs_add : (link.add left right firm sure).pairs left right := .inr ⟨rfl, rfl⟩

end Add

def cover (link : Link) (top next : ScopeId) : Link where
  pairs := link.pairs
  firm := link.firm
  veil b under := link.veil b under ∨ b = top ∧ under = next
  sure reading a b :=
    link.sure reading a b ∨ reading = .replaced ∧ b = top ∧ link.sure .outside a next

theorem grows_cover (link : Link) (top next : ScopeId) : link.Grows (link.cover top next) :=
  ⟨id, id, .inl, .inl⟩

theorem under_cover {a next : ScopeId} (under : link.Under a next) (top : ScopeId) :
    (link.cover top next).Under a top :=
  .veil (.inr ⟨rfl, rfl⟩) ((grows_cover link top next).under under)

/-- The part of a link between things that are kept. -/
def within (link : Link) (keep keep' : Handle → Prop) : Link where
  pairs a b := link.pairs a b ∧ keep a ∧ keep' b
  firm a b := link.firm a b ∧ keep (.scope a) ∧ keep' (.scope b)
  veil b next := link.veil b next ∧ keep' (.scope b)
  sure reading a b := link.sure reading a b ∧ keep (.scope a) ∧ keep' (.scope b)

section Within

variable {keep keep' : Handle → Prop}

/-- What is under a veil is kept with it. -/
theorem Under.within {a b : ScopeId} (under : link.Under a b)
    (lifted : ∀ {id next}, link.veil id next → keep' (.scope id) → keep' (.scope next))
    (kept : keep (.scope a)) (kept' : keep' (.scope b)) : (link.within keep keep').Under a b := by
  induction under with
  | pair paired => exact .pair ⟨paired, kept, kept'⟩
  | veil veiled _ induction => exact .veil ⟨veiled, kept'⟩ (induction (lifted veiled kept'))

theorem Values.within {left right : Value} (values : link.Values left right)
    (kept : ∀ handle, left.holds handle = true → keep handle)
    (kept' : ∀ handle, right.holds handle = true → keep' handle) :
    (link.within keep keep').Values left right := by
  have self : ∀ {value : Value} {handle : Handle}, handle ∈ value.handles →
      value.holds handle = true := Value.mem_handles.mp
  cases values with
  | plain bare => exact .plain bare
  | array paired => exact .array ⟨paired, kept _ (self (.head _)), kept' _ (self (.head _))⟩
  | exception paired =>
      exact .exception ⟨paired, kept _ (self (.head _)), kept' _ (self (.head _))⟩
  | function paired =>
      exact .function ⟨paired, kept _ (self (.head _)), kept' _ (self (.head _))⟩
  | object paired firm =>
      exact .object ⟨paired, kept _ (self (.head _)), kept' _ (self (.head _))⟩
        ⟨firm, kept _ (self (.head _)), kept' _ (self (.head _))⟩

theorem Values.within_option {left right : Option Value}
    (values : Option.Rel link.Values left right)
    (kept : ∀ handle, left.any (Value.holds handle) = true → keep handle)
    (kept' : ∀ handle, right.any (Value.holds handle) = true → keep' handle) :
    Option.Rel (link.within keep keep').Values left right :=
  values.imp fun _ _ here there values =>
    values.within (fun handle holds => kept handle (by rw [here]; exact holds))
      fun handle holds => kept' handle (by rw [there]; exact holds)

theorem Values.within_list {left right : List Value}
    (values : List.Forall₂ link.Values left right)
    (kept : ∀ handle, left.any (Value.holds handle) = true → keep handle)
    (kept' : ∀ handle, right.any (Value.holds handle) = true → keep' handle) :
    List.Forall₂ (link.within keep keep').Values left right := by
  induction values with
  | nil => exact .nil
  | cons first _ induction =>
      refine .cons (first.within (fun handle holds => kept handle ?_)
        fun handle holds => kept' handle ?_)
        (induction (fun handle holds => kept handle ?_) fun handle holds => kept' handle ?_)
      all_goals simp [holds]

theorem Cells.within {left right : Cell} (cells : link.Cells left right)
    (kept : ∀ handle, left.value.holds handle = true → keep handle)
    (kept' : ∀ handle, right.value.holds handle = true → keep' handle) :
    (link.within keep keep').Cells left right :=
  ⟨cells.value.within kept kept', cells.permission, cells.declared, cells.written⟩

theorem Kinds.within {left right : ScopeKind} (kinds : link.Kinds left right)
    (kept : ∀ handle, left.holds handle = true → keep handle)
    (kept' : ∀ handle, right.holds handle = true → keep' handle) :
    (link.within keep keep').Kinds left right := by
  cases kinds with
  | global => exact .global
  | basic => exact .basic
  | function paired receiver trailing =>
      refine .function
        ⟨paired, kept _ (by simp [ScopeKind.holds, Handle.isFunction]),
          kept' _ (by simp [ScopeKind.holds, Handle.isFunction])⟩
        (Values.within_option receiver (fun handle holds => kept handle ?_)
          fun handle holds => kept' handle ?_)
        (Values.within_list trailing (fun handle holds => kept handle ?_)
          fun handle holds => kept' handle ?_)
      all_goals simp [ScopeKind.holds, holds]
  | constructor paired =>
      exact .constructor ⟨paired, kept _ (by simp [ScopeKind.holds, Handle.isFunction]),
        kept' _ (by simp [ScopeKind.holds, Handle.isFunction])⟩
  | plainObject => exact .plainObject
  | object paired =>
      exact .object ⟨paired, kept _ (by simp [ScopeKind.holds, Handle.isFunction]),
        kept' _ (by simp [ScopeKind.holds, Handle.isFunction])⟩
  | fork paired firm =>
      have here : ∀ id : ScopeId, (ScopeKind.fork id).holds (.scope id) = true := by
        simp [ScopeKind.holds, Handle.isScope]
      exact .fork ⟨paired, kept _ (here _), kept' _ (here _)⟩ ⟨firm, kept _ (here _),
        kept' _ (here _)⟩

end Within

end Link

end ScopeMachine
