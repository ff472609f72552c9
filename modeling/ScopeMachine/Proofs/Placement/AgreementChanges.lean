import ScopeMachine.Proofs.Placement.Agreeing

namespace ScopeMachine

namespace Machine

variable {Code : Type}

/-- Things that are there stay, and all but those touched are as they were. -/
structure Extends (touched : Handle → Prop) (before after : Machine Code) : Prop where
  kept : ∀ {handle}, before.Present handle → ¬ touched handle →
    before.heap.Kept after.heap handle
  present : ∀ {handle}, before.Present handle → after.Present handle
  linked : ∀ {id}, before.Busy id → (before.heap.scope id).Linked (after.heap.scope id)
  cause : ∀ {id : ExceptionId}, id.index < before.heap.exceptions.size →
    (after.heap.exception id).cause = (before.heap.exception id).cause
  array : ∀ {id : ArrayId}, id.index < before.heap.arrays.size →
    after.heap.array id = before.heap.array id
  function? : ∀ {id function}, before.heap.function? id = some function →
    after.heap.function? id = some function
  global : after.global = before.global

/-- Everything of interest is kept, and nothing else counts. -/
structure Sheds (keep : Handle → Prop) (before after : Machine Code) : Prop where
  closed : ∀ {handle target}, keep handle → before.heap.Displays handle target → keep target
  sameView : ∀ {id}, keep (.scope id) → before.heap.SameView after.heap id
  busy : ∀ {id}, keep (.scope id) → before.Busy id → after.Busy id
  arrays : after.heap.arrays = before.heap.arrays
  exceptions : after.heap.exceptions = before.heap.exceptions
  functions : after.heap.functions = before.heap.functions
  global : after.global = before.global

variable {before middle after : Machine Code} {keep keep' : Handle → Prop}

namespace Sheds

private theorem kept (sheds : Sheds keep before after) {handle : Handle} (kept : keep handle) :
    before.heap.Kept after.heap handle := by
  cases handle with
  | cell id => exact trivial
  | scope id => exact sheds.sameView kept
  | array id => exact congrArg (·.getD id.index default) sheds.arrays
  | exception id => exact congrArg (·.getD id.index default) sheds.exceptions
  | function id => exact congrArg (·[id.index]?) sheds.functions

private theorem present (sheds : Sheds keep before after) {handle : Handle} (kept : keep handle)
    (present : before.Present handle) : after.Present handle := by
  cases handle with
  | cell id => exact present.elim
  | scope id => exact sheds.busy kept present
  | array id => exact Nat.lt_of_lt_of_eq present (congrArg Array.size sheds.arrays.symm)
  | exception id => exact Nat.lt_of_lt_of_eq present (congrArg Array.size sheds.exceptions.symm)
  | function id => exact Nat.lt_of_lt_of_eq present (congrArg Array.size sheds.functions.symm)

theorem refl (machine : Machine Code) : Sheds (fun _ => True) machine machine :=
  ⟨fun _ _ => trivial, fun _ => .refl _ _, fun _ => id, rfl, rfl, rfl, rfl⟩

theorem trans (left : Sheds keep before middle) (right : Sheds keep' middle after) :
    Sheds (fun handle => keep handle ∧ keep' handle) before after where
  closed kept shows :=
    ⟨left.closed kept.1 shows, right.closed kept.2 ((left.kept kept.1).shows.mpr shows)⟩
  sameView kept := (left.sameView kept.1).trans (right.sameView kept.2)
  busy kept busy := right.busy kept.2 (left.busy kept.1 busy)
  arrays := right.arrays.trans left.arrays
  exceptions := right.exceptions.trans left.exceptions
  functions := right.functions.trans left.functions
  global := right.global.trans left.global

private theorem grounded (sheds : Sheds keep before after) (size : before.heap.scopes.size ≤
      after.heap.scopes.size) {id : ScopeId} (kept : keep (.scope id))
    (grounded : before.heap.Grounded id) : after.heap.Grounded id := by
  refine grounded.carry (fun id => keep (.scope id)) (fun {id} kept old => ?_)
    (fun {id next} kept links => ?_) kept
  · have sameView := sheds.sameView kept
    exact ⟨Nat.lt_of_lt_of_le old size, sameView.previous, by rw [sameView.kind], sameView.variant⟩
  · refine sheds.closed kept ?_
    rcases links with previous | target
    · exact .inl (by simp [previous, Handle.isScope])
    · refine .inr (.inl ?_)
      cases kind : (before.heap.scope id).kind with
      | fork object =>
          rw [kind] at target
          cases target
          simp [ScopeKind.holds, Handle.isScope]
      | _ =>
          rw [kind] at target
          cases target

end Sheds

namespace Extends

variable {touched : Handle → Prop}

theorem refl (machine : Machine Code) : Extends touched machine machine :=
  ⟨fun _ _ => .refl _ _, id, fun _ => .refl _, fun _ => rfl, fun _ => rfl, id, rfl⟩

theorem trans (left : Extends touched before middle) (right : Extends touched middle after) :
    Extends touched before after where
  kept present spared :=
    (left.kept present spared).trans (right.kept (left.present present) spared)
  present := right.present ∘ left.present
  linked busy := (left.linked busy).trans
    (right.linked (left.present (show before.Present (.scope _) from busy)))
  cause {id} old :=
    (right.cause (left.present (show before.Present (.exception id) from old))).trans
      (left.cause old)
  array {id} old :=
    (right.array (left.present (show before.Present (.array id) from old))).trans (left.array old)
  function? := right.function? ∘ left.function?
  global := right.global.trans left.global

theorem grounded (extension : Extends touched before after) (met : ScopeId → Prop)
    (busy : ∀ {id}, met id → before.Busy id)
    (onward : ∀ {id next}, met id → before.heap.Links id next → met next) {id : ScopeId}
    (here : met id) (grounded : before.heap.Grounded id) : after.heap.Grounded id :=
  grounded.carry met
    (fun here _ => ⟨(extension.present (show before.Present (.scope _) from busy here)).1,
      extension.linked (busy here)⟩) onward here

end Extends

end Machine

namespace Heap.Supplies

variable {Code : Type} {before after : Heap Code} {given : Handle → Prop}

/-- What is given stays in place where arrays and causes do. -/
theorem carry (supplies : before.Supplies given)
    (has : ∀ {handle}, given handle → after.Has handle)
    (array : ∀ {id : ArrayId}, given (.array id) → after.array id = before.array id)
    (cause : ∀ {id : ExceptionId}, given (.exception id) →
      (after.exception id).cause = (before.exception id).cause) : after.Supplies given where
  sort := supplies.sort
  has := has
  holds := by
    intro handle target listed holds
    rcases supplies.sort listed with ⟨id, rfl⟩ | ⟨id, rfl⟩
    · refine supplies.holds listed ?_
      rwa [holds_array, ← array listed]
    · refine supplies.holds listed ?_
      rwa [holds_exception, ← cause listed]

end Heap.Supplies

namespace Terms

variable {Code : Type} {terms : Terms Code} {link : Link}
  {left left' right right' : Machine Code}

private theorem present_iff_has {machine : Machine Code} {handle : Handle}
    (sort : (∃ id, handle = .array id) ∨ ∃ id, handle = .exception id) :
    machine.Present handle ↔ machine.heap.Has handle := by
  rcases sort with ⟨id, rfl⟩ | ⟨id, rfl⟩ <;> exact .rfl

private theorem Provided.extend {before after : Machine Code} {touched : Handle → Prop}
    (provided : terms.Provided before) (extension : before.Extends touched after)
    (spared : ∀ {handle}, terms.aside handle → ¬ touched handle) : terms.Provided after := by
  have there : ∀ {handle}, ((∃ id, handle = .array id) ∨ ∃ id, handle = .exception id) →
      before.heap.Has handle → after.heap.Has handle := fun sort has =>
    (present_iff_has sort).mp (extension.present ((present_iff_has sort).mpr has))
  have supplies := provided.supplies
  refine ⟨supplies.carry (fun given => there (supplies.sort given) (supplies.has given))
    (fun given => extension.array (supplies.has given))
    (fun given => extension.cause (supplies.has given)), provided.sort,
    fun aside => there (provided.sort aside) (provided.has aside), fun aside => ?_⟩
  exact (provided.kept aside).trans (extension.kept
    ((present_iff_has (provided.sort aside)).mpr (provided.has aside)) (spared aside))

private theorem Provided.shed {before after : Machine Code} {keep : Handle → Prop}
    (provided : terms.Provided before) (sheds : before.Sheds keep after) :
    terms.Provided after := by
  have there : ∀ {handle}, ((∃ id, handle = .array id) ∨ ∃ id, handle = .exception id) →
      before.heap.Has handle → after.heap.Has handle ∧ before.heap.Kept after.heap handle := by
    rintro handle (⟨id, rfl⟩ | ⟨id, rfl⟩) has
    · exact ⟨Nat.lt_of_lt_of_eq has (congrArg Array.size sheds.arrays.symm),
        show after.heap.array id = _ from congrArg (·.getD id.index default) sheds.arrays⟩
    · exact ⟨Nat.lt_of_lt_of_eq has (congrArg Array.size sheds.exceptions.symm),
        show after.heap.exception id = _ from
          congrArg (·.getD id.index default) sheds.exceptions⟩
  have supplies := provided.supplies
  refine ⟨supplies.carry (fun given => (there (supplies.sort given) (supplies.has given)).1)
    (fun given => (there (supplies.sort given) (supplies.has given)).2)
    (fun given => congrArg ExceptionObject.cause
      (there (supplies.sort given) (supplies.has given)).2), provided.sort,
    fun aside => (there (provided.sort aside) (provided.has aside)).1, fun aside => ?_⟩
  exact (provided.kept aside).trans (there (provided.sort aside) (provided.has aside)).2

namespace Agree

variable (agree : terms.Agree link left right)
include agree

/-! The way out from linked scopes. -/

theorem previous {a b : ScopeId} (paired : link.pairs (.scope a) (.scope b)) :
    Option.Rel link.Under (left.heap.scope a).previous (right.heap.scope b).previous :=
  Link.Scopes.previous (agree.stand paired)

theorem busy {a b : ScopeId} (under : link.Under a b) : left.Busy a ∧ right.Busy b := by
  induction under with
  | pair paired => exact agree.present paired
  | veil veiled _ induction => exact ⟨induction.1, (agree.veil veiled).1⟩

private theorem onward {a b next : ScopeId} (under : link.Under a b)
    (links : left.heap.Links a next) : ∃ other, link.Under next other := by
  induction under with
  | veil _ _ induction => exact induction
  | @pair b paired =>
  have scopes : link.Scopes left.heap right.heap a b := agree.stand paired
  rcases links with previous | target
  · have related := scopes.previous
    rw [previous] at related
    cases related' : (right.heap.scope b).previous with
    | none => rw [related'] at related; cases related
    | some other =>
        rw [related'] at related
        cases related with
        | some under => exact ⟨other, under⟩
  · have kinds := scopes.kind
    generalize (left.heap.scope a).kind = kind at target kinds
    generalize (right.heap.scope b).kind = kind' at kinds
    cases kinds with
    | fork paired _ =>
        cases target
        exact ⟨_, .pair paired⟩
    | _ => cases target

private theorem onward_veil {id under next : ScopeId} (veiled : link.veil id under)
    (links : right.heap.Links id next) : next = under := by
  have veils := (agree.veil veiled).2.1
  rcases links with previous | target
  · exact Option.some.inj (previous.symm.trans veils.previous)
  · obtain ⟨_, _, kind, -⟩ := veils.call
    rw [kind] at target
    cases target

private theorem onward' {a b next : ScopeId} (under : link.Under a b)
    (links : right.heap.Links b next) : ∃ other, link.Under other next := by
  cases under with
  | veil veiled under => exact ⟨a, agree.onward_veil veiled links ▸ under⟩
  | pair paired =>
  have scopes : link.Scopes left.heap right.heap a b := agree.stand paired
  rcases links with previous | target
  · have related := scopes.previous
    rw [previous] at related
    cases related' : (left.heap.scope a).previous with
    | none => rw [related'] at related; cases related
    | some other =>
        rw [related'] at related
        cases related with
        | some under => exact ⟨other, under⟩
  · have kinds := scopes.kind
    generalize (right.heap.scope b).kind = kind at target kinds
    generalize (left.heap.scope a).kind = kind' at kinds
    cases kinds with
    | fork paired _ =>
        cases target
        exact ⟨_, .pair paired⟩
    | _ => cases target

/-- Scopes that stand for each other under veils are grounded too. -/
theorem founded {a b : ScopeId} (under : link.Under a b) :
    left.heap.Grounded a ∧ right.heap.Grounded b := by
  induction under with
  | pair paired => exact agree.grounded paired
  | veil veiled _ induction =>
      obtain ⟨busy, veils, -⟩ := agree.veil veiled
      refine ⟨induction.1, .intro busy.1 (fun last => ?_) fun linked => ?_⟩
      · exact absurd (veils.previous.symm.trans last) (Option.some_ne_none _)
      · exact agree.onward_veil veiled linked ▸ induction.2

/-! Letting things go. -/

theorem lifted {keep' : Handle → Prop} (sheds' : right.Sheds keep' right') {id next : ScopeId}
    (veiled : link.veil id next) (kept : keep' (.scope id)) : keep' (.scope next) :=
  sheds'.closed kept (agree.veil veiled).2.1.displays

theorem shed {keep keep' : Handle → Prop} (sheds : left.Sheds keep left')
    (sheds' : right.Sheds keep' right')
    (size : left.heap.scopes.size ≤ left'.heap.scopes.size)
    (size' : right.heap.scopes.size ≤ right'.heap.scopes.size)
    (given : ∀ {handle}, terms.given handle → keep handle ∧ keep' handle)
    (global : keep (.scope left.global) ∧ keep' (.scope right.global)) :
    terms.Agree (link.within keep keep') left' right' where
  veil := by
    rintro id next ⟨veiled, kept⟩
    obtain ⟨busy, veils, alone⟩ := agree.veil veiled
    exact ⟨sheds'.busy kept busy, veils.carry (sheds'.sameView kept) fun {id _} found =>
      (congrArg (·[id.index]?) sheds'.functions).trans found, fun x paired => alone x paired.1⟩
  sure := by
    rintro reading a b ⟨sure, kept, kept'⟩
    obtain ⟨under, alike⟩ := agree.sure sure
    have sameView := sheds.sameView kept
    have sameView' := sheds'.sameView kept'
    have outward : Option.Rel (link.sure reading) (left.heap.scope a).previous
        (right.heap.scope b).previous →
        Option.Rel ((link.within keep keep').sure reading) (left.heap.scope a).previous
          (right.heap.scope b).previous := fun alike =>
      alike.imp fun _ _ here there sure =>
        ⟨sure, sheds.closed kept (.inl (by simp [here, Handle.isScope])),
          sheds'.closed kept' (.inl (by simp [there, Handle.isScope]))⟩
    refine ⟨under.within (agree.lifted sheds') kept kept', ?_⟩
    cases reading with
    | callee =>
        rw [Link.Sure, sameView.variant, sameView.previous, sameView'.previous]
        exact ⟨⟨alike.1, kept, kept'⟩, fun block => outward (alike.2 block)⟩
    | trailing =>
        rw [Link.Sure, sameView.previous, sameView'.previous]
        exact ⟨⟨alike.1, kept, kept'⟩, outward alike.2⟩
    | replaced =>
        rw [Link.Sure, sameView.variant, sameView'.variant]
        exact alike.imp_left fun paired => ⟨paired, kept, kept'⟩
    | outside =>
        rw [Link.Sure, sameView.variant, sameView'.variant]
        exact alike
  outside sure := ⟨agree.outside sure.1, sure.2⟩
  bare apart :=
    ⟨fun id next veiled => (agree.bare apart).1 id next veiled.1,
      fun paired other => ⟨(agree.bare apart).2 paired.1 other, paired.2⟩⟩
  unique paired paired' := agree.unique paired.1 paired'.1
  unique' paired paired' := agree.unique' paired.1 paired'.1
  present paired :=
    ⟨sheds.present paired.2.1 (agree.present paired.1).1,
      sheds'.present paired.2.2 (agree.present paired.1).2⟩
  stand paired :=
    ((agree.stand paired.1).within (agree.lifted sheds') paired.2.1 paired.2.2
      (fun _ => sheds.closed paired.2.1) fun _ => sheds'.closed paired.2.2).carry (.refl _)
      (sheds.kept paired.2.1) (sheds'.kept paired.2.2)
  firm := by
    rintro a b ⟨firm, kept, kept'⟩
    obtain ⟨paired, unframed, uncalled⟩ := agree.firm firm
    rw [(sheds.sameView kept).variant]
    exact ⟨⟨paired, kept, kept'⟩, unframed, uncalled⟩
  grounded paired :=
    ⟨sheds.grounded size paired.2.1 (agree.grounded paired.1).1,
      sheds'.grounded size' paired.2.2 (agree.grounded paired.1).2⟩
  global := by
    rw [sheds.global, sheds'.global]
    exact ⟨agree.global, global⟩
  given listed := ⟨agree.given listed, given listed⟩
  aside listed :=
    ⟨fun paired => (agree.aside listed).1 paired.1, fun paired => (agree.aside listed).2 paired.1⟩
  provided := agree.provided.shed sheds
  provided' := agree.provided'.shed sheds'

/-! Revising what is linked. -/

variable {touched touched' : Handle → Prop}

private theorem unaside {handle other : Handle} (paired : link.pairs handle other) :
    ¬ terms.aside handle ∧ ¬ terms.aside other :=
  ⟨fun aside => (agree.aside aside).1 paired, fun aside => (agree.aside aside).2 paired⟩

theorem founded_extend {a b : ScopeId} (under : link.Under a b)
    (extension : left.Extends touched left') (extension' : right.Extends touched' right') :
    left'.heap.Grounded a ∧ right'.heap.Grounded b := by
  constructor
  · exact extension.grounded (fun a => ∃ b, link.Under a b)
      (fun ⟨_, under⟩ => (agree.busy under).1) (fun ⟨_, under⟩ => agree.onward under)
      ⟨b, under⟩ (agree.founded under).1
  · exact extension'.grounded (fun b => ∃ a, link.Under a b)
      (fun ⟨_, under⟩ => (agree.busy under).2) (fun ⟨_, under⟩ => agree.onward' under)
      ⟨a, under⟩ (agree.founded under).2

private theorem veil_extend {id next : ScopeId} (veiled : link.veil id next)
    (extension' : right.Extends touched' right') (spared : ¬ touched' (.scope id)) :
    right'.Busy id ∧ right'.heap.Veils id next := by
  obtain ⟨busy, veils, -⟩ := agree.veil veiled
  exact ⟨extension'.present (show right.Present (.scope id) from busy),
    veils.carry (extension'.kept (show right.Present (.scope id) from busy) spared)
      extension'.function?⟩

private theorem sure_extend {reading : Reading} {a b : ScopeId} (sure : link.sure reading a b)
    (grows : link.Grows link') (extension : left.Extends touched left')
    (extension' : right.Extends touched' right') :
    link'.Under a b ∧ link'.Sure left'.heap right'.heap reading a b := by
  obtain ⟨under, alike⟩ := agree.sure sure
  have busy := agree.busy under
  have linked := extension.linked busy.1
  have linked' := extension'.linked busy.2
  refine ⟨grows.under under, ?_⟩
  have outward : ∀ {reading}, Option.Rel (link.sure reading) (left.heap.scope a).previous
      (right.heap.scope b).previous → Option.Rel (link'.sure reading)
        (left.heap.scope a).previous (right.heap.scope b).previous := fun alike =>
    alike.imp fun _ _ _ _ => grows.sure
  cases reading with
  | callee =>
      rw [Link.Sure, linked.variant, linked.previous, linked'.previous]
      exact ⟨grows.pairs alike.1, fun block => outward (alike.2 block)⟩
  | trailing =>
      rw [Link.Sure, linked.previous, linked'.previous]
      exact ⟨grows.pairs alike.1, outward alike.2⟩
  | replaced =>
      rw [Link.Sure, linked.variant, linked'.variant]
      exact alike.imp_left grows.pairs
  | outside =>
      rw [Link.Sure, linked.variant, linked'.variant]
      exact alike

/-- Linked things that were touched are shown to have in common what they should. -/
theorem revise (extension : left.Extends touched left') (extension' : right.Extends touched' right')
    (linked : ∀ {handle}, touched handle → ∃ other, link.pairs handle other)
    (linked' : ∀ {handle}, touched' handle → ∃ other, link.pairs other handle)
    (stand : ∀ {x y}, link.pairs x y → touched x ∨ touched' y →
      terms.Stand link left'.heap right'.heap x y) : terms.Agree link left' right' where
  unique := agree.unique
  unique' := agree.unique'
  present paired :=
    ⟨extension.present (agree.present paired).1, extension'.present (agree.present paired).2⟩
  stand := by
    intro x y paired
    by_cases either : touched x ∨ touched' y
    · exact stand paired either
    · obtain ⟨here, there⟩ := agree.present paired
      exact (agree.stand paired).carry (.refl _)
        (extension.kept here fun is => either (.inl is))
        (extension'.kept there fun is => either (.inr is))
  firm := by
    intro a b firm
    obtain ⟨paired, rest⟩ := agree.firm firm
    rw [(extension.linked (agree.present paired).1).variant]
    exact ⟨paired, rest⟩
  grounded paired := agree.founded_extend (.pair paired) extension extension'
  veil veiled := by
    obtain ⟨-, -, alone⟩ := agree.veil veiled
    obtain ⟨busy, veils⟩ := agree.veil_extend veiled extension' fun is =>
      have ⟨other, paired⟩ := linked' is
      alone other paired
    exact ⟨busy, veils, alone⟩
  sure sure := agree.sure_extend sure (.refl link) extension extension'
  outside := agree.outside
  bare := agree.bare
  global := by
    rw [extension.global, extension'.global]
    exact agree.global
  given := agree.given
  aside := agree.aside
  provided := agree.provided.extend extension fun aside is =>
    have ⟨_, paired⟩ := linked is
    (agree.unaside paired).1 aside
  provided' := agree.provided'.extend extension' fun aside is =>
    have ⟨_, paired⟩ := linked' is
    (agree.unaside paired).2 aside

theorem add {x y : Handle} {firm : Prop} {sure : Reading → Prop}
    (extension : left.Extends (fun _ => False) left')
    (extension' : right.Extends (fun _ => False) right')
    (absent : ¬ left.Present x) (absent' : ¬ right.Present y)
    (present : left'.Present x) (present' : right'.Present y)
    (stand : terms.Stand (link.add x y firm sure) left'.heap right'.heap x y)
    (founded : ∀ {a b}, x = .scope a → y = .scope b →
      left'.heap.Grounded a ∧ right'.heap.Grounded b ∧
        (firm → (left'.heap.scope a).variant ≠ .basic ∧
          (left'.heap.scope a).variant ≠ .function))
    (surely : ∀ {a b}, x = .scope a → y = .scope b → ∀ {reading}, (sure reading →
        (link.add x y firm sure).Sure left'.heap right'.heap reading a b) ∧
      (¬ terms.veiled → reading ≠ .outside → sure reading))
    (outside : sure .outside → sure .replaced) :
    terms.Agree (link.add x y firm sure) left' right' where
  unique := by
    rintro a b b' (paired | ⟨rfl, rfl⟩) (paired' | ⟨same, rfl⟩)
    · exact agree.unique paired paired'
    · exact absurd (same ▸ (agree.present paired).1) absent
    · exact absurd (agree.present paired').1 absent
    · rfl
  unique' := by
    rintro a a' b (paired | ⟨rfl, rfl⟩) (paired' | ⟨rfl, same⟩)
    · exact agree.unique' paired paired'
    · exact absurd (same ▸ (agree.present paired).2) absent'
    · exact absurd (agree.present paired').2 absent'
    · rfl
  present := by
    rintro a b (paired | ⟨rfl, rfl⟩)
    · exact ⟨extension.present (agree.present paired).1,
        extension'.present (agree.present paired).2⟩
    · exact ⟨present, present'⟩
  stand := by
    rintro a b (paired | ⟨rfl, rfl⟩)
    · obtain ⟨here, there⟩ := agree.present paired
      exact (agree.stand paired).carry (link.grows_add x y firm sure)
        (extension.kept here id) (extension'.kept there id)
    · exact stand
  firm := by
    rintro a b (old | ⟨is, rfl, rfl⟩)
    · obtain ⟨paired, rest⟩ := agree.firm old
      rw [(extension.linked (agree.present paired).1).variant]
      exact ⟨.inl paired, rest⟩
    · exact ⟨.inr ⟨rfl, rfl⟩, (founded rfl rfl).2.2 is⟩
  grounded := by
    rintro a b (paired | ⟨rfl, rfl⟩)
    · exact agree.founded_extend (.pair paired) extension extension'
    · exact ⟨(founded rfl rfl).1, (founded rfl rfl).2.1⟩
  veil := by
    intro id next veiled
    obtain ⟨here, -, alone⟩ := agree.veil veiled
    obtain ⟨busy, veils⟩ := agree.veil_extend veiled extension' not_false
    refine ⟨busy, veils, ?_⟩
    rintro other (paired | ⟨-, same⟩)
    · exact alone other paired
    · exact absurd (show right.Present (.scope id) from here) (same ▸ absent')
  sure := by
    rintro reading a b (old | ⟨made, rfl, rfl⟩)
    · exact agree.sure_extend old (link.grows_add ..) extension extension'
    · exact ⟨.pair (link.pairs_add ..), (surely rfl rfl).1 made⟩
  outside := by
    rintro a b (old | ⟨made, rfl, rfl⟩)
    · exact .inl (agree.outside old)
    · exact .inr ⟨outside made, rfl, rfl⟩
  bare := by
    refine fun apart => ⟨(agree.bare apart).1, ?_⟩
    rintro reading a b (paired | ⟨rfl, rfl⟩)
    · exact fun other => .inl ((agree.bare apart).2 paired other)
    · exact fun other => .inr ⟨(surely rfl rfl).2 apart other, rfl, rfl⟩
  global := by
    rw [extension.global, extension'.global]
    exact .inl agree.global
  given listed := .inl (agree.given listed)
  aside := by
    intro handle other listed
    have sort := agree.provided.sort listed
    constructor
    · rintro (paired | ⟨rfl, rfl⟩)
      · exact (agree.aside listed).1 paired
      · exact absent ((present_iff_has sort).mpr (agree.provided.has listed))
    · rintro (paired | ⟨rfl, rfl⟩)
      · exact (agree.aside listed).2 paired
      · exact absent' ((present_iff_has sort).mpr (agree.provided'.has listed))
  provided := agree.provided.extend extension fun _ => id
  provided' := agree.provided'.extend extension' fun _ => id

theorem cover {top next : ScopeId} (extension : right.Extends (fun _ => False) right')
    (veiled : terms.veiled) (absent : ¬ right.Busy top) (present : right'.Busy top)
    (veils : right'.heap.Veils top next) : terms.Agree (link.cover top next) left right' := by
  have still {machine : Machine Code} : machine.Extends (fun _ => False) machine := .refl machine
  have later := agree.revise still extension False.elim False.elim
    fun _ either => either.elim False.elim False.elim
  have grows := link.grows_cover top next
  have alone : ∀ x, ¬ link.pairs x (.scope top) := fun x paired =>
    absent (agree.present paired).2
  exact { later with
    stand := fun paired => (later.stand paired).carry grows (.refl _ _) (.refl _ _)
    veil := by
      rintro id under' (old | ⟨rfl, rfl⟩)
      · exact later.veil old
      · exact ⟨present, veils, alone⟩
    sure := by
      rintro reading b id (old | ⟨rfl, rfl, sure⟩)
      · exact later.sure_extend old grows still still
      · obtain ⟨under', alike⟩ := later.sure sure
        refine ⟨Link.under_cover under' id, .inr ⟨alike.1, ?_⟩⟩
        rw [veils.variant]
        exact nofun
    outside := by
      rintro b id (old | ⟨same, -⟩)
      · exact .inl (later.outside old)
      · cases same
    bare := fun apart => absurd veiled apart }

end Agree

end Terms

end ScopeMachine
