import ScopeMachine.Proofs.Placement.Outcomes

/-!
What can be told from outside of calls that are made without a scope of their own: nothing, if the
program tells no more than it may of the scopes that it runs in.
-/

namespace ScopeMachine

open ScopeMachine.Action

/-- The machine with scopes for all calls, or without them for calls that need none. -/
def Machine.skipping {Code : Type} (machine : Machine Code) (skips : Bool) : Machine Code :=
  { machine with limits := { machine.limits with skipScope := skips } }

private theorem Machine.Fresh.skipping {machine : Machine Script} (fresh : machine.Fresh)
    (skips : Bool) :
    (machine.skipping skips).Fresh := by
  induction fresh with
  | new limits choice =>
      have same : (Machine.new limits choice : Machine Script).skipping skips =
          .new { limits with skipScope := skips } choice := by
        unfold Machine.new
        generalize (Heap.ofCapacity limits.arenaCapacity : Heap Script).newGlobal = shared
        cases choice <;> rfl
      exact same ▸ .new _ choice
  | array _ bare frozen induction => exact .array induction bare frozen
  | exception _ bare induction => exact .exception induction bare

def Heap.bindings {Code : Type} (heap : Heap Code) (id : ScopeId) :
    List (String × Permission × String) :=
  (heap.scope id).index.members.toList.zipIdx.map fun (member, slot) =>
    (member.name, (heap.contentAt id slot).permission, heap.text (heap.contentAt id slot).value)

private theorem Terms.Agree.bindings {Code : Type} {terms : Terms Code} {link : Link}
    {left right : Machine Code} {a b : ScopeId} (agree : terms.Agree link left right)
    (paired : link.pairs (.scope a) (.scope b)) : left.heap.bindings a = right.heap.bindings b := by
  have scopes := agree.scopes paired
  unfold Heap.bindings
  rw [scopes.members]
  refine List.map_congr_left fun (member, slot) _ => ?_
  have cells := scopes.content slot
  simp only [cells.permission, agree.text cells.value]

namespace Script

variable {machine : Machine Script} {given : Handle → Prop} {script : Script}

/-- Whether calls that need no scope are made without one makes no difference to the end that a
program comes to, nor to what is bound in any scope that can be reached when it is over. -/
theorem skipping_unobservable (fresh : machine.Fresh) (supplies : machine.heap.Supplies given)
    (regular : Regular given (fun _ => True) script) (confined : Confined (fun _ => True) script) :
    script.verdict (machine.skipping true) = script.verdict (machine.skipping false) ∧
      ∃ link : Link,
        link.pairs (.scope (onset machine).1) (.scope (onset machine).1) ∧
        (terms True True given (fun _ => False) machine.heap).Agree link
          (machineLeft (script.run [] (machine.skipping true)))
          (machineLeft (script.run [] (machine.skipping false))) ∧
        ∀ {a b : ScopeId}, link.pairs (.scope a) (.scope b) →
          (machineLeft (script.run [] (machine.skipping true))).heap.bindings a =
            (machineLeft (script.run [] (machine.skipping false))).heap.bindings b := by
  have others : machine.heap.Supplies fun _ => False := ⟨nofun, nofun, nofun⟩
  have begun : Machine.Resumes (fun handle => given handle ∨ False) (machine.skipping false)
      (machine.skipping true) :=
    { unstarted := (fresh.skipping true).unstarted
      bounds := rfl
      global := rfl
      sameView := .refl _ _
      has := fun here => here.elim supplies.has nofun
      keeps := fun {handle} _ => .refl _ handle }
  have mirrors := begun.mirrors True True (fresh.skipping false) supplies others
    (fun _ => not_false) ⟨rfl, fun _ => rfl, fun apart => absurd trivial apart⟩
  obtain ⟨link, -, paired, alike⟩ := regular.reflagged.main regular (fun _ => rfl)
    (fun _ => confined) mirrors (fun _ => ⟨rfl, rfl⟩) []
  obtain ⟨link', passes, mirrored⟩ := alike.leaves trivial
  exact ⟨alike.verdict fun apart => absurd trivial apart, link', passes.pairs (.head _) paired,
    mirrored.agree, mirrored.agree.bindings⟩

def bumping : Script :=
  let next : FunctionSource := { name := "next", body := .var "count" }
  let bump : FunctionSource :=
    { name := "bump"
      body := .seq [
        .assign "count" (.add (.var "count") (.lit (.exact 1))),
        .define next.build none] }
  .seq [
    .declare "count" .publicTier (.lit (.exact 1)),
    .declare "bump" .publicTier (.define bump.build none),
    .call (.call (.var "bump") []) []]

theorem skipping_unobservable_bumping :
    let machine : Machine Script := .new .default .fresh
    let given : Handle → Prop := fun _ => False
    machine.Fresh ∧ machine.heap.Supplies given ∧ Regular given (fun _ => True) bumping ∧
      Confined (fun _ => True) bumping ∧
      bumping.verdict (machine.skipping true) = bumping.verdict (machine.skipping false) ∧
      bumping.verdict (machine.skipping false) = .value "2" ∧
      (machineLeft (bumping.run [] (machine.skipping true))).heap.bindings (onset machine).1 =
        [("count", .publicTier, "2"), ("bump", .publicTier, "[function: bump]")] := by
  intro machine given
  have fresh : machine.Fresh := .new .default .fresh
  have supplies : machine.heap.Supplies given := ⟨nofun, nofun, nofun⟩
  have regular : Regular given (fun _ => True) bumping := by
    refine .seq ?_
    simp only [List.forall_mem_cons, List.not_mem_nil, false_implies, implies_true, and_true]
    refine ⟨.declare _ trivial (.lit nofun),
      .declare _ trivial (.define _ (.seq ?_) nofun nofun nofun),
      .call (.call (.var _) nofun) nofun⟩
    simp only [List.forall_mem_cons, List.not_mem_nil, false_implies, implies_true, and_true]
    exact ⟨.assign _ (.add (.var _) (.lit nofun)), .define _ (.var _) nofun nofun nofun⟩
  have confined : Confined (fun _ => True) bumping := by
    refine .seq ?_
    simp only [List.forall_mem_cons, List.not_mem_nil, false_implies, implies_true, and_true]
    refine ⟨.declare _ _ (.lit _),
      .declare _ _ (.define (.inr trivial) (.seq ?_) nofun nofun nofun),
      .call (.call (.var (.inr trivial)) nofun) nofun⟩
    simp only [List.forall_mem_cons, List.not_mem_nil, false_implies, implies_true, and_true]
    exact ⟨.assign (.inl (by decide)) (.add (.var (.inl (by decide))) (.lit _)),
      .define (.inr (Terms.bodyReads_replaced _ trivial)) (.var (.inl (by decide))) nofun
        nofun nofun⟩
  exact ⟨fresh, supplies, regular, confined,
    (skipping_unobservable fresh supplies regular confined).1,
    by decide +kernel, by decide +kernel⟩

def naming : Script :=
  let source : FunctionSource := { name := "f", body := .var "in" }
  .seq [.declare "f" .publicTier (.define source.build none), .call (.var "f") []]

/-- The fast path looks for `in` in the enclosing scope, where there is none; in a scope of its own
the call finds an empty frozen array. -/
theorem fast_path_misses_in :
    (match naming.run [] (.new ⟨8, 8, true, true⟩ .fresh) with
      | .error (.failure { fault := .noSuchMember name, .. }) _ => name == "in"
      | _ => false) = true ∧
    (match naming.run [] (.new ⟨8, 8, false, true⟩ .fresh) with
      | .ok (.array id) after =>
          (after.heap.array id).frozen && (after.heap.array id).elements.isEmpty
      | _ => false) = true := by
  decide +kernel

/-- `callee` in the static part of a function that is made in passing. -/
example :
    let inner : FunctionSource :=
      { name := "g", body := .seq [], statics := some (.declare "s" .publicTier .calleeValue) }
    let outer : FunctionSource := { name := "f", body := .member (.define inner.build none) "s" }
    let script : Script := .call (.define outer.build none) []
    script.verdict (.new ⟨8, 8, true, true⟩ .fresh) = .value "null" ∧
      script.verdict (.new ⟨8, 8, false, true⟩ .fresh) = .value "[function: f]" := by
  decide +kernel

/-- A function that is made in passing in a constructor replaces a member, or does not. -/
example :
    let replacing : FunctionSource := { name := "m", body := .superValue }
    let making : FunctionSource := { name := "make", body := .define replacing.build none }
    let class' : FunctionSource :=
      { name := "C"
        locals := [⟨"m", .publicTier⟩, ⟨"made", .publicTier⟩]
        body := .seq [
          .declare "m" .publicTier (.lit (.exact 1)),
          .declare "made" .publicTier (.call (.define making.build none) [])] }
    let script : Script := .call (.member (.construct (.define class'.build none) []) "made") []
    script.verdict (.new ⟨8, 8, true, true⟩ .fresh) = .value "1" ∧
      script.verdict (.new ⟨8, 8, false, true⟩ .fresh) = .value "Object" := by
  decide +kernel

end Script

end ScopeMachine
