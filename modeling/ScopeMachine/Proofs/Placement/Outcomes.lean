import ScopeMachine.Probe.Failures
import ScopeMachine.Proofs.Placement.Resuming

/-!
What can be told from outside of where scopes keep their members, and of what ran before: nothing. A
program comes to the same end whatever its flags about capturing say, unless the arena runs out, and
whatever other program has run on the machine before it.
-/

namespace ScopeMachine

open ScopeMachine.Action

/-- What whoever runs a program is told of its end. -/
inductive Verdict where
  | value (text : String)
  | failure (kind message : String) (backtrace : Option Backtrace)
  | crash
  deriving DecidableEq

/-- The arena ran out. -/
def Verdict.IsExhaustion : Verdict → Prop
  | .failure kind _ _ => kind = "ArenaExhausted"
  | _ => False

instance (verdict : Verdict) : Decidable verdict.IsExhaustion := by
  unfold Verdict.IsExhaustion
  cases verdict <;> infer_instance

def verdictOf {Code : Type} : Ending Code Value → Verdict
  | .ok value machine => .value (machine.heap.text value)
  | .error (.failure failure) machine =>
      .failure failure.fault.kindName (machine.heap.failureMessage failure) failure.backtrace
  | .error .crash _ => .crash

/-- Runs a program and tells how it ended. -/
def Script.verdict (script : Script) (machine : Machine Script) : Verdict :=
  verdictOf (script.run [] machine)

private theorem Link.Faults.kindName {link : Link} {fault fault' : Fault}
    (faults : link.Faults fault fault') :
    fault.kindName = fault'.kindName := by
  cases faults <;> rfl

namespace Terms

variable {Code : Type} {terms : Terms Code} {link : Link} {left right : Machine Code}
  {kept : Handle → Handle → Prop} {ending ending' : Ending Code Value}

private theorem Full.isExhaustion {failure : Failure} (full : Full failure)
    (machine : Machine Code) :
    (verdictOf (.error (.failure failure) machine : Ending Code Value)).IsExhaustion := by
  obtain ⟨_, _, _, fault⟩ := full
  change failure.fault.kindName = _
  rw [fault]
  rfl

theorem Alike.verdict
    (alike : terms.Alike kept link left right (terms.Meets Link.Values) ending ending')
    (room : ¬ terms.inStep →
      ¬ (verdictOf ending).IsExhaustion ∧ ¬ (verdictOf ending').IsExhaustion) :
    verdictOf ending = verdictOf ending' := by
  cases alike with
  | ok _ met => exact congrArg Verdict.value (met.1.agree.text met.2)
  | failure _ mirrors failures =>
      have told := congr (congrArg₂ Verdict.failure failures.fault.kindName
        (mirrors.agree.failureMessage failures)) failures.backtrace
      exact told
  | crash => rfl
  | leftFull apart full => exact absurd (full.isExhaustion _) (room apart).1
  | rightFull apart full => exact absurd (full.isExhaustion _) (room apart).2

end Terms

namespace Script

variable {machine : Machine Script} {given given' : Handle → Prop} {script script' : Script}

/-- Two versions of a program that differ at most in their flags about capturing come to the same
end, unless the arena runs out. -/
theorem placement_unobservable (fresh : machine.Fresh) (supplies : machine.heap.Supplies given)
    (regular : Regular given (fun _ => True) script) (reflagged : Reflagged script script')
    (room : ¬ (script.verdict machine).IsExhaustion)
    (room' : ¬ (script'.verdict machine).IsExhaustion) :
    script.verdict machine = script'.verdict machine := by
  have others : machine.heap.Supplies fun _ => False := ⟨nofun, nofun, nofun⟩
  have begun : machine.Resumes (fun handle => given handle ∨ False) machine :=
    fresh.resumes fun here => here.elim supplies.has nofun
  have mirrors := begun.mirrors False False fresh supplies others (fun _ => not_false) (.of_eq rfl)
  have alike := reflagged.run regular nofun False.elim mirrors (fun _ => ⟨rfl, rfl⟩) []
  exact alike.verdict fun _ => ⟨room, room'⟩

def counter (captures : Bool) : FunctionSource where
  name := "counter"
  locals := [⟨"count", .publicTier⟩]
  captures := captures
  body := .seq [
    .declare "count" .publicTier (.lit (.exact 1)),
    .block ⟨#[⟨"step", .publicTier⟩], captures⟩ [
      .declare "step" .publicTier (.lit (.exact 2)),
      .define (FunctionSource.build
        { name := "next", body := .assign "count" (.add (.var "count") (.var "step")) }) none]]

def counting (captures : Bool) : Script :=
  .seq [
    .declare "next" .publicTier (.call (.define (counter captures).build none) []),
    .call (.var "next") [],
    .call (.var "next") []]

theorem placement_unobservable_counting :
    let machine : Machine Script := .new .default .fresh
    let given : Handle → Prop := fun _ => False
    machine.Fresh ∧ machine.heap.Supplies given ∧
      Regular given (fun _ => True) (counting false) ∧ Reflagged (counting false) (counting true) ∧
      ¬ ((counting false).verdict machine).IsExhaustion ∧
      ¬ ((counting true).verdict machine).IsExhaustion ∧
      (counting false).verdict machine = (counting true).verdict machine ∧
      (counting false).verdict machine = .value "5" := by
  intro machine given
  have fresh : machine.Fresh := .new .default .fresh
  have supplies : machine.heap.Supplies given := ⟨nofun, nofun, nofun⟩
  have regular : Regular given (fun _ => True) (counting false) := by
    refine .seq ?_
    simp only [List.forall_mem_cons, List.not_mem_nil, false_implies, implies_true, and_true]
    refine ⟨.declare _ trivial (.call (.define _ (.seq ?_) nofun nofun nofun) nofun),
      .call (.var _) nofun, .call (.var _) nofun⟩
    simp only [List.forall_mem_cons, List.not_mem_nil, false_implies, implies_true, and_true]
    refine ⟨.declare _ (by decide +kernel) (.lit nofun), .block ?_⟩
    simp only [List.forall_mem_cons, List.not_mem_nil, false_implies, implies_true, and_true]
    exact ⟨.declare _ (by decide +kernel) (.lit nofun),
      .define _ (.assign _ (.add (.var _) (.var _))) nofun nofun nofun⟩
  have reflagged : Reflagged (counting false) (counting true) := by
    refine .seq rfl ?_
    simp only [List.zip_cons_cons, List.zip_nil_left, List.forall_mem_cons, List.not_mem_nil,
      false_implies, implies_true, and_true]
    refine ⟨.declare _ _
      (.call (.define rfl rfl rfl rfl (.seq rfl ?_) rfl nofun rfl nofun rfl nofun)
      rfl nofun), .call (.var _) rfl nofun, .call (.var _) rfl nofun⟩
    simp only [List.zip_cons_cons, List.zip_nil_left, List.forall_mem_cons, List.not_mem_nil,
      false_implies, implies_true, and_true]
    refine ⟨.declare _ _ (.lit _), .block rfl rfl ?_⟩
    simp only [List.zip_cons_cons, List.zip_nil_left, List.forall_mem_cons, List.not_mem_nil,
      false_implies, implies_true, and_true]
    exact ⟨.declare _ _ (.lit _),
      .define rfl rfl rfl rfl (.assign _ (.add (.var _) (.var _))) rfl nofun rfl nofun rfl nofun⟩
  have room : ¬ ((counting false).verdict machine).IsExhaustion := by decide +kernel
  have room' : ¬ ((counting true).verdict machine).IsExhaustion := by decide +kernel
  exact ⟨fresh, supplies, regular, reflagged, room, room',
    placement_unobservable fresh supplies regular reflagged room room', by decide +kernel⟩

/-- Whatever a program does and however it ends, the next one comes to the end that it would have
come to on a fresh machine. -/
theorem history_independent (fresh : machine.Fresh) (supplies : machine.heap.Supplies given)
    (supplies' : machine.heap.Supplies given') (apart : ∀ {handle}, given handle → ¬ given' handle)
    (regular : Regular given (fun _ => True) script)
    (regular' : Regular given' (fun _ => True) script') :
    script'.verdict (machineLeft (script.run [] machine)) = script'.verdict machine := by
  obtain ⟨resumes, limits⟩ := fresh.resumes_run regular supplies supplies' apart
  have others : machine.heap.Supplies fun _ => False := ⟨nofun, nofun, nofun⟩
  have whole : (fun handle => given' handle ∨ False) = given' := funext fun _ => or_false _
  have begun : machine.Resumes (fun handle => given' handle ∨ False)
      (machineLeft (script.run [] machine)) := by
    rw [whole]
    exact resumes
  have mirrors := begun.mirrors True False fresh supplies' others (fun _ => not_false)
    (.of_eq limits)
  have alike := regular'.reflagged.run regular' (fun _ => rfl) False.elim mirrors
    (fun _ => ⟨resumes.global, resumes.global⟩) []
  exact alike.verdict fun apart => absurd trivial apart

theorem supplies_array {heap : Heap Script} {id : ArrayId} (present : id.index < heap.arrays.size)
    (bare : ∀ value ∈ (heap.array id).elements, value.handles = []) :
    heap.Supplies (· = .array id) where
  sort := fun here => .inl ⟨id, here⟩
  has := fun here => here ▸ present
  holds := by
    rintro _ target rfl held
    obtain ⟨value, member, holds⟩ := Array.any_eq_true'.mp (Heap.holds_array.mp held)
    have listed := Value.mem_handles.mpr holds
    rw [bare value member] at listed
    cases listed

def furnished : Machine Script :=
  let machine := (Machine.new .default .fresh : Machine Script)
  let first := machine.withHeap (machine.heap.newArray [.exact 1] false).2
  first.withHeap (first.heap.newArray [.exact 2] false).2

def crashing : Script :=
  .seq [
    .declare "boom" .publicTier (.define (FunctionSource.build
      { name := "boom", params := [("a", false)], body := .crash }) none),
    .call (.var "boom") [.lit (.array ⟨0⟩)]]

def seeking : Script :=
  .seq [
    .declare "seek" .publicTier (.define (FunctionSource.build
      { name := "seek", params := [("b", false)], body := .seq [.line 7, .var "a"] }) none),
    .call (.var "seek") [.lit (.array ⟨1⟩)]]

theorem history_independent_crashing :
    let given : Handle → Prop := (· = .array ⟨0⟩)
    let given' : Handle → Prop := (· = .array ⟨1⟩)
    furnished.Fresh ∧ furnished.heap.Supplies given ∧ furnished.heap.Supplies given' ∧
      (∀ {handle}, given handle → ¬ given' handle) ∧ Regular given (fun _ => True) crashing ∧
      Regular given' (fun _ => True) seeking ∧ crashing.verdict furnished = .crash ∧
      seeking.verdict (machineLeft (crashing.run [] furnished)) = seeking.verdict furnished ∧
      seeking.verdict furnished = .failure "NoSuchMember" "no such member: a"
        (some ⟨[⟨"seek", "test.osc", 7⟩, ⟨"main", "test.osc", 0⟩]⟩) := by
  intro given given'
  have fresh : furnished.Fresh := .array (.array (.new .default .fresh) (by simp) false)
    (by simp) false
  have supplies : furnished.heap.Supplies given :=
    supplies_array (by decide +kernel) (by decide +kernel)
  have supplies' : furnished.heap.Supplies given' :=
    supplies_array (by decide +kernel) (by decide +kernel)
  have apart : ∀ {handle}, given handle → ¬ given' handle := by
    rintro _ rfl same
    cases same
  have regular : Regular given (fun _ => True) crashing := by
    refine .seq ?_
    simp only [List.forall_mem_cons, List.not_mem_nil, false_implies, implies_true, and_true]
    refine ⟨.declare _ trivial (.define _ .crash nofun nofun nofun), .call (.var _) ?_⟩
    exact List.forall_mem_singleton.mpr (.lit (List.forall_mem_singleton.mpr rfl))
  have regular' : Regular given' (fun _ => True) seeking := by
    refine .seq ?_
    simp only [List.forall_mem_cons, List.not_mem_nil, false_implies, implies_true, and_true]
    refine ⟨.declare _ trivial (.define _ (.seq ?_) nofun nofun nofun), .call (.var _) ?_⟩
    · simp only [List.forall_mem_cons, List.not_mem_nil, false_implies, implies_true, and_true]
      exact ⟨.line _, .var _⟩
    · exact List.forall_mem_singleton.mpr (.lit (List.forall_mem_singleton.mpr rfl))
  exact ⟨fresh, supplies, supplies', apart, regular, regular', by decide +kernel,
    history_independent fresh supplies supplies' apart regular regular', by decide +kernel⟩

end Script

end ScopeMachine
