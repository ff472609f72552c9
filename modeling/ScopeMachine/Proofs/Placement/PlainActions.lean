import ScopeMachine.Evaluation
import ScopeMachine.Proofs.Placement.Declaring

namespace ScopeMachine

open Arena ScopeMachine.Action

private theorem Heap.assign_of_ok {Code : Type} {heap : Heap Code} {id : CellId} {name : String}
    {value : Value} {cell : Cell} (accepted : (heap.cell id).assign name value = .ok cell) :
    heap.assign id name value = (.ok (), heap.modifyCell id fun _ => cell) := by
  unfold Heap.cell at accepted
  rw [Heap.assign, Memory.assign, accepted]
  rfl

private theorem Heap.assign_of_error {Code : Type} {heap : Heap Code} {id : CellId} {name : String}
    {value : Value} {fault : Fault} (refused : (heap.cell id).assign name value = .error fault) :
    heap.assign id name value = (.error fault, heap) := by
  unfold Heap.cell at refused
  rw [Heap.assign, Memory.assign, refused]

namespace Terms.Matches

variable {Code α β γ δ ε ζ : Type} {terms : Terms Code} {link : Link}
  {left right : Machine Code} {kept : Handle → Handle → Prop} {held : List (Handle × Handle)}
  {meeting : Meeting Code α β}

/-- Steps on the heap with which nothing is lost. -/
theorem bindHeap {related : Link → Heap Code → Heap Code → γ → δ → Prop}
    {step : Heap Code → γ × Heap Code} {step' : Heap Code → δ × Heap Code}
    {next : γ → Action Code α} {next' : δ → Action Code β}
    (accords : terms.Accords .empty .empty link left right related (step left.heap)
      (step' right.heap))
    (further : ∀ {link' left' right' result result'}, Onward link left right link' left' right' →
      terms.Mirrors link' .empty .empty left' right' →
      related link' left'.heap right'.heap result result' →
      terms.Matches held kept link' left' right' meeting (next result) (next' result')) :
    terms.Matches held kept link left right meeting (onHeap step >>= next)
      (onHeap step' >>= next') := by
  obtain ⟨link', onward, mirrors, results⟩ := accords
  exact Alike.after (onward.weaken fun _ => trivial) (further onward mirrors results)

theorem onHeap {related : Link → α → β → Prop} {step : Heap Code → α × Heap Code}
    {step' : Heap Code → β × Heap Code}
    (accords : terms.Accords .empty .empty link left right (fun link _ _ => related link)
      (step left.heap) (step' right.heap)) :
    terms.Matches held kept link left right (terms.Meets related) (onHeap step)
      (Action.onHeap step') := by
  obtain ⟨link', passes, mirrors, results⟩ := accords
  exact .ok (passes.weaken fun _ => trivial) ⟨mirrors, results⟩

/-- Looking at the machines. -/
theorem bindGet {next : Machine Code → Action Code α} {next' : Machine Code → Action Code β}
    (onward : terms.Matches held kept link left right meeting (next left) (next' right)) :
    terms.Matches held kept link left right meeting (get >>= next) (get >>= next') :=
  onward

theorem bindRead {read : Heap Code → γ} {read' : Heap Code → δ} {next : γ → Action Code α}
    {next' : δ → Action Code β}
    (onward : terms.Matches held kept link left right meeting (next (read left.heap))
      (next' (read' right.heap))) :
    terms.Matches held kept link left right meeting (readHeap read >>= next)
      (readHeap read' >>= next') :=
  onward

variable (mirrors : terms.Mirrors link .empty .empty left right)
include mirrors

/-- The same fault, or results that go on alike. -/
theorem bindExcept {next : γ → Action Code α} {next' : γ → Action Code β} {outcome : Except Fault γ}
    (unthrown : ∀ {fault}, outcome = .error fault → ∀ value, fault ≠ .thrown value)
    (onward : ∀ {result}, outcome = .ok result →
      terms.Matches held kept link left right meeting (next result) (next' result)) :
    terms.Matches held kept link left right meeting (ofExcept outcome >>= next)
      (ofExcept outcome >>= next') := by
  cases outcome with
  | ok result => exact onward rfl
  | error fault =>
      have failed : terms.Matches held kept link left right meeting (Action.fail fault)
          (Action.fail fault) := .fail mirrors (unthrown rfl)
      exact failed

theorem guarded {condition condition' : Prop} [Decidable condition] [Decidable condition']
    (same : condition ↔ condition') {fault fault' : Fault} (faults : fault = fault')
    (unthrown : ∀ value, fault ≠ .thrown value) {next : Unit → Action Code α}
    {next' : Unit → Action Code β}
    (onward : terms.Matches held kept link left right meeting (next ()) (next' ())) :
    terms.Matches held kept link left right meeting
      (if condition then Action.fail fault >>= next else next ())
      (if condition' then Action.fail fault' >>= next' else next' ()) := by
  subst faults
  by_cases refused : condition
  · rw [if_pos refused, if_pos (same.mp refused)]
    have failed : terms.Matches held kept link left right meeting (Action.fail fault)
        (Action.fail fault) := .fail mirrors unthrown
    exact failed
  · rw [if_neg refused, if_neg fun refused' => refused (same.mpr refused')]
    exact onward

theorem assign {cell cell' : CellId} (places : link.Places left.heap right.heap cell cell')
    (name : String) {value value' : Value} (values : link.Values value value') :
    terms.Matches held kept link left right (terms.Meets fun _ _ _ => True)
      (tryHeap (·.assign cell name value)) (tryHeap (·.assign cell' name value')) := by
  unfold Matches
  rw [run_tryHeap, run_tryHeap]
  rcases (mirrors.agree.places places).assign name values with
    ⟨written, written', here, there, cells⟩ | ⟨here, there⟩
  · have ⟨onward, after⟩ := mirrors.write places (fun _ => written) (fun _ => written') cells
    rw [Heap.assign_of_ok here, Heap.assign_of_ok there]
    exact .ok (onward.weaken fun _ => trivial) ⟨after, trivial⟩
  · rw [Heap.assign_of_error here, Heap.assign_of_error there]
    exact .failure (mirrors.stay kept) mirrors ⟨.plain nofun, rfl, rfl⟩

theorem newArray {values values' : List Value} (alike : List.Forall₂ link.Values values values') :
    terms.Matches held kept link left right (terms.Meets Link.Values) (newArray values)
      (Action.newArray values') :=
  .bindHeap (mirrors.newArray alike false) fun _ mirrors' paired =>
    .pure mirrors' ⟨mirrors', .array paired⟩

theorem declareMember {a b : ScopeId} (paired : link.pairs (.scope a) (.scope b)) (name : String)
    (permission : Permission)
    (room : (left.heap.scope a).pooled = true →
      (left.heap.scope a).index.contains name = true)
    (room' : (right.heap.scope b).pooled = true →
      (right.heap.scope b).index.contains name = true)
    {value value' : Value} (values : link.Values value value') :
    terms.Matches held kept link left right (terms.Meets fun _ _ _ => True)
      (declareMember a name permission value) (Action.declareMember b name permission value') :=
  .bindHeap (mirrors.createMember paired name permission room room')
    fun onward mirrors' places => .assign mirrors' places name (onward.grows.values values)

/-- A declaration in scopes that have no members in the arena. -/
theorem declareFirm {a b : ScopeId} (firm : link.firm a b) (name : String)
    (permission : Permission) {value value' : Value} (values : link.Values value value') :
    terms.Matches held kept link left right (terms.Meets fun _ _ _ => True)
      (Action.declareMember a name permission value)
      (Action.declareMember b name permission value') :=
  have unpooled := mirrors.unpooled_of_firm firm
  .declareMember mirrors (mirrors.agree.firm firm).1 name permission
    (fun pooled => absurd (pooled.symm.trans unpooled.1) nofun)
    (fun pooled => absurd (pooled.symm.trans unpooled.2) nofun) values

end Terms.Matches

namespace Heap

variable {Code : Type} {heap : Heap Code} {value : Value} {fault : Fault}

theorem unthrown_of_toBool (failed : heap.toBool value = .error fault) (other : Value) :
    fault ≠ .thrown other := by
  unfold toBool at failed
  split at failed <;> cases failed
  exact nofun

theorem unthrown_of_toExact (failed : heap.toExact value = .error fault) (other : Value) :
    fault ≠ .thrown other := by
  unfold toExact at failed
  split at failed
  next => cases failed
  next => cases failed
  next =>
    split at failed <;> cases failed
    exact nofun
  next =>
    cases failed
    exact nofun

theorem unthrown_of_toInexact (failed : heap.toInexact value = .error fault) (other : Value) :
    fault ≠ .thrown other := by
  unfold toInexact at failed
  split at failed
  next => cases failed
  next => cases failed
  next =>
    split at failed <;> cases failed
    exact nofun
  next =>
    cases failed
    exact nofun

end Heap

namespace Expr

variable {Op : Type} {left right : Value}

private theorem sum_of_text (texts : (∃ text, left = .text text) ∨ ∃ text, right = .text text) :
    (sum left right : Action (Expr Op) Value) =
      readHeap fun heap => .text (heap.text left ++ heap.text right) := by
  rcases texts with ⟨text, rfl⟩ | ⟨text, rfl⟩
  · rfl
  · cases left <;> rfl

private theorem sum_of_inexact (wordless : ∀ text, left ≠ .text text)
    (wordless' : ∀ text, right ≠ .text text)
    (inexact : (∀ number, left ≠ .exact number) ∨ ∀ number, right ≠ .exact number) :
    (sum left right : Action (Expr Op) Value) = (do
      let heap := (← get).heap
      let a ← ofExcept (heap.toInexact left)
      let b ← ofExcept (heap.toInexact right)
      return .inexact (a + b)) := by
  unfold sum
  refine congrArg (get >>= ·) (funext fun machine => ?_)
  dsimp only
  split
  next a b => exact absurd rfl (inexact.elim (fun no => absurd rfl (no a)) fun no => no b)
  next text => exact absurd rfl (wordless text)
  next => exact absurd rfl (wordless' _)
  next => rfl

def storeMember (object : Value) (name : String) (value : Value) : Action (Expr Op) Value := do
  match object with
  | .object target => declareMember target name .publicTier value
  | other => fail (← readHeap (·.unsupported other "member assignment"))
  return value

private theorem storeMember_of_not_object {object : Value}
    (plain : ∀ target, object ≠ .object target)
    (name : String) (value : Value) :
    (storeMember object name value : Action (Expr Op) Value) =
      readHeap (·.unsupported object "member assignment") >>= fun fault => fail fault := by
  unfold storeMember
  split
  next target => exact absurd rfl (plain target)
  next => rfl

end Expr

namespace Terms.Matches

open Expr

variable {Op α β γ δ : Type} {terms : Terms (Expr Op)} {link : Link}
  {left right : Machine (Expr Op)} {kept : Handle → Handle → Prop} {held : List (Handle × Handle)}
  {meeting : Meeting (Expr Op) α β}
  (mirrors : terms.Mirrors link .empty .empty left right)
include mirrors

theorem bindFound {related : CellId → CellId → Prop} {cell? cell?' : Option CellId}
    (finds : Option.Rel related cell? cell?') (name : String)
    {next : CellId → Action (Expr Op) α} {next' : CellId → Action (Expr Op) β}
    (onward : ∀ {cell cell'}, related cell cell' →
      terms.Matches held kept link left right meeting (next cell) (next' cell')) :
    terms.Matches held kept link left right meeting (found name cell? >>= next)
      (found name cell?' >>= next') := by
  cases finds with
  | none =>
      have failed : terms.Matches held kept link left right meeting
          (Action.fail (.noSuchMember name)) (Action.fail (.noSuchMember name)) :=
        .fail mirrors nofun
      exact failed
  | some found => exact onward found

theorem valueOf {cell cell' : CellId} (holding : link.Holding left.heap right.heap cell cell') :
    terms.Matches held kept link left right (terms.Meets Link.Values) (valueOf cell)
      (Expr.valueOf cell') :=
  .ok (mirrors.stay kept) ⟨mirrors, holding.value⟩

theorem var {a b : ScopeId} (under : link.Under a b) {name : String}
    (clear : name ≠ "in" ∨ link.sure .trailing a b) :
    terms.Matches held kept link left right (terms.Meets Link.Values)
      (do Expr.valueOf (← found name (← Action.onHeap (·.lookup a name))))
      (do Expr.valueOf (← found name (← Action.onHeap (·.lookup b name)))) :=
  .bindHeap (mirrors.lookup under clear) fun _ mirrors' finds =>
    .bindFound mirrors' finds name fun places => .valueOf mirrors' (mirrors'.agree.places places)

theorem memberOf {value value' : Value} (values : link.Values value value') (name : String) :
    terms.Matches held kept link left right (terms.Meets Link.Values) (memberOf value name)
      (Expr.memberOf value' name) :=
  .bindHeap (mirrors.member values name) fun _ mirrors' finds =>
    .bindFound mirrors' finds name fun holding => .valueOf mirrors' holding

theorem assignVar {a b : ScopeId} (under : link.Under a b) {name : String}
    (clear : name ≠ "in" ∨ link.sure .trailing a b) {value value' : Value}
    (values : link.Values value value') :
    terms.Matches held kept link left right (terms.Meets Link.Values)
      (do
        let cell ← found name (← Action.onHeap (·.lookup a name))
        tryHeap (·.assign cell name value)
        return value)
      (do
        let cell ← found name (← Action.onHeap (·.lookup b name))
        tryHeap (·.assign cell name value')
        return value') :=
  .bindHeap (mirrors.lookup under clear) fun onward mirrors' finds =>
    .bindFound mirrors' finds name fun places =>
      .bindOnward (.assign mirrors' places name (onward.grows.values values)) fun grows met =>
        .pure met.1 ⟨met.1, grows.values (onward.grows.values values)⟩

theorem sum {value value' other other' : Value} (values : link.Values value value')
    (others : link.Values other other') :
    terms.Matches held kept link left right (terms.Meets Link.Values) (sum value other)
      (Expr.sum value' other') := by
  have text : ∀ {left right : Value}, link.Values left right →
      ((∃ text, left = .text text) ↔ ∃ text, right = .text text) :=
    fun values => exists_congr fun _ => values.eq_iff_of_bare rfl
  by_cases texts : (∃ text, value = .text text) ∨ ∃ text, other = .text text
  · rw [sum_of_text texts, sum_of_text (texts.imp (text values).mp (text others).mp)]
    refine .ok (mirrors.stay kept) ⟨mirrors, ?_⟩
    dsimp only
    rw [mirrors.agree.text values, mirrors.agree.text others]
    exact .plain rfl
  by_cases exact : (∃ number, value = .exact number) ∧ ∃ number, other = .exact number
  · obtain ⟨⟨a, rfl⟩, b, rfl⟩ := exact
    cases values
    cases others
    exact .pure mirrors ⟨mirrors, .plain rfl⟩
  have number : ∀ {left right : Value}, link.Values left right →
      ((∃ number, left = .exact number) ↔ ∃ number, right = .exact number) :=
    fun values => exists_congr fun _ => values.eq_iff_of_bare rfl
  have exact' := exact
  have texts' := texts
  rw [number values, number others] at exact'
  rw [text values, text others] at texts'
  simp only [not_or, not_and_or, not_exists] at texts texts' exact exact'
  rw [sum_of_inexact texts.1 texts.2 exact, sum_of_inexact texts'.1 texts'.2 exact']
  refine .bindGet ?_
  dsimp only
  rw [← mirrors.agree.toInexact values, ← mirrors.agree.toInexact others]
  exact .bindExcept mirrors Heap.unthrown_of_toInexact fun _ =>
    .bindExcept mirrors Heap.unthrown_of_toInexact fun _ => .pure mirrors ⟨mirrors, .plain rfl⟩

theorem storeMember {object object' : Value} (objects : link.Values object object') (name : String)
    {value value' : Value} (values : link.Values value value') :
    terms.Matches held kept link left right (terms.Meets Link.Values)
      (storeMember object name value) (Expr.storeMember object' name value') := by
  have refused := mirrors.agree.unsupported objects "member assignment"
  have refuse : (∀ target, object ≠ .object target) → (∀ target, object' ≠ .object target) →
      terms.Matches held kept link left right (terms.Meets Link.Values)
        (Expr.storeMember object name value) (Expr.storeMember object' name value') := by
    intro plain plain'
    rw [storeMember_of_not_object plain, storeMember_of_not_object plain']
    refine .bindRead ?_
    rw [refused]
    exact .fail mirrors nofun
  cases objects with
  | object paired firm =>
      exact .bindOnward (.declareFirm mirrors firm name .publicTier values) fun grows met =>
        .pure met.1 ⟨met.1, grows.values values⟩
  | plain bare =>
      have plain : ∀ target, object ≠ .object target := by
        rintro target rfl
        cases bare
      exact refuse plain plain
  | array | exception | function => exact refuse nofun nofun

theorem throw {value value' : Value} (values : link.Values value value') :
    terms.Matches held kept link left right meeting
      (do Action.failWith (← readHeap (·.thrown value)))
      (do Action.failWith (← readHeap (·.thrown value'))) := by
  refine .bindRead (.failWith mirrors ⟨.thrown values, ?_, rfl⟩)
  cases values with
  | plain bare => cases value <;> first | rfl | cases bare
  | exception paired => exact (mirrors.agree.exception paired).backtrace
  | _ => rfl

end Terms.Matches

end ScopeMachine
