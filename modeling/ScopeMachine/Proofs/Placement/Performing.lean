import ScopeMachine.Proofs.Evaluation.Composed
import ScopeMachine.Proofs.Placement.Expressions

namespace ScopeMachine.Script

open ScopeMachine.Action

variable {inStep veiled : Prop} {given aside : Handle → Prop} {origin : Heap Script}

private theorem follows (frames : Nat) :
    (terms inStep veiled given aside origin).Follows (Expr.runnerAt frames)
    (Expr.runnerAt frames) := by
  have mannerly (frames : Nat) (code : Script) (scope : ScopeId) :
      (Expr.runnerAt frames code scope).Mannerly :=
    (Expr.runnerAt_composed Native.perform_composed frames code scope).mannerly
  induction frames with
  | zero =>
      refine ⟨mannerly 0, mannerly 0, fun _ stage => .bindGet ?_⟩
      rw [stage.mirrors.limits.depth]
      exact .fail stage.mirrors nofun
  | succ frames induction =>
      refine ⟨mannerly _, mannerly _, fun twins stage => ?_⟩
      obtain ⟨reflagged, regular, same, confined⟩ := twins
      exact (reflagged.evaluates induction regular same confined).on stage

theorem evaluate_mannerly (script : Script) (scope : ScopeId) : (script.evaluate scope).Mannerly :=
  (Action.Composed.rules.bind .get fun _ =>
    Expr.eval_composed Native.perform_composed
      (Expr.runnerAt_composed Native.perform_composed _) script scope).mannerly

variable {link : Link} {left right : Machine Script} {script script' : Script}

/-- The scope that a program runs in, and the machine with it. -/
def onset (machine : Machine Script) : ScopeId × Machine Script :=
  let made := machine.heap.newScope (.onHeap (some machine.global) .empty .basic)
  (made.1, machine.withHeap made.2)

def main (script : Script) (scope : ScopeId) : Action Script Value :=
  inFrame "main" FunctionSource.file scope (script.evaluate scope)

private theorem run_eq (script : Script) (held : List Handle) (machine : Machine Script) :
    script.run held machine = script.main (onset machine).1 held (onset machine).2 := rfl

/-- Versions of a regular program, each in a frame of its own over the global scope. The scopes that
they run in are linked still at the end. -/
theorem Reflagged.main (reflagged : Reflagged script script')
    (regular : Regular given (fun _ => True) script) (same : inStep → script = script')
    (confined : veiled → Confined (fun _ => True) script)
    (mirrors : (terms inStep veiled given aside origin).Mirrors link .empty .empty left right)
    (sure : ∀ reading, link.sure reading left.global right.global) (held : List (Handle × Handle)) :
    ∃ link', Terms.Onward link left right link' (onset left).2 (onset right).2 ∧
      link'.pairs (.scope (onset left).1) (.scope (onset right).1) ∧
      (terms inStep veiled given aside origin).Matches held
        (Terms.Held ((.scope (onset left).1, .scope (onset right).1) :: held)) link' (onset left).2
        (onset right).2 ((terms inStep veiled given aside origin).Meets Link.Values)
        (script.main (onset left).1) (script'.main (onset right).1) := by
  obtain ⟨link', onward, mirrors, makes⟩ :=
    mirrors.newScope (.pair mirrors.agree.global) (rfl : Index.empty.members =
      _) .basic nofun rfl rfl
  refine ⟨link', onward, makes.paired, .inFrame mirrors (evaluate_mannerly script _)
    (evaluate_mannerly script' _) fun opened => .bindGet ?_⟩
  rw [opened.limits.depth]
  have suits : Terms.Suits ⟨fun _ => True, fun _ => True⟩ link' (onset left).2 (onset right).2
      (onset left).1 (onset right).1 :=
    .of_paired makes.paired (fun {reading} _ => makes.sure (by
        cases reading with
        | callee => exact fun _ => sure _
        | trailing => exact sure _
        | replaced => exact trivial
        | outside => exact nofun))
      (Machine.admits_unpooled makes.unpooled) (Machine.admits_unpooled makes.unpooled')
  exact (reflagged.evaluates (follows _) regular same confined).on
    { suits with mirrors := opened, listed := .head _ }

theorem Reflagged.run (reflagged : Reflagged script script')
    (regular : Regular given (fun _ => True) script) (same : inStep → script = script')
    (confined : veiled → Confined (fun _ => True) script)
    (mirrors : (terms inStep veiled given aside origin).Mirrors link .empty .empty left right)
    (sure : ∀ reading, link.sure reading left.global right.global) (held : List (Handle × Handle)) :
    (terms inStep veiled given aside origin).Matches held (Terms.Held held) link left right
      ((terms inStep veiled given aside origin).Meets Link.Values) script.run script'.run := by
  obtain ⟨link', onward, -, ran⟩ := reflagged.main regular same confined mirrors sure held
  unfold Terms.Matches
  rw [run_eq, run_eq]
  exact .after (onward.weaken fun _ => trivial) (ran.weaken (List.mem_cons_of_mem _))

end ScopeMachine.Script
