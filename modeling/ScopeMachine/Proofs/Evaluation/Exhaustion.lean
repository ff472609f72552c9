import ScopeMachine.Proofs.Calls.Mannerly
import ScopeMachine.Proofs.Evaluation.Reaching

/-!
Running out of frames or of arena ends a program: nothing more of it is evaluated, and what it
leaves is its depth and watermark from before.
-/

namespace ScopeMachine

private theorem Arena.allocate_fatal {arena : Arena} {size : Nat} {fault : Fault}
    (refused : arena.allocate size = .error fault) : fault.severity = .fatal := by
  unfold Arena.allocate at refused
  split at refused
  next =>
    cases refused
    rfl
  next => cases refused

def Pending.isFrame : Pending → Bool
  | .frame _ => true
  | _ => false

namespace Action

variable {Code : Type}

/-- A part that asks for what is used up: a frame at the depth ceiling, or room in the arena. -/
inductive Exhausts {Code : Type} (machine : Machine Code) :
    {β : Type} → Action Code β → Fault → Prop where
  | frame (full : machine.limits.maxDepth ≤ machine.depth) (id file : String) (scope : ScopeId)
      (body : Action Code Value) :
      Exhausts machine (inFrame id file scope body) (.stackOverflow machine.limits.maxDepth)
  | table {size : Nat} {fault : Fault} (framed : machine.frames.isEmpty = false)
      (refused : machine.heap.memory.arena.allocate size = .error fault) :
      Exhausts machine (allocateTable size) fault
  | block {previous : ScopeId} {index : Index} {fault : Fault}
      (framed : machine.frames.isEmpty = false) (recycled : index.captures = false)
      (refused : machine.heap.memory.arena.allocate index.size = .error fault) :
      Exhausts machine (allocateBlock previous index) fault

/-- All that is left to do is done, innermost first: frames are closed and scopes released.
Handlers are passed over. -/
def cleanUp (pending : List Pending) (machine : Machine Code) : Machine Code :=
  pending.foldl
    (fun machine next =>
      match next with
      | .frame held => machine.closeFrame held
      | .scope held id => machine.releaseScope held id
      | .handler => machine)
    machine

section Fatal

variable {failure : Failure} {machine : Machine Code}

theorem unthrown_of_fatal {fault : Fault} (fatal : fault.severity = .fatal) :
    fault.isThrown = false := by
  cases fault <;> first | rfl | cases fatal

private theorem handles_of_unthrown (unthrown : failure.fault.isThrown = false) :
    failure.handles = [] := by
  unfold Failure.handles
  cases fault : failure.fault <;> simp_all [Fault.isThrown]

private theorem annotate_of_unthrown (unthrown : failure.fault.isThrown = false) :
    machine.annotate failure =
      ({ failure with backtrace := failure.backtrace <|> some machine.capture }, machine) := by
  obtain ⟨fault, backtrace, notes⟩ := failure
  unfold Machine.annotate
  cases backtrace with
  | some trace => rfl
  | none => cases fault <;> first | rfl | cases unthrown

@[simp] theorem capture_releaseScope (held : List Handle) (id : ScopeId) :
    (machine.releaseScope held id).capture = machine.capture := by
  unfold Machine.capture
  rw [Machine.frames_releaseScope]

private theorem unwind_of_traced {trace : Backtrace} (traced : failure.backtrace = some trace)
    (unthrown : failure.fault.isThrown = false) (pending : List Pending) :
    unwind pending failure machine = (failure, cleanUp pending machine) := by
  have still : (machine : Machine Code) → machine.annotate failure = (failure, machine) := by
    intro machine
    unfold Machine.annotate
    rw [traced]
  induction pending generalizing machine with
  | nil => rfl
  | cons next pending induction =>
      cases next <;>
        simp [settle, still, handles_of_unthrown unthrown, induction, cleanUp]

private theorem unwind_of_untraced (untraced : failure.backtrace = none)
    (unthrown : failure.fault.isThrown = false) (pending : List Pending) :
    unwind pending failure machine =
      (if pending.any Pending.isFrame then failure.withBacktrace machine.capture else failure,
        cleanUp pending machine) := by
  induction pending generalizing machine with
  | nil => rfl
  | cons next pending induction =>
      cases next with
      | frame held =>
          have annotated : machine.annotate failure =
              (failure.withBacktrace machine.capture, machine) := by
            rw [annotate_of_unthrown unthrown, untraced]
            rfl
          have traced : (failure.withBacktrace machine.capture).backtrace = some machine.capture :=
            rfl
          have bare : (failure.withBacktrace machine.capture).handles = [] :=
            handles_of_unthrown unthrown
          simp only [unwind_cons, settle, annotated, bare]
          exact unwind_of_traced traced unthrown pending
      | scope held id =>
          simp [settle, handles_of_unthrown unthrown, induction, cleanUp, Pending.isFrame]
      | handler => simp [settle, induction, cleanUp, Pending.isFrame]

theorem inFrame_traced {id file : String} {scope : ScopeId} {body : Action Code Value}
    {held : List Handle} {after : Machine Code}
    (failed : inFrame id file scope body held machine = .error (.failure failure) after) :
    failure.backtrace.isSome = true := by
  unfold inFrame at failed
  split at failed
  next =>
    cases failed
    rfl
  next =>
    dsimp only at failed
    split at failed
    next => cases failed
    next raised inner _ =>
      cases failed
      unfold Machine.annotate
      cases traced : raised.backtrace with
      | some trace => simp [traced]
      | none => rfl
    next => cases failed

end Fatal

namespace Exhausts

variable {β : Type} {part : Action Code β} {machine : Machine Code} {fault : Fault}

theorem fatal (exhausts : Exhausts machine part fault) : fault.severity = .fatal := by
  cases exhausts with
  | frame => rfl
  | table _ refused | block _ _ refused => exact Arena.allocate_fatal refused

private theorem fails (exhausts : Exhausts machine part fault) (held : List Handle) :
    ∃ trace, (trace = none ∨ trace = some machine.capture) ∧
      part held machine = .error (.failure { fault, backtrace := trace }) machine := by
  cases exhausts with
  | frame full id file scope body =>
      exact ⟨_, .inr rfl, Machine.inFrame_of_full full id file scope body held⟩
  | table framed refused => exact ⟨none, .inl rfl, by simp [framed, refused]⟩
  | block framed recycled refused =>
      exact ⟨none, .inl rfl, by simp [run_allocateBlock, framed, recycled, refused]⟩

end Exhausts

private theorem refused_of_allocateTable {size : Nat} {held : List Handle}
    {machine after : Machine Code}
    {failure : Failure}
    (failed : allocateTable size held machine = .error (.failure failure) after) :
    machine.frames.isEmpty = false ∧
      machine.heap.memory.arena.allocate size = .error failure.fault := by
  rw [run_allocateTable, run_ofExcept] at failed
  split at failed
  next => cases failed
  next framed =>
    cases refused : machine.heap.memory.arena.allocate size with
    | ok result =>
        rw [refused] at failed
        cases failed
    | error fault =>
        rw [refused] at failed
        cases failed
        exact ⟨Bool.eq_false_iff.mpr framed, rfl⟩

theorem exhausts_of_allocateTable {size : Nat} {held : List Handle} {machine after : Machine Code}
    {failure : Failure}
    (failed : allocateTable size held machine = .error (.failure failure) after) :
    Exhausts machine (allocateTable size : Action Code Table) failure.fault :=
  have ⟨framed, refused⟩ := refused_of_allocateTable failed
  .table framed refused

theorem exhausts_of_allocateBlock {previous : ScopeId} {index : Index} {held : List Handle}
    {machine after : Machine Code} {failure : Failure}
    (failed : allocateBlock previous index held machine = .error (.failure failure) after) :
    Exhausts machine (allocateBlock previous index : Action Code ScopeId) failure.fault := by
  rw [run_allocateBlock] at failed
  split at failed
  next => cases failed
  next inside =>
    obtain ⟨recycled, framed⟩ := Bool.or_eq_false_iff.mp (Bool.eq_false_iff.mpr inside)
    cases allocated : allocateTable index.size held machine with
    | error abort middle =>
        rw [allocated] at failed
        cases failed
        exact .block framed recycled (refused_of_allocateTable allocated).2
    | ok members middle =>
        rw [allocated, andThen_ok, run_pooledScope] at failed
        split at failed <;> cases failed

end Action

namespace Script

open Action Machine

/-- A program runs in one frame. -/
theorem run_framed (script : Script) (held : List Handle) (machine : Machine Script) :
    let main : Machine Script := { machine with
      heap := (machine.heap.newScope (.onHeap (some machine.global) .empty .basic)).2 }
    ∃ scope body, body.Composed ∧
      script.run held machine = inFrame "main" FunctionSource.file scope body held main ∧
      Reaches script.run held machine [] (inFrame "main" FunctionSource.file scope body) held
        main := by
  have composed (scope : ScopeId) : Composed (script.evaluate scope) := .bind .get fun _ =>
    Expr.eval_composed Native.perform_composed (Expr.runnerAt_composed Native.perform_composed _)
      script scope
  exact ⟨_, _, composed _, rfl,
    .next .get rfl (.next (.onHeap (.newScope ..)) rfl (.here (.inFrame _ _ _ (composed _))))⟩

theorem run_restores (script : Script) (held : List Handle) {machine : Machine Script}
    (orderly : machine.Orderly) (tidy : machine.Tidy) :
    (machineLeft (script.run held machine)).depth = machine.depth ∧
      (machineLeft (script.run held machine)).watermark = machine.watermark := by
  obtain ⟨scope, body, composed, same, -⟩ := run_framed script held machine
  have made : machine.StaysInFrame { machine with
      heap := (machine.heap.newScope (.onHeap (some machine.global) .empty .basic)).2 } :=
    .of_heap tidy (Heap.newScope_keepsPlace ..)
  have orderly := made.steady.orderly orderly
  have tidy := made.spares.tidy
  have restores := inFrame_restoring orderly tidy "main" FunctionSource.file scope held fun room =>
    composed.mannerly _ _ (openFrame_orderly orderly room ..) (openFrame_tidy tidy ..)
  rw [same]
  exact ⟨(restores.staysInFrame orderly).steady.depth,
    congrArg Arena.Bounds.watermark restores.bounds⟩

/-- When a program, at any point of its run, asks for a frame or for arena that is used up, the run
ends with that very fault and the backtrace of the frames open there. All that happens after is
that what was open there is cleaned up, whatever handlers were waiting; depth and watermark are
then as they were at the start. -/
theorem exhaustion_is_final {script : Script} {held held' : List Handle}
    {machine machine' : Machine Script} (orderly : machine.Orderly) (tidy : machine.Tidy)
    {β : Type} {part : Action Script β} {pending : List Pending} {fault : Fault}
    (reached : Reaches script.run held machine pending part held' machine')
    (exhausts : Exhausts machine' part fault) :
    fault.severity = .fatal ∧
      script.run held machine =
        .error (.failure { fault, backtrace := some machine'.capture }) (cleanUp pending machine') ∧
      (cleanUp pending machine').depth = machine.depth ∧
      (cleanUp pending machine').watermark = machine.watermark := by
  have fatal := exhausts.fatal
  have unthrown := unthrown_of_fatal fatal
  obtain ⟨trace, traces, failed⟩ := exhausts.fails held'
  have uncatchable (failure : Failure) (same : failure.fault = fault) :
      failure.isCatchable = false := by
    unfold Failure.isCatchable Failure.severity
    rw [same, fatal]
    rfl
  have ended := reached.unwinds (fun _ => uncatchable _ rfl) failed
  have ending : script.run held machine =
      .error (.failure { fault, backtrace := some machine'.capture })
        (cleanUp pending machine') := by
    obtain rfl | rfl := traces
    · -- A program is a frame of its own, so some frame was left on the way out.
      obtain ⟨scope, body, -, same, -⟩ := run_framed script held machine
      have traced := inFrame_traced (same.symm.trans ended)
      rw [unwind_of_untraced rfl unthrown] at ended traced
      split at ended
      next => exact ended
      next framed => simp [framed] at traced
    · rwa [unwind_of_traced rfl unthrown] at ended
  have restored := run_restores script held orderly tidy
  rw [ending] at restored
  exact ⟨fatal, ending, restored⟩

def guardedBlock : Script :=
  .attempt (.block (.ofDeclarations [⟨"member", .publicTier⟩] false) []) "error" (.lit .null)

theorem exhaustion_is_final_in_try :
    let fresh : Machine Script := .new ⟨1, 0, true, true⟩ .empty
    ∃ (machine' : Machine Script) (pending : List Pending),
      .handler ∈ pending ∧
      (Fault.arenaExhausted 1 0 0).severity = .fatal ∧
      guardedBlock.run [] fresh =
        .error (.failure { fault := .arenaExhausted 1 0 0, backtrace := some machine'.capture })
          (cleanUp pending machine') ∧
      (cleanUp pending machine').depth = fresh.depth ∧
      (cleanUp pending machine').watermark = fresh.watermark := by
  intro fresh
  let index : Index := .ofDeclarations [⟨"member", .publicTier⟩] false
  let scope : ScopeId := ⟨fresh.heap.scopes.size⟩
  let main : Machine Script := { fresh with
    heap := (fresh.heap.newScope (.onHeap (some fresh.global) .empty .basic)).2 }
  let inner := main.openFrame "main" FunctionSource.file scope
  have block : Reaches ((Expr.block index []).eval (Expr.runnerAt 1) scope) [.scope scope] inner []
      (allocateBlock scope index) [.scope scope] inner :=
    .first (fun _ => .holding _ (.pure _)) (.here (.allocateBlock ..))
  have evaluated : Reaches (guardedBlock.eval (Expr.runnerAt 1) scope) [.scope scope] inner
      [.handler] (allocateBlock scope index) [.scope scope] inner := by
    unfold guardedBlock
    rw [Expr.eval, Expr.catching_eq]
    exact .body (Expr.bindAndHandle_composed _ _ (Expr.eval_composed Native.perform_composed
      (Expr.runnerAt_composed Native.perform_composed 1) (.lit .null))) block
  have framed : Reaches (inFrame "main" FunctionSource.file scope (guardedBlock.evaluate scope)) []
      main ([.handler] ++ [.frame [.scope scope]]) (allocateBlock scope index) [.scope scope]
      inner :=
    .inFrame Nat.one_pos (.next .get rfl evaluated)
  have reached : Reaches guardedBlock.run [] fresh [.handler, .frame [.scope scope]]
      (allocateBlock scope index) [.scope scope] inner :=
    .next .get rfl (.next (.onHeap (.newScope ..)) rfl framed)
  have full : inner.heap.memory.arena.available = 0 ∧ inner.heap.memory.arena.capacity = 0 := by
    decide +kernel
  have refused : inner.heap.memory.arena.allocate index.size = .error (.arenaExhausted 1 0 0) := by
    have size : index.size = 1 := by decide +kernel
    simp [Arena.allocate, full, size]
  exact ⟨inner, _, List.mem_cons_self, exhaustion_is_final (Machine.new_orderly ..)
    (Machine.new_tidy ..) reached (.block rfl rfl refused)⟩

end Script

end ScopeMachine
