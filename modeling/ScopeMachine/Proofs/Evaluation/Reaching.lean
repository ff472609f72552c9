import ScopeMachine.Proofs.Evaluation.Composed

namespace ScopeMachine

/-- What is left to do when the part of an evaluation that is running ends. -/
inductive Pending where
  | frame (held : List Handle)
  | scope (held : List Handle) (id : ScopeId)
  | handler

namespace Action

variable {Code : Type}

def settle (failure : Failure) (machine : Machine Code) : Pending → Failure × Machine Code
  | .frame held =>
      let (failure, machine) := machine.annotate failure
      (failure, machine.closeFrame (failure.handles ++ held))
  | .scope held id => (failure, machine.releaseScope (failure.handles ++ held) id)
  | .handler => (failure, machine)

def unwind (pending : List Pending) (failure : Failure) (machine : Machine Code) :
    Failure × Machine Code :=
  pending.foldl (fun (failure, machine) next => settle failure machine next) (failure, machine)

/-- An evaluation comes to a part of it, with so much left to do. Only parts that evaluations are
composed of count, as points and on the way to one. -/
inductive Reaches {Code : Type} : {α β : Type} → Action Code α → List Handle → Machine Code →
    List Pending → Action Code β → List Handle → Machine Code → Prop where
  | here {α : Type} {action : Action Code α} {held : List Handle} {machine : Machine Code}
      (composed : Composed action) : Reaches action held machine [] action held machine
  | first {α β γ : Type} {first : Action Code α} {next : α → Action Code β}
      {part : Action Code γ} {held held' : List Handle} {machine machine' : Machine Code}
      {pending : List Pending} (latter : ∀ result, Composed (next result))
      (reached : Reaches first held machine pending part held' machine') :
      Reaches (first >>= next) held machine pending part held' machine'
  | next {α β γ : Type} {first : Action Code α} {next : α → Action Code β}
      {part : Action Code γ} {held held' : List Handle} {machine middle machine' : Machine Code}
      {pending : List Pending} {result : α} (former : Composed first)
      (ran : first held machine = .ok result middle)
      (reached : Reaches (next result) held middle pending part held' machine') :
      Reaches (first >>= next) held machine pending part held' machine'
  | holding {α γ : Type} {action : Action Code α} {part : Action Code γ}
      {handles held held' : List Handle} {machine machine' : Machine Code} {pending : List Pending}
      (reached : Reaches action (handles ++ held) machine pending part held' machine') :
      Reaches (holding handles action) held machine pending part held' machine'
  | inFrame {γ : Type} {body : Action Code Value} {part : Action Code γ} {id file : String}
      {scope : ScopeId} {held held' : List Handle} {machine machine' : Machine Code}
      {pending : List Pending} (room : machine.depth < machine.limits.maxDepth)
      (reached : Reaches body (.scope scope :: held) (machine.openFrame id file scope) pending part
        held' machine') :
      Reaches (inFrame id file scope body) held machine
        (pending ++ [.frame (.scope scope :: held)]) part held' machine'
  | call {γ : Type} {body : ScopeId → Action Code Value} {part : Action Code γ}
      {function : Function Code} {id : FunctionId} {arguments : Table} {receiver : Option Value}
      {scope : ScopeId} {held held' : List Handle} {machine middle machine' : Machine Code}
      {pending : List Pending}
      (ran : enterCall function id arguments receiver held machine = .ok scope middle)
      (reached : Reaches (body scope) held middle pending part held' machine') :
      Reaches
        (enterCall function id arguments receiver >>= fun scope =>
          releasingScope scope (body scope))
        held machine (pending ++ [.scope held scope]) part held' machine'
  | body {γ : Type} {body : Action Code Value} {rescue : Failure → Action Code Value}
      {part : Action Code γ} {held held' : List Handle} {machine machine' : Machine Code}
      {pending : List Pending} (handler : ∀ failure, Composed (rescue failure))
      (reached : Reaches body held machine pending part held' machine') :
      Reaches (rescuing body rescue) held machine (pending ++ [.handler]) part held' machine'
  | handler {γ : Type} {body : Action Code Value} {rescue : Failure → Action Code Value}
      {part : Action Code γ} {held held' : List Handle} {machine middle machine' : Machine Code}
      {pending : List Pending} {failure : Failure} (inner : Composed body)
      (failed : body held machine = .error (.failure failure) middle)
      (catchable : failure.isCatchable = true)
      (reached : Reaches (rescue failure) (failure.handles ++ held) middle pending part held'
        machine') :
      Reaches (rescuing body rescue) held machine pending part held' machine'

section Unwinding

variable {failure : Failure} {machine : Machine Code}

@[simp] theorem unwind_nil : unwind [] failure machine = (failure, machine) := rfl

@[simp] theorem unwind_cons (next : Pending) (pending : List Pending) :
    unwind (next :: pending) failure machine =
      unwind pending (settle failure machine next).1 (settle failure machine next).2 := rfl

@[simp] theorem unwind_append (inner outer : List Pending) :
    unwind (inner ++ outer) failure machine =
      unwind outer (unwind inner failure machine).1 (unwind inner failure machine).2 := by
  unfold unwind
  rw [List.foldl_append]

@[simp] theorem fault_annotate : (machine.annotate failure).1.fault = failure.fault := by
  unfold Machine.annotate
  cases failure.backtrace <;> rfl

@[simp] theorem fault_settle (next : Pending) :
    (settle failure machine next).1.fault = failure.fault := by
  cases next with
  | frame held => exact fault_annotate
  | scope held id => rfl
  | handler => rfl

@[simp] theorem fault_unwind (pending : List Pending) :
    (unwind pending failure machine).1.fault = failure.fault := by
  induction pending generalizing failure machine with
  | nil => rfl
  | cons next pending induction => simp [induction]

theorem isCatchable_unwind (pending : List Pending) :
    (unwind pending failure machine).1.isCatchable = failure.isCatchable := by
  unfold Failure.isCatchable Failure.severity
  rw [fault_unwind]

end Unwinding

namespace Reaches

variable {α β γ : Type} {action : Action Code α} {part : Action Code β}
  {held held' : List Handle} {machine machine' after : Machine Code} {pending : List Pending}
  {failure : Failure}

theorem composed (reached : Reaches action held machine pending part held' machine') :
    Composed part := by
  induction reached with
  | here composed => exact composed
  | first _ _ induction | next _ _ _ induction | holding _ induction | inFrame _ _ induction
  | call _ _ induction | body _ _ induction | handler _ _ _ _ induction => exact induction

/-- A failure at a point goes through all that is left to do there and ends the evaluation, unless
a handler waits that may have it. -/
theorem unwinds (reached : Reaches action held machine pending part held' machine')
    (uncaught : .handler ∈ pending → failure.isCatchable = false)
    (failed : part held' machine' = .error (.failure failure) after) :
    action held machine =
      .error (.failure (unwind pending failure after).1) (unwind pending failure after).2 := by
  induction reached with
  | here composed => exact failed
  | first latter reached induction =>
      rw [run_bind, induction uncaught failed, andThen_error]
  | next former ran reached induction =>
      rw [run_bind, ran, andThen_ok, induction uncaught failed]
  | holding reached induction => exact induction uncaught failed
  | inFrame room reached induction =>
      have inner := induction (fun waits => uncaught (List.mem_append_left _ waits)) failed
      unfold Action.inFrame
      rw [if_neg (Nat.not_le_of_lt room)]
      simp only [inner, unwind_append]
      rfl
  | @call _ _ _ _ _ _ _ scope _ _ _ _ _ _ ran reached induction =>
      have inner := induction (fun waits => uncaught (List.mem_append_left _ waits)) failed
      rw [run_bind, ran, andThen_ok]
      unfold Action.releasingScope
      simp only [inner, unwind_append]
      rfl
  | body handler reached induction =>
      have inner := induction (fun waits => uncaught (List.mem_append_left _ waits)) failed
      have passes := uncaught (List.mem_append_right _ List.mem_cons_self)
      unfold Action.rescuing
      simp only [inner, isCatchable_unwind, passes, unwind_append]
      rfl
  | handler inner raised catchable reached induction =>
      unfold Action.rescuing
      simp only [raised, catchable, if_true, run_holding]
      exact induction uncaught failed

end Reaches

end Action

end ScopeMachine
