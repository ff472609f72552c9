import ScopeMachine.Probe
import ScopeMachine.Script

namespace ScopeMachine

open ScopeMachine.Action

inductive Outcome where
  | value (value : Snapshot)
  | failure (failure : FailureSnapshot)
  | crash

structure Report where
  outcome : Outcome
  /-- What was observed underway, in order. -/
  log : List Observation
  depth : Nat
  watermark : Nat
  pool : Nat

namespace Machine

variable {Code : Type}

def report (machine : Machine Code) (outcome : Outcome) : Report × Machine Code :=
  (⟨outcome, machine.host.log.reverse, machine.depth, machine.watermark, machine.pool.length⟩,
    machine.modifyHost fun host => { host with log := [] })

def perform (machine : Machine Code) (held : List Handle) (action : Action Code Value) :
    Report × Machine Code :=
  match action held machine with
  | .ok value machine => machine.report (.value (machine.heap.snapshot value))
  | .error (.failure failure) machine =>
      machine.report (.failure (machine.heap.failureSnapshot failure))
  | .error .crash machine => machine.report .crash

def performEach (held : List Handle) :
    List (Action Code Value) → Machine Code → List Report
  | [], _ => []
  | action :: rest, machine =>
      let (report, machine) := machine.perform held action
      report :: performEach held rest machine

end Machine

def Probe.session (machine : Machine (Expr Probe)) (steps : List (Expr Probe)) :
    List Report :=
  let (main, heap) := machine.heap.newScope (.onHeap (some machine.global) .empty .basic)
  { machine with heap }.performEach [.scope main] (steps.map fun step => Expr.evaluate step main)

def Script.session (machine : Machine Script) (programs : List Script) : List Report :=
  machine.performEach [] (programs.map Script.run)

def Probe.runNode (machine : Machine (Expr Probe)) (node : Node (Expr Probe)) : Report :=
  (machine.perform []
    (Action.inFrame node.id node.file machine.global
      (Expr.evaluate node.code machine.global))).1

end ScopeMachine
