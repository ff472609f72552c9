import ScopeMachine.Proofs.Evaluation.Regimes
import ScopeMachine.Proofs.Evaluation.Sealing

namespace ScopeMachine

namespace Memory

structure Guards (before after : Memory) : Prop where
  sound : before.Sound → after.Sound
  spent : before.Sound → ∀ {id : CellId}, before.Spent id → after.Spent id

variable {before middle after memory : Memory}

private theorem Seals.guards (seals : Seals before after) : Guards before after :=
  ⟨seals.sound, fun sound _ spent => (seals.spent sound spent).1⟩

namespace Guards

theorem trans (left : Guards before middle) (right : Guards middle after) :
    Guards before after :=
  ⟨right.sound ∘ left.sound, fun sound _ spent => right.spent (left.sound sound)
    (left.spent sound spent)⟩

private theorem install (memory : Memory) (id : CellId) (value : Value) :
    Guards memory (memory.modifyCell id (·.install value)) := by
  have keeps := @modifyCell_keepsHeld (fun _ => false) memory (· = id) id rfl (·.install value)
  refine ⟨keeps.continues.sound, fun _ other spent => ?_⟩
  refine ⟨Nat.lt_of_lt_of_le spent.old keeps.size,
    keeps.continues.unnamed spent.old spent.unnamed, ?_⟩
  by_cases same : other = id
  · subst same
    rw [cell_modifyCell_self spent.old]
    exact spent.cell.install value
  · rw [cell_modifyCell_ne same]
    exact spent.cell

end Guards

end Memory

open Action

private theorem Heap.Deed.guards {Code α : Type} {step : Heap Code → α × Heap Code}
    (deed : Heap.Deed step)
    (heap : Heap Code) : heap.memory.Guards (step heap).2.memory := by
  rcases deed.acts heap with acts | ⟨cell, value, -, same⟩
  · exact (@Heap.Acts.seals _ _ _ ⟨0⟩ acts).toSeals.guards
  · rw [same]
    exact .install heap.memory cell value

private theorem Action.guards_regime {Code : Type} :
    Regime fun before after : Machine Code => before.heap.memory.Guards after.heap.memory where
  refl machine := (Memory.Seals.refl machine.heap.memory).guards
  trans := .trans
  deed deed machine := deed.guards machine.heap
  setLine machine _ := (Memory.Seals.refl machine.heap.memory).guards
  freeTable table _ machine := (Table.free_seals table machine.heap.memory _).guards
  allocateTable size held machine := (machine.allocateTable_seals held size).guards
  pushEach table values _ machine := (Table.pushEach_seals table machine.heap.memory values).guards
  allocateBlock previous index held machine :=
    (machine.allocateBlock_seals held previous index).guards
  openFrame machine id file scope := (machine.openFrame_seals id file scope).guards
  annotate machine failure := (Memory.Seals.of_eq (machine.memory_annotate failure)).guards
  closeFrame machine held := (machine.closeFrame_seals held).guards
  enterCall function id arguments receiver held machine :=
    (enterCall_seals function id arguments receiver held machine).guards
  releaseScope machine held id := (machine.releaseScope_seals held id).guards

theorem Action.Composed.guards {Code α : Type} {action : Action Code α} (composed : Composed action)
    (held : List Handle) (machine : Machine Code) :
    machine.heap.memory.Guards (machineLeft (action held machine)).heap.memory :=
  guards_regime.composed composed held machine

end ScopeMachine
