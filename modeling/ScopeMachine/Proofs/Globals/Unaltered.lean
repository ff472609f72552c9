import ScopeMachine.Literal
import ScopeMachine.Proofs.Globals.Installing
import ScopeMachine.Proofs.Globals.SafeEvaluation

/-!
Scripts leave the global scope as it was: the same names bound by the same cells with the same
contents, however a script ends and whatever ran on the machine before.
-/

namespace ScopeMachine

open Action

namespace Heap

variable {Code : Type} {trusted : Code → Prop} {origin heap : Heap Code} {id : ScopeId}

theorem kind_of_global (global : heap.Global id) : (heap.scope id).kind = .global := by
  unfold Global Scope.variant at global
  cases kind : (heap.scope id).kind with
  | global => rfl
  | _ => simp [kind, ScopeKind.variant] at global

private theorem ownMember_of_global (global : heap.Global id) (name : String) :
    (heap.ownMember id name).1 = ((heap.scope id).index.slot? name).bind fun slot =>
      ((heap.scope id).members.cell? slot heap.memory).filter fun cell =>
        (heap.cell cell).isVisible := by
  have kind := kind_of_global global
  have itself : heap.forked id = id := by
    unfold forked
    cases heap.scopes.size with
    | zero => rfl
    | succ budget =>
        unfold forkedWithin
        rw [kind]
  unfold ownMember storedMember
  rw [itself]
  dsimp only
  rw [kind]
  cases (heap.scope id).index.slot? name <;> rfl

namespace Shields

variable (shut : origin.Sealed) (shields : origin.Shields trusted heap) (global : origin.Global id)

include shut shields global

theorem cell?_global (slot : Nat) :
    ((heap.scope id).members.cell? slot heap.memory =
      (origin.scope id).members.cell? slot origin.memory) ∧
    ∀ cell, (origin.scope id).members.cell? slot origin.memory = some cell →
      heap.cell cell = origin.cell cell := by
  rw [shields.scope global]
  have heaped := shut.heaped global
  cases table : (origin.scope id).members with
  | inArena slice length => simp [table, Table.isArena] at heaped
  | onHeap cells reserved =>
      refine ⟨rfl, fun cell found => shields.cell ⟨id, global, ?_⟩⟩
      rw [table]
      exact Array.mem_of_getElem? found

private theorem ownMember_global (name : String) :
    (heap.ownMember id name).1 = (origin.ownMember id name).1 := by
  have still : heap.Global id := (congrArg Scope.variant (shields.scope global)).trans global
  rw [ownMember_of_global still, ownMember_of_global global, shields.scope global]
  refine Option.bind_congr fun slot _ => ?_
  obtain ⟨same, cells⟩ := shields.cell?_global shut global slot
  rw [shields.scope global] at same
  rw [same]
  cases found : (origin.scope id).members.cell? slot origin.memory with
  | none => rfl
  | some cell => simp [Option.filter, cells cell found]

private theorem memberNames_global : heap.memberNames id = origin.memberNames id := by
  unfold memberNames
  rw [shields.scope global]
  dsimp only
  refine List.filterMap_congr fun slot _ => ?_
  obtain ⟨same, cells⟩ := shields.cell?_global shut global slot
  rw [shields.scope global] at same
  rw [same]
  cases found : (origin.scope id).members.cell? slot origin.memory with
  | none => rfl
  | some cell => simp [cells cell found]

private theorem cell_global {name : String} {cell : CellId}
    (found : (origin.ownMember id name).1 = some cell) : heap.cell cell = origin.cell cell := by
  rw [ownMember_of_global global] at found
  obtain ⟨slot, -, kept⟩ := Option.bind_eq_some_iff.mp found
  obtain ⟨found, -⟩ := Option.filter_eq_some_iff.mp kept
  exact (shields.cell?_global shut global slot).2 cell found

end Shields

end Heap

namespace Machine

/-- The global scope is as it was: the scope itself, the names in it, the cell of each name, and
what the cell holds. -/
structure SameGlobal {Code : Type} (before after : Machine Code) : Prop where
  global : after.global = before.global
  scope : after.heap.scope after.global = before.heap.scope before.global
  names : after.heap.memberNames after.global = before.heap.memberNames before.global
  references : ∀ name, (after.heap.ownMember after.global name).1 =
    (before.heap.ownMember before.global name).1
  cells : ∀ {name : String} {cell : CellId},
    (before.heap.ownMember before.global name).1 = some cell →
      after.heap.cell cell = before.heap.cell cell

/-- Machines that scripts are run on: new ones, with whatever arrays and exceptions a host has made
for literals, and those that plain scripts have run on before. -/
inductive Ready : Machine Script → Prop where
  | new (limits : Limits) (choice : GlobalChoice) : Ready (.new limits choice)
  | host {machine : Machine Script} (ready : Ready machine) (change : Host → Host) :
      Ready (machine.modifyHost change)
  | array {machine : Machine Script} (ready : Ready machine) {elements : List Value}
      (bare : ∀ value ∈ elements, ∀ scope, value ≠ .object scope) (frozen : Bool) :
      Ready { machine with heap := (machine.heap.newArray elements frozen).2 }
  | exception {machine : Machine Script} (ready : Ready machine) {exception : ExceptionObject}
      (bare : ∀ cause, exception.cause = some cause → ∀ scope, cause ≠ .object scope) :
      Ready { machine with heap := (machine.heap.newException exception).2 }
  | run {machine : Machine Script} (ready : Ready machine) {script : Script}
      (plain : script.Plain) (held : List Handle) :
      Ready (machineLeft (script.run held machine))

theorem Ready.exists_origin {machine : Machine Script} (ready : Ready machine) :
    ∃ origin : Machine Script, origin.heap.Sealed ∧ origin.heap.Global origin.global ∧
      origin.Shields Expr.Plain machine := by
  induction ready with
  | new limits choice =>
      have pristine : (Machine.new limits choice : Machine Script).heap.Pristine :=
        new_pristine limits choice
      exact ⟨.new limits choice, pristine.isSealed, new_global limits choice,
        pristine.shields Expr.Plain, rfl, nofun, nofun⟩
  | host ready change induction =>
      obtain ⟨origin, shut, global, shields⟩ := induction
      exact ⟨origin, shut, global, { shields with }⟩
  | array ready bare frozen induction =>
      obtain ⟨origin, shut, global, shields⟩ := induction
      exact ⟨origin, shut, global, shields.onHeap (shields.heap.newArray frozen fun value listed =>
        Heap.kept_of_no_object (bare value listed))⟩
  | exception ready bare induction =>
      obtain ⟨origin, shut, global, shields⟩ := induction
      exact ⟨origin, shut, global, shields.onHeap (shields.heap.newException fun value given =>
        Heap.kept_of_no_object (bare value given))⟩
  | run ready plain held induction =>
      obtain ⟨origin, shut, global, shields⟩ := induction
      exact ⟨origin, shut, global, ((Script.run_safe shut plain).ends held shields).shields⟩

/-- However a script ends, it leaves the global scope as it was. -/
theorem Ready.sameGlobal_run {machine : Machine Script} (ready : Ready machine) {script : Script}
    (plain : script.Plain) (held : List Handle) :
    machine.SameGlobal (machineLeft (script.run held machine)) := by
  obtain ⟨origin, shut, global, shields⟩ := ready.exists_origin
  have after := ((Script.run_safe shut plain).ends held shields).shields
  generalize machineLeft (script.run held machine) = left at after
  have here := shields.global
  have there := after.global
  refine ⟨there.trans here.symm, ?_, ?_, fun name => ?_, fun {name cell} found => ?_⟩
  · rw [here, there, after.heap.scope global, shields.heap.scope global]
  · rw [here, there, after.heap.memberNames_global shut global,
      shields.heap.memberNames_global shut global]
  · rw [here, there, after.heap.ownMember_global shut global,
      shields.heap.ownMember_global shut global]
  · rw [here, shields.heap.ownMember_global shut global] at found
    rw [after.heap.cell_global shut global found, shields.heap.cell_global shut global found]

def overwriting : Script :=
  .seq [
    .declare "String" .publicTier (.lit (.exact 1)),
    .construct (.define (FunctionSource.build
      { name := "Object", body := .setMember .thisValue "Array" (.lit (.exact 2)) }) none) [],
    .assign "Number" (.lit .null)]

theorem overwriting_sameGlobal :
    (Machine.new .default .fresh : Machine Script).Ready ∧ overwriting.Plain ∧
      (Machine.new .default .fresh : Machine Script).SameGlobal
        (machineLeft (overwriting.run [] (Machine.new .default .fresh))) := by
  have ready : (Machine.new .default .fresh : Machine Script).Ready := .new .default .fresh
  have plain : overwriting.Plain := by
    refine .seq ?_
    simp only [List.forall_mem_cons, List.not_mem_nil, false_implies, implies_true, and_true]
    refine ⟨.declare _ _ (.lit nofun), .construct (.define_build ?_ ?_ ?_ nofun) nofun,
      .assign _ (.lit nofun)⟩
    · exact .setMember _ .thisValue (.lit nofun)
    · rintro _ ⟨⟩
    · rintro _ ⟨⟩
  exact ⟨ready, plain, ready.sameGlobal_run plain []⟩

/-- The global scope of a new machine binds every built-in type. -/
example : (Machine.new .default .fresh : Machine Script).heap.memberNames
    (Machine.new .default .fresh : Machine Script).global = BuiltinType.globals.map (·.name) := by
  decide +kernel

end Machine

end ScopeMachine
