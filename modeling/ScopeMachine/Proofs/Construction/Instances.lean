import ScopeMachine.Proofs.Construction.Privacy
import ScopeMachine.Proofs.Evaluation.Sustaining

/-!
Instances. A construction that succeeds goes up a super chain that ends in `Object`, and its object
is from then on an instance of the functions of that chain, of `Object`, and of nothing else.
-/

namespace ScopeMachine

open ScopeMachine.Action

variable {Code : Type}

namespace Heap

variable {heap : Heap Code} {id : FunctionId} {functions : List FunctionId}

private theorem SuperChain.of_mem (chain : heap.SuperChain id functions) {maker : FunctionId}
    (listed : maker ∈ functions) :
    ∃ rest, heap.SuperChain maker rest ∧ rest.length ≤ functions.length := by
  induction chain with
  | base found super =>
      obtain rfl := List.mem_singleton.mp listed
      exact ⟨_, .base found super, Nat.le_refl _⟩
  | further found super chain induction =>
      rcases List.mem_cons.mp listed with rfl | listed
      · exact ⟨_, .further found super chain, Nat.le_refl _⟩
      · obtain ⟨rest, own, shorter⟩ := induction listed
        exact ⟨rest, own, Nat.le_succ_of_le shorter⟩

private theorem SuperChain.nodup (chain : heap.SuperChain id functions) : functions.Nodup := by
  induction chain with
  | base => exact List.nodup_singleton _
  | further found super chain induction =>
      refine List.nodup_cons.mpr ⟨fun listed => ?_, induction⟩
      obtain ⟨rest, own, shorter⟩ := chain.of_mem listed
      rw [own.unique (.further found super chain)] at shorter
      exact Nat.not_succ_le_self _ shorter

private theorem SuperChain.length_le (chain : heap.SuperChain id functions) :
    functions.length ≤ heap.functions.size := by
  have apart : (functions.map FunctionId.index).Nodup :=
    chain.nodup.map fun ⟨_⟩ ⟨_⟩ same => congrArg FunctionId.mk same
  have there : functions.map FunctionId.index ⊆ List.range heap.functions.size := by
    intro position listed
    obtain ⟨maker, member, rfl⟩ := List.mem_map.mp listed
    obtain ⟨function, found⟩ := chain.found member
    exact List.mem_range.mpr (Array.getElem?_eq_some_iff.mp found).1
  simpa using (List.subperm_of_subset apart there).length_le

/-- The walk along super functions comes to the end of the super chain, which is `Object`. -/
theorem SuperChain.lineage_eq (chain : heap.SuperChain id functions) :
    heap.lineage id = ⟨functions, .type .object⟩ := by
  have within {budget : Nat} (enough : functions.length ≤ budget) :
      heap.lineageWithin budget id = ⟨functions, .type .object⟩ := by
    induction chain generalizing budget with
    | base found super =>
        obtain ⟨budget, rfl⟩ := Nat.exists_eq_add_of_le' enough
        simp [lineageWithin, found, super]
    | further found super _ induction =>
        obtain ⟨budget, rfl⟩ := Nat.exists_eq_add_of_le' (Nat.le_trans (Nat.le_add_left 1 _) enough)
        simp [lineageWithin, found, super, induction (Nat.le_of_succ_le_succ enough)]
  exact within chain.length_le

private theorem isSubtype_object {type : BuiltinType} :
    BuiltinType.object.isSubtype type = true ↔ type = .object := by
  cases type <;> decide

private theorem SuperChain.extends?_iff (chain : heap.SuperChain id functions) {type : Value} :
    heap.extends? id type = true ↔
      (∃ maker ∈ functions, type = .function maker) ∨ type = .type .object := by
  unfold extends?
  rw [chain.lineage_eq]
  cases type with
  | function maker => simp
  | type type => simp [isSubtype_object]
  | _ => simp

/-- The scope of an object tells who made it. -/
theorem constructedBy?_eq {object : ScopeId} {owner : Option FunctionId}
    (old : object.index < heap.scopes.size) (kind : (heap.scope object).kind = .object owner) :
    heap.constructedBy? object = owner := by
  unfold constructedBy? walk
  obtain ⟨budget, size⟩ := Nat.exists_eq_add_of_lt old
  rw [size, walkWithin, kind]

end Heap

namespace Action

variable {run : Runner Code} {held : List Handle} {machine : Machine Code}

theorem andThen_eq_ok {α β : Type} {ending : Ending Code α}
    {next : α → Machine Code → Ending Code β} {result : β} {after : Machine Code}
    (succeeds : andThen ending next = .ok result after) :
    ∃ former middle, ending = .ok former middle ∧ next former middle = .ok result after := by
  cases ending with
  | ok former middle => exact ⟨former, middle, rfl, succeeds⟩
  | error abort middle => cases succeeds

theorem constructAlong_root {object : ScopeId} {root : Value} {functions : List FunctionId}
    {scope : ScopeId} {arguments : Option Table} {after : Machine Code}
    (succeeds : constructAlong run object root functions scope arguments held machine =
      .ok () after) : root = .type .object := by
  induction functions generalizing scope arguments held machine after with
  | nil => exact extendRoot_eq_ok succeeds
  | cons id supers induction =>
      rw [← journalAlong_ending] at succeeds
      unfold journalAlong at succeeds
      simp only [Journaled.andThen_ending] at succeeds
      obtain ⟨function, _, -, succeeds⟩ := andThen_eq_ok succeeds
      obtain ⟨_, _, -, succeeds⟩ := andThen_eq_ok succeeds
      obtain ⟨superArguments, _, -, succeeds⟩ := andThen_eq_ok succeeds
      obtain ⟨_, _, succeeds, -⟩ := andThen_eq_ok succeeds
      cases supers with
      | nil =>
          rw [journalAlong_ending] at succeeds
          exact induction succeeds
      | cons parent more =>
          simp only [Journaled.andThen_ending, Journaled.holding_ending,
            journalAlong_ending] at succeeds
          obtain ⟨_, _, -, succeeds⟩ := andThen_eq_ok succeeds
          exact induction succeeds

theorem constructFunction_eq_ok {id : FunctionId} {arguments : Option Table} {value : Value}
    {after : Machine Code}
    (succeeds : constructFunction run id arguments held machine = .ok value after) :
    ∃ function site start, machine.heap.function? id = some function ∧
      prepareSite id held machine = .ok site start ∧ value = .object site.object ∧
      constructAlong run site.object site.lineage.root site.lineage.functions site.scope arguments
        ([.scope site.object, .scope site.scope] ++ held) start = .ok () after := by
  cases found : machine.heap.function? id with
  | none =>
      simp [constructFunction, getFunction, found] at succeeds
  | some function =>
      refine ⟨function, _, _, rfl, prepareSite_eq found, ?_⟩
      rw [← journalConstruct_ending] at succeeds
      unfold journalConstruct at succeeds
      rw [Journaled.quietly_andThen (prepareSite_eq found)] at succeeds
      simp only [Journaled.andThen_ending, Journaled.holding_ending,
        journalAlong_ending] at succeeds
      obtain ⟨_, _, along, made⟩ := andThen_eq_ok succeeds
      cases made
      exact ⟨rfl, along⟩

/-- The scope that a construction starts in stands for a new object of the function. -/
theorem prepareSite_opens (sane : machine.Sane) {id : FunctionId} {function : Function Code}
    (found : machine.heap.function? id = some function) {site : Site} {start : Machine Code}
    (prepared : prepareSite id held machine = .ok site start) :
    site.lineage = machine.heap.lineage id ∧ machine.Sustains start ∧
      start.Targets site.scope site.object function.enclosing id ∧
      (start.heap.scope site.object).kind = .object (some id) := by
  rw [prepareSite_eq found] at prepared
  cases prepared
  refine ⟨rfl, ?_, sane.targets_of_new rfl rfl (.inl ⟨rfl, _, rfl⟩), ?_⟩
  · exact .of_heap fun sound _ =>
      (Heap.newScope_evolves machine.heap _).trans sound (Heap.newScope_evolves _ _)
  · rw [Heap.scope_newScope_ne, Heap.scope_newScope_self]
    · rfl
    · exact fun same => absurd (congrArg ScopeId.index same) (by simp [Heap.newScope])

theorem superChain_of_constructed {id : FunctionId} {arguments : Option Table} {value : Value}
    {after : Machine Code}
    (succeeds : constructFunction run id arguments held machine = .ok value after) :
    machine.heap.SuperChain id (machine.heap.lineage id).functions := by
  obtain ⟨function, site, start, found, prepared, -, along⟩ := constructFunction_eq_ok succeeds
  rw [prepareSite_eq found] at prepared
  cases prepared
  exact Heap.superChain_lineageWithin (constructAlong_root along)

/-- A construction that succeeds makes an instance of exactly the functions of the super chain and
of `Object`, and it stays one for as long as functions and scopes stay in place. -/
theorem constructed_isInstance_iff
    (obeys : ∀ code scope, Obeys Machine.Sustains (run code scope)) (sane : machine.Sane)
    {id : FunctionId} {arguments : Option Table} {value : Value} {after : Machine Code}
    (succeeds : constructValue run (.function id) arguments held machine = .ok value after) :
    ∃ object functions, value = .object object ∧ machine.heap.SuperChain id functions ∧
      ∀ later, after.Sustains later →
        later.heap.classOf value = .function id ∧
        ∀ type, later.heap.isInstance value type = true ↔
          (∃ maker ∈ functions, type = .function maker) ∨ type = .type .object := by
  have chain := superChain_of_constructed succeeds
  obtain ⟨function, site, start, found, prepared, rfl, along⟩ := constructFunction_eq_ok succeeds
  obtain ⟨-, opened, targets, kind⟩ := prepareSite_opens sane found prepared
  have ran : start.Sustains after :=
    (sustains_regime.rules.constructAlong obeys _ _ _ _ _).of_ok along
  refine ⟨site.object, _, rfl, chain, fun later onward => ?_⟩
  have carries := (opened.trans (ran.trans onward)) sane
  have made := (ran.trans onward) (opened sane).sane
  have maker := Heap.constructedBy?_eq (made.lasting targets.objectLasting).old
    (made.kind targets.objectLasting kind nofun)
  refine ⟨by rw [Heap.classOf, maker], fun type => ?_⟩
  unfold Heap.isInstance
  dsimp only
  rw [maker]
  exact (chain.mono carries.function?).extends?_iff

end Action

namespace Script

def inheriting : Script :=
  let define (name : String) (parent : Option Script) : Script :=
    .define { name, body := ⟨name, FunctionSource.file, .empty, .lit .null⟩ } parent
  .seq [.declare "base" .publicTier (define "base" none), define "derived" (some (.var "base"))]

/-- A new machine after it has run the script. -/
def inherited : Machine Script :=
  machineLeft (Script.run inheriting [] (.new ⟨8, 8, true, true⟩ .empty))

private theorem inherited_sane : inherited.Sane :=
  (sustains_regime.composed (Script.run_composed inheriting) [] _ (Machine.new_sane ..)).sane

theorem constructed_isInstance_iff_derived :
    ∃ value after functions,
      constructValue (Expr.runnerAt 8) (.function ⟨1⟩) none [] inherited = .ok value after ∧
      inherited.heap.SuperChain ⟨1⟩ functions ∧ functions = [⟨1⟩, ⟨0⟩] ∧
      after.heap.classOf value = .function ⟨1⟩ ∧
      ∀ type, after.heap.isInstance value type = true ↔
        (∃ maker ∈ functions, type = .function maker) ∨ type = .type .object := by
  have finishes : (match constructValue (Expr.runnerAt 8) (.function ⟨1⟩) none [] inherited with
      | .ok _ _ => true
      | .error _ _ => false) = true := by decide +kernel
  split at finishes
  next value after succeeds =>
    obtain ⟨object, functions, rfl, chain, stays⟩ := constructed_isInstance_iff
      (fun code scope => sustains_regime.composed
        (Expr.runnerAt_composed Native.perform_composed 8 code scope)) inherited_sane succeeds
    obtain ⟨maker, instances⟩ := stays after (.refl after)
    have lineage : (inherited.heap.lineage ⟨1⟩).functions = [⟨1⟩, ⟨0⟩] := by decide +kernel
    rw [chain.lineage_eq] at lineage
    exact ⟨_, after, functions, succeeds, chain, lineage, maker, instances⟩
  next => cases finishes

end Script

end ScopeMachine
