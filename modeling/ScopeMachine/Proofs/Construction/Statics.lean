import ScopeMachine.Proofs.Calls.Nesting
import ScopeMachine.Proofs.Construction.Making
import ScopeMachine.Value.Equality

/-!
Static members. A function answers for those of its own static part only. An object answers for
those of the whole super chain of its function, the farthest function first.
-/

namespace ScopeMachine

open ScopeMachine.Action

variable {Code : Type}

namespace Heap

variable {heap : Heap Code} {id : FunctionId} {functions : List FunctionId} {name : String}

def static? (heap : Heap Code) (id : FunctionId) (name : String) : Option CellId :=
  ((heap.function? id).bind (·.statics)).bind fun scope => heap.declared? scope name

def DeclaresStatic (heap : Heap Code) (id : FunctionId) (name : String) : Prop :=
  (heap.static? id name).isSome = true

/-- The static part of a function, if it has one, is a block. -/
def HasStaticBlock (heap : Heap Code) (id : FunctionId) : Prop :=
  ∀ {function scope}, heap.function? id = some function → function.statics = some scope →
    (heap.scope scope).kind = .basic

private theorem staticMember_eq (block : heap.HasStaticBlock id) :
    heap.staticMember id name = (heap.static? id name, heap) := by
  unfold staticMember static?
  cases stated : (heap.function? id).bind (·.statics) with
  | none => rfl
  | some scope =>
      obtain ⟨function, found, statics⟩ := Option.bind_eq_some_iff.mp stated
      exact ownMember_of_basic (block found statics) name

private theorem firstStatic_eq (blocks : ∀ maker ∈ functions, heap.HasStaticBlock maker) :
    heap.firstStatic name functions =
      (functions.findSome? fun maker => heap.static? maker name, heap) := by
  induction functions with
  | nil => rfl
  | cons id rest induction =>
      rw [firstStatic_cons, staticMember_eq (blocks id List.mem_cons_self), List.findSome?_cons]
      cases heap.static? id name with
      | none => exact induction fun maker listed => blocks maker (List.mem_cons_of_mem _ listed)
      | some cell => rfl

private theorem member_object_eq (chain : heap.SuperChain id functions)
    (blocks : ∀ maker ∈ functions, heap.HasStaticBlock maker) {object : ScopeId}
    (old : object.index < heap.scopes.size) (kind : (heap.scope object).kind = .object (some id))
    (unbound : (heap.ownMember object name).1 = none) :
    heap.member (.object object) name =
      (functions.reverse.findSome? fun maker => heap.static? maker name, heap) := by
  have missing : heap.ownMember object name = (none, heap) :=
    ownMember_eq_none (by simp [Scope.variant, kind, ScopeKind.variant]) (by rw [kind]; rfl) unbound
  change heap.scopeMember object name = _
  rw [scopeMember, missing, orElse_none, sharedMember, constructedBy?_eq old kind]
  dsimp only
  unfold typeMember
  rw [chain.lineage_eq]
  exact firstStatic_eq fun maker listed => blocks maker (List.mem_reverse.mp listed)

/-- Of a function itself its own static members are found, of an object those of the whole super
chain, where the farthest declaration hides the nearer ones. So the two agree if no proper super
function declares the name, and they part if one does that the function itself does not. -/
theorem static_members_found (chain : heap.SuperChain id functions)
    (blocks : ∀ maker ∈ functions, heap.HasStaticBlock maker) {object : ScopeId}
    (old : object.index < heap.scopes.size) (kind : (heap.scope object).kind = .object (some id))
    (unbound : (heap.ownMember object name).1 = none) :
    ((heap.member (.function id) name).1.isSome = true ↔ heap.DeclaresStatic id name) ∧
      ((heap.member (.object object) name).1.isSome = true ↔
        ∃ maker ∈ functions, heap.DeclaresStatic maker name) ∧
      (∀ {nearer maker farther}, functions = nearer ++ maker :: farther →
        heap.DeclaresStatic maker name → (∀ other ∈ farther, ¬ heap.DeclaresStatic other name) →
          heap.member (.object object) name = heap.member (.function maker) name) ∧
      ((∀ maker ∈ functions.tail, ¬ heap.DeclaresStatic maker name) →
        heap.member (.object object) name = heap.member (.function id) name) := by
  have onObject := member_object_eq chain blocks old kind unbound
  have onFunction {maker : FunctionId} (listed : maker ∈ functions) :
      heap.member (.function maker) name = (heap.static? maker name, heap) :=
    staticMember_eq (blocks maker listed)
  have absent {makers : List FunctionId}
      (undeclared : ∀ maker ∈ makers, ¬ heap.DeclaresStatic maker name) :
      (makers.reverse.findSome? fun maker => heap.static? maker name) = none := by
    refine List.findSome?_eq_none_iff.mpr fun maker listed => ?_
    exact Option.not_isSome_iff_eq_none.mp (undeclared maker (List.mem_reverse.mp listed))
  refine ⟨?_, ?_, ?_, ?_⟩
  · rw [onFunction chain.mem_self]
    exact Iff.rfl
  · rw [onObject]
    simp [DeclaresStatic, List.findSome?_isSome_iff]
  · rintro nearer maker farther rfl declares hidden
    rw [onObject, onFunction (List.mem_append_right _ List.mem_cons_self)]
    obtain ⟨cell, found⟩ := Option.isSome_iff_exists.mp declares
    simp [List.findSome?_append, absent hidden, found]
  · intro hidden
    rw [onObject, onFunction chain.mem_self]
    obtain ⟨supers, rfl⟩ : ∃ supers, functions = id :: supers := by
      cases chain <;> exact ⟨_, rfl⟩
    have none := @absent supers hidden
    simp [List.findSome?_append, none]

end Heap

private theorem Action.makeFunction_hasStaticBlock {run : Runner Code} {held : List Handle}
    {machine after later : Machine Code}
    (obeys : ∀ code scope, Obeys Machine.Sustains (run code scope)) (sane : machine.Sane)
    {enclosing : ScopeId} {parent : Option Value} {definition : Definition Code} {id : FunctionId}
    (made : makeFunction run enclosing parent definition held machine = .ok id after)
    (onward : after.Sustains later) : later.heap.HasStaticBlock id := by
  obtain ⟨overridden, middle, statics, last, replaced, ran, rfl, rfl⟩ := makeFunction_eq_ok made
  have read : machine.Sustains middle :=
    (sustains_regime.rules.replacing enclosing definition.name).of_ok replaced
  obtain ⟨evaluated, blocks⟩ := staticPart_lasting obeys (read sane).sane ran
  have sane := ((read sane).sane |> evaluated).sane
  have put : last.Sustains (last.withHeap (last.heap.newFunction
      ⟨enclosing, parent.getD (.type .object), definition, statics, overridden⟩).2) :=
    .of_heap fun _ _ => Heap.newFunction_evolves ..
  have stored := (onward (put sane).sane).function? (function?_newFunction last.heap _)
  intro function scope found stated
  cases stored.symm.trans found
  obtain ⟨lasting, kind⟩ := blocks scope stated
  exact (put.trans onward sane).kind lasting kind (by decide)

namespace Script

def idle (name : String) (statics : Option Script) : Definition Script :=
  { name, body := ⟨name, FunctionSource.file, .empty, .lit .null⟩
    statics := statics.map (⟨name, FunctionSource.file, .empty, ·⟩) }

def base : Definition Script := idle "base" (some (.declare "s" .publicTier (.lit (.exact 1))))

def derived : Definition Script := idle "derived" none

/-- Makes two functions, the second one over the first, which has a static member. -/
def sharing (last : Script) : Script :=
  .seq [
    .declare "base" .publicTier (.define base none),
    .declare "derived" .publicTier (.define derived (some (.var "base"))),
    last]

/-- An inherited static member is found on an instance and not on the function. -/
theorem function_misses_inherited_static :
    (match Script.run (sharing (.member (.construct (.var "derived") []) "s")) []
        (.new ⟨8, 8, true, true⟩ .empty) with
      | .ok (.exact number) _ => number == 1
      | _ => false) = true ∧
    (match Script.run (sharing (.member (.var "derived") "s")) []
        (.new ⟨8, 8, true, true⟩ .empty) with
      | .error (.failure { fault := .noSuchMember name, .. }) _ => name == "s"
      | _ => false) = true := by
  decide +kernel

def withBase : Machine Script :=
  machineLeft (makeFunction (Expr.runnerAt 8) ⟨1⟩ none base [] (.new ⟨8, 8, true, true⟩ .empty))

def withDerived : Machine Script :=
  machineLeft (makeFunction (Expr.runnerAt 8) ⟨1⟩ (some (.function ⟨0⟩)) derived [] withBase)

/-- A machine with a function that has a static member, one derived from it, and an instance. -/
def shared : Machine Script :=
  machineLeft (constructFunction (Expr.runnerAt 8) ⟨1⟩ none [] withDerived)

private theorem shared_hasStaticBlock : ∀ maker ∈ [⟨1⟩, ⟨0⟩], shared.heap.HasStaticBlock maker := by
  have obeys (code : Script) (scope : ScopeId) :=
    sustains_regime.composed (Expr.runnerAt_composed Native.perform_composed 8 code scope)
  have sane : (Machine.new ⟨8, 8, true, true⟩ .empty : Machine Script).Sane := Machine.new_sane ..
  have first : (Machine.new ⟨8, 8, true, true⟩ .empty).Sustains withBase :=
    sustains_regime.rules.makeFunction obeys _ _ _ _ _
  have second : withBase.Sustains withDerived :=
    sustains_regime.rules.makeFunction obeys _ _ _ _ _
  have third : withDerived.Sustains shared :=
    sustains_regime.rules.constructFunction obeys _ _ _ _
  refine List.forall_mem_cons.mpr ⟨?_, List.forall_mem_singleton.mpr ?_⟩
  · exact makeFunction_hasStaticBlock obeys (first sane).sane
      (eq_ok_of_run' (by decide +kernel)) third
  · exact makeFunction_hasStaticBlock obeys sane
      (eq_ok_of_run' (by decide +kernel)) (second.trans third)

private theorem shared_object : (shared.heap.scope ⟨3⟩).kind = .object (some ⟨1⟩) := by
  have variant : (shared.heap.scope ⟨3⟩).variant = .object := by decide +kernel
  have maker : shared.heap.constructedBy? ⟨3⟩ = some ⟨1⟩ := by decide +kernel
  have old : 3 < shared.heap.scopes.size := by decide +kernel
  unfold Scope.variant at variant
  cases kind : (shared.heap.scope ⟨3⟩).kind with
  | object owner => rw [← maker, Heap.constructedBy?_eq old kind]
  | _ => rw [kind] at variant; cases variant

theorem static_members_found_inherited :
    (shared.heap.member (.function ⟨1⟩) "s").1 = none ∧
      shared.heap.DeclaresStatic ⟨0⟩ "s" ∧
      shared.heap.member (.object ⟨3⟩) "s" = shared.heap.member (.function ⟨0⟩) "s" := by
  have root : Heap.leafEqual (shared.heap.lineage ⟨1⟩).root (.type .object) = true := by
    decide +kernel
  have lineage : (shared.heap.lineage ⟨1⟩).functions = [⟨1⟩, ⟨0⟩] := by decide +kernel
  have declared : shared.heap.DeclaresStatic ⟨0⟩ "s" := by
    unfold Heap.DeclaresStatic
    decide +kernel
  have undeclared : ¬ shared.heap.DeclaresStatic ⟨1⟩ "s" := by
    unfold Heap.DeclaresStatic
    decide +kernel
  have unbound : (shared.heap.ownMember ⟨3⟩ "s").1 = none := by decide +kernel
  have based : (shared.heap.lineage ⟨1⟩).root = .type .object := by
    cases is : (shared.heap.lineage ⟨1⟩).root with
    | type type =>
        rw [is] at root
        exact congrArg Value.type (eq_of_beq root)
    | _ => rw [is] at root; cases root
  have chain : shared.heap.SuperChain ⟨1⟩ [⟨1⟩, ⟨0⟩] :=
    lineage ▸ Heap.superChain_lineageWithin based
  obtain ⟨onFunction, -, onObject, -⟩ := Heap.static_members_found chain
    shared_hasStaticBlock (by decide +kernel) shared_object unbound
  refine ⟨?_, declared, @onObject [⟨1⟩] ⟨0⟩ [] rfl declared ?_⟩
  · exact Option.not_isSome_iff_eq_none.mp fun found => undeclared (onFunction.mp found)
  · exact fun other listed => absurd listed List.not_mem_nil

end Script

end ScopeMachine
