import ScopeMachine.Proofs.Construction.ProtocolOrder

/-!
Construction along a super chain, from the function that is called to the one over `Object`, and
what holds in each of its scopes while code is at work.
-/

namespace ScopeMachine

open ScopeMachine.Action

namespace Heap

variable {Code : Type} {heap : Heap Code}

/-- A function and its super functions, nearest first, down to one that is over `Object`. -/
inductive SuperChain (heap : Heap Code) : FunctionId → List FunctionId → Prop where
  | base {id : FunctionId} {function : Function Code} (found : heap.function? id = some function)
      (super : function.parent = .type .object) : SuperChain heap id [id]
  | further {id parent : FunctionId} {function : Function Code} {supers : List FunctionId}
      (found : heap.function? id = some function) (super : function.parent = .function parent)
      (chain : SuperChain heap parent supers) : SuperChain heap id (id :: supers)

theorem SuperChain.unique {id : FunctionId} {functions others : List FunctionId}
    (chain : heap.SuperChain id functions) (other : heap.SuperChain id others) :
    functions = others := by
  induction chain generalizing others with
  | base found super =>
      cases other with
      | base => rfl
      | further found' super' =>
          cases found.symm.trans found'
          cases super.symm.trans super'
  | further found super _ induction =>
      cases other with
      | base found' super' =>
          cases found.symm.trans found'
          cases super.symm.trans super'
      | further found' super' chain =>
          cases found.symm.trans found'
          cases super.symm.trans super'
          exact congrArg _ (induction chain)

theorem SuperChain.mem_self {id : FunctionId} {functions : List FunctionId}
    (chain : heap.SuperChain id functions) : id ∈ functions := by
  cases chain <;> exact List.mem_cons_self

theorem SuperChain.found {id maker : FunctionId} {functions : List FunctionId}
    (chain : heap.SuperChain id functions) (listed : maker ∈ functions) :
    ∃ function, heap.function? maker = some function := by
  induction chain with
  | base found => exact ⟨_, List.mem_singleton.mp listed ▸ found⟩
  | further found _ _ induction =>
      rcases List.mem_cons.mp listed with rfl | listed
      · exact ⟨_, found⟩
      · exact induction listed

/-- A lineage that goes back to `Object` is the super chain. -/
theorem superChain_lineageWithin {budget : Nat} {id : FunctionId}
    (based : (heap.lineageWithin budget id).root = .type .object) :
    heap.SuperChain id (heap.lineageWithin budget id).functions := by
  induction budget generalizing id with
  | zero => cases based
  | succ budget induction =>
      unfold lineageWithin at based ⊢
      cases found : heap.function? id with
      | none =>
          rw [found] at based
          cases based
      | some function =>
          rw [found] at based
          dsimp only at based ⊢
          split at based
          next parent super => exact .further found super (induction based)
          next => exact .base found based

end Heap

variable {Code : Type} {run : Runner Code} {trusted : Code → Prop}
  {owned held known : List Handle} {machine : Machine Code}

namespace Derivation

/-- Code that declares one member in whatever scope it runs. -/
def declaring : Runner Unit := fun _ scope => do
  let _ ← onHeap (·.createMember scope "member" .publicTier)
  return .null

theorem declaring_serves : declaring.Serves (fun _ => True) [] := by
  rintro _ scope held known machine - ⟨-, -, -, remembers⟩ listed
  unfold declaring
  rw [run_bind]
  refine .fewer remembers ((Client.Works.request
    (.createMember (remembers listed) "member" .publicTier) nofun
    (Heap.sameFunctions_law.createMember ..)).andThen ?_)
  exact fun _ _ keeps _ => .pure keeps (List.nil_subset _)

def defining (name : String) (parent : Value) (client : Client Unit) : Client Unit :=
  let node : Node Unit := ⟨name, "", .empty, ()⟩
  Client.after client.known (fun id => [.function id])
    (onHeap (·.newFunction ⟨client.machine.global, parent,
      { name, body := node, superArguments := some node }, none, none⟩) [] client.machine)

private theorem defining_moves (name : String) {parent : Value} {client : Client Unit}
    (enclosing : .scope client.machine.global ∈ client.known)
    (kept : parent.Kept (· ∈ client.known)) :
    Client.Move client (defining name parent client) := by
  exact .request (.newFunction (Function.kept_of enclosing (fun _ given => by cases given) kept
    (fun _ given => by cases given))) []

private theorem defining_found (name : String) (parent : Value) (client : Client Unit) :
    ∃ function, (defining name parent client).machine.heap.function?
      ⟨client.machine.heap.functions.size⟩ = some function ∧ function.parent = parent :=
  ⟨_, Array.getElem?_push_size, rfl⟩

def fresh : Client Unit :=
  let machine : Machine Unit := .new ⟨8, 8, true, true⟩ .empty
  ⟨machine, [.scope machine.global]⟩

private theorem fresh_reachable : Client.Reachable ⟨8, 8, true, true⟩ .empty fresh := by
  unfold fresh Client.Reachable
  generalize (Machine.new ⟨8, 8, true, true⟩ .empty : Machine Unit) = machine
  exact .single (.take (Machine.isRoot_iff.mpr (.inr (.inr (.inl rfl)))))

def based : Client Unit := defining "base" (.type .object) fresh

theorem based_reachable : Client.Reachable ⟨8, 8, true, true⟩ .empty based :=
  .tail fresh_reachable (defining_moves "base" List.mem_cons_self
    (Value.kept_of_holds_nothing fun target => by cases target <;> rfl))

/-- Another function over the first. -/
def derived : Client Unit := defining "derived" (.function ⟨0⟩) based

theorem derived_moves : based.Move derived := by
  have known : based.known = [.function ⟨0⟩, .scope based.machine.global] := by decide +kernel
  exact defining_moves "derived" (by simp [known]) (Value.kept_function (by simp [known]))

theorem derived_chain : derived.machine.heap.SuperChain ⟨1⟩ [⟨1⟩, ⟨0⟩] := by
  obtain ⟨_, foundBase, baseParent⟩ := defining_found "base" (.type .object) fresh
  obtain ⟨_, foundOver, overParent⟩ := defining_found "derived" (.function ⟨0⟩) based
  have first : fresh.machine.heap.functions.size = 0 := by decide +kernel
  have second : based.machine.heap.functions.size = 1 := by decide +kernel
  rw [first] at foundBase
  rw [second] at foundOver
  exact .further foundOver overParent (.base
    (Client.Leads.function? (.single derived_moves) based_reachable.orderly foundBase) baseParent)

end Derivation

end ScopeMachine
