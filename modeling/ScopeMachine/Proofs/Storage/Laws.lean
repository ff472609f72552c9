import ScopeMachine.Machine.Global
import ScopeMachine.Value.Protocol

namespace ScopeMachine.Heap

variable {Code : Type}

theorem lookupAlong_cons (heap : Heap Code) (name : String) (id : ScopeId)
    (outer : List ScopeId) :
    heap.lookupAlong name (id :: outer) =
      orElse (heap.ownMember id name) (·.lookupAlong name outer) := rfl

theorem firstStatic_cons (heap : Heap Code) (name : String) (id : FunctionId)
    (others : List FunctionId) :
    heap.firstStatic name (id :: others) =
      orElse (heap.staticMember id name) (·.firstStatic name others) := rfl

@[simp] theorem orElse_none {α : Type} (heap : Heap Code)
    (next : Heap Code → Option α × Heap Code) : orElse (none, heap) next = next heap := rfl

@[simp] theorem orElse_some {α : Type} (result : α) (heap : Heap Code)
    (next : Heap Code → Option α × Heap Code) :
    orElse (some result, heap) next = (some result, heap) := rfl

section Searches

variable {α Place : Type} {ask : Place → Heap Code → Option α × Heap Code} {places : List Place}

/-- What holds of looking at one place and then, if need be, further holds of a search. -/
theorem firstFound_induction {motive : Heap Code → Option α × Heap Code → Prop}
    (nothing : ∀ heap, motive heap (none, heap))
    (either : ∀ place ∈ places, ∀ heap next, (∀ middle, motive middle (next middle)) →
      motive heap (orElse (ask place heap) next)) (heap : Heap Code) :
    motive heap (firstFound ask places heap) := by
  induction places generalizing heap with
  | nil => exact nothing heap
  | cons place others induction =>
      obtain ⟨here, there⟩ := List.forall_mem_cons.mp either
      exact here heap _ (induction there)

variable (Keeps : Heap Code → Heap Code → Prop) (refl : ∀ heap, Keeps heap heap)
  (trans : ∀ {first second third}, Keeps first second → Keeps second third → Keeps first third)

include trans

theorem orElse_keeps {heap : Heap Code} {found : Option α × Heap Code}
    {next : Heap Code → Option α × Heap Code} (first : Keeps heap found.2)
    (further : ∀ middle, Keeps middle (next middle).2) : Keeps heap (orElse found next).2 := by
  obtain ⟨_ | _, middle⟩ := found
  · exact trans first (further middle)
  · exact first

include refl

theorem firstFound_keeps (each : ∀ place heap, Keeps heap (ask place heap).2)
    (places : List Place) (heap : Heap Code) : Keeps heap (firstFound ask places heap).2 :=
  firstFound_induction (motive := fun heap outcome => Keeps heap outcome.2) refl
    (fun place _ heap _ => orElse_keeps Keeps trans (each place heap)) heap

end Searches

/-- A relation between a heap and a later one that all the parts of a search for a member obey. -/
structure SearchLaw (Keeps : Heap Code → Heap Code → Prop) : Prop where
  refl : ∀ heap, Keeps heap heap
  trans : ∀ {first second third}, Keeps first second → Keeps second third → Keeps first third
  slotCell : ∀ heap id slot, Keeps heap (heap.slotCell id slot).2
  trailingCell : ∀ {heap id invocation}, (heap.scope id).kind = .function invocation →
    Keeps heap (heap.trailingCell id invocation).2
  newCell : ∀ heap cell, Keeps heap (heap.newCell cell).2

/-- A relation that all the parts of an operation on members obey. -/
structure Law (Keeps : Heap Code → Heap Code → Prop) : Prop extends SearchLaw Keeps where
  insertName : ∀ heap id name permission,
    Keeps heap (heap.modifyScope id fun scope =>
      { scope with index := ((heap.scope id).index.insert name permission).2 })
  modifyCell : ∀ heap id change, Keeps heap (heap.modifyCell id change)

variable {Keeps : Heap Code → Heap Code → Prop}

namespace SearchLaw

variable (law : SearchLaw Keeps) (heap : Heap Code)

include law

theorem ownMember (id : ScopeId) (name : String) : Keeps heap (heap.ownMember id name).2 := by
  unfold Heap.ownMember storedMember
  dsimp only
  split
  next => exact law.slotCell ..
  next kind _ =>
    split
    next => exact law.trailingCell kind
    next => exact law.refl heap
  next => exact law.refl heap
  next => exact law.refl heap

theorem lookupAlong (name : String) (chain : List ScopeId) :
    Keeps heap (heap.lookupAlong name chain).2 :=
  firstFound_keeps Keeps law.refl law.trans (fun id heap => law.ownMember heap id name) chain heap

theorem lookup (id : ScopeId) (name : String) : Keeps heap (heap.lookup id name).2 :=
  law.lookupAlong ..

theorem staticMember (id : FunctionId) (name : String) :
    Keeps heap (heap.staticMember id name).2 := by
  unfold Heap.staticMember
  split
  next => exact law.refl heap
  next => exact law.ownMember ..

theorem firstStatic (name : String) (functions : List FunctionId) :
    Keeps heap (heap.firstStatic name functions).2 :=
  firstFound_keeps Keeps law.refl law.trans (fun id heap => law.staticMember heap id name) functions
    heap

theorem scopeMember (id : ScopeId) (name : String) :
    Keeps heap (heap.scopeMember id name).2 := by
  refine orElse_keeps Keeps law.trans (law.ownMember heap id name) fun middle => ?_
  unfold Heap.sharedMember
  split
  next => exact law.firstStatic middle name _
  next => exact law.refl middle

theorem member (value : Value) (name : String) : Keeps heap (heap.member value name).2 := by
  unfold Heap.member
  cases value with
  | object scope => exact law.scopeMember ..
  | function function => exact law.staticMember ..
  | exception id =>
      dsimp only
      split
      next => exact law.newCell ..
      next =>
        split
        next => exact law.newCell ..
        next => exact law.refl heap
  | array id =>
      dsimp only
      split
      next => exact law.newCell ..
      next => exact law.refl heap
  | text text =>
      dsimp only
      split
      next => exact law.newCell ..
      next => exact law.refl heap
  | _ => exact law.refl heap

end SearchLaw

namespace Law

variable (law : Law Keeps) (heap : Heap Code)

include law

theorem createMember (id : ScopeId) (name : String) (permission : Permission) :
    Keeps heap (heap.createMember id name permission).2 := by
  unfold Heap.createMember
  generalize heap.landing permission id = target
  dsimp only
  have renamed := law.insertName heap target name permission
  generalize (heap.scope target).index.insert name permission = inserted at renamed ⊢
  exact law.trans renamed (law.trans (law.slotCell _ target inserted.1) (law.modifyCell ..))

theorem installBuiltins (scope : ScopeId) : Keeps heap (heap.installBuiltins scope) := by
  unfold Heap.installBuiltins
  generalize BuiltinType.globals = types
  induction types generalizing heap with
  | nil => exact law.refl heap
  | cons type types induction =>
      exact law.trans (law.trans (law.createMember ..) (law.modifyCell ..)) (induction _)

end Law

end ScopeMachine.Heap
