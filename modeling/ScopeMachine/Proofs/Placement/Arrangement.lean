import ScopeMachine.Proofs.Placement.AgreementChanges
import ScopeMachine.Proofs.Placement.Housing

namespace ScopeMachine

open Arena

/-- A scope that goes on being the same scope in the same place. -/
structure Scope.Endures (before after : Scope) : Prop where
  kind : before.variant ≠ .function → after.kind = before.kind
  variant : after.variant = before.variant
  names : ∀ {name : String}, before.index.contains name = true → after.index.contains name = true
  pooled : after.pooled = before.pooled
  slice? : before.pooled = true → after.members.slice? = before.members.slice?

namespace Scope.Endures

theorem refl (scope : Scope) : scope.Endures scope := ⟨fun _ => rfl, rfl, id, rfl, fun _ => rfl⟩

theorem trans {first second third : Scope} (left : first.Endures second)
    (right : second.Endures third) : first.Endures third where
  kind uncalled := (right.kind (left.variant ▸ uncalled)).trans (left.kind uncalled)
  variant := right.variant.trans left.variant
  names := right.names ∘ left.names
  pooled := right.pooled.trans left.pooled
  slice? pooled := (right.slice? (left.pooled.trans pooled)).trans (left.slice? pooled)

end Scope.Endures

namespace Heap

variable {Code : Type} {heap before middle after : Heap Code} {touched : Handle → Prop}

structure Advances (touched : Handle → Prop) (before after : Heap Code) : Prop where
  array : ∀ {id : ArrayId}, id.index < before.arrays.size →
    id.index < after.arrays.size ∧ after.array id = before.array id
  exception : ∀ {id : ExceptionId}, id.index < before.exceptions.size →
    id.index < after.exceptions.size ∧
      (after.exception id).cause = (before.exception id).cause ∧
      (¬ touched (.exception id) → after.exception id = before.exception id)
  function? : ∀ {id : FunctionId}, id.index < before.functions.size →
    after.function? id = before.function? id
  size : before.scopes.size ≤ after.scopes.size
  scope : ∀ {id : ScopeId}, id.index < before.scopes.size →
    (before.scope id).Endures (after.scope id) ∧ (before.scope id).Linked (after.scope id) ∧
      (¬ touched (.scope id) → before.SameView after id)
  fresh : ∀ {id : ScopeId}, before.scopes.size ≤ id.index → (after.scope id).pooled = false

private theorem unpooled_of_size_le {id : ScopeId} (beyond : heap.scopes.size ≤ id.index) :
    (heap.scope id).pooled = false := by
  rw [scope_of_size_le beyond]
  rfl

namespace Advances

theorem of_scopes (arrays : after.arrays = before.arrays)
    (exceptions : after.exceptions = before.exceptions)
    (functions : after.functions = before.functions) (size : before.scopes.size ≤ after.scopes.size)
    (scope : ∀ {id : ScopeId}, id.index < before.scopes.size →
      (before.scope id).Endures (after.scope id) ∧ (before.scope id).Linked (after.scope id) ∧
        (¬ touched (.scope id) → before.SameView after id))
    (fresh : ∀ {id : ScopeId}, before.scopes.size ≤ id.index → (after.scope id).pooled = false) :
    before.Advances touched after where
  array {id} old :=
    ⟨Nat.lt_of_lt_of_eq old (congrArg Array.size arrays.symm),
      congrArg (·.getD id.index default) arrays⟩
  exception {id} old := by
    have same : after.exception id = before.exception id :=
      congrArg (·.getD id.index default) exceptions
    exact ⟨Nat.lt_of_lt_of_eq old (congrArg Array.size exceptions.symm),
      congrArg ExceptionObject.cause same, fun _ => same⟩
  function? {id} _ := congrArg (·[id.index]?) functions
  size := size
  scope := scope
  fresh := fresh

theorem of_storage (arrays : after.arrays = before.arrays)
    (exceptions : after.exceptions = before.exceptions)
    (functions : after.functions = before.functions) (size : after.scopes.size = before.scopes.size)
    (scope : ∀ {id : ScopeId}, id.index < before.scopes.size →
      (before.scope id).Endures (after.scope id) ∧ (before.scope id).Linked (after.scope id) ∧
        (¬ touched (.scope id) → before.SameView after id)) : before.Advances touched after :=
  of_scopes arrays exceptions functions (Nat.le_of_eq size.symm) scope fun beyond =>
    unpooled_of_size_le (Nat.le_trans (Nat.le_of_eq size) beyond)

theorem of_items (scopes : after.scopes = before.scopes) (memory : after.memory = before.memory)
    (array : ∀ {id : ArrayId}, id.index < before.arrays.size →
      id.index < after.arrays.size ∧ after.array id = before.array id)
    (exception : ∀ {id : ExceptionId}, id.index < before.exceptions.size →
      id.index < after.exceptions.size ∧
        (after.exception id).cause = (before.exception id).cause ∧
        (¬ touched (.exception id) → after.exception id = before.exception id))
    (function? : ∀ {id : FunctionId}, id.index < before.functions.size →
      after.function? id = before.function? id) : before.Advances touched after where
  array := array
  exception := exception
  function? := function?
  size := Nat.le_of_eq (congrArg Array.size scopes.symm)
  scope {id} _ := by
    have same : after.scope id = before.scope id := congrArg (·.getD id.index default) scopes
    exact ⟨same ▸ .refl _, same ▸ .refl _, fun _ => .of_eq scopes memory id⟩
  fresh beyond :=
    unpooled_of_size_le (Nat.le_trans (Nat.le_of_eq (congrArg Array.size scopes)) beyond)

end Advances

end Heap

namespace Machine

variable {Code : Type} {machine before middle after : Machine Code} {args args' : Table}
  {touched : Handle → Prop} {o : ScopeId → Prop}

/-- A machine whose storage is in order, with a table on its way. -/
structure Arranged (machine : Machine Code) (args : Table) : Prop where
  orderly : machine.Orderly
  tidy : machine.Tidy
  heap : machine.heap.Arranged args
  busy : ∀ {id}, (machine.heap.scope id).pooled = true → machine.Busy id

/-- What a run leaves in place. Scopes with members in the arena that were not in use before are
blocks of the innermost frame, or a call's own. -/
structure Lasts (o : ScopeId → Prop) (before after : Machine Code) : Prop where
  function? : ∀ {id function}, before.heap.function? id = some function →
    after.heap.function? id = some function
  busy : ∀ {id}, before.Busy id → after.Busy id
  endures : ∀ {id}, before.Busy id → (before.heap.scope id).Endures (after.heap.scope id)
  pooled : ∀ {id}, (after.heap.scope id).pooled = true →
    before.Busy id ∧ (before.heap.scope id).pooled = true ∨ id ∈ after.blocks.headD [] ∨ o id
  blocks : ∀ {id}, id ∈ before.blocks.headD [] → id ∈ after.blocks.headD []

namespace Lasts

theorem trans (left : Lasts o before middle) (right : Lasts o middle after) :
    Lasts o before after where
  function? found := right.function? (left.function? found)
  busy busy := right.busy (left.busy busy)
  endures busy := (left.endures busy).trans (right.endures (left.busy busy))
  pooled pooled := by
    rcases right.pooled pooled with ⟨_, earlier⟩ | later
    · exact (left.pooled earlier).imp_right (.imp_left right.blocks)
    · exact .inr later
  blocks listed := right.blocks (left.blocks listed)

theorem mono {o' : ScopeId → Prop} (lasts : Lasts o before after)
    (more : ∀ {id}, o id → o' id) : Lasts o' before after :=
  { lasts with pooled := fun pooled => (lasts.pooled pooled).imp_right (.imp_right more) }

theorem refl (arranged : machine.Arranged args) : Lasts o machine machine :=
  ⟨id, id, fun _ => .refl _, fun pooled => .inl ⟨arranged.busy pooled, pooled⟩, id⟩

end Lasts

/-- A step on one machine: what it may have touched, and the table that is on its way then. -/
structure Steps (touched : Handle → Prop) (o : ScopeId → Prop) (before : Machine Code)
    (args : Table) (after : Machine Code) : Prop where
  arranged : after.Arranged args
  extension : before.Extends touched after
  lasts : Lasts o before after
  capture : after.capture = before.capture
  limits : after.limits = before.limits

namespace Steps

theorem trans (left : Steps touched o before args middle)
    (right : Steps touched o middle args' after) : Steps touched o before args' after :=
  ⟨right.arranged, left.extension.trans right.extension, left.lasts.trans right.lasts,
    right.capture.trans left.capture, right.limits.trans left.limits⟩

theorem of_heap (arranged : machine.Arranged args) {heap : Heap Code}
    (keeps : machine.heap.KeepsPlace heap) (next : heap.Arranged args')
    (advances : machine.heap.Advances touched heap) :
    Steps touched o machine args' (machine.withHeap heap) := by
  have stays := StaysInFrame.of_heap arranged.tidy keeps
  have busy : ∀ {id}, machine.Busy id → (machine.withHeap heap).Busy id :=
    fun {id} => stays.spares.busy id
  have pooled : ∀ {id}, (heap.scope id).pooled = true →
      machine.Busy id ∧ (machine.heap.scope id).pooled = true := by
    intro id pooled
    by_cases old : id.index < machine.heap.scopes.size
    · have before := ((advances.scope old).1.pooled).symm.trans pooled
      exact ⟨arranged.busy before, before⟩
    · exact absurd (advances.fresh (Nat.le_of_not_lt old) ▸ pooled) nofun
  have function? : ∀ {id function}, machine.heap.function? id = some function →
      heap.function? id = some function := fun found =>
    (advances.function? (Array.getElem?_eq_some_iff.mp found).1).trans found
  refine ⟨⟨stays.steady.orderly arranged.orderly, stays.spares.tidy, next,
      fun inside => busy (pooled inside).1⟩,
    ⟨fun {handle} present spared => ?_, fun {handle} present => ?_,
      fun busy => (advances.scope busy.1).2.1, fun old => (advances.exception old).2.1,
      fun old => (advances.array old).2, function?, rfl⟩,
    ⟨function?, busy, fun busy => (advances.scope busy.1).1, fun inside =>
      .inl (pooled inside), id⟩,
    rfl, rfl⟩
  · cases handle with
    | cell id => exact trivial
    | array id => exact (advances.array present).2
    | exception id => exact (advances.exception present).2.2 spared
    | function id => exact advances.function? present
    | scope id => exact (advances.scope present.1).2.2 spared
  · cases handle with
    | cell id => exact present
    | array id => exact (advances.array present).1
    | exception id => exact (advances.exception present).1
    | function id =>
        exact (Array.getElem?_eq_some_iff.mp (function? (Array.getElem?_eq_getElem present))).1
    | scope id => exact busy present

end Steps

end Machine

end ScopeMachine
