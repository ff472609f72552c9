import Mathlib.Data.List.Basic
import Mathlib.Data.List.Nodup
import Mathlib.Data.List.Perm.Subperm
import Mathlib.Logic.Relation
import ScopeMachine.Machine.Holders

namespace ScopeMachine

namespace Handle

variable {handle : Handle}

theorem eq_of_isCell {id : CellId} (same : handle.isCell id = true) : handle = .cell id := by
  cases handle <;> simp_all [isCell]

theorem eq_of_isFunction {id : FunctionId} (same : handle.isFunction id = true) :
    handle = .function id := by
  cases handle <;> simp_all [isFunction]

theorem eq_of_isScope {id : ScopeId} (same : handle.isScope id = true) : handle = .scope id := by
  cases handle <;> simp_all [isScope]

end Handle

theorem Value.mem_handles {value : Value} {handle : Handle} :
    handle ∈ value.handles ↔ value.holds handle = true := by
  cases value <;> cases handle <;> simp [handles, holds]

namespace Heap

open Relation

variable {Code : Type} {heap : Heap Code} {isRoot : Handle → Bool}

/-- The thing has been allocated. -/
def Has (heap : Heap Code) : Handle → Prop
  | .cell id => id.index < heap.memory.cells.size
  | .array id => id.index < heap.arrays.size
  | .exception id => id.index < heap.exceptions.size
  | .function id => id.index < heap.functions.size
  | .scope id => id.index < heap.scopes.size

/-- One thing holds another directly. -/
def Holds (heap : Heap Code) : Handle → Handle → Prop
  | .cell id, target => (heap.cell id).value.holds target = true
  | .array id, target => (heap.array id).elements.any (Value.holds target) = true
  | .exception id, target => (heap.exception id).cause.any (Value.holds target) = true
  | .function id, target =>
      ∃ function, heap.function? id = some function ∧ function.holds target = true
  | .scope id, target => (heap.scope id).holds target = true

section Holders

variable {target : Handle}

@[simp] theorem holds_array {id : ArrayId} :
    heap.Holds (.array id) target ↔ (heap.array id).elements.any (Value.holds target) = true :=
  .rfl

@[simp] theorem holds_exception {id : ExceptionId} :
    heap.Holds (.exception id) target ↔ (heap.exception id).cause.any (Value.holds target) = true :=
  .rfl

@[simp] theorem holds_scope {id : ScopeId} :
    heap.Holds (.scope id) target ↔ (heap.scope id).holds target = true :=
  .rfl

end Holders

theorem scope_default_holds (target : Handle) : (default : Scope).holds target = false := by
  simp [Scope.holds, default, Scope.vacant, Scope.onHeap, Table.empty, Table.heapCells,
    ScopeKind.holds]

theorem holds_null (target : Handle) : Value.null.holds target = false := by
  cases target <;> rfl

theorem mem_holders {holder target : Handle} :
    holder ∈ heap.holders target ↔ heap.Holds holder target := by
  unfold holders
  simp only [List.mem_append, List.mem_map, mem_positions]
  rcases holder with ⟨⟨index⟩⟩ | ⟨⟨index⟩⟩ | ⟨⟨index⟩⟩ | ⟨⟨index⟩⟩ | ⟨⟨index⟩⟩
  · have blank : Cell.blank.value.holds target = false := holds_null target
    by_cases old : index < heap.memory.cells.size <;> simp [Holds, cell, Memory.cell, old, blank]
  · have bare : (default : ArrayObject).elements = #[] := rfl
    by_cases old : index < heap.arrays.size <;> simp [Holds, array, old, bare]
  · have uncaused : (default : ExceptionObject).cause = none := rfl
    by_cases old : index < heap.exceptions.size <;> simp [Holds, exception, old, uncaused]
  · simp [Holds, function?]
  · by_cases old : index < heap.scopes.size <;> simp [Holds, scope, old, scope_default_holds]

theorem Holds.has {holder target : Handle} (holds : heap.Holds holder target) :
    heap.Has holder := by
  have listed := mem_holders.mpr holds
  unfold holders at listed
  simp only [List.mem_append, List.mem_map, mem_positions] at listed
  rcases listed with (((listed | listed) | listed) | listed) | listed <;>
    obtain ⟨position, ⟨item, found, -⟩, rfl⟩ := listed <;>
    exact (Array.getElem?_eq_some_iff.mp found).1

/-- No root holds the thing, and whatever holds it is lost. -/
inductive Lost (heap : Heap Code) (isRoot : Handle → Bool) : Handle → Prop where
  | intro {handle : Handle} (allocated : heap.Has handle) (rootless : isRoot handle = false)
      (holders : ∀ holder, heap.Holds holder handle → Lost heap isRoot holder) :
      Lost heap isRoot handle

namespace Lost

variable {handle : Handle}

theorem allocated (lost : heap.Lost isRoot handle) : heap.Has handle := by
  cases lost with
  | intro allocated => exact allocated

theorem rootless (lost : heap.Lost isRoot handle) : isRoot handle = false := by
  cases lost with
  | intro _ rootless => exact rootless

theorem holder (lost : heap.Lost isRoot handle) {holder : Handle}
    (holds : heap.Holds holder handle) : heap.Lost isRoot holder := by
  cases lost with
  | intro _ _ holders => exact holders holder holds

theorem acyclic (lost : heap.Lost isRoot handle) : ¬ TransGen heap.Holds handle handle := by
  induction lost with
  | intro _ _ _ induction =>
      intro circle
      obtain ⟨holder, reached, holds⟩ := TransGen.tail'_iff.mp circle
      exact induction holder holds (.head' holds reached)

theorem mono {heap' : Heap Code} {isRoot' : Handle → Bool}
    (has : ∀ {handle}, heap.Has handle → heap'.Has handle)
    (roots : ∀ {handle}, heap.Lost isRoot handle → isRoot' handle = false)
    (holds : ∀ {holder target}, heap.Lost isRoot target → heap'.Holds holder target →
      heap.Holds holder target)
    (lost : heap.Lost isRoot handle) : heap'.Lost isRoot' handle := by
  induction lost with
  | @intro handle allocated rootless holders induction =>
      have lost : heap.Lost isRoot handle := .intro allocated rootless holders
      exact .intro (has allocated) (roots lost) fun holder held =>
        induction holder (holds lost held)

end Lost

private theorem buryEach_lost {bury : List Handle → Handle → Option (List Handle)}
    {handles : List Handle}
    (each : ∀ {dead after : List Handle} {handle : Handle}, handle ∈ handles →
      (∀ other ∈ dead, heap.Lost isRoot other) → bury dead handle = some after →
      handle ∈ after ∧ (∀ other ∈ after, heap.Lost isRoot other) ∧ ∀ other ∈ dead, other ∈ after)
    {dead after : List Handle} (lost : ∀ other ∈ dead, heap.Lost isRoot other)
    (found : handles.foldlM bury dead = some after) :
    (∀ handle ∈ handles, handle ∈ after) ∧ (∀ other ∈ after, heap.Lost isRoot other) ∧
      ∀ other ∈ dead, other ∈ after := by
  induction handles generalizing dead with
  | nil =>
      cases found
      exact ⟨nofun, lost, fun _ => id⟩
  | cons first rest induction =>
      rw [List.foldlM_cons] at found
      obtain ⟨middle, here, later⟩ := Option.bind_eq_some_iff.mp found
      obtain ⟨member, middleLost, kept⟩ := each List.mem_cons_self lost here
      obtain ⟨members, afterLost, keeps⟩ := induction
        (fun {_ _ _} listed => each (List.mem_cons_of_mem _ listed)) middleLost later
      refine ⟨fun handle listed => ?_, afterLost, fun other old => keeps _ (kept _ old)⟩
      rcases List.mem_cons.mp listed with rfl | listed
      · exact keeps _ member
      · exact members handle listed

private theorem bury?_lost {budget : Nat} {path dead after : List Handle} {handle : Handle}
    (allocated : heap.Has handle) (lost : ∀ other ∈ dead, heap.Lost isRoot other)
    (found : heap.bury? isRoot budget path dead handle = some after) :
    handle ∈ after ∧ (∀ other ∈ after, heap.Lost isRoot other) ∧ ∀ other ∈ dead, other ∈ after := by
  induction budget generalizing path dead handle after with
  | zero => cases found
  | succ budget induction =>
      unfold bury? at found
      split at found
      next => cases found
      next unrooted =>
        split at found
        next known =>
          cases found
          exact ⟨List.contains_iff_mem.mp known, lost, fun _ => id⟩
        next =>
          obtain ⟨below, buried, rfl⟩ := Option.map_eq_some_iff.mp found
          obtain ⟨members, belowLost, kept⟩ := buryEach_lost
            (fun {_ _ _} listed => induction (mem_holders.mp listed).has) lost buried
          have rootless : isRoot handle = false := by
            cases root : isRoot handle with
            | false => rfl
            | true => simp [root] at unrooted
          have gone : heap.Lost isRoot handle := .intro allocated rootless fun holder holds =>
            belowLost holder (members holder (mem_holders.mpr holds))
          refine ⟨List.mem_cons_self, fun other listed => ?_,
            fun other old => List.mem_cons_of_mem _ (kept other old)⟩
          rcases List.mem_cons.mp listed with rfl | listed
          · exact gone
          · exact belowLost other listed

def everything (heap : Heap Code) : List Handle :=
  (List.range heap.memory.cells.size).map (.cell ⟨·⟩) ++
    (List.range heap.arrays.size).map (.array ⟨·⟩) ++
    (List.range heap.exceptions.size).map (.exception ⟨·⟩) ++
    (List.range heap.functions.size).map (.function ⟨·⟩) ++
    (List.range heap.scopes.size).map (.scope ⟨·⟩)

private theorem length_everything (heap : Heap Code) : heap.everything.length = heap.size := by
  simp [everything, size, Nat.add_assoc]

private theorem mem_everything {handle : Handle} (allocated : heap.Has handle) :
    handle ∈ heap.everything := by
  unfold everything
  rcases handle with ⟨⟨index⟩⟩ | ⟨⟨index⟩⟩ | ⟨⟨index⟩⟩ | ⟨⟨index⟩⟩ | ⟨⟨index⟩⟩ <;>
    simpa [Has] using allocated

private theorem length_le_size {handles : List Handle} (nodup : handles.Nodup)
    (allocated : ∀ handle ∈ handles, heap.Has handle) : handles.length ≤ heap.size := by
  rw [← length_everything]
  exact (nodup.subperm fun handle listed => mem_everything (allocated handle listed)).length_le

private theorem foldlM_isSome {α β : Type} {step : β → α → Option β} {items : List α}
    (each : ∀ item ∈ items, ∀ state, (step state item).isSome = true) (state : β) :
    (items.foldlM step state).isSome = true := by
  induction items generalizing state with
  | nil => rfl
  | cons first rest induction =>
      obtain ⟨next, taken⟩ := Option.isSome_iff_exists.mp (each first List.mem_cons_self state)
      rw [List.foldlM_cons, taken]
      exact induction (fun item listed => each item (List.mem_cons_of_mem _ listed)) next

private theorem bury?_of_lost {handle : Handle} (lost : heap.Lost isRoot handle) {budget : Nat}
    {path : List Handle} (above : ∀ other ∈ path, TransGen heap.Holds handle other)
    (nodup : path.Nodup) (allocated : ∀ other ∈ path, heap.Has other)
    (enough : heap.size < budget + path.length) (dead : List Handle) :
    (heap.bury? isRoot budget path dead handle).isSome = true := by
  induction lost generalizing budget path dead with
  | @intro handle present rootless holders induction =>
      have lost : heap.Lost isRoot handle := .intro present rootless holders
      have apart : handle ∉ path := fun listed => lost.acyclic (above handle listed)
      have nodup' : (handle :: path).Nodup := List.nodup_cons.mpr ⟨apart, nodup⟩
      have allocated' : ∀ other ∈ handle :: path, heap.Has other :=
        List.forall_mem_cons.mpr ⟨present, allocated⟩
      cases budget with
      | zero =>
          have short := length_le_size nodup allocated
          omega
      | succ budget =>
          have unseen : path.contains handle = false := by simpa using apart
          unfold bury?
          rw [rootless, unseen]
          simp only [Bool.or_self, Bool.false_eq_true, if_false]
          split
          next => rfl
          next =>
            rw [Option.isSome_map]
            refine foldlM_isSome (fun holder listed dead => ?_) dead
            have holds := mem_holders.mp listed
            refine induction holder holds (List.forall_mem_cons.mpr ⟨.single holds, ?_⟩) nodup'
              allocated' (by simp only [List.length_cons]; omega) dead
            exact fun other member => .head holds (above other member)

theorem isAlive_eq_false_iff {handle : Handle} (allocated : heap.Has handle) :
    heap.isAlive isRoot handle = false ↔ heap.Lost isRoot handle := by
  unfold isAlive
  constructor
  · intro gone
    cases found : heap.bury? isRoot (heap.size + 1) [] [] handle with
    | none => rw [found] at gone; cases gone
    | some dead =>
        obtain ⟨member, lost, -⟩ := bury?_lost allocated (List.forall_mem_nil _) found
        exact lost handle member
  · intro lost
    have buried : (heap.bury? isRoot (heap.size + 1) [] [] handle).isSome = true :=
      bury?_of_lost lost (List.forall_mem_nil _) .nil (List.forall_mem_nil _)
        (Nat.lt_succ_self _) []
    obtain ⟨dead, found⟩ := Option.isSome_iff_exists.mp buried
    rw [found]
    rfl

theorem not_alive_of_unheld {handle : Handle} (rootless : isRoot handle = false)
    (unheld : ∀ holder, ¬ heap.Holds holder handle) : heap.isAlive isRoot handle = false := by
  have none_holds : heap.holders handle = [] :=
    List.eq_nil_iff_forall_not_mem.mpr fun holder listed => unheld holder (mem_holders.mp listed)
  unfold isAlive bury?
  simp [rootless, none_holds]

end Heap

end ScopeMachine
