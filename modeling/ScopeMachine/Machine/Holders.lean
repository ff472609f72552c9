import ScopeMachine.Machine.Basic

namespace ScopeMachine

namespace Heap

variable {Code : Type}

def size (heap : Heap Code) : Nat :=
  heap.memory.cells.size + heap.arrays.size + heap.exceptions.size + heap.functions.size +
    heap.scopes.size

def positionsBelow {α : Type} (items : Array α) (test : α → Bool) (bound : Nat) : List Nat :=
  bound.fold
    (fun position _ found => if items[position]?.any test then position :: found else found) []

theorem mem_positionsBelow {α : Type} {items : Array α} {test : α → Bool}
    {bound position : Nat} :
    position ∈ positionsBelow items test bound ↔
      position < bound ∧ items[position]?.any test = true := by
  induction bound with
  | zero => simp [positionsBelow]
  | succ bound induction =>
      simp only [positionsBelow, Nat.fold_succ] at induction ⊢
      split
      next passes =>
        rw [List.mem_cons, induction]
        constructor
        · rintro (rfl | ⟨below, hit⟩)
          · exact ⟨Nat.lt_succ_self _, passes⟩
          · exact ⟨Nat.lt_succ_of_lt below, hit⟩
        · rintro ⟨below, hit⟩
          rcases Nat.lt_succ_iff_lt_or_eq.mp below with below | rfl
          · exact .inr ⟨below, hit⟩
          · exact .inl rfl
      next fails =>
        rw [induction]
        constructor
        · rintro ⟨below, hit⟩
          exact ⟨Nat.lt_succ_of_lt below, hit⟩
        · rintro ⟨below, hit⟩
          rcases Nat.lt_succ_iff_lt_or_eq.mp below with below | rfl
          · exact ⟨below, hit⟩
          · exact absurd hit fails

def positions {α : Type} (items : Array α) (test : α → Bool) : List Nat :=
  positionsBelow items test items.size

theorem mem_positions {α : Type} {items : Array α} {test : α → Bool} {position : Nat} :
    position ∈ positions items test ↔ ∃ item, items[position]? = some item ∧ test item = true := by
  rw [positions, mem_positionsBelow, Option.any_eq_true]
  constructor
  · exact fun ⟨_, found⟩ => found
  · rintro ⟨item, found, hit⟩
    exact ⟨(Array.getElem?_eq_some_iff.mp found).1, item, found, hit⟩

def holders (heap : Heap Code) (handle : Handle) : List Handle :=
  (positions heap.scopes (Scope.holds handle)).map (.scope ⟨·⟩) ++
    (positions heap.functions (Function.holds handle)).map (.function ⟨·⟩) ++
    (positions heap.memory.cells fun cell => cell.value.holds handle).map (.cell ⟨·⟩) ++
    (positions heap.arrays fun array => array.elements.any (Value.holds handle)).map (.array ⟨·⟩) ++
    (positions heap.exceptions fun exception => exception.cause.any (Value.holds handle)).map
      (.exception ⟨·⟩)

def bury? (heap : Heap Code) (isRoot : Handle → Bool) :
    Nat → List Handle → List Handle → Handle → Option (List Handle)
  | 0, _, _, _ => none
  | budget + 1, path, dead, handle =>
      if isRoot handle || path.contains handle then none
      else if dead.contains handle then some dead
      else
        ((heap.holders handle).foldlM (heap.bury? isRoot budget (handle :: path)) dead).map
          (handle :: ·)

def isAlive (heap : Heap Code) (isRoot : Handle → Bool) (handle : Handle) : Bool :=
  (heap.bury? isRoot (heap.size + 1) [] [] handle).isNone

end Heap

def Frame.holds (frame : Frame) (scope : ScopeId) : Bool :=
  frame.scope == scope || frame.blocks.contains scope

namespace Machine

variable {Code : Type}

/-- Held by more than things on the heap: by the arena, a frame, the host, or a caller. Scopes in
the pool hold nothing. -/
def isRoot (machine : Machine Code) (held : List Handle) (handle : Handle) : Bool :=
  held.contains handle || machine.host.handles.contains handle ||
    match handle with
    | .cell id => machine.heap.memory.arena.slots.contains (some id)
    | .scope id =>
        id == machine.global || id == machine.sharedGlobal || machine.frames.toList.any (·.holds id)
    | _ => false

/-- Something besides the caller holds the scope. -/
def isHeld (machine : Machine Code) (held : List Handle) (id : ScopeId) : Bool :=
  machine.heap.isAlive (machine.isRoot held) (.scope id)

end Machine

end ScopeMachine
