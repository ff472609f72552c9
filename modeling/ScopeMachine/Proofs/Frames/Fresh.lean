import ScopeMachine.Proofs.Frames.Moves

namespace ScopeMachine

open Arena

theorem Memory.modifyCell_modifyCell (memory : Memory) (id : CellId) (first second : Cell → Cell) :
    (memory.modifyCell id first).modifyCell id second =
      memory.modifyCell id fun cell => second (first cell) := by
  unfold modifyCell
  congr 1
  refine Array.ext (by simp) fun position _ _ => ?_
  by_cases same : id.index = position
  · simp [Array.getElem_modify, same]
  · simp [Array.getElem_modify, same]

namespace Workspace

variable {Code : Type}

def idle (limits : Limits) (global sharedGlobal : ScopeId) (heap : Heap Code) : Workspace Code where
  machine :=
    { heap, frames := .empty, pool := [], limits, global, sharedGlobal, host := {} }
  entries := []

section Idle

variable {limits : Limits} {global sharedGlobal : ScopeId} {heap : Heap Code}

private theorem idle_ofCapacity : (idle limits global sharedGlobal
    (.ofCapacity limits.arenaCapacity : Heap Code)).Settled := by
  have scopes : ∀ id : ScopeId,
      (Heap.ofCapacity limits.arenaCapacity : Heap Code).scope id = default :=
    fun _ => Heap.scope_of_size_le (Nat.zero_le _)
  have tables : ∀ {key : Key} {table : Table} {birth : Nat},
      (idle limits global sharedGlobal (.ofCapacity limits.arenaCapacity : Heap Code)).tableOf
        key = some (table, birth) → table = .empty := by
    intro key table birth found
    cases key with
    | entry number => cases found
    | scope id =>
        rcases tableOf_scope.mp found with ⟨hosted, -⟩ | ⟨-, -, same⟩
        · cases hosted
        · rw [same]
          exact congrArg (fun scope => Table.onHeap scope.members.heapCells none) (scopes id)
  have vacant : ∀ {position : Nat},
      (Arena.ofCapacity limits.arenaCapacity).peek position = none :=
    peek_of_size_le (Nat.zero_le _)
  constructor
  · exact ⟨rfl, .nil, ⟨Nat.le_refl _, Nat.zero_le _⟩, rfl, Nat.zero_le _⟩
  · refine ⟨.nil, nofun, fun id => .inl (congrArg Scope.kind (scopes id)), fun {id} _ => ?_⟩
    exact congrArg (·.members.isArena) (scopes id)
  · refine ⟨⟨fun {position id} named => ?_, fun {position other id} named => ?_⟩, fun _ =>
      Memory.content_of_peek_none vacant⟩
    · exact nomatch vacant.symm.trans named
    · exact nomatch vacant.symm.trans named
  · intro key table birth found
    rw [tables found]
    exact ⟨fun spanned => (Table.not_spans_onHeap spanned).elim, nofun, nofun, nofun, nofun, nofun⟩
  · intro key table birth position found spanned
    rw [tables found] at spanned
    exact (Table.not_spans_onHeap spanned).elim
  · intro key key' table table' birth birth' position _ found _ spanned
    rw [tables found] at spanned
    exact (Table.not_spans_onHeap spanned).elim
  · nofun

private theorem idle_newEmptyGlobal (settled : (idle limits global sharedGlobal heap).Settled) :
    (idle limits global sharedGlobal heap.newEmptyGlobal.2).Settled :=
  (settled.newScope (.onHeap none .empty .global) rfl (.inr rfl)).1

private theorem installed_eq
    (registered : (idle limits global sharedGlobal heap).machine.Registered)
    (id : ScopeId) (name : String) (permission : Permission) (change : Cell → Cell) :
    idle limits global sharedGlobal
        ((heap.createMember id name permission).2.modifyCell
          (heap.createMember id name permission).1 change) =
      ((idle limits global sharedGlobal heap).onHeap (·.modifyScope id fun scope =>
          { scope with index := ((heap.scope id).index.insert name permission).2 })).workOnScope
        id (.write ((heap.scope id).index.insert name permission).1
          fun cell => change (cell.declare permission)) := by
  have landed : heap.landing permission id = id := registered.landing permission id
  unfold Heap.createMember
  rw [landed]
  unfold workOnScope Table.Work.run onHeap Heap.slotCell Heap.modifyCell
  dsimp only
  rw [Memory.modifyCell_modifyCell]
  rfl

private theorem idle_installed (settled : (idle limits global sharedGlobal heap).Settled)
    (id : ScopeId)
    (name : String) (permission : Permission) (change : Cell → Cell) :
    (idle limits global sharedGlobal
      ((heap.createMember id name permission).2.modifyCell
        (heap.createMember id name permission).1 change)).Settled := by
  rw [installed_eq settled.registered]
  have keeps : ∀ scope : Scope,
      { scope with index := ((heap.scope id).index.insert name permission).2 }.members =
        scope.members := fun _ => rfl
  obtain ⟨renamed, tables⟩ := settled.modifyScope id keeps fun _ => rfl
  have found : (idle limits global sharedGlobal heap).tableOf (.scope id) =
      some (.onHeap (heap.scope id).members.heapCells none, 0) := rfl
  exact (renamed.workOnScope ((tables _).trans found) fun _ => Bool.false_ne_true).1

private theorem idle_installBuiltins (settled : (idle limits global sharedGlobal heap).Settled)
    (id : ScopeId) : (idle limits global sharedGlobal (heap.installBuiltins id)).Settled := by
  unfold Heap.installBuiltins
  generalize BuiltinType.globals = types
  induction types generalizing heap with
  | nil => exact settled
  | cons type rest induction =>
      rw [List.foldl_cons]
      exact induction (idle_installed settled id type.name _ _)

private theorem idle_newGlobal (settled : (idle limits global sharedGlobal heap).Settled) :
    (idle limits global sharedGlobal heap.newGlobal.2).Settled := by
  have installed := idle_installBuiltins (idle_newEmptyGlobal settled) heap.newEmptyGlobal.1
  unfold Heap.newGlobal
  dsimp only
  exact installed

end Idle

theorem fresh_settled (limits : Limits) (choice : GlobalChoice) :
    (fresh limits choice : Workspace Code).Settled := by
  unfold fresh Machine.new
  have shared : ∀ global sharedGlobal : ScopeId, (idle limits global sharedGlobal
      (Heap.ofCapacity limits.arenaCapacity : Heap Code).newGlobal.2).Settled :=
    fun _ _ => idle_newGlobal idle_ofCapacity
  generalize (Heap.ofCapacity limits.arenaCapacity : Heap Code).newGlobal = result at shared ⊢
  obtain ⟨sharedGlobal, heap⟩ := result
  cases choice with
  | fresh =>
      have own := idle_newGlobal (shared heap.newGlobal.1 sharedGlobal)
      dsimp only at own ⊢
      generalize heap.newGlobal = result at own ⊢
      exact own
  | empty => exact idle_newEmptyGlobal (shared _ _)
  | shared => exact shared _ _

end Workspace

end ScopeMachine
