import ScopeMachine.Proofs.Storage.ScopesById
import ScopeMachine.Proofs.Storage.SingleTable

namespace ScopeMachine

namespace Table

/-- A table that claims no more slots and cells than another. -/
structure Part (part whole : Table) : Prop where
  spans : ∀ {position : Nat}, part.Spans position → whole.Spans position
  cells : ∀ {id : CellId}, id ∈ part.heapCells → id ∈ whole.heapCells
  fits : ∀ {memory : Memory}, whole.Fits memory → part.Fits memory

theorem fits_empty (memory : Memory) : empty.Fits memory :=
  ⟨fun spanned => (not_spans_onHeap spanned).elim, nofun, nofun, nofun, nofun, nofun⟩

theorem Part.refl (table : Table) : table.Part table := ⟨id, id, id⟩

theorem Part.empty (table : Table) : Table.empty.Part table :=
  ⟨fun spanned => (not_spans_onHeap spanned).elim, nofun, fun _ => fits_empty _⟩

theorem Part.forget (table : Table) : (onHeap table.heapCells none).Part table := by
  refine ⟨fun spanned => (not_spans_onHeap spanned).elim, id, fun fits => ?_⟩
  exact ⟨fun spanned => (not_spans_onHeap spanned).elim, nofun, nofun, fits.old, fits.unnamed,
    fits.distinct⟩

end Table

def ScopeKind.trailingCell? : ScopeKind → Option CellId
  | .function invocation => invocation.trailingCell
  | _ => none

namespace Heap

variable {Code : Type}

/-- One table of a heap. -/
inductive Key where
  | members (id : ScopeId)
  | trailing (id : ScopeId)
  | args
  deriving DecidableEq

/-- The table of a key, with a given table on its way. Only a scope that goes back to the pool has
a slice. -/
def store (heap : Heap Code) (args : Table) : Key → Table
  | .members id =>
      if (heap.scope id).pooled then (heap.scope id).members
      else .onHeap (heap.scope id).members.heapCells none
  | .trailing id => .onHeap (heap.scope id).kind.trailingCell?.toArray none
  | .args => args

structure Laid (heap : Heap Code) (args : Table) : Prop where
  clean : heap.memory.Clean
  fits : ∀ key : Key, (heap.store args key).Fits heap.memory
  apart : ∀ {key key' : Key} {position : Nat}, key ≠ key' →
    (heap.store args key).Spans position → ¬ (heap.store args key').Spans position
  separate : ∀ {key key' : Key} {id : CellId}, key ≠ key' →
    id ∈ (heap.store args key).heapCells → id ∉ (heap.store args key').heapCells

variable {heap heap' : Heap Code} {args args' : Table}

theorem Laid.unlisted (laid : heap.Laid args) {key other : Key} {table' : Table}
    {written : CellId → Prop} {after : Memory}
    (alters : (heap.store args key).Alters written heap.memory table' after)
    (apart : other ≠ key) {id : CellId} (listed : id ∈ table'.heapCells) :
    id ∉ (heap.store args other).heapCells := by
  intro elsewhere
  have fits := laid.fits other
  rcases alters.cells listed with ours | fresh | ⟨position, -, named⟩
  · exact laid.separate apart elsewhere ours
  · exact Nat.not_lt_of_le fresh (fits.old elsewhere)
  · exact fits.unnamed elsewhere position named

theorem Laid.alter (laid : heap.Laid args) {key : Key} {table' : Table}
    {written : CellId → Prop}
    (alters : (heap.store args key).Alters written heap.memory table' heap'.memory)
    (listed : ∀ {id : CellId}, written id → id ∈ table'.heapCells)
    (own : (heap'.store args' key).Part table')
    (others : ∀ other, other ≠ key → heap'.store args' other = heap.store args other) :
    heap'.Laid args' ∧ ∀ other, other ≠ key →
      (heap.store args other).Stands heap.memory heap'.memory := by
  have sound := laid.clean.sound
  have away : ∀ {other : Key}, other ≠ key → ∀ {position : Nat},
      (heap.store args key).Spans position → ¬ (heap.store args other).Spans position :=
    fun apart _ spanned => laid.apart (Ne.symm apart) spanned
  have owned : ∀ {other : Key}, other ≠ key → ∀ {position : Nat},
      (heap'.store args' key).Spans position → ¬ (heap.store args other).Spans position := by
    intro other apart position spanned taken
    rcases alters.spans (own.spans spanned) with ours | above
    · exact away apart ours taken
    · exact Nat.not_lt_of_le above ((laid.fits other).within taken)
  have unlisted : ∀ {other : Key}, other ≠ key → ∀ {id : CellId},
      id ∈ (heap'.store args' key).heapCells → id ∉ (heap.store args other).heapCells :=
    fun apart _ member => laid.unlisted alters apart (own.cells member)
  refine ⟨⟨alters.clean, ?_, ?_, ?_⟩, fun other apart => ⟨fun slot => ?_, fun slot => ?_⟩⟩
  · intro other
    by_cases same : other = key
    · subst same
      exact own.fits alters.fits
    · rw [others other same]
      exact alters.fits_other sound (laid.fits other) (away same)
  · intro first second position apart spanned spanned'
    by_cases same : first = key
    · subst same
      rw [others second (Ne.symm apart)] at spanned'
      exact owned (Ne.symm apart) spanned spanned'
    · rw [others first same] at spanned
      by_cases same' : second = key
      · subst same'
        exact owned same spanned' spanned
      · rw [others second same'] at spanned'
        exact laid.apart apart spanned spanned'
  · intro first second id apart member member'
    by_cases same : first = key
    · subst same
      rw [others second (Ne.symm apart)] at member'
      exact unlisted (Ne.symm apart) member member'
    · rw [others first same] at member
      by_cases same' : second = key
      · subst same'
        exact unlisted same member' member
      · rw [others second same'] at member'
        exact laid.separate apart member member'
  · exact alters.cell?_other (laid.fits other) (away apart) slot
  · refine alters.content_other sound (laid.fits other) (away apart) fun {id} named wrote => ?_
    have member := listed wrote
    cases held : heap.store args other with
    | onHeap cells reserved =>
        rw [held] at named
        have listing : id ∈ (heap.store args other).heapCells := by
          rw [held]
          exact Table.mem_heapCells.mpr ⟨slot, named⟩
        exact laid.unlisted alters apart member listing
    | inArena slice length =>
        rw [held] at named
        exact alters.unnamed wrote _ (Table.peek_of_cell? named).2

theorem Laid.rearrange (laid : heap.Laid args) (memory : heap'.memory = heap.memory)
    (source : Key → Key)
    (part : ∀ key, (heap'.store args' key).Part (heap.store args (source key)))
    (apart : ∀ {key key' : Key}, key ≠ key' → source key ≠ source key' ∨
      heap'.store args' key = .empty ∨ heap'.store args' key' = .empty) :
    heap'.Laid args' := by
  constructor
  · rw [memory]
    exact laid.clean
  · intro key
    rw [memory]
    exact (part key).fits (laid.fits _)
  · intro key key' position different spanned spanned'
    rcases apart different with sources | bare | bare
    · exact laid.apart sources ((part key).spans spanned) ((part key').spans spanned')
    · rw [bare] at spanned
      exact Table.not_spans_onHeap spanned
    · rw [bare] at spanned'
      exact Table.not_spans_onHeap spanned'
  · intro key key' id different member member'
    rcases apart different with sources | bare | bare
    · exact laid.separate sources ((part key).cells member) ((part key').cells member')
    · rw [bare] at member
      exact absurd member (Array.not_mem_empty _)
    · rw [bare] at member'
      exact absurd member' (Array.not_mem_empty _)

end Heap

end ScopeMachine
