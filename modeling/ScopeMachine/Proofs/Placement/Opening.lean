import ScopeMachine.Proofs.Globals.Unaltered
import ScopeMachine.Proofs.Placement.Declaring

namespace ScopeMachine

namespace Heap

variable {Code : Type} {heap : Heap Code}

structure Opening (heap : Heap Code) : Prop extends heap.Pristine where
  arranged : heap.Arranged .empty
  outermost : ∀ id, (heap.scope id).previous = none

namespace Opening

private theorem ofCapacity (capacity : Nat) : (Heap.ofCapacity capacity : Heap Code).Opening := by
  have scopes (id : ScopeId) : (Heap.ofCapacity capacity : Heap Code).scope id = default :=
    scope_of_size_le (Nat.zero_le _)
  have tables (key : Key) : (Heap.ofCapacity capacity : Heap Code).store .empty key = .empty := by
    cases key with
    | args => rfl
    | members id =>
        rw [store_unpooled (congrArg Scope.pooled (scopes id)), scopes id]
        rfl
    | trailing id => exact store_trailing_none (congrArg (·.kind.trailingCell?) (scopes id))
  have vacant {position : Nat} : (Arena.ofCapacity capacity).peek position = none :=
    Arena.peek_of_size_le (Nat.zero_le _)
  refine ⟨.ofCapacity capacity, ⟨⟨⟨⟨fun named => ?_, fun named => ?_⟩, fun _ => ?_⟩, fun key => ?_,
    fun {key _ _} _ spanned => ?_, fun {key _ _} _ listed => ?_⟩, fun id => ?_⟩, fun id => ?_⟩
  · exact nomatch vacant.symm.trans named
  · exact nomatch vacant.symm.trans named
  · exact Memory.content_of_peek_none vacant
  · rw [tables]
    exact Table.fits_empty _
  · rw [tables] at spanned
    exact (Table.not_spans_onHeap spanned).elim
  · rw [tables] at listed
    exact absurd listed (Array.not_mem_empty _)
  · rw [scopes]
    exact Scope.housed_onHeap rfl rfl
  · rw [scopes]
    rfl

variable (opening : heap.Opening)
include opening

private theorem newEmptyGlobal : heap.newEmptyGlobal.2.Opening := by
  have self := scope_newScope_self heap (.onHeap none .empty .global)
  have others {other : ScopeId} : other ≠ heap.newEmptyGlobal.1 →
      heap.newEmptyGlobal.2.scope other = heap.scope other := scope_newScope_ne
  refine ⟨opening.toPristine.newEmptyGlobal, ?_, fun id => ?_⟩
  · exact ((@Heap.Arranged.clear _ _ heap.newEmptyGlobal.2) opening.arranged rfl (fun _ => others)
      (congrArg Scope.pooled self) (congrArg (·.kind.trailingCell?) self)
      (congrArg Scope.members self)).1
  · by_cases same : id = heap.newEmptyGlobal.1
    · exact same ▸ congrArg Scope.previous self
    · rw [others same]
      exact opening.outermost id

private theorem bind {id : ScopeId} (old : id.index < heap.scopes.size) (type : BuiltinType) :
    let made := heap.createMember id type.name (.union .publicTier .const)
    (made.2.modifyCell made.1 (·.install (.type type))).Opening ∧
      (made.2.modifyCell made.1 (·.install (.type type))).scopes.size = heap.scopes.size := by
  have still : heap.landing (.union .publicTier .const) id = id := by
    rcases opening.kind id with kind | kind <;>
      exact landingWithin_self (by simp [Scope.variant, kind, ScopeKind.variant])
        (by simp [Scope.variant, kind, ScopeKind.variant]) ..
  have pristine := opening.toPristine.bind id type
  rw [createMember_eq, still] at pristine ⊢
  unfold insertName at pristine ⊢
  generalize (heap.scope id).index.insert type.name _ = inserted at pristine ⊢
  obtain ⟨slot, index⟩ := inserted
  dsimp only at pristine ⊢
  have modified (heap : Heap Code) (change : Scope → Scope)
      (same : ∀ scope, (change scope).previous = scope.previous) (other : ScopeId) :
      ((heap.modifyScope id change).scope other).previous = (heap.scope other).previous := by
    rcases scope_modifyScope_or heap id other change with unchanged | ⟨-, changed⟩
    · rw [unchanged]
    · rw [changed, same]
  obtain ⟨named, -⟩ := opening.arranged.reindex old index
    fun pooled => absurd ((opening.unpooled id).symm.trans pooled) Bool.false_ne_true
  have outermost (other : ScopeId) :=
    (modified heap (fun scope => { scope with index }) (fun _ => rfl) other).trans
      (opening.outermost other)
  have unpooled : ((heap.modifyScope id fun scope => { scope with index }).scope id).pooled =
      false := by
    rw [scope_modifyScope_self old]
    exact opening.unpooled id
  have size : (heap.modifyScope id fun scope => { scope with index }).scopes.size =
      heap.scopes.size := size_modifyScope ..
  generalize (heap.modifyScope id fun scope => { scope with index }) = middle at *
  obtain ⟨placed, -, found, -⟩ := named.slotCell (size ▸ old) slot
    fun pooled => absurd (unpooled.symm.trans pooled) Bool.false_ne_true
  have whole : ((middle.slotCell id slot).2.modifyCell (middle.slotCell id slot).1
      (·.declare (.union .publicTier .const))).modifyCell (middle.slotCell id slot).1
        (·.install (.type type)) = (middle.slotCell id slot).2.modifyCell
          (middle.slotCell id slot).1 (·.bindType type) :=
    congrArg (fun memory => { (middle.slotCell id slot).2 with memory })
      (Memory.modifyCell_modifyCell _ _ _ _)
  rw [whole] at pristine ⊢
  refine ⟨⟨pristine, (placed.modifyMember found _).1, fun other => ?_⟩, ?_⟩
  · exact (modified { middle with memory :=
      ((middle.scope id).members.cellAt slot middle.memory).2.2 }
      (fun scope => { scope with
        members := ((middle.scope id).members.cellAt slot middle.memory).2.1 })
      (fun _ => rfl) other).trans (outermost other)
  · exact (size_modifyScope { middle with memory := _ } id _).trans size

private theorem installBuiltins {id : ScopeId} (old : id.index < heap.scopes.size) :
    (heap.installBuiltins id).Opening := by
  unfold Heap.installBuiltins
  generalize BuiltinType.globals = types
  induction types generalizing heap with
  | nil => exact opening
  | cons type rest induction =>
      obtain ⟨bound, size⟩ := opening.bind old type
      rw [List.foldl_cons]
      exact induction bound (Nat.lt_of_lt_of_eq old size.symm)

private theorem newGlobal : heap.newGlobal.2.Opening := by
  have present : heap.newEmptyGlobal.1.index < heap.newEmptyGlobal.2.scopes.size := by
    simp [Heap.newEmptyGlobal, newScope]
  have installed := opening.newEmptyGlobal.installBuiltins present
  unfold Heap.newGlobal
  dsimp only
  exact installed

private theorem content_bare (id : ScopeId) (slot : Nat) :
    (heap.contentAt id slot).value.handles = [] := by
  obtain ⟨cells, members, -, old⟩ := opening.table id
  unfold contentAt Table.content
  rw [members]
  change (cells[slot]?.elim Cell.blank heap.memory.cell).value.handles = []
  cases found : cells[slot]? with
  | none => rfl
  | some cell =>
      obtain ⟨type, value⟩ := (opening.bound cell (old cell (Array.mem_of_getElem? found))).value
      have value : (heap.memory.cell cell).value = .type type := value
      rw [Option.elim_some, value]
      rfl

end Opening

end Heap

private theorem Heap.Global.old {Code : Type} {heap : Heap Code} {id : ScopeId}
    (global : heap.Global id) :
    id.index < heap.scopes.size := by
  by_contra beyond
  have absent : heap.scope id = default := scope_of_size_le (Nat.not_lt.mp beyond)
  exact nomatch (congrArg Scope.variant absent).symm.trans global

namespace Machine

variable {Code : Type}

private theorem new_opening (limits : Limits) (choice : GlobalChoice) :
    (new limits choice : Machine Code).heap.Opening := by
  have shared : (Heap.ofCapacity limits.arenaCapacity : Heap Code).newGlobal.2.Opening :=
    (Heap.Opening.ofCapacity _).newGlobal
  cases choice with
  | fresh => exact shared.newGlobal
  | empty => exact shared.newEmptyGlobal
  | shared => exact shared

/-- Machines on which no program has run yet: new ones, with whatever arrays and exceptions a host
has made for literals. -/
inductive Fresh : Machine Script → Prop where
  | new (limits : Limits) (choice : GlobalChoice) : Fresh (.new limits choice)
  | array {machine : Machine Script} (fresh : Fresh machine) {elements : List Value}
      (bare : ∀ value ∈ elements, ∀ scope, value ≠ .object scope) (frozen : Bool) :
      Fresh (machine.withHeap (machine.heap.newArray elements frozen).2)
  | exception {machine : Machine Script} (fresh : Fresh machine) {exception : ExceptionObject}
      (bare : ∀ cause, exception.cause = some cause → ∀ scope, cause ≠ .object scope) :
      Fresh (machine.withHeap (machine.heap.newException exception).2)

structure Unstarted (machine : Machine Code) : Prop where
  arranged : machine.Arranged .empty
  frames : machine.frames = .empty
  global : machine.heap.Global machine.global
  busy : machine.Busy machine.global
  outermost : (machine.heap.scope machine.global).previous = none
  bare : ∀ slot, (machine.heap.contentAt machine.global slot).value.handles = []

namespace Fresh

variable {machine : Machine Script}

theorem ready (fresh : Fresh machine) : Ready machine := by
  induction fresh with
  | new limits choice => exact .new limits choice
  | array _ bare frozen induction => exact .array induction bare frozen
  | exception _ bare induction => exact .exception induction bare

theorem unstarted (fresh : Fresh machine) : machine.Unstarted := by
  induction fresh with
  | new limits choice =>
      have opening : (Machine.new limits choice : Machine Script).heap.Opening :=
        new_opening limits choice
      have global : (Machine.new limits choice : Machine Script).heap.Global
          (Machine.new limits choice : Machine Script).global := new_global limits choice
      have pool : (Machine.new limits choice : Machine Script).pool = [] := by cases choice <;> rfl
      refine ⟨⟨new_orderly limits choice, new_tidy limits choice, opening.arranged,
        fun pooled => ?_⟩,
        ?_, global, ⟨global.old, ?_⟩, opening.outermost _, opening.content_bare _⟩
      · exact nomatch (opening.unpooled _).symm.trans pooled
      · cases choice <;> rfl
      · rw [pool]
        exact List.not_mem_nil
  | array _ _ frozen induction =>
      exact { induction with
        arranged := (induction.arranged.newArray (o := fun _ => False) _ frozen).arranged }
  | exception _ _ induction =>
      exact { induction with
        arranged := (induction.arranged.newException (o := fun _ => False) _).arranged }

end Fresh

end Machine

end ScopeMachine
