import ScopeMachine.Proofs.Calls.Binding
import ScopeMachine.Proofs.Construction.Privacy

/-!
Parameters in a constructor's scope. Whichever tiers they are declared in, their names resolve to
the arguments there, as the slots of a call hold them.
-/

namespace ScopeMachine

open Action

namespace Heap

variable {Code : Type} {heap heap' origin : Heap Code} {scope object enclosing : ScopeId}
  {maker : FunctionId} {declarations : List Declaration}

private theorem chain_aligned (aligned : heap.Aligned heap') (id : ScopeId) :
    heap'.chain id = heap.chain id := by
  unfold chain
  rw [aligned.size]
  generalize heap.scopes.size = budget
  induction budget generalizing id with
  | zero => rfl
  | succ budget induction =>
      unfold chainWithin
      rw [aligned.previous]
      cases (heap.scope id).previous with
      | none => rfl
      | some next => exact congrArg (id :: ·) (induction next)

private theorem forked_aligned (aligned : heap.Aligned heap') (id : ScopeId) :
    heap'.forked id = heap.forked id := by
  unfold forked
  rw [aligned.size]
  generalize heap.scopes.size = budget
  induction budget generalizing id with
  | zero => rfl
  | succ budget induction =>
      unfold forkedWithin
      rw [aligned.kind]
      split
      next object _ => exact induction object
      next => rfl

theorem Grounded.outward (old : scope.index < heap.scopes.size)
    (previous : (heap.scope scope).previous = some enclosing)
    (target : (heap.scope scope).kind.target? = none) (grounded : heap.Grounded enclosing) :
    heap.Grounded scope := by
  refine .intro old (fun last => nomatch previous.symm.trans last) ?_
  rintro other (linked | linked)
  · exact Option.some.inj (previous.symm.trans linked) ▸ grounded
  · exact nomatch target.symm.trans linked

/-- A constructor's scope without members of its own. The object it works on has its members on the
heap, and can take the declarations that are passed on to it. -/
structure Awaits (heap : Heap Code) (scope object : ScopeId) (declarations : List Declaration) :
    Prop where
  bare : (heap.scope scope).members = .empty
  holds : heap.Furnishes (· = object)
  aloof : (heap.scope object).members.Aloof heap.memory
  welcomes : ∀ declaration ∈ declarations, declaration.permission.declared.isPrivate = false →
    (heap.named object declaration.name).Welcomes declaration.permission

/-- In a scope without members no name stands for anything. -/
theorem named_of_bare (bare : (heap.scope scope).members = .empty) (name : String) :
    heap.named scope name = .blank := by
  refine named_of_none ?_
  unfold named?
  rw [bare]
  cases (heap.scope scope).index.slot? name <;> rfl

theorem awaits_of_new (bare : (heap.scope scope).members = .empty)
    (new : (heap.scope object).members = .empty) (old : object.index < heap.scopes.size)
    (valid : ∀ declaration ∈ declarations, declaration.permission.isInvalid = false) :
    heap.Awaits scope object declarations := by
  have cells : (heap.scope object).members.heapCells = #[] := by
    rw [new]
    rfl
  have furnishes : heap.Furnishes (· = object) := by
    refine ⟨?_, ?_, ?_, ?_, ?_⟩
    · rintro _ rfl
      exact old
    · rintro _ rfl
      exact ⟨#[], none, new⟩
    · rintro _ rfl
      rw [cells]
      exact Nat.zero_le _
    · rintro _ rfl cell listed
      rw [cells] at listed
      exact absurd listed (Array.not_mem_empty cell)
    · rintro _ _ slot _ cell rfl rfl found
      rw [cells] at found
      cases found
  refine ⟨bare, furnishes, Table.aloof_of_bare cells _, fun declaration listed _ => ?_⟩
  rw [named_of_bare new]
  exact Cell.blank_welcomes (valid declaration listed)

namespace Awaits

variable (awaits : heap.Awaits scope object declarations)
  (targets : heap.Targets scope object enclosing maker) (grounded : heap.Grounded scope)

include targets grounded

omit awaits grounded in
private theorem lands (permission : Permission) :
    heap.landing permission scope = scope ∨ heap.landing permission scope = object := by
  cases hidden : permission.declared.isPrivate with
  | true => exact .inl (targets.landing_self hidden)
  | false => exact .inr (targets.landing_eq hidden)

include awaits

private theorem furnishes : heap.Furnishes fun id => id = scope ∨ id = object := by
  have cells : (heap.scope scope).members.heapCells = #[] := by
    rw [awaits.bare]
    rfl
  have bare {slot : Nat} {cell : CellId}
      (found : (heap.scope scope).members.heapCells[slot]? = some cell) : False := by
    rw [cells] at found
    cases found
  refine ⟨?_, ?_, ?_, ?_, ?_⟩
  · rintro _ (rfl | rfl)
    · exact grounded.old
    · exact awaits.holds.old rfl
  · rintro _ (rfl | rfl)
    · exact ⟨#[], none, awaits.bare⟩
    · exact awaits.holds.onHeap rfl
  · rintro _ (rfl | rfl)
    · rw [cells]
      exact Nat.zero_le _
    · exact awaits.holds.listed rfl
  · rintro _ (rfl | rfl) cell listed
    · rw [cells] at listed
      exact absurd listed (Array.not_mem_empty cell)
    · exact awaits.holds.present rfl cell listed
  · rintro _ _ slot slot' cell (rfl | rfl) (rfl | rfl) found again
    · exact (bare found).elim
    · exact (bare found).elim
    · exact (bare again).elim
    · exact awaits.holds.unique rfl rfl found again

omit targets grounded in
private theorem aloof_each (id : ScopeId) (inside : id = scope ∨ id = object) :
    (heap.scope id).members.Aloof heap.memory := by
  rcases inside with rfl | rfl
  · rw [awaits.bare]
    exact Table.aloof_empty _
  · exact awaits.aloof

omit grounded in
private theorem free
    (valid : ∀ declaration ∈ declarations, declaration.permission.isInvalid = false) :
    heap.Open scope declarations := by
  intro declaration listed
  cases hidden : declaration.permission.declared.isPrivate with
  | true =>
      rw [targets.landing_self hidden, named_of_bare awaits.bare]
      exact Cell.blank_welcomes (valid declaration listed)
  | false =>
      rw [targets.landing_eq hidden]
      exact awaits.welcomes declaration listed hidden

end Awaits

private theorem Takes.lookup {bindings : List (Declaration × Value)}
    (takes : Takes heap (fun id => id = scope ∨ id = object) scope bindings heap')
    (awaits : heap.Awaits scope object declarations)
    (targets : heap.Targets scope object enclosing maker) (grounded : heap.Grounded scope)
    (free : heap.Open scope declarations) {declaration : Declaration} {value : Value}
    (declares : declaration ∈ declarations) (listed : (declaration, value) ∈ bindings) :
    ∃ cell, heap'.lookup scope declaration.name = (some cell, heap') ∧
      heap'.cell cell = (heap.named (heap.landing declaration.permission scope)
        declaration.name).bound declaration.permission value ∧
      ∃ id, cell ∈ (heap'.scope id).members.heapCells := by
  have welcomes := free declaration declares
  have bound := takes.bound listed
  obtain ⟨owner, objectKind⟩ := targets.owned
  have scopeKind := (takes.aligned.kind scope).trans targets.kind
  have objectKind := (takes.aligned.kind object).trans objectKind
  have uncalled : (heap'.scope scope).variant ≠ .function := by
    unfold Scope.variant
    rw [scopeKind]
    nofun
  have uncalled' : (heap'.scope object).variant ≠ .function := by
    unfold Scope.variant
    rw [objectKind]
    nofun
  have itself : heap'.forked scope = scope :=
    forkedWithin_self (by rw [scopeKind]; rfl) _
  obtain ⟨outer, forked, chain⟩ := targets.chain_eq grounded
  rw [← forked_aligned takes.aligned] at forked
  have chain := (chain_aligned takes.aligned scope).trans chain
  unfold Heap.lookup
  rw [chain, lookupAlong_cons]
  unfold ownMember
  rw [itself]
  cases hidden : declaration.permission.declared.isPrivate with
  | true =>
      rw [targets.landing_self hidden] at bound welcomes ⊢
      have visible := welcomes.isVisible value
      rw [← bound] at visible
      obtain ⟨cell, named, stored, content⟩ := storedMember_of_visible uncalled visible
      have listed := takes.furnishes.mem_of_named? (.inl rfl) named
      exact ⟨cell, by rw [stored, orElse_some], content.trans bound, scope, listed⟩
  | false =>
      rw [targets.landing_eq hidden] at bound welcomes ⊢
      have apart : scope ≠ object := by
        rintro rfl
        cases scopeKind.symm.trans objectKind
      have nothing : heap'.named scope declaration.name = .blank := by
        rw [takes.apart (.inl rfl) listed (by rwa [targets.landing_eq hidden])]
        exact named_of_bare awaits.bare _
      have visible := welcomes.isVisible value
      rw [← bound] at visible
      obtain ⟨cell, named, stored, content⟩ := storedMember_of_visible uncalled' visible
      have listed := takes.furnishes.mem_of_named? (.inr rfl) named
      refine ⟨cell, ?_, content.trans bound, object, listed⟩
      rw [storedMember_of_hidden uncalled (by rw [nothing]; rfl)]
      rw [orElse_none, lookupAlong_cons]
      unfold ownMember
      rw [forked, stored, orElse_some]

/-- In the scope each parameter resolves to the argument at its place, and the rest to an array of
the arguments past the parameters. -/
structure Delivers (heap : Heap Code) (scope : ScopeId) (definition : Definition Code)
    (values : List Value) : Prop where
  param : ∀ {place : Nat} {param : Declaration}, definition.params[place]? = some param →
    ∃ cell, heap.lookup scope param.name = (some cell, heap) ∧
      values[place]? = some (heap.memory.value cell)
  rest : ∀ {rest : Declaration}, definition.rest = some rest →
    ∃ cell array, heap.lookup scope rest.name = (some cell, heap) ∧
      heap.memory.value cell = .array array ∧
      heap.elements array = values.drop definition.params.length

end Heap

/-- What a place in the layout of a body is given: its argument or, past the parameters, an array of
the arguments left. -/
def Definition.Gives {Code : Type} (definition : Definition Code) (values : List Value)
    (heap : Heap Code) (place : Nat) (value : Value) : Prop :=
  if place < definition.params.length then values[place]? = some value
  else ∃ array, value = .array array ∧
    heap.elements array = values.drop definition.params.length

namespace Action

variable {Code : Type} {arguments : Table} {values : List Value} {machine : Machine Code}

theorem bindArguments_binds (definition : Definition Code) (given : Option Table)
    (held : List Handle) (valued : (given.getD .empty).values machine.heap.memory = values)
    (distinct : definition.argumentNames.Nodup)
    (valid : ∀ declaration ∈ definition.params ++ definition.rest.toList,
      declaration.permission.isInvalid = false)
    (accepts : definition.accepts values.length = true) {scope object enclosing : ScopeId}
    {maker : FunctionId} (targets : machine.heap.Targets scope object enclosing maker)
    (grounded : machine.heap.Grounded scope)
    (awaits : machine.heap.Awaits scope object (definition.params ++ definition.rest.toList)) :
    ∃ after, bindArguments definition scope given held machine = .ok () after ∧
      machine.heap.StaysDetached after.heap ∧
      ∀ {place declaration},
        (definition.params ++ definition.rest.toList)[place]? = some declaration →
        ∃ cell value, after.heap.lookup scope declaration.name = (some cell, after.heap) ∧
          after.heap.cell cell =
            (machine.heap.named (machine.heap.landing declaration.permission scope)
              declaration.name).bound declaration.permission value ∧
          definition.Gives values after.heap place value ∧
          ∃ id, cell ∈ (after.heap.scope id).members.heapCells := by
  have free := awaits.free targets valid
  obtain ⟨array, after, binding, rest, takes⟩ := bindArguments_ok definition given held
    (awaits.furnishes targets grounded) (Heap.Awaits.lands targets)
    awaits.aloof_each distinct free valued accepts
  refine ⟨after, binding, takes.staysDetached, fun {place declaration} found => ?_⟩
  have declares := List.mem_of_getElem? found
  by_cases below : place < definition.params.length
  · have inside : place < values.length := Nat.lt_of_lt_of_le below (enough_of_accepts accepts)
    have given : values[place]? = some values[place] := List.getElem?_eq_getElem inside
    rw [List.getElem?_append_left below] at found
    have listed : (declaration, values[place]) ∈ definition.params.zip values :=
      List.mem_of_getElem? (List.getElem?_zip_eq_some.mpr ⟨found, given⟩)
    obtain ⟨cell, here, content, kept⟩ := takes.lookup awaits targets grounded free declares
      (List.mem_append_left _ listed)
    exact ⟨cell, _, here, content, (if_pos below).mpr given, kept⟩
  · rw [List.getElem?_append_right (Nat.le_of_not_lt below)] at found
    have declared := List.mem_of_getElem? found
    obtain ⟨cell, here, content, kept⟩ := takes.lookup awaits targets grounded free declares
      (List.mem_append_right _ (List.mem_map.mpr ⟨declaration, declared, rfl⟩))
    refine ⟨cell, _, here, content, (if_neg below).mpr ⟨array, rfl, rest ?_⟩, kept⟩
    exact Option.isSome_iff_exists.mpr ⟨declaration, by simpa using declared⟩

/-- Calls and constructions accept the same numbers of arguments and fail in the same way at any
other. What they accept is in the slots of the one and, in a scope that awaits it, under the names
of the other. -/
theorem arguments_bound_alike (definition : Definition Code) (given : Option Table)
    (held : List Handle) (valued : arguments.values machine.heap.memory = values)
    (sound : machine.heap.memory.Sound) (aloof : arguments.Aloof machine.heap.memory)
    (same : given.getD .empty = arguments) (distinct : definition.argumentNames.Nodup)
    (valid : ∀ declaration ∈ definition.params ++ definition.rest.toList,
      declaration.permission.isInvalid = false) :
    let count := definition.params.length
    let fits := values.length = count ∨ definition.rest.isSome ∧ count ≤ values.length
    let mapped := mapArguments definition arguments held machine
    let bound := fun scope => bindArguments definition scope given held machine
    (fits →
      (∃ table after, mapped = .ok (table, values.drop count) after ∧
        table.LaysOut definition values after.heap) ∧
      ∀ {scope object enclosing : ScopeId} {maker : FunctionId},
        machine.heap.Targets scope object enclosing maker → machine.heap.Grounded scope →
        machine.heap.Awaits scope object (definition.params ++ definition.rest.toList) →
        ∃ after, bound scope = .ok () after ∧ after.heap.Delivers scope definition values) ∧
    (¬ fits →
      let fault : Fault :=
        .arityMismatch definition.name count definition.rest.isSome values.length
      (∃ after, mapped = .error (.failure { fault }) after) ∧
      ∀ scope, ∃ after, bound scope = .error (.failure { fault }) after) := by
  have length : arguments.length = values.length := by
    rw [← valued, Table.length_values]
  refine ⟨fun fits => ?_, fun misses => ?_⟩
  · have accepts := (definition.accepts_iff values.length).mpr fits
    obtain ⟨table, mapped, mapping, laysOut, -⟩ :=
      mapArguments_ok held sound aloof (length ▸ accepts)
    rw [valued] at mapping laysOut
    refine ⟨⟨table, mapped, mapping, laysOut⟩, fun targets grounded awaits => ?_⟩
    obtain ⟨after, binding, -, binds⟩ := bindArguments_binds definition given held
      (same ▸ valued) distinct valid accepts targets grounded awaits
    refine ⟨after, binding, fun {place param} found => ?_, fun {declaration} found => ?_⟩
    · have below : place < definition.params.length := (List.getElem?_eq_some_iff.mp found).1
      obtain ⟨cell, value, here, content, gives, -⟩ :=
        binds ((List.getElem?_append_left below).trans found)
      exact ⟨cell, here, ((if_pos below).mp gives).trans (congrArg (some ·.value) content.symm)⟩
    · have last : (definition.params ++ definition.rest.toList)[definition.params.length]? =
          some declaration := by simp [found]
      obtain ⟨cell, value, here, content, gives, -⟩ := binds last
      obtain ⟨array, rfl, elements⟩ := (if_neg (Nat.lt_irrefl _)).mp gives
      exact ⟨cell, array, here, congrArg Cell.value content, elements⟩
  · have refuses : definition.accepts arguments.length = false := by
      rw [length, ← Bool.not_eq_true, definition.accepts_iff]
      exact misses
    rw [← length]
    refine ⟨mapArguments_error held refuses, fun scope => ⟨givenBack given machine, ?_⟩⟩
    dsimp only
    rw [bindArguments_error _ _ held (same ▸ refuses), same]
    rfl

private theorem argumentTable_staysDetached (values : List Value) (held : List Handle)
    (machine : Machine Code) :
    machine.StaysDetached (machineLeft (argumentTable values held machine)) := by
  unfold argumentTable
  split
  next => exact .refl _
  next =>
    rw [run_bind]
    refine Machine.andThen_staysDetached (Machine.allocateTable_staysDetached ..)
      fun table after _ => ?_
    exact .of_memory after.heap fun sound => (table.pushEach_staysDetached _ values).continues sound

def mixed : Definition Unit :=
  { name := "mixed", body := ⟨"mixed", "", .empty, ()⟩,
    params := [⟨"shown", .publicTier⟩, ⟨"hidden", .privateTier⟩], rest := some ⟨"more", .const⟩ }

def instantiating : Machine Unit :=
  let (global, heap) := (Heap.ofCapacity 8 : Heap Unit).newEmptyGlobal
  let (object, heap) := heap.newScope (.onHeap (some global) .empty (.object (some ⟨0⟩)))
  let (_, heap) := heap.newScope (.onHeap (some object) .empty (.constructor ⟨0⟩))
  let machine : Machine Unit :=
    { heap, frames := .empty, pool := [], limits := ⟨8, 8, true, true⟩, global,
      sharedGlobal := global, host := {} }
  machine.openFrame "main" "" global

private theorem instantiating_detached : instantiating.Detached := by
  have empty : (Heap.ofCapacity 8 : Heap Unit).Detached := Heap.ofCapacity_detached 8
  have global := (Heap.newEmptyGlobal_staysDetached _).detached empty
  refine (Machine.openFrame_staysDetached _ "main" "" ⟨0⟩).detached ?_
  exact (Heap.newScope_staysDetached _ rfl).detached
    ((Heap.newScope_staysDetached _ rfl).detached global)

/-- A machine with a constructor's scope to bind arguments in, and three of them in the arena. -/
def supplied : Machine Unit :=
  machineLeft (argumentTable [.bool true, .null, .exact 7] [] instantiating)

theorem arguments_bound_alike_mixed :
    let arguments : Table := .inArena ⟨0, 3⟩ 3
    arguments.values supplied.heap.memory = [.bool true, .null, .exact 7] ∧
      (∃ table after, mapArguments mixed arguments [] supplied =
          .ok (table, [.exact 7]) after ∧
        table.LaysOut mixed [.bool true, .null, .exact 7] after.heap) ∧
      ∃ after, bindArguments mixed ⟨2⟩ (some arguments) [] supplied = .ok () after ∧
        after.heap.Delivers ⟨2⟩ mixed [.bool true, .null, .exact 7] := by
  have valued : (Table.inArena ⟨0, 3⟩ 3).values supplied.heap.memory =
      [.bool true, .null, .exact 7] := rfl
  have targets : supplied.heap.Targets ⟨2⟩ ⟨1⟩ ⟨0⟩ ⟨0⟩ :=
    ⟨rfl, ⟨_, rfl⟩, ⟨1⟩, rfl, rfl, .inl rfl⟩
  have global : supplied.heap.Grounded ⟨0⟩ := .intro (by decide) (fun _ => rfl) (by nofun)
  have grounded : supplied.heap.Grounded ⟨2⟩ :=
    .outward (by decide) rfl rfl (.outward (by decide) rfl rfl global)
  have detached : supplied.Detached :=
    (argumentTable_staysDetached _ [] instantiating).detached instantiating_detached
  obtain ⟨mapped, bound⟩ := (arguments_bound_alike mixed (some (.inArena ⟨0, 3⟩ 3)) [] valued
    detached.sound (Table.aloof_inArena ..) rfl (by decide) (by decide)).1 (by decide)
  exact ⟨valued, mapped, bound targets grounded
    (Heap.awaits_of_new rfl rfl (by decide) (by decide))⟩

end Action

end ScopeMachine
