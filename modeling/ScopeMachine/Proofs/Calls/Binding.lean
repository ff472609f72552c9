import ScopeMachine.Proofs.Calls.Layouts
import ScopeMachine.Proofs.Storage.Detached
import ScopeMachine.Proofs.Storage.HeldCells
import ScopeMachine.Proofs.Storage.Naming

namespace ScopeMachine

open Memory

/-- A declared permission keeps every bit but those of the tiers. -/
theorem Permission.contains_declared (permission : Permission) {part : Permission}
    (apart : part.bits &&& 7 = 0) :
    permission.declared.contains part = permission.contains part := by
  have tier : permission.declaredTier.bits &&& 7 = permission.declaredTier.bits := by
    unfold declaredTier
    split
    · rfl
    · split <;> rfl
  have same : permission.declared.bits &&& part.bits = permission.bits &&& part.bits := by
    rw [declared_bits]
    generalize permission.declaredTier.bits = tier at *
    apply UInt16.eq_of_toBitVec_eq
    have apart := congrArg UInt16.toBitVec apart
    have tier := congrArg UInt16.toBitVec tier
    rw [UInt16.toBitVec_and] at apart tier
    refine BitVec.eq_of_getLsbD_eq fun position inside => ?_
    have apart := congrArg (BitVec.getLsbD · position) apart
    have tier := congrArg (BitVec.getLsbD · position) tier
    have zero : (UInt16.toBitVec 0).getLsbD position = false := BitVec.getLsbD_zero
    rw [BitVec.getLsbD_and] at apart tier
    rw [zero] at apart
    rw [UInt16.toBitVec_and, UInt16.toBitVec_or, UInt16.toBitVec_and, UInt16.toBitVec_and,
      BitVec.getLsbD_and, BitVec.getLsbD_or, BitVec.getLsbD_and, BitVec.getLsbD_and,
      UInt16.toBitVec_not, BitVec.getLsbD_not]
    grind
  unfold contains
  rw [same]

namespace Cell

structure Welcomes (cell : Cell) (permission : Permission) : Prop where
  seen : (cell.declare permission).isInvalid = false
  writable : ((cell.declare permission).written &&
    (cell.declare permission).permission.isConst) = false

def bound (cell : Cell) (permission : Permission) (value : Value) : Cell :=
  { cell.declare permission with value, written := true }

variable {cell : Cell} {permission : Permission}

@[simp] theorem declared_declare (cell : Cell) (permission : Permission) :
    (cell.declare permission).declared = true := by
  unfold declare
  split
  next declared => exact declared
  next => rfl

theorem Welcomes.isVisible (welcomes : cell.Welcomes permission) (value : Value) :
    (cell.bound permission value).isVisible = true := by
  have seen : (cell.bound permission value).isInvalid = false := welcomes.seen
  have declared : (cell.bound permission value).declared = true := declared_declare ..
  rw [Cell.isVisible, seen, declared]
  rfl

private theorem Welcomes.assign (welcomes : cell.Welcomes permission) (name : String)
    (value : Value) :
    (cell.declare permission).assign name value = .ok (cell.bound permission value) := by
  unfold Cell.assign
  rw [welcomes.writable]
  rfl

theorem blank_welcomes (valid : permission.isInvalid = false) : blank.Welcomes permission :=
  ⟨(permission.contains_declared rfl).trans valid, rfl⟩

end Cell

namespace Heap

variable {Code : Type} {heap heap' : Heap Code} {scopes : ScopeId → Prop} {scope : ScopeId}
  {name : String} {permission : Permission}

namespace Furnishes

theorem createMember (furnishes : heap.Furnishes scopes)
    (member : scopes (heap.landing permission scope)) (name : String) :
    let made := heap.createMember scope name permission
    let target := heap.landing permission scope
    made.2.Furnishes scopes ∧ made.2.named? target name = some made.1 ∧
      made.2.named target name = (heap.named target name).declare permission ∧
      ∀ {other name'}, scopes other → (other, name') ≠ (target, name) →
        made.2.named other name' = heap.named other name' := by
  dsimp only
  unfold Heap.createMember
  generalize heap.landing permission scope = target at member ⊢
  dsimp only
  obtain ⟨renamed, same⟩ := furnishes.rename member name permission rfl
  have here := scope_modifyScope_self (furnishes.old member) fun scope =>
    { scope with index := ((heap.scope target).index.insert name permission).2 }
  have known := Index.slot?_insert_self (heap.scope target).index name permission
  generalize (heap.scope target).index.insert name permission = inserted at *
  generalize (heap.modifyScope target fun scope => { scope with index := inserted.2 }) = middle at *
  have known : (middle.scope target).index.slot? name = some inserted.1 := by
    rw [here]
    exact known
  obtain ⟨touched, reached, kept⟩ := renamed.touch member known
  obtain ⟨declared, self, others⟩ := touched.modifyCell member reached (·.declare permission)
  have before {other : ScopeId} {name' : String} (member : scopes other) :
      (middle.slotCell target inserted.1).2.named other name' = heap.named other name' := by
    rw [kept member, same member]
  refine ⟨declared, ?_, ?_, fun member' apart => (others member' apart).trans (before member')⟩
  · exact (named?_modifyCell ..).trans reached
  · rw [self, before member]

private theorem declareMember (furnishes : heap.Furnishes scopes)
    (member : scopes (heap.landing permission scope))
    (welcomes : (heap.named (heap.landing permission scope) name).Welcomes permission)
    (value : Value) :
    let made := heap.createMember scope name permission
    let target := heap.landing permission scope
    ∃ heap', made.2.assign made.1 name value = (.ok (), heap') ∧ heap'.Furnishes scopes ∧
      heap.Aligned heap' ∧ heap.StaysDetached heap' ∧ heap'.arrays = heap.arrays ∧
      heap'.named target name = (heap.named target name).bound permission value ∧
      ∀ {other name'}, scopes other → (other, name') ≠ (target, name) →
        heap'.named other name' = heap.named other name' := by
  obtain ⟨declared, reached, self, others⟩ := furnishes.createMember member name
  have aligned := createMember_aligned heap scope name permission
  have stays := staysDetached_law.createMember heap scope name permission
  have arrays : (heap.createMember scope name permission).2.arrays = heap.arrays := rfl
  dsimp only at *
  generalize heap.createMember scope name permission = made at *
  obtain ⟨cell, middle⟩ := made
  obtain ⟨written, here, elsewhere⟩ := declared.modifyCell member reached fun _ =>
    (heap.named (heap.landing permission scope) name).bound permission value
  have content : middle.memory.cell cell =
      (heap.named (heap.landing permission scope) name).declare permission :=
    (named_of_named? reached).symm.trans self
  refine ⟨_, ?_, written, aligned.trans (.of_scopes rfl), stays.trans (modifyCell_staysDetached ..),
    arrays, here, fun member' apart => (elsewhere member' apart).trans (others member' apart)⟩
  unfold Heap.assign Memory.assign
  rw [content, welcomes.assign]
  rfl

end Furnishes

structure Takes (origin : Heap Code) (scopes : ScopeId → Prop) (scope : ScopeId)
    (bindings : List (Declaration × Value)) (heap : Heap Code) : Prop where
  lands : ∀ permission, scopes (origin.landing permission scope)
  furnishes : heap.Furnishes scopes
  aligned : origin.Aligned heap
  staysDetached : origin.StaysDetached heap
  bound : ∀ {declaration value}, (declaration, value) ∈ bindings →
    heap.named (origin.landing declaration.permission scope) declaration.name =
      (origin.named (origin.landing declaration.permission scope) declaration.name).bound
        declaration.permission value
  others : ∀ {id name}, scopes id → name ∉ bindings.map (·.1.name) →
    heap.named id name = origin.named id name
  apart : ∀ {id declaration value}, scopes id → (declaration, value) ∈ bindings →
    id ≠ origin.landing declaration.permission scope →
    heap.named id declaration.name = origin.named id declaration.name

namespace Takes

variable {origin : Heap Code} {bindings : List (Declaration × Value)}

theorem refl (furnishes : heap.Furnishes scopes)
    (lands : ∀ permission, scopes (heap.landing permission scope)) :
    Takes heap scopes scope [] heap :=
  ⟨lands, furnishes, .of_scopes rfl, .refl heap, nofun, fun _ _ => rfl, nofun⟩

private theorem of_arrays (takes : Takes origin scopes scope bindings heap)
    (arrays : Array ArrayObject) :
    Takes origin scopes scope bindings { heap with arrays } :=
  ⟨takes.lands, ⟨takes.furnishes.old, takes.furnishes.onHeap, takes.furnishes.listed,
    takes.furnishes.present, takes.furnishes.unique⟩, takes.aligned.trans (.of_scopes rfl),
    takes.staysDetached.trans (.of_members rfl fun _ => .inl rfl), takes.bound, takes.others,
      takes.apart⟩

private theorem declare (takes : Takes origin scopes scope bindings heap)
    {declaration : Declaration}
    (new : declaration.name ∉ bindings.map (·.1.name))
    (welcomes : (origin.named (origin.landing declaration.permission scope)
      declaration.name).Welcomes declaration.permission) (value : Value) :
    let made := heap.createMember scope declaration.name declaration.permission
    ∃ heap', made.2.assign made.1 declaration.name value = (.ok (), heap') ∧
      heap'.arrays = heap.arrays ∧
      Takes origin scopes scope (bindings ++ [(declaration, value)]) heap' := by
  have landing := landing_aligned takes.aligned declaration.permission scope
  have member := takes.lands declaration.permission
  have before := takes.others member new
  obtain ⟨heap', assigned, furnishes, aligned, stays, arrays, self, others⟩ :=
    takes.furnishes.declareMember (landing ▸ member) (by rwa [landing, before]) value
  rw [landing] at self others
  have earlier {other : Declaration} {given : Value} (listed : (other, given) ∈ bindings) :
      other.name ≠ declaration.name := fun same =>
    new (List.mem_map.mpr ⟨(other, given), listed, same⟩)
  refine ⟨heap', assigned, arrays, takes.lands, furnishes, takes.aligned.trans aligned,
    takes.staysDetached.trans stays, fun {other given} listed => ?_,
      fun {id name} inside absent => ?_,
    fun {id other given} inside listed elsewhere => ?_⟩
  · rcases List.mem_append.mp listed with listed | last
    · rw [others (takes.lands _) fun same => earlier listed (congrArg Prod.snd same)]
      exact takes.bound listed
    · obtain ⟨rfl, rfl⟩ := Prod.mk.inj (List.mem_singleton.mp last)
      rw [self, before]
  · rw [List.map_append, List.mem_append, not_or] at absent
    rw [others inside fun same => absent.2 (List.mem_singleton.mpr (congrArg Prod.snd same))]
    exact takes.others inside absent.1
  · rcases List.mem_append.mp listed with listed | last
    · rw [others inside fun same => earlier listed (congrArg Prod.snd same)]
      exact takes.apart inside listed elsewhere
    · obtain ⟨rfl, rfl⟩ := Prod.mk.inj (List.mem_singleton.mp last)
      rw [others inside fun same => elsewhere (congrArg Prod.fst same)]
      exact takes.others inside new

private theorem since (takes : Takes heap scopes scope bindings heap')
    (aligned : origin.Aligned heap)
    (stays : origin.StaysDetached heap)
    (same : ∀ {id name}, scopes id → heap.named id name = origin.named id name) :
    Takes origin scopes scope bindings heap' := by
  have landing := fun permission => landing_aligned aligned permission scope
  have lands : ∀ permission, scopes (origin.landing permission scope) := fun permission =>
    landing permission ▸ takes.lands permission
  refine ⟨lands, takes.furnishes, aligned.trans takes.aligned, stays.trans takes.staysDetached,
    fun listed => ?_, fun inside absent => (takes.others inside absent).trans (same inside),
    fun inside listed elsewhere => ?_⟩
  · rw [← same (lands _), ← landing]
    exact takes.bound listed
  · rw [← landing] at elsewhere
    exact (takes.apart inside listed elsewhere).trans (same inside)

end Takes

def Open (heap : Heap Code) (scope : ScopeId) (declarations : List Declaration) : Prop :=
  ∀ declaration ∈ declarations, (heap.named (heap.landing declaration.permission scope)
    declaration.name).Welcomes declaration.permission

end Heap

namespace Action

variable {Code : Type} {origin : Heap Code} {scopes : ScopeId → Prop} {scope : ScopeId}
  {bindings : List (Declaration × Value)} {machine : Machine Code}

private theorem declareMember_ok (held : List Handle)
    (takes : Heap.Takes origin scopes scope bindings machine.heap)
    {declaration : Declaration} (new : declaration.name ∉ bindings.map (·.1.name))
    (welcomes : (origin.named (origin.landing declaration.permission scope)
      declaration.name).Welcomes declaration.permission) (value : Value) :
    ∃ heap, declareMember scope declaration.name declaration.permission value held machine =
        .ok () (machine.withHeap heap) ∧
      heap.arrays = machine.heap.arrays ∧
      Heap.Takes origin scopes scope (bindings ++ [(declaration, value)]) heap := by
  obtain ⟨heap, assigned, arrays, takes⟩ := takes.declare new welcomes value
  refine ⟨heap, ?_, arrays, takes⟩
  unfold declareMember
  rw [run_bind, run_onHeap, andThen_ok, run_tryHeap, assigned]
  rfl

private theorem declareParams_ok (held : List Handle) {params : List Declaration}
    {values : List Value}
    (takes : Heap.Takes origin scopes scope bindings machine.heap)
    (enough : params.length ≤ values.length)
    (distinct : (bindings.map (·.1.name) ++ params.map (·.name)).Nodup)
    (free : origin.Open scope params) :
    ∃ heap, declareParams scope params values held machine = .ok () (machine.withHeap heap) ∧
      heap.arrays = machine.heap.arrays ∧
      Heap.Takes origin scopes scope (bindings ++ params.zip values) heap := by
  induction params generalizing machine bindings values with
  | nil => exact ⟨machine.heap, rfl, rfl, by simpa using takes⟩
  | cons param params induction =>
      cases values with
      | nil => cases enough
      | cons value values =>
          have new : param.name ∉ bindings.map (·.1.name) := fun listed =>
            (List.nodup_append.mp distinct).2.2 _ listed _ (List.mem_cons_self ..) rfl
          obtain ⟨middle, declared, arrays, takes⟩ := declareMember_ok held takes new
            (free param (List.mem_cons_self ..)) value
          obtain ⟨heap, others, arrays', takes⟩ :=
            @induction _ (machine.withHeap middle) _ takes (Nat.le_of_succ_le_succ enough)
              (by simpa [List.map_append] using distinct)
              fun declaration listed => free declaration (List.mem_cons_of_mem _ listed)
          refine ⟨heap, ?_, arrays'.trans arrays, by simpa using takes⟩
          unfold declareParams
          rw [run_bind, List.headD_cons, declared, andThen_ok]
          exact others

def givenBack (given : Option Table) (machine : Machine Code) : Machine Code :=
  given.elim machine fun table =>
    machine.withMemory (table.free machine.host.shares machine.heap.memory)

variable (definition : Definition Code) (given : Option Table)

private theorem run_bindArguments (scope : ScopeId) (held : List Handle) (machine : Machine Code) :
    bindArguments definition scope given held machine =
      let values := (given.getD .empty).values machine.heap.memory
      if definition.accepts values.length then
        andThen (declareParams scope definition.params values held (givenBack given machine))
          fun _ machine =>
            match definition.rest with
            | none => .ok () machine
            | some rest =>
                let (array, heap) := machine.heap.newArray (values.drop definition.arity) false
                declareMember scope rest.name rest.permission (.array array) held
                  (machine.withHeap heap)
      else .error (.failure { fault := arityMismatch definition values.length })
        (givenBack given machine) := by
  unfold bindArguments
  simp only [run_bind, run_takeValues, andThen_ok, Table.length_values]
  have values : (given.elim [] fun table => table.values machine.heap.memory) =
      (given.getD .empty).values machine.heap.memory := by
    cases given <;> rfl
  rw [values]
  cases definition.accepts (given.getD .empty).length with
  | false => rfl
  | true =>
      rw [Bool.not_true, if_neg Bool.false_ne_true, if_pos rfl, run_bind]
      refine congrArg (andThen _) (funext fun _ => funext fun machine => ?_)
      cases definition.rest with
      | none => rfl
      | some rest => simp only [run_bind, run_newArray, andThen_ok]

private theorem givenBack_named {machine : Machine Code} (furnishes : machine.heap.Furnishes scopes)
    (aloof : ∀ id, scopes id → (machine.heap.scope id).members.Aloof machine.heap.memory) :
    (givenBack given machine).heap.Furnishes scopes ∧
      machine.heap.Aligned (givenBack given machine).heap ∧
      machine.heap.StaysDetached (givenBack given machine).heap ∧
      ∀ {id name}, scopes id →
        (givenBack given machine).heap.named id name = machine.heap.named id name := by
  cases given with
  | none => exact ⟨furnishes, .of_scopes rfl, .refl _, fun _ => rfl⟩
  | some table =>
      have keeps := Table.free_keepsHeld table machine.host.shares machine.heap.memory fun _ =>
        False
      refine ⟨⟨furnishes.old, furnishes.onHeap, furnishes.listed, fun inside cell listed => ?_,
        furnishes.unique⟩, .of_scopes rfl, .of_memory _ fun _ => Table.free_continues ..,
        fun {id name} inside => ?_⟩
      · exact Nat.lt_of_lt_of_le (furnishes.present inside cell listed) keeps.size
      · have same : (givenBack (some table) machine).heap.named? id name =
            machine.heap.named? id name := by
          obtain ⟨cells, reserved, onHeap⟩ := furnishes.onHeap inside
          change ((machine.heap.scope id).index.slot? name).bind _ = _
          unfold Heap.named?
          refine Option.bind_congr fun slot _ => ?_
          change (machine.heap.scope id).members.cell? slot _ = _
          rw [onHeap]
          rfl
        unfold Heap.named
        rw [same]
        cases found : machine.heap.named? id name with
        | none => rfl
        | some cell =>
            have listed := furnishes.mem_of_named? inside found
            exact keeps.cell (furnishes.old_of_named? inside found)
              (.inr ((aloof id inside).unnamed listed)) fun no => no

theorem bindArguments_error (held : List Handle) {scope : ScopeId}
    (refuses : definition.accepts (given.getD .empty).length = false) :
    bindArguments definition scope given held machine = .error
      (.failure { fault := arityMismatch definition (given.getD .empty).length })
      (givenBack given machine) := by
  rw [run_bindArguments]
  simp only [Table.length_values, refuses, Bool.false_eq_true, if_false]

theorem bindArguments_ok (held : List Handle) (furnishes : machine.heap.Furnishes scopes)
    (lands : ∀ permission, scopes (machine.heap.landing permission scope))
    (aloof : ∀ id, scopes id → (machine.heap.scope id).members.Aloof machine.heap.memory)
    (distinct : definition.argumentNames.Nodup)
    (free : machine.heap.Open scope (definition.params ++ definition.rest.toList))
    {values : List Value} (valued : (given.getD .empty).values machine.heap.memory = values)
    (accepts : definition.accepts values.length = true) :
    ∃ array after, bindArguments definition scope given held machine = .ok () after ∧
      (definition.rest.isSome = true →
        after.heap.elements array = values.drop definition.params.length) ∧
      Heap.Takes machine.heap scopes scope
        (definition.params.zip values ++ definition.rest.toList.map (·, .array array))
        after.heap := by
  have enough : definition.params.length ≤ values.length := enough_of_accepts accepts
  obtain ⟨furnishes', aligned, stays, same⟩ := givenBack_named given furnishes aloof
  have landing := fun permission => Heap.landing_aligned aligned permission scope
  have takes : Heap.Takes machine.heap scopes scope [] (givenBack given machine).heap :=
    (Heap.Takes.refl furnishes' fun permission => landing permission ▸ lands permission).since
      aligned stays same
  have split : definition.argumentNames =
      definition.params.map (·.name) ++ definition.rest.toList.map (·.name) := List.map_append
  rw [split] at distinct
  obtain ⟨heap, declared, -, takes⟩ := declareParams_ok held takes enough
    (by simpa using (List.nodup_append.mp distinct).1)
    fun declaration listed => free declaration (List.mem_append_left _ listed)
  rw [List.nil_append] at takes
  rw [run_bindArguments, valued]
  simp only [accepts, if_true, declared, andThen_ok]
  cases rest : definition.rest with
  | none =>
      refine ⟨⟨0⟩, _, rfl, fun some => ?_, ?_⟩
      · cases some
      · rw [Option.toList_none, List.map_nil, List.append_nil]
        exact takes
  | some declaration =>
      have names : (definition.params.zip values).map (·.1.name) =
          definition.params.map (·.name) := by
        rw [← List.map_fst_zip enough, List.map_map, List.map_fst_zip enough]
        rfl
      have new : declaration.name ∉ (definition.params.zip values).map (·.1.name) := fun listed =>
        (List.nodup_append.mp distinct).2.2 _ (names ▸ listed) _ (by simp [rest]) rfl
      have collected := heap.elements_newArray_self (values.drop definition.arity) false
      let collecting := (givenBack given machine).withHeap
        (heap.newArray (values.drop definition.arity) false).2
      have takes : Heap.Takes machine.heap scopes scope _ collecting.heap := takes.of_arrays _
      obtain ⟨after, declared, arrays, takes⟩ := declareMember_ok held takes new
        (free declaration (List.mem_append_right _ (by simp [rest])))
        (.array (heap.newArray (values.drop definition.arity) false).1)
      refine ⟨(heap.newArray (values.drop definition.arity) false).1, _, declared, fun _ =>
        ?_, takes⟩
      unfold Heap.elements Heap.array at collected ⊢
      change ((after.arrays.getD _ _).elements.toList) = _
      rw [arrays]
      exact collected

end Action

end ScopeMachine
