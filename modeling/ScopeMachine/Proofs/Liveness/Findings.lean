import ScopeMachine.Proofs.Liveness.Secrets

namespace ScopeMachine.Heap

variable {Code : Type} {heap before middle after : Heap Code}

/-- A heap on which operations on members have worked: every scope is there as it was. -/
structure Settles (before after : Heap Code) : Prop where
  evolves : before.Evolves (fun _ => True) after
  size : after.scopes.size = before.scopes.size
  functions : after.functions = before.functions

namespace Settles

variable (settles : before.Settles after)

include settles

private theorem draws {id : ScopeId} {cell : CellId}
    (holds : (after.scope id).holds (.cell cell) = true) :
    (before.scope id).holds (.cell cell) = true ∨ before.memory.Offers after.memory cell := by
  by_cases old : id.index < before.scopes.size
  · exact settles.evolves.holds old trivial holds
  · rw [scope_of_size_le (settles.size ▸ Nat.le_of_not_lt old)] at holds
    exact nomatch holds.symm.trans (scope_default_holds _)

private theorem target (id : ScopeId) :
    (after.scope id).kind.target? = (before.scope id).kind.target? := by
  by_cases old : id.index < before.scopes.size
  · exact (settles.evolves.scope old trivial).target
  · rw [scope_of_size_le (settles.size ▸ Nat.le_of_not_lt old),
      scope_of_size_le (Nat.le_of_not_lt old)]

private theorem kind {id : ScopeId} (uncalled : (before.scope id).variant ≠ .function) :
    (after.scope id).kind = (before.scope id).kind := by
  by_cases old : id.index < before.scopes.size
  · exact (settles.evolves.scope old trivial).kind_eq uncalled
  · rw [scope_of_size_le (settles.size ▸ Nat.le_of_not_lt old),
      scope_of_size_le (Nat.le_of_not_lt old)]

theorem forked (id : ScopeId) : after.forked id = before.forked id := by
  unfold Heap.forked
  rw [settles.size]
  generalize before.scopes.size = budget
  induction budget generalizing id with
  | zero => rfl
  | succ budget induction =>
      have target := settles.target id
      unfold forkedWithin
      cases kind : (after.scope id).kind <;> cases kind' : (before.scope id).kind <;>
        rw [kind, kind'] at target <;> first | rfl | cases target
      exact induction _

end Settles

theorem settles_law :
    Law fun before after : Heap Code => before.memory.Sound → before.Settles after where
  refl heap _ := ⟨.refl heap, rfl, rfl⟩
  trans left right sound := by
    have first := left sound
    have second := right (first.evolves.continues.sound sound)
    exact ⟨first.evolves.trans sound second.evolves, second.size.trans first.size,
      second.functions.trans first.functions⟩
  slotCell _ id slot sound :=
    ⟨evolves_law.slotCell _ id slot sound, sameScopes_law.slotCell .., rfl⟩
  trailingCell kind sound :=
    ⟨evolves_law.trailingCell kind sound, sameScopes_law.trailingCell kind,
      sameFunctions_law.trailingCell kind⟩
  insertName heap id name permission sound :=
    ⟨evolves_law.insertName heap id name permission sound, sameScopes_law.insertName .., rfl⟩
  newCell heap cell sound := ⟨evolves_law.newCell heap cell sound, rfl, rfl⟩
  modifyCell heap id change sound := ⟨evolves_law.modifyCell heap id change sound, rfl, rfl⟩

private theorem lineageWithin_congr (functions : after.functions = before.functions) (budget : Nat)
    (id : FunctionId) : after.lineageWithin budget id = before.lineageWithin budget id := by
  induction budget generalizing id with
  | zero => rfl
  | succ budget induction =>
      have same : after.function? id = before.function? id := by
        unfold function?
        rw [functions]
      unfold lineageWithin
      rw [same]
      cases before.function? id with
      | none => rfl
      | some function =>
          dsimp only
          split
          next parent _ => rw [induction parent]
          next => rfl

structure Finding (heap : Heap Code) (among : ScopeId → Prop)
    (outcome : Option CellId × Heap Code) : Prop where
  origin : ∀ {cell}, outcome.1 = some cell →
    (∃ id, among id ∧ (heap.scope id).holds (.cell cell) = true) ∨
      heap.memory.Offers outcome.2.memory cell

namespace Finding

variable {among among' : ScopeId → Prop}

private theorem none (heap after : Heap Code) : heap.Finding among (.none, after) :=
  ⟨nofun⟩

theorem mono {outcome : Option CellId × Heap Code} (finding : heap.Finding among outcome)
    (more : ∀ {id}, among id → among' id) : heap.Finding among' outcome :=
  ⟨fun found => (finding.origin found).imp_left fun ⟨id, listed, holds⟩ =>
    ⟨id, more listed, holds⟩⟩

private theorem earlier {outcome : Option CellId × Heap Code}
    (finding : middle.Finding among outcome)
    (sound : before.memory.Sound) (settles : before.Settles middle)
    (later : middle.memory.Continues outcome.2.memory) : before.Finding among outcome := by
  refine ⟨fun {cell} found => ?_⟩
  rcases finding.origin found with ⟨id, listed, holds⟩ | offered
  · rcases settles.draws holds with earlier | offered
    · exact .inl ⟨id, listed, earlier⟩
    · exact .inr (offered.later later)
  · exact .inr (offered.earlier settles.evolves.continues sound later)

private theorem orElse {among : ScopeId → Prop} {found : Option CellId × Heap Code}
    {next : Heap Code → Option CellId × Heap Code} (sound : heap.memory.Sound)
    (settles : heap.Settles found.2) (first : heap.Finding among found)
    (further : found.2.memory.Sound →
      found.2.Settles (next found.2).2 ∧ found.2.Finding among (next found.2)) :
    heap.Finding among (orElse found next) := by
  obtain ⟨_ | cell, middle⟩ := found
  · obtain ⟨later, rest⟩ := further (settles.evolves.continues.sound sound)
    exact rest.earlier sound settles later.evolves.continues
  · exact first

end Finding

private theorem firstFound_finding {Place : Type}
    {ask : Place → Heap Code → Option CellId × Heap Code}
    {places : List Place} {among : ScopeId → Prop} (sound : heap.memory.Sound)
    (settles : ∀ place (heap : Heap Code), heap.memory.Sound → heap.Settles (ask place heap).2)
    (each : ∀ place ∈ places, ∀ {later}, later.memory.Sound → heap.Settles later →
      later.Finding among (ask place later)) :
    heap.Finding among (firstFound ask places heap) := by
  have settled := firstFound_keeps (fun before after => before.memory.Sound → before.Settles after)
    settles_law.refl settles_law.trans settles
  induction places generalizing heap with
  | nil => exact .none ..
  | cons place others induction =>
      have first := settles place heap sound
      have here := each place List.mem_cons_self sound (settles_law.refl heap sound)
      refine .orElse sound first here fun sound' => ⟨settled others _ sound', ?_⟩
      refine induction sound' fun other listed later sound'' further => ?_
      exact each other (List.mem_cons_of_mem _ listed) sound''
        (settles_law.trans (fun _ => first) (fun _ => further) sound)

private theorem slotCell_finding (sound : heap.memory.Sound) (id : ScopeId) (slot : Nat) :
    (heap.scope id).holds (.cell (heap.slotCell id slot).1) = true ∨
      heap.memory.Offers (heap.slotCell id slot).2.memory (heap.slotCell id slot).1 :=
  (Table.cellAt_offers sound (heap.scope id).members slot).imp_left holds_cell_of_mem

private theorem trailingCell_finding {id : ScopeId} {invocation : Invocation}
    (kind : (heap.scope id).kind = .function invocation) :
    (heap.scope id).holds (.cell (heap.trailingCell id invocation).1) = true ∨
      heap.memory.Offers (heap.trailingCell id invocation).2.memory
        (heap.trailingCell id invocation).1 := by
  unfold trailingCell
  split
  next bound =>
    refine .inl ?_
    simp [Scope.holds, kind, ScopeKind.holds, bound, Handle.isCell]
  next =>
    refine .inr (.inr ⟨Nat.le_refl _, ?_⟩)
    simp [newCell, Memory.new, newArray, modifyScope]

private theorem storedMember_finding (sound : heap.memory.Sound) (id : ScopeId) (name : String) :
    heap.Finding (· = id) (heap.storedMember id name) := by
  unfold storedMember
  dsimp only
  split
  next slot _ _ =>
    refine ⟨fun {cell} found => ?_⟩
    have own := slotCell_finding sound id slot
    dsimp only at found
    split at found
    next => cases found
    next =>
      obtain rfl := Option.some.inj found
      exact own.imp_left fun holds => ⟨id, rfl, holds⟩
  next invocation kind _ =>
    split
    next =>
      refine ⟨fun {cell} found => ?_⟩
      obtain rfl := Option.some.inj found
      exact (trailingCell_finding kind).imp_left fun holds => ⟨id, rfl, holds⟩
    next => exact .none ..
  next =>
    refine ⟨fun {cell} found => ?_⟩
    obtain ⟨named, -⟩ := Option.filter_eq_some_iff.mp found
    cases members : (heap.scope id).members with
    | onHeap cells reserved =>
        rw [members] at named
        refine .inl ⟨id, rfl, holds_cell_of_mem ?_⟩
        rw [members]
        exact Table.mem_heapCells.mpr ⟨_, named⟩
    | inArena slice length =>
        rw [members] at named
        exact .inr (.inl ⟨_, (Table.peek_of_cell? named).2⟩)
  next => exact .none ..

theorem ownMember_finding (sound : heap.memory.Sound) (id : ScopeId) (name : String) :
    heap.Finding (· = heap.forked id) (heap.ownMember id name) :=
  storedMember_finding sound ..

private theorem lookupAlong_finding (sound : heap.memory.Sound) (name : String)
    (chain : List ScopeId) :
    heap.Finding (fun id => ∃ outer ∈ chain, id = heap.forked outer)
      (heap.lookupAlong name chain) :=
  firstFound_finding sound (fun id heap => settles_law.ownMember heap id name)
    fun id listed _ sound settles => (ownMember_finding sound id name).mono fun same =>
      ⟨id, listed, same.trans (settles.forked id)⟩

theorem lookup_finding (sound : heap.memory.Sound) (id : ScopeId) (name : String) :
    heap.Finding (fun found => ∃ outer ∈ heap.chain id, found = heap.forked outer)
      (heap.lookup id name) :=
  lookupAlong_finding sound ..

def Statics (heap : Heap Code) (functions : List FunctionId) (id : ScopeId) : Prop :=
  ∃ maker ∈ functions, ∃ function, heap.function? maker = some function ∧
    ∃ scope, function.statics = some scope ∧ id = heap.forked scope

private theorem Settles.statics (settles : before.Settles after) {functions : List FunctionId}
    {id : ScopeId} (statics : after.Statics functions id) : before.Statics functions id := by
  obtain ⟨maker, listed, function, found, scope, given, rfl⟩ := statics
  unfold function? at found
  rw [settles.functions] at found
  exact ⟨maker, listed, function, found, scope, given, settles.forked scope⟩

private theorem Statics.more {functions functions' : List FunctionId} {id : ScopeId}
    (statics : heap.Statics functions id) (more : functions ⊆ functions') :
    heap.Statics functions' id := by
  obtain ⟨maker, listed, known⟩ := statics
  exact ⟨maker, more listed, known⟩

private theorem staticMember_finding (sound : heap.memory.Sound) (id : FunctionId) (name : String) :
    heap.Finding (heap.Statics [id]) (heap.staticMember id name) := by
  unfold staticMember
  split
  next => exact .none ..
  next scope found =>
    obtain ⟨function, known, statics⟩ := Option.bind_eq_some_iff.mp found
    exact (ownMember_finding sound scope name).mono fun same =>
      ⟨id, List.mem_singleton_self id, function, known, scope, statics, same⟩

private theorem firstStatic_finding (sound : heap.memory.Sound) (name : String)
    (functions : List FunctionId) :
    heap.Finding (heap.Statics functions) (heap.firstStatic name functions) :=
  firstFound_finding sound (fun id heap => settles_law.staticMember heap id name)
    fun id listed _ sound settles => (staticMember_finding sound id name).mono fun statics =>
      (settles.statics statics).more (List.cons_subset.mpr ⟨listed, List.nil_subset _⟩)

private theorem scopeMember_finding (sound : heap.memory.Sound) (id : ScopeId) (name : String) :
    heap.Finding (fun found => found = heap.forked id ∨
      ∃ maker, (heap.ownMember id name).2.constructedBy? id = some maker ∧
        heap.Statics (heap.lineage maker).functions found) (heap.scopeMember id name) := by
  have own := ownMember_finding sound id name
  have settles := settles_law.ownMember heap id name sound
  refine Finding.orElse sound settles (own.mono .inl) fun sound' => ?_
  generalize (heap.ownMember id name).2 = middle at settles sound' ⊢
  unfold sharedMember
  split
  next maker constructed =>
    refine ⟨settles_law.firstStatic middle name _ sound', ?_⟩
    refine (firstStatic_finding sound' name _).mono fun {id} given => .inr ⟨maker, constructed, ?_⟩
    have lineage : middle.lineage maker = heap.lineage maker := by
      unfold Heap.lineage
      rw [settles.functions]
      exact lineageWithin_congr settles.functions _ maker
    rw [lineage] at given
    exact (settles.statics given).more fun _ => List.mem_reverse.mp
  next => exact ⟨settles_law.refl middle sound', .none ..⟩

theorem objectMember_finding (sound : heap.memory.Sound) {id : ScopeId} {maker : FunctionId}
    (kind : (heap.scope id).kind = .object (some maker)) (name : String) :
    heap.Finding (fun found => found = heap.forked id ∨
      heap.Statics (heap.lineage maker).functions found) (heap.scopeMember id name) := by
  have settles := settles_law.ownMember heap id name sound
  refine (scopeMember_finding sound id name).mono fun {found} given => ?_
  refine given.imp_right fun ⟨made, constructed, statics⟩ => ?_
  generalize (heap.ownMember id name).2 = middle at settles constructed
  have kind' : (middle.scope id).kind = .object (some maker) := by
    rw [settles.kind, kind]
    unfold Scope.variant
    rw [kind]
    nofun
  have same : made = maker := by
    unfold constructedBy? walk at constructed
    cases size : middle.scopes.size with
    | zero =>
        rw [size] at constructed
        cases constructed
    | succ budget =>
        rw [size, walkWithin, kind'] at constructed
        exact (Option.some.inj constructed).symm
  exact same ▸ statics

private theorem constant_finding (heap : Heap Code) (content : Value) :
    heap.Finding (fun _ => True)
      (some (heap.newCell (.constant content)).1, (heap.newCell (.constant content)).2) := by
  refine ⟨fun {cell} found => .inr (.inr ?_)⟩
  obtain rfl := Option.some.inj found
  simp [newCell, Memory.new]

theorem member_finding (sound : heap.memory.Sound) (value : Value) (name : String) :
    heap.Finding (fun _ => True) (heap.member value name) := by
  have anywhere {among : ScopeId → Prop} {outcome : Option CellId × Heap Code}
      (finding : heap.Finding among outcome) : heap.Finding (fun _ => True) outcome :=
    finding.mono fun _ => trivial
  unfold member
  cases value with
  | object scope => exact anywhere (scopeMember_finding sound scope name)
  | function function => exact anywhere (staticMember_finding sound function name)
  | exception id =>
      dsimp only
      split
      next => exact constant_finding ..
      next =>
        split
        next => exact constant_finding ..
        next => exact .none ..
  | array id =>
      dsimp only
      split
      next => exact constant_finding ..
      next => exact .none ..
  | text text =>
      dsimp only
      split
      next => exact constant_finding ..
      next => exact .none ..
  | _ => exact .none ..

variable {secrecy : Secrecy} {among : ScopeId → Prop} {outcome : Option CellId × Heap Code}

theorem Finding.present (finding : heap.Finding among outcome)
    (discreet : heap.Discreet secrecy) (later : heap.memory.Continues outcome.2.memory)
    {cell : CellId} (found : outcome.1 = some cell) :
    cell.index < outcome.2.memory.cells.size := by
  rcases finding.origin found with ⟨id, -, holds⟩ | offered
  · exact Nat.lt_of_lt_of_le (discreet.furnished holds) later.size
  · exact offered.present later discreet.sound

theorem Finding.misses (finding : heap.Finding among outcome) {watched : ScopeId → Prop}
    {owner : ScopeId} {cell : CellId} (secludes : heap.Secludes watched owner cell)
    (elsewhere : ∀ {id}, among id →
      id ≠ owner ∧ ((heap.scope id).variant ≠ .function ∨ watched id)) :
    outcome.1 ≠ some cell := by
  intro found
  rcases finding.origin found with ⟨id, listed, holds⟩ | offered
  · obtain ⟨apart, counts⟩ := elsewhere listed
    exact nomatch holds.symm.trans (secludes.unshared apart counts)
  · exact Nat.not_lt_of_le (offered.not_old secludes.unnamed) secludes.present

private theorem slotCell_present (discreet : heap.Discreet secrecy) (id : ScopeId) (slot : Nat) :
    (heap.slotCell id slot).1.index < (heap.slotCell id slot).2.memory.cells.size := by
  have continues := (settles_law.slotCell heap id slot discreet.sound).evolves.continues
  rcases slotCell_finding discreet.sound id slot with holds | offered
  · exact Nat.lt_of_lt_of_le (discreet.furnished holds) continues.size
  · exact offered.present continues discreet.sound

private theorem slotCell_holds (discreet : heap.Discreet secrecy) {id : ScopeId}
    (old : id.index < heap.scopes.size) (made : (heap.scope id).variant = .constructor)
    (slot : Nat) :
    ((heap.slotCell id slot).2.scope id).holds (.cell (heap.slotCell id slot).1) = true := by
  obtain ⟨-, listed, -⟩ := Table.cellAt_aside discreet.sound (discreet.aside made) slot
  refine holds_cell_of_mem ?_
  unfold slotCell
  dsimp only
  rw [scope_modifyScope_self]
  · exact listed
  · exact old

theorem createMember_present (discreet : heap.Discreet secrecy) (id : ScopeId) (name : String)
    (permission : Permission) :
    (heap.createMember id name permission).1.index <
      (heap.createMember id name permission).2.memory.cells.size := by
  unfold createMember
  generalize heap.landing permission id = target
  dsimp only
  generalize (heap.scope target).index.insert name permission = inserted
  have present := slotCell_present (setIndex_discreet discreet target inserted.2) target inserted.1
  generalize (heap.modifyScope target fun scope => { scope with index := inserted.2 }).slotCell
    target inserted.1 = made at present ⊢
  exact Nat.lt_of_lt_of_eq present Array.size_modify.symm

theorem createMember_holds (discreet : heap.Discreet secrecy) {id : ScopeId}
    (old : id.index < heap.scopes.size) (made : (heap.scope id).variant = .constructor)
    (name : String) {permission : Permission} (lands : heap.landing permission id = id) :
    ((heap.createMember id name permission).2.scope id).holds
      (.cell (heap.createMember id name permission).1) = true := by
  unfold createMember
  rw [lands]
  dsimp only
  generalize (heap.scope id).index.insert name permission = inserted
  have named := setIndex_discreet discreet id inserted.2
  have holds := slotCell_holds named ((size_modifyScope ..).symm ▸ old)
    ((scope_modifyScope_self old _).symm ▸ made) inserted.1
  generalize (heap.modifyScope id fun scope => { scope with index := inserted.2 }).slotCell
    id inserted.1 = made at holds ⊢
  exact holds

end ScopeMachine.Heap
