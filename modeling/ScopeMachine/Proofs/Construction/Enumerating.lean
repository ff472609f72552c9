import ScopeMachine.Proofs.Calls.Binding
import ScopeMachine.Proofs.Construction.Redeclaring
import ScopeMachine.Proofs.Evaluation.Handling
import ScopeMachine.Proofs.Frames.Deeds
import ScopeMachine.Proofs.Storage.Elsewhere

/-!
The members of an object by name. Whatever is declared in the object and whatever becomes of its
cells, the names that it lists are those that it resolves, in the order of their slots.
-/

namespace ScopeMachine

namespace Heap

variable {Code : Type} {base heap : Heap Code} {id : ScopeId} {name : String}

namespace Beside

private theorem setIndex (beside : Beside id base heap) (index : Index) :
    Beside id base (heap.modifyScope id fun scope => { scope with index }) := by
  have aligned := setIndex_aligned heap id index
  exact ⟨aligned.size.trans beside.size,
    fun apart => (scope_modifyScope_ne apart ..).trans (beside.scope apart),
    (aligned.kind id).trans beside.kind, (aligned.previous id).trans beside.previous,
    beside.arena, beside.cells, beside.cell, beside.arrays⟩

private theorem slotCell (beside : Beside id base heap) {cells : Array CellId}
    {reserved : Option Slice}
    (table : (heap.scope id).members = .onHeap cells reserved) (slot : Nat) :
    Beside id base (heap.slotCell id slot).2 := by
  have aligned := slotCell_aligned heap id slot
  obtain ⟨reached, cells', memory, same, grown⟩ :=
    Table.exists_grown cells reserved slot heap.memory
  have made : (heap.slotCell id slot).2.memory = memory := by
    unfold Heap.slotCell
    rw [table, same]
    rfl
  have arena : memory.arena = heap.memory.arena := by
    rw [Table.cellAt_onHeap] at same
    split at same
    next => cases same; rfl
    next =>
      rw [Memory.newAll_eq] at same
      cases same
      rfl
  refine ⟨aligned.size.trans beside.size,
    fun apart => (scope_modifyScope_ne apart ..).trans (beside.scope apart),
    (aligned.kind id).trans beside.kind, (aligned.previous id).trans beside.previous,
    ?_, ?_, fun {cell} old => ?_, beside.arrays⟩
  · rw [made]
    exact arena.trans beside.arena
  · rw [made]
    exact Nat.le_trans beside.cells grown.confined.size
  · have present : cell.index < heap.memory.cells.size := Nat.lt_of_lt_of_le old beside.cells
    refine Eq.trans ?_ (beside.cell old)
    unfold Heap.cell
    rw [made]
    exact grown.confined.cell present (fun no => no) fun _ no => no.elim

private theorem modifyCell (beside : Beside id base heap) {cell : CellId}
    (fresh : base.memory.cells.size ≤ cell.index) (change : Cell → Cell) :
    Beside id base (heap.modifyCell cell change) := by
  refine ⟨beside.size, beside.scope, beside.kind, beside.previous, beside.arena,
    le_of_le_of_eq beside.cells (Memory.size_modifyCell ..).symm, fun {other} old => ?_,
    beside.arrays⟩
  refine (Memory.cell_modifyCell_ne (fun same => ?_) ..).trans (beside.cell old)
  exact Nat.not_lt_of_le fresh (same ▸ old)

end Beside

private theorem createMember_within (furnishes : heap.Furnishes (· = id)) {permission : Permission}
    (lands : heap.landing permission id = id) (beside : Beside id base heap)
    (fresh : ∀ cell ∈ (heap.scope id).members.heapCells, base.memory.cells.size ≤ cell.index)
    (name : String) :
    let made := heap.createMember id name permission
    (made.2.scope id).index = ((heap.scope id).index.insert name permission).2 ∧
      Beside id base made.2 ∧
      ∀ cell ∈ (made.2.scope id).members.heapCells, base.memory.cells.size ≤ cell.index := by
  obtain ⟨created, reached, -⟩ := furnishes.createMember lands name
  dsimp only at *
  rw [lands] at reached
  have listed := created.mem_of_named? rfl reached
  unfold createMember at listed ⊢
  rw [lands] at listed ⊢
  dsimp only at listed ⊢
  obtain ⟨renamed, -⟩ := furnishes.rename rfl name permission rfl
  have here := scope_modifyScope_self (furnishes.old rfl) fun scope =>
    { scope with index := ((heap.scope id).index.insert name permission).2 }
  have known := Index.slot?_insert_self (heap.scope id).index name permission
  have beside := beside.setIndex ((heap.scope id).index.insert name permission).2
  generalize (heap.scope id).index.insert name permission = inserted at *
  generalize (heap.modifyScope id fun scope => { scope with index := inserted.2 }) = middle at *
  obtain ⟨cells, reserved, table⟩ := renamed.onHeap rfl
  have known : (middle.scope id).index.slot? name = some inserted.1 := by
    rw [here]
    exact known
  obtain ⟨widens, -⟩ := slotCell_widens (renamed.old rfl) table (Index.slot?_lt known)
  have fresh : ∀ cell ∈ ((middle.slotCell id inserted.1).2.scope id).members.heapCells,
      base.memory.cells.size ≤ cell.index := by
    intro cell listed
    obtain ⟨slot, found⟩ := Array.mem_iff_getElem?.mp listed
    rcases widens.origin found with old | ⟨-, -, rfl, -⟩
    · rw [here] at old
      exact fresh cell (Array.mem_of_getElem? old)
    · exact Nat.le_trans beside.cells (Nat.le_add_right ..)
  refine ⟨?_, (beside.slotCell table inserted.1).modifyCell (fresh _ listed) _, fresh⟩
  exact (widens.index id).trans (congrArg Scope.index here)

private theorem filterMap_getElem?_range {α : Type} (items : List α) :
    (List.range items.length).filterMap (items[·]?) = items := by
  induction items with
  | nil => rfl
  | cons item items induction =>
      rw [List.length_cons, List.range_succ_eq_map, List.filterMap_cons, List.filterMap_map]
      exact congrArg (item :: ·) induction

private theorem memberNames_eq (nodup : (heap.scope id).index.names.Nodup) :
    heap.memberNames id =
      (heap.scope id).index.names.filter fun name => (heap.declared? id name).isSome := by
  have shown : ((heap.scope id).index.names.filter fun name => (heap.declared? id name).isSome) =
      (List.range (heap.scope id).index.names.length).filterMap fun slot =>
        ((heap.scope id).index.names[slot]?).filter fun name =>
          (heap.declared? id name).isSome := by
    rw [← List.filter_filterMap, filterMap_getElem?_range]
  rw [shown, Index.length_names]
  unfold memberNames
  refine List.filterMap_congr fun slot _ => ?_
  rw [Index.nameAt?_eq]
  cases listed : (heap.scope id).index.names[slot]? with
  | none => split <;> simp
  | some name =>
      have declared : heap.declared? id name =
          ((heap.scope id).members.cell? slot heap.memory).filter
            fun cell => (heap.cell cell).isVisible := by
        unfold declared? named?
        rw [Index.slot?_of_names nodup listed, Option.bind_some]
      rw [Option.filter_some, declared]
      cases (heap.scope id).members.cell? slot heap.memory with
      | none => rfl
      | some cell =>
          rw [Option.filter_some]
          cases visible : (heap.cell cell).isVisible <;> simp [visible]

private theorem named?_of_retains {heap' : Heap Code} {cell : CellId}
    (furnishes : heap.Furnishes (· = id)) (furnishes' : heap'.Furnishes (· = id))
    (retains : heap.Retains heap') (found : heap.named? id name = some cell) :
    heap'.named? id name = some cell := by
  have stays := retains.scope id (furnishes.old rfl)
  rw [furnishes.named?_eq rfl] at found
  obtain ⟨slot, known, found⟩ := Option.bind_eq_some_iff.mp found
  rw [furnishes'.named?_eq rfl, stays.names known]
  exact stays.members.cells found

end Heap

/-- An object that members are declared in, with what the declarations have returned. -/
structure Roster (Code : Type) where
  heap : Heap Code
  given : List (String × CellId)

namespace Roster

variable {Code : Type}

/-- One thing done to an object: a declaration in it, or an act on a cell that one has returned. -/
inductive Act where
  | create (name : String) (permission : Permission)
  | use (number : Nat) (act : Cell.Act)

def step (id : ScopeId) (roster : Roster Code) : Act → Roster Code
  | .create name permission =>
      let (cell, heap) := roster.heap.createMember id name permission
      ⟨heap, roster.given ++ [(name, cell)]⟩
  | .use number act =>
      match roster.given[number]? with
      | none => roster
      | some (_, cell) =>
          { roster with
            heap := { roster.heap with memory := (roster.heap.memory.act cell act).2 } }

def run (id : ScopeId) (roster : Roster Code) (acts : List Act) : Roster Code :=
  acts.foldl (step id) roster

structure Lists (base : Heap Code) (id : ScopeId) (listed : List String) (roster : Roster Code) :
    Prop where
  furnishes : roster.heap.Furnishes (· = id)
  beside : base.Beside id roster.heap
  fresh : ∀ cell ∈ (roster.heap.scope id).members.heapCells,
    base.memory.cells.size ≤ cell.index
  names : (roster.heap.scope id).index.names = (listed ++ roster.given.map (·.1)).eraseDups
  given : ∀ {name : String} {cell : CellId}, (name, cell) ∈ roster.given ↔
    roster.heap.named? id name = some cell ∧ (roster.heap.cell cell).declared = true

namespace Lists

variable {base : Heap Code} {id : ScopeId} {listed : List String} {roster : Roster Code}

private theorem start {previous : Option ScopeId} {index : Index} {maker : Option FunctionId}
    (built : base.scope id = .onHeap previous index (.object maker))
    (names : index.names = listed.eraseDups) : Lists base id listed ⟨base, []⟩ := by
  have there : id.index < base.scopes.size := by
    refine Nat.lt_of_not_le fun absent => ?_
    rw [Heap.scope_of_size_le absent] at built
    cases congrArg Scope.kind built
  have table : (base.scope id).members = .empty := congrArg Scope.members built
  have bare : (base.scope id).members.heapCells = #[] := congrArg Table.heapCells table
  refine ⟨Heap.furnishes_of_empty there table, .refl id base, ?_, ?_, ?_⟩
  · intro cell listed
    rw [bare] at listed
    exact absurd listed (Array.not_mem_empty _)
  · rw [congrArg Scope.index built, List.map_nil, List.append_nil]
    exact names
  · intro name cell
    refine ⟨nofun, fun ⟨found, _⟩ => ?_⟩
    obtain ⟨slot, -, found⟩ := Option.bind_eq_some_iff.mp found
    rw [table] at found
    cases found

section

variable (lists : Lists base id listed roster) {maker : Option FunctionId}

include lists

private theorem create (object : (base.scope id).kind = .object maker) (name : String)
    (permission : Permission) :
    Lists base id listed (roster.step id (.create name permission)) := by
  have lands : roster.heap.landing permission id = id :=
    Heap.landingWithin_object (lists.beside.kind.trans object) ..
  obtain ⟨furnishes, reached, self, others⟩ := lists.furnishes.createMember lands name
  obtain ⟨index, beside, fresh⟩ :=
    Heap.createMember_within lists.furnishes lands lists.beside lists.fresh name
  have retains := Heap.retains_law.createMember roster.heap id name permission
  unfold step
  dsimp only at *
  rw [lands] at reached self
  generalize roster.heap.createMember id name permission = made at *
  obtain ⟨cell, heap⟩ := made
  dsimp only at *
  have declared : (heap.cell cell).declared = true := by
    rw [← Heap.named_of_named? reached, self]
    exact Cell.declared_declare ..
  have kept {name : String} {cell : CellId} (found : roster.heap.named? id name = some cell) :
      heap.named? id name = some cell :=
    Heap.named?_of_retains lists.furnishes furnishes retains found
  refine ⟨furnishes, beside, fresh, ?_, fun {name' cell'} => ?_⟩
  · rw [index, Index.names_insert, lists.names, List.map_append, List.map_singleton,
      ← List.append_assoc, eraseDups_concat]
  · by_cases renamed : name' = name
    · subst renamed
      constructor
      · intro mem
        rcases List.mem_append.mp mem with old | new
        · have again := kept (lists.given.mp old).1
          obtain rfl := Option.some.inj (again.symm.trans reached)
          exact ⟨reached, declared⟩
        · obtain ⟨-, rfl⟩ := Prod.mk.inj (List.mem_singleton.mp new)
          exact ⟨reached, declared⟩
      · rintro ⟨found, -⟩
        obtain rfl := Option.some.inj (found.symm.trans reached)
        exact List.mem_append_right _ List.mem_cons_self
    · have content : heap.named id name' = roster.heap.named id name' :=
        others rfl fun same => renamed (Prod.mk.inj same).2
      constructor
      · intro mem
        rcases List.mem_append.mp mem with old | new
        · obtain ⟨found, declared⟩ := lists.given.mp old
          refine ⟨kept found, ?_⟩
          rw [← Heap.named_of_named? (kept found), content, Heap.named_of_named? found]
          exact declared
        · exact absurd (Prod.mk.inj (List.mem_singleton.mp new)).1 renamed
      · rintro ⟨found, declared⟩
        rw [← Heap.named_of_named? found, content] at declared
        cases before : roster.heap.named? id name' with
        | none =>
            rw [Heap.named_of_none before] at declared
            cases declared
        | some old =>
            rw [Heap.named_of_named? before] at declared
            obtain rfl := Option.some.inj ((kept before).symm.trans found)
            exact List.mem_append_left _ (lists.given.mpr ⟨before, declared⟩)

private theorem use (number : Nat) (act : Cell.Act) :
    Lists base id listed (roster.step id (.use number act)) := by
  unfold step
  dsimp only
  split
  next => exact lists
  next name cell handed =>
    obtain ⟨named, declared⟩ := lists.given.mp (List.mem_of_getElem? handed)
    rw [Memory.act_eq]
    change Lists base id listed ⟨roster.heap.modifyCell cell act.after, roster.given⟩
    obtain ⟨furnishes, self, -⟩ := lists.furnishes.modifyCell rfl named act.after
    have fresh := lists.fresh cell (lists.furnishes.mem_of_named? rfl named)
    refine ⟨furnishes, lists.beside.modifyCell fresh _, lists.fresh, lists.names,
      fun {name' cell'} => ?_⟩
    have still : ((roster.heap.modifyCell cell act.after).cell cell').declared = true ↔
        (roster.heap.cell cell').declared = true := by
      by_cases same : cell' = cell
      · subst same
        rw [Heap.named_of_named? ((Heap.named?_modifyCell ..).trans named)] at self
        rw [self, Heap.named_of_named? named]
        exact iff_of_true (act.stands declared).declared declared
      · exact iff_of_eq (congrArg (fun cell : Cell => cell.declared = true)
          (Memory.cell_modifyCell_ne same roster.heap.memory act.after))
    rw [Heap.named?_modifyCell, still]
    exact lists.given

private theorem run (object : (base.scope id).kind = .object maker) (acts : List Act) :
    Lists base id listed (roster.run id acts) := by
  induction acts generalizing roster with
  | nil => exact lists
  | cons act acts induction =>
      cases act with
      | create name permission => exact induction (lists.create object name permission)
      | use number act => exact induction (lists.use number act)

end

end Lists

open Heap (Agrees)

/-- An object lists the names that it resolves, each once: first those of its shape, then others in
the order of their first declaration. A name stands for the one cell that its declarations return.
Whatever happens to the object, names stand for what they did in any other scope and, unless the
object encloses it, from there on outward. -/
theorem memberNames_exact (limits : Limits) (choice : GlobalChoice)
    (deeds : List (Workspace.Deed Code))
    {id : ScopeId} {previous : Option ScopeId} {maker : Option FunctionId} {view : View}
    {declarations : List Declaration} {captures : Bool}
    (built : ((Workspace.fresh limits choice).after deeds).machine.heap.scope id =
      .onHeap previous ((Shape.ofDeclarations declarations captures).table view) (.object maker))
    (acts : List Act) :
    let base := ((Workspace.fresh limits choice).after deeds).machine.heap
    let roster := (⟨base, []⟩ : Roster Code).run id acts
    let heap := roster.heap
    (heap.memberNames id).Nodup ∧
      heap.memberNames id =
        ((Shape.declarationsOf view declarations).map (·.name) ++
          roster.given.map (·.1)).eraseDups.filter
            (fun name => (heap.ownMember id name).1.isSome) ∧
      (∀ name, name ∈ heap.memberNames id ↔ (heap.ownMember id name).1.isSome = true) ∧
      (∀ name cell, (heap.ownMember id name).1 = some cell →
        (name, cell) ∈ roster.given ∧ ∀ other, (name, other) ∈ roster.given → other = cell) ∧
      ∀ other name,
        (base.forked other ≠ id →
          base.Agrees (base.ownMember other name) (heap.ownMember other name)) ∧
        ((∀ scope ∈ base.chain other, base.forked scope ≠ id) →
          base.Agrees (base.lookup other name) (heap.lookup other name)) := by
  intro base roster heap
  have object : (base.scope id).kind = .object maker := congrArg Scope.kind built
  have shaped : ((Shape.ofDeclarations declarations captures).table view).names =
      ((Shape.declarationsOf view declarations).map (·.name)).eraseDups := by
    cases view <;> exact Index.names_ofDeclarations ..
  have lists := (Lists.start built shaped).run object acts
  have detached := ((Workspace.fresh_detached limits choice).after deeds).machine
  have own (name : String) : (heap.ownMember id name).1 = heap.declared? id name :=
    congrArg Prod.fst (Heap.ownMember_object (lists.beside.kind.trans object) name)
  have listed := Heap.memberNames_eq (lists.names ▸ nodup_eraseDups _)
  rw [lists.names] at listed
  simp only [own]
  have bound {name : String} {cell : CellId} (found : heap.declared? id name = some cell) :
      (name, cell) ∈ roster.given := by
    obtain ⟨named, visible⟩ := Option.filter_eq_some_iff.mp found
    exact lists.given.mpr ⟨named, (Bool.and_eq_true _ _ ▸ visible).1⟩
  refine ⟨?_, listed, fun name => ?_, fun name cell found => ⟨bound found, fun other again => ?_⟩,
    fun other name => ⟨fun apart => ?_, fun apart => ?_⟩⟩
  · rw [listed]
    exact (nodup_eraseDups _).filter _
  · rw [listed, List.mem_filter, and_iff_right_iff_imp]
    intro some
    obtain ⟨cell, found⟩ := Option.isSome_iff_exists.mp some
    refine List.mem_eraseDups.mpr (List.mem_append_right _ ?_)
    exact List.mem_map.mpr ⟨_, bound found, rfl⟩
  · have named := (Option.filter_eq_some_iff.mp found).1
    exact Option.some.inj ((lists.given.mp again).1.symm.trans named)
  · exact (lists.beside.ownMember_agrees detached apart name).1
  · exact lists.beside.lookup_agrees detached apart name

def twin : Scope :=
  .onHeap (some ⟨1⟩)
    ((Shape.ofDeclarations [⟨"x", .publicTier⟩, ⟨"y", .publicTier⟩] false).table .all)
    (.object none)

/-- Two objects of one shape. -/
def paired : List (Workspace.Deed Unit) :=
  let twinned : Workspace.Deed Unit := .chore (.newScope twin.previous twin.index twin.kind)
  [twinned, twinned]

/-- A name that is not in the shape, the names of the shape in the other order, and one of them
struck out. -/
def reordering : List Act :=
  [.create "z" .publicTier, .create "y" .publicTier, .create "x" .const, .use 1 .invalidate,
    .use 0 (.assign "z" (.bool true)), .create "x" .privateTier]

theorem memberNames_exact_paired :
    let base := ((Workspace.fresh .default .empty).after paired).machine.heap
    let heap := ((⟨base, []⟩ : Roster Unit).run ⟨2⟩ reordering).heap
    heap.memberNames ⟨2⟩ = ["x", "z"] ∧ (heap.ownMember ⟨2⟩ "z").1.isSome = true ∧
      base.Agrees (base.lookup ⟨3⟩ "z") (heap.lookup ⟨3⟩ "z") := by
  intro base heap
  have names : heap.memberNames ⟨2⟩ = ["x", "z"] := by decide +kernel
  have apart : (base.chain ⟨3⟩).all (base.forked · != ⟨2⟩) = true := by decide +kernel
  have built : base.scope ⟨2⟩ = twin := by
    generalize made : (Workspace.fresh .default .empty : Workspace Unit).machine.heap = first
    have size : first.scopes.size = 2 := by
      rw [← made]
      decide +kernel
    have same : base = ((first.newScope twin).2.newScope twin).2 := by
      rw [← made]
      rfl
    have here : (first.newScope twin).1 = ⟨2⟩ := congrArg ScopeId.mk size
    have next : (⟨2⟩ : ScopeId) ≠ ((first.newScope twin).2.newScope twin).1 := by
      change (⟨2⟩ : ScopeId) ≠ ⟨(first.scopes.push twin).size⟩
      rw [Array.size_push, size]
      decide
    rw [same, Heap.scope_newScope_ne next, ← here]
    exact Heap.scope_newScope_self first twin
  obtain ⟨-, -, resolves, -, others⟩ := memberNames_exact .default .empty paired built reordering
  refine ⟨names, (resolves "z").mp ?_, (others ⟨3⟩ "z").2 fun scope listed => ?_⟩
  · exact names ▸ List.mem_cons_of_mem _ List.mem_cons_self
  · exact bne_iff_ne.mp (List.all_eq_true.mp apart scope listed)

end Roster

end ScopeMachine
