import ScopeMachine.Proofs.Evaluation.Sealing
import ScopeMachine.Proofs.Liveness.Evolution

namespace ScopeMachine

open Action Relation

namespace Machine

variable {Code : Type} {machine before after : Machine Code} {scope : ScopeId}

/-- The steps that scripts take. -/
inductive Acts (machine : Machine Code) : Machine Code → Prop where
  | heap {heap : Heap Code} (acts : machine.heap.Acts heap) : Acts machine (machine.withHeap heap)
  | setLine (line : Nat) : Acts machine (machine.modifyTop fun frame => { frame with line })
  | freeTable (table : Table) (held : List Handle) :
      Acts machine (machineLeft (freeTable table held machine))
  | allocateTable (size : Nat) (held : List Handle) :
      Acts machine (machineLeft (allocateTable size held machine))
  | pushEach (table : Table) (values : List Value) (held : List Handle) :
      Acts machine (machineLeft (Action.onMemory (table.pushEach values) held machine))
  | allocateBlock (previous : ScopeId) (index : Index) (held : List Handle) :
      Acts machine (machineLeft (allocateBlock previous index held machine))
  | openFrame (id file : String) (scope : ScopeId) : Acts machine (machine.openFrame id file scope)
  | annotate (failure : Failure) : Acts machine (machine.annotate failure).2
  | closeFrame (held : List Handle) : Acts machine (machine.closeFrame held)
  | enterCall (function : Function Code) (id : FunctionId) (arguments : Table)
      (receiver : Option Value) (held : List Handle) :
      Acts machine (machineLeft (enterCall function id arguments receiver held machine))
  | releaseScope (held : List Handle) (id : ScopeId) : Acts machine (machine.releaseScope held id)

abbrev Outlasts (scope : ScopeId) : Machine Code → Machine Code → Prop :=
  ReflTransGen fun before after => before.Acts after ∧ scope ∉ after.pool

private theorem andThen_leaves {α β : Type} {ending : Ending Code α}
    {next : α → Machine Code → Ending Code β}
    (first : before.heap.Leaves scope (machineLeft ending).heap)
    (second : ∀ result middle, ending = .ok result middle →
      middle.heap.Leaves scope (machineLeft (next result middle)).heap) :
    before.heap.Leaves scope (machineLeft (andThen ending next)).heap := by
  cases ending with
  | ok result middle => exact first.trans (second result middle rfl)
  | error abort middle => exact first

theorem allocateTable_leaves (held : List Handle) (size : Nat) :
    machine.heap.Leaves scope (machineLeft (Action.allocateTable size held machine)).heap ∧
      (machineLeft (Action.allocateTable size held machine)).pool = machine.pool := by
  obtain ⟨memory, -, left⟩ := @allocateTable_evolves _ machine held size
  rw [left]
  exact ⟨.of_eq rfl rfl, rfl⟩

private theorem pooledScope_leaves (out : scope ∉ machine.pool) (held : List Handle) (new : Scope) :
    machine.heap.Leaves scope (machineLeft (pooledScope new held machine)).heap := by
  rw [run_pooledScope]
  cases pool : machine.pool with
  | nil => exact .newScope machine.heap new
  | cons id rest =>
      refine .modifyScope machine.heap machine.heap.memory id fun same => ?_
      exact absurd (pool ▸ same ▸ List.mem_cons_self) out

private theorem allocateBlock_leaves (out : scope ∉ machine.pool) (held : List Handle)
    (previous : ScopeId) (index : Index) :
    machine.heap.Leaves scope (machineLeft (allocateBlock previous index held machine)).heap := by
  rw [run_allocateBlock]
  split
  next => exact .newScope ..
  next =>
    obtain ⟨leaves, pool⟩ := @allocateTable_leaves _ machine scope held index.size
    refine andThen_leaves leaves fun members middle made => ?_
    rw [made] at pool
    exact andThen_leaves (pooledScope_leaves (pool ▸ out) held _) fun id after _ => .of_eq rfl rfl

private theorem recycle_leaves {id : ScopeId} (apart : scope ≠ id) :
    machine.heap.Leaves scope (machine.recycle id).heap :=
  .modifyScope machine.heap machine.heap.memory id fun same => (apart same).elim

private theorem releaseBlocks_leaves (held : List Handle) (blocks : List ScopeId)
    (out : scope ∉ (releaseBlocks held blocks machine).pool) :
    machine.heap.Leaves scope (releaseBlocks held blocks machine).heap := by
  induction blocks generalizing machine with
  | nil => exact .refl _
  | cons first rest induction =>
      unfold releaseBlocks at out ⊢
      refine Heap.Leaves.trans ?_ (induction out)
      split
      next => exact .detach machine.heap first
      next idle =>
        refine recycle_leaves ?_
        rintro rfl
        rw [if_neg idle] at out
        exact out (pool_subset_releaseBlocks _ _ List.mem_cons_self)

private theorem closeFrame_leaves (held : List Handle)
    (out : scope ∉ (machine.closeFrame held).pool) :
    machine.heap.Leaves scope (machine.closeFrame held).heap := by
  unfold closeFrame at out ⊢
  cases popped : machine.frames.pop? with
  | none => exact .refl _
  | some frames =>
      obtain ⟨top, outer⟩ := frames
      rw [popped] at out
      exact (@releaseBlocks_leaves _ { machine with frames := outer } scope held top.blocks
        out).trans
        (.of_eq rfl rfl)

private theorem releaseScope_leaves (held : List Handle) (id : ScopeId)
    (out : scope ∉ (machine.releaseScope held id).pool) :
    machine.heap.Leaves scope (machine.releaseScope held id).heap := by
  unfold releaseScope at out ⊢
  dsimp only at out ⊢
  split
  next => exact .refl _
  next lasts =>
    rw [if_neg lasts] at out
    split
    next => exact .detach machine.heap id
    next idle =>
      rw [if_neg idle] at out
      refine (recycle_leaves ?_).trans (.of_eq rfl rfl)
      rintro rfl
      exact out List.mem_cons_self

private theorem annotate_leaves (failure : Failure) :
    machine.heap.Leaves scope (machine.annotate failure).2.heap := by
  unfold annotate
  split
  next => exact .refl _
  next =>
    dsimp only
    split
    next => exact .of_eq rfl rfl
    next => exact .refl _

theorem mapArguments_leaves (definition : Definition Code) (arguments : Table)
    (held : List Handle) :
    machine.heap.Leaves scope
        (machineLeft (mapArguments definition arguments held machine)).heap ∧
      (machineLeft (mapArguments definition arguments held machine)).pool = machine.pool := by
  rw [run_mapArguments]
  generalize arguments.settled definition machine.heap.memory = result
  obtain ⟨table, memory⟩ := result
  dsimp only
  split
  next =>
    split
    next =>
      have collected : machine.heap.Leaves scope
          (machine.heap.newArray (table.trailing definition memory) false).2 := .newArray ..
      exact ⟨collected.trans (.of_eq rfl rfl), rfl⟩
    next => exact ⟨.of_eq rfl rfl, rfl⟩
  next => exact ⟨.of_eq rfl rfl, rfl⟩

private theorem allocateCallScope_leaves (out : scope ∉ machine.pool) (previous : ScopeId)
    (index : Index)
    (members : Table) (invocation : Invocation) (held : List Handle) :
    machine.heap.Leaves scope
      (machineLeft (allocateCallScope previous index members invocation held machine)).heap := by
  unfold allocateCallScope
  rw [run_bind, run_onMemory, andThen_ok]
  generalize members.ensureCapacity index.size machine.heap.memory = grown
  have moved : machine.heap.Leaves scope (machine.withMemory grown.2).heap := .of_eq rfl rfl
  refine moved.trans ?_
  dsimp only
  rw [run_ite]
  split
  next => exact @pooledScope_leaves _ (machine.withMemory grown.2) scope out held _
  next => exact .newScope ..

private theorem enterCall_leaves (out : scope ∉ machine.pool) (function : Function Code)
    (id : FunctionId)
    (arguments : Table) (receiver : Option Value) (held : List Handle) :
    machine.heap.Leaves scope
      (machineLeft (enterCall function id arguments receiver held machine)).heap := by
  obtain ⟨leaves, pool⟩ :=
    @mapArguments_leaves _ machine scope function.definition arguments held
  unfold enterCall
  rw [run_bind]
  refine andThen_leaves leaves fun result middle mapped => ?_
  rw [mapped] at pool
  exact allocateCallScope_leaves (pool ▸ out) _ _ result.1 _ held

private theorem Acts.seals (acts : before.Acts after) (out : scope ∉ before.pool)
    (out' : scope ∉ after.pool) : before.heap.Seals scope after.heap := by
  cases acts with
  | heap acts => exact acts.seals
  | setLine line => exact .refl _
  | freeTable table held => exact .of_memory _ (Table.free_seals table before.heap.memory _)
  | allocateTable size held =>
      exact .of_leaves (before.allocateTable_seals held size) (allocateTable_leaves held size).1
  | pushEach table values held =>
      exact .of_memory _ (Table.pushEach_seals table before.heap.memory values)
  | allocateBlock previous index held =>
      exact .of_leaves (before.allocateBlock_seals held previous index)
        (allocateBlock_leaves out held previous index)
  | openFrame id file scope =>
      exact .of_leaves (before.openFrame_seals id file scope) (.of_eq rfl rfl)
  | annotate failure =>
      exact .of_leaves (.of_eq (before.memory_annotate failure)) (annotate_leaves failure)
  | closeFrame held => exact .of_leaves (before.closeFrame_seals held) (closeFrame_leaves held out')
  | enterCall function id arguments receiver held =>
      exact .of_leaves (enterCall_seals function id arguments receiver held before)
        (enterCall_leaves out function id arguments receiver held)
  | releaseScope held id =>
      exact .of_leaves (before.releaseScope_seals held id) (releaseScope_leaves held id out')

theorem Outlasts.out (outlasts : Outlasts scope before after) (out : scope ∉ before.pool) :
    scope ∉ after.pool := by
  cases outlasts with
  | refl => exact out
  | tail _ step => exact step.2

theorem Outlasts.seals (outlasts : Outlasts scope before after) (out : scope ∉ before.pool) :
    before.heap.Seals scope after.heap ∧ scope ∉ after.pool := by
  induction outlasts with
  | refl => exact ⟨.refl _, out⟩
  | tail _ step induction =>
      obtain ⟨seals, out⟩ := induction
      exact ⟨seals.trans (step.1.seals out step.2), step.2⟩

end Machine

end ScopeMachine
