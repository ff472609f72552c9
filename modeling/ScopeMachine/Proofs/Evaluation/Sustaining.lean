import ScopeMachine.Proofs.Calls.ArgumentSteps
import ScopeMachine.Proofs.Evaluation.Regimes
import ScopeMachine.Proofs.Liveness.Evolution

namespace ScopeMachine

open ScopeMachine.Action

variable {Code : Type}

namespace Machine

variable {machine before after : Machine Code}

/-- What a machine that was sane has kept of functions and scopes later on. -/
structure Carries (before after : Machine Code) : Prop where
  sane : after.Sane
  size : before.heap.scopes.size ≤ after.heap.scopes.size
  function? : ∀ {id function}, before.heap.function? id = some function →
    after.heap.function? id = some function
  lasting : ∀ {id}, before.Lasting id → after.Lasting id
  scope : ∀ {id}, before.Lasting id → (before.heap.scope id).Evolves (after.heap.scope id)

def Sustains (before after : Machine Code) : Prop := before.Sane → before.Carries after

/-- A kind that no call has stays. -/
theorem Carries.kind (carries : before.Carries after) {id : ScopeId} (lasting : before.Lasting id)
    {kind : ScopeKind} (was : (before.heap.scope id).kind = kind)
    (uncalled : kind.variant ≠ .function) : (after.heap.scope id).kind = kind := by
  rw [(carries.scope lasting).kind_eq, was]
  rwa [Scope.variant, was]

private theorem index_lt_of_pooled {heap : Heap Code} {id : ScopeId}
    (pooled : (heap.scope id).pooled = true) : id.index < heap.scopes.size := by
  refine Nat.lt_of_not_le fun absent => ?_
  rw [Heap.scope_of_size_le absent] at pooled
  cases pooled

namespace Sustains

theorem refl (machine : Machine Code) : machine.Sustains machine :=
  fun sane => ⟨sane, Nat.le_refl _, id, id, fun _ => .refl _⟩

theorem trans {first second third : Machine Code} (left : first.Sustains second)
    (right : second.Sustains third) : first.Sustains third := by
  intro sane
  have former := left sane
  have latter := right former.sane
  exact ⟨latter.sane, Nat.le_trans former.size latter.size, latter.function? ∘ former.function?,
    latter.lasting ∘ former.lasting,
    fun lasting => (former.scope lasting).trans (latter.scope (former.lasting lasting))⟩

private theorem of_evolves (evolves : before.Sane → before.Evolves after)
    (blocks : before.Sane → ∀ {id}, after.Lists id →
      before.Lists id ∨ id.index < after.heap.scopes.size) : before.Sustains after := by
  intro sane
  have kept := evolves sane
  have old {id : ScopeId} (there : id.index < before.heap.scopes.size) :
      id.index < after.heap.scopes.size := Nat.lt_of_lt_of_le there kept.heap.size
  refine ⟨⟨kept.heap.continues.sound sane.sound, fun id pooled => ?_, fun {id} listed => ?_⟩,
    kept.heap.size, kept.heap.functions, kept.lasting, kept.scope⟩
  · rcases kept.pool pooled with earlier | listed | pooled
    · exact old (sane.pool_old id earlier)
    · exact old (sane.blocks_old listed)
    · exact old (index_lt_of_pooled pooled)
  · rcases blocks sane listed with earlier | there
    · exact old (sane.blocks_old earlier)
    · exact there

private theorem of_frames (evolves : before.Sane → before.Evolves after)
    (frames : after.frames = before.frames) : before.Sustains after := by
  refine of_evolves evolves fun _ {id} listed => .inl ?_
  unfold Lists at listed ⊢
  rwa [frames] at listed

theorem of_heap {heap : Heap Code}
    (evolves : machine.heap.memory.Sound → ∀ still, machine.heap.Evolves still heap) :
    machine.Sustains { machine with heap } :=
  of_frames (fun sane => .of_heap (evolves sane.sound)) rfl

private theorem of_memory {memory : Memory}
    (continues : machine.heap.memory.Sound → machine.heap.memory.Continues memory) :
    machine.Sustains (machine.withMemory memory) :=
  of_heap fun sound _ => .of_memory _ (continues sound)

end Sustains

private theorem setLine_sustains (machine : Machine Code) (line : Nat) :
    machine.Sustains (machine.modifyTop fun frame => { frame with line }) := by
  refine .of_evolves (fun _ => .modifyTop machine fun _ => rfl) fun _ {id} listed => .inl ?_
  obtain ⟨frame, member, listed⟩ := listed
  rcases FrameStack.mem_modifyTop member with ⟨top, earlier, rfl⟩ | earlier
  · exact ⟨top, earlier, listed⟩
  · exact ⟨frame, earlier, listed⟩

theorem allocateTable_sustains (held : List Handle) (machine : Machine Code) (size : Nat) :
    machine.Sustains (machineLeft (allocateTable size held machine)) := by
  obtain ⟨memory, continues, left⟩ := @allocateTable_evolves _ machine held size
  rw [left]
  exact .of_memory fun _ => continues

private theorem pooledScope_old
    (pool_old : ∀ id ∈ machine.pool, id.index < machine.heap.scopes.size)
    {held : List Handle} {scope : Scope} {id : ScopeId}
    (taken : pooledScope scope held machine = .ok id after) :
    id.index < after.heap.scopes.size := by
  rw [run_pooledScope] at taken
  cases pool : machine.pool with
  | nil =>
      rw [pool] at taken
      cases taken
      simp
  | cons first rest =>
      rw [pool] at taken
      cases taken
      have there := pool_old id (pool ▸ List.mem_cons_self)
      exact Nat.lt_of_lt_of_eq there (Heap.size_modifyScope ..).symm

private theorem allocateBlock_sustains (held : List Handle) (machine : Machine Code)
    (previous : ScopeId)
    (index : Index) : machine.Sustains
    (machineLeft (allocateBlock previous index held machine)) := by
  refine .of_evolves (fun sane => allocateBlock_evolves sane.sound held previous index)
    fun sane {id} listed => ?_
  rw [run_allocateBlock] at listed ⊢
  split at listed
  next captured =>
    rw [if_pos captured]
    exact .inl listed
  next uncaptured =>
    rw [if_neg uncaptured]
    obtain ⟨memory, continues, left⟩ := @allocateTable_evolves _ machine held index.size
    cases made : allocateTable index.size held machine with
    | error abort middle =>
        rw [made] at left listed
        cases left
        exact .inl listed
    | ok members middle =>
        rw [made] at left listed
        cases left
        rw [andThen_ok] at listed ⊢
        obtain ⟨block, after, taken, -, frames, -⟩ := @pooledScope_evolves _
          { machine with heap := { machine.heap with memory } } held
          ⟨some previous, index, members, .basic, true⟩
        have old := @pooledScope_old _ (machine.withMemory memory) _ sane.pool_old _ _ _ taken
        rw [taken] at listed ⊢
        obtain ⟨frame, member, listed⟩ := listed
        change frame ∈ (after.frames.modifyTop _).toList at member
        rw [frames] at member
        rcases FrameStack.mem_modifyTop member with ⟨top, earlier, rfl⟩ | earlier
        · rcases List.mem_append.mp listed with listed | new
          · exact .inl ⟨top, earlier, listed⟩
          · exact .inr (List.mem_singleton.mp new ▸ old)
        · exact .inl ⟨frame, earlier, listed⟩

private theorem annotate_sustains (machine : Machine Code) (failure : Failure) :
    machine.Sustains (machine.annotate failure).2 := by
  unfold annotate
  split
  next => exact .refl _
  next =>
    dsimp only
    split
    next => exact .of_heap fun _ _ => .of_scopes rfl rfl fun found => found
    next => exact .refl _

private theorem closeFrame_sustains (machine : Machine Code) (held : List Handle) :
    machine.Sustains (machine.closeFrame held) := by
  refine .of_evolves (fun sane => closeFrame_evolves sane.sound held) fun _ {id} listed => .inl ?_
  unfold closeFrame at listed
  cases popped : machine.frames.pop? with
  | none =>
      rw [popped] at listed
      exact listed
  | some frames =>
      obtain ⟨top, outer⟩ := frames
      rw [popped] at listed
      obtain ⟨frame, member, block⟩ := listed
      change frame ∈ (releaseBlocks held top.blocks
        { machine with frames := outer }).frames.toList at member
      rw [frames_releaseBlocks] at member
      exact ⟨frame, FrameStack.toList_of_pop? popped ▸ List.mem_cons_of_mem _ member, block⟩

private theorem releaseScope_sustains (machine : Machine Code) (held : List Handle) (id : ScopeId) :
    machine.Sustains (machine.releaseScope held id) := by
  refine .of_frames (fun sane => releaseScope_evolves sane.sound held id) ?_
  unfold releaseScope
  dsimp only
  split
  next => rfl
  next => split <;> rfl

end Machine

open Machine

namespace Action

theorem mapArguments_sustains (definition : Definition Code) (arguments : Table)
    (held : List Handle) (machine : Machine Code) :
    machine.Sustains (machineLeft (mapArguments definition arguments held machine)) := by
  have settled (sound : machine.heap.memory.Sound) :
      machine.heap.memory.Continues (arguments.settled definition machine.heap.memory).2 := by
    unfold Table.settled
    split
    next => exact (Table.safeCopy_draws sound arguments).1.continues
    next => exact .refl ..
  rw [run_mapArguments]
  generalize arguments.settled definition machine.heap.memory = result at settled ⊢
  obtain ⟨table, memory⟩ := result
  have moved : machine.Sustains (machine.withMemory memory) := .of_memory settled
  dsimp only
  split
  next =>
    split
    next =>
      let made := (machine.withMemory memory).heap.newArray (table.trailing definition memory) false
      have collected : machine.Sustains ((machine.withMemory memory).withHeap made.2) :=
        moved.trans (.of_heap fun _ _ => Heap.newArray_evolves ..)
      refine collected.trans (.of_memory fun sound => ?_)
      have cut := @Table.truncate_draws memory machine.host.shares table definition.arity
      exact cut.continues.trans (Table.push_draws (cut.continues.sound sound) ..).continues
    next => exact moved
  next => exact moved.trans (.of_memory fun _ => Table.free_continues ..)

theorem allocateCallScope_sustains (previous : ScopeId) (index : Index) (members : Table)
    (invocation : Invocation) (held : List Handle) (machine : Machine Code) :
    machine.Sustains
      (machineLeft (allocateCallScope previous index members invocation held machine)) := by
  refine .of_frames
    (fun sane => allocateCallScope_evolves sane.sound held previous index members invocation) ?_
  unfold allocateCallScope
  rw [run_bind, run_onMemory, andThen_ok]
  dsimp only
  rw [run_ite]
  split
  next =>
    obtain ⟨id, after, taken, -, frames, -⟩ := pooledScope_evolves held _
    rw [taken]
    exact frames
  next => rfl

/-- All that evaluations do keeps functions and scopes. -/
theorem sustains_regime : Regime (Sustains : Machine Code → Machine Code → Prop) where
  refl := .refl
  trans := .trans
  deed {α step} deed machine := by
    refine .of_heap fun sound still => ?_
    have law := @Heap.evolves_law Code still
    cases deed with
    | lookup => exact law.lookup _ _ _ sound
    | ownMember => exact law.ownMember _ _ _ sound
    | member => exact law.member _ _ _ sound
    | createMember => exact law.createMember _ _ _ _ sound
    | assign => exact Heap.assign_evolves ..
    | install => exact Heap.modifyCell_evolves ..
    | newArray => exact Heap.newArray_evolves ..
    | newException => exact .of_scopes rfl rfl fun found => found
    | newFunction => exact Heap.newFunction_evolves ..
    | newScope => exact Heap.newScope_evolves ..
    | caught failure =>
        unfold Heap.caught
        split
        next => exact .refl _
        next =>
          split
          next => exact .refl _
          next => exact .of_scopes rfl rfl fun found => found
    | ofValues values => exact .of_memory _ (Table.ofValues_draws values).continues
  setLine := setLine_sustains
  freeTable table held machine := .of_memory fun _ => Table.free_continues ..
  allocateTable size held machine := allocateTable_sustains held machine size
  pushEach table values held machine :=
    .of_memory fun sound => (Table.pushEach_draws sound table values).continues
  allocateBlock previous index held machine := allocateBlock_sustains held machine previous index
  openFrame machine id file scope := by
    refine .of_evolves (fun _ => openFrame_evolves id file scope) fun _ {id} listed => .inl ?_
    obtain ⟨frame, member, listed⟩ := listed
    rcases List.mem_cons.mp member with rfl | member
    · cases listed
    · exact ⟨frame, member, listed⟩
  annotate := annotate_sustains
  closeFrame := closeFrame_sustains
  enterCall function id arguments receiver held machine := by
    unfold enterCall
    rw [run_bind]
    have mapped := mapArguments_sustains function.definition arguments held machine
    cases ran : mapArguments function.definition arguments held machine with
    | ok result middle =>
        rw [ran] at mapped
        exact mapped.trans (allocateCallScope_sustains _ _ result.1 _ held middle)
    | error abort middle =>
        rw [ran] at mapped
        exact mapped
  releaseScope := releaseScope_sustains

end Action

end ScopeMachine
