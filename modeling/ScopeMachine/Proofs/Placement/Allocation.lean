import ScopeMachine.Proofs.Calls.Mannerly
import ScopeMachine.Proofs.Placement.Stepping

namespace ScopeMachine

open Arena ScopeMachine.Action

namespace Machine

variable {Code : Type} {machine before after : Machine Code} {args args' : Table} {id : ScopeId}
  {scope : Scope}

/-- A scope came into use, and nothing else happened. -/
structure Takes (before : Machine Code) (id : ScopeId) (scope : Scope) (after : Machine Code) :
    Prop extends Occupies before id scope after where
  others : ∀ {other}, other ≠ id → after.heap.scope other = before.heap.scope other
  arrays : after.heap.arrays = before.heap.arrays
  exceptions : after.heap.exceptions = before.heap.exceptions
  functions : after.heap.functions = before.heap.functions
  limits : after.limits = before.limits
  global : after.global = before.global

theorem newScope_takes (tidy : machine.Tidy) (scope : Scope) :
    machine.Takes (machine.heap.newScope scope).1 scope
      (machine.withHeap (machine.heap.newScope scope).2) :=
  { newScope_occupies tidy scope with
    others := Heap.scope_newScope_ne
    arrays := rfl, exceptions := rfl, functions := rfl, limits := rfl, global := rfl }

theorem pooledScope_takes (tidy : machine.Tidy) (scope : Scope) (held : List Handle) :
    ∃ id after, pooledScope scope held machine = .ok id after ∧ machine.Takes id scope after := by
  rw [run_pooledScope]
  cases pool : machine.pool with
  | nil => exact ⟨_, _, rfl, newScope_takes tidy scope⟩
  | cons id rest =>
      exact ⟨_, _, rfl, { reuse_occupies tidy pool scope with
        others := fun apart => Heap.scope_modifyScope_ne apart _ _
        arrays := rfl, exceptions := rfl, functions := rfl, limits := rfl, global := rfl }⟩

private theorem Takes.steps (takes : before.Takes id scope after) (arranged : before.Arranged args)
    (next : after.heap.Arranged args')
    (sameView : ∀ other, other ≠ id → before.heap.SameView after.heap other) :
    Calm (fun other => other = id ∧ scope.pooled = true) before args' after := by
  have self := takes.scope
  have apart : ∀ {other}, before.Busy other → other ≠ id := fun busy same =>
    takes.idle (same ▸ busy)
  have busy : ∀ {other}, before.Busy other → after.Busy other :=
    fun {other} => takes.staysInFrame.spares.busy other
  have blocks : after.blocks = before.blocks := congrArg FrameStack.blockLists takes.frames
  refine ⟨⟨takes.staysInFrame.steady.orderly arranged.orderly, takes.staysInFrame.spares.tidy, next,
      fun {other} pooled => ?_⟩,
    ⟨fun {handle} present _ => ?_, fun {handle} present => ?_, fun used => ?_, fun {id} _ => ?_,
      fun {id} _ => ?_, fun {id _} => ?_, takes.global⟩,
    ⟨fun {id function} found => ?_, busy, fun used => ?_, fun {other} pooled => ?_,
      fun listed => blocks ▸ listed⟩, ?_, takes.limits⟩
  · by_cases same : other = id
    · exact same ▸ takes.busy
    · exact busy (arranged.busy (takes.others same ▸ pooled))
  · cases handle with
    | cell id => exact trivial
    | array id => exact congrArg (·.getD id.index default) takes.arrays
    | exception id => exact congrArg (·.getD id.index default) takes.exceptions
    | function id => exact congrArg (·[id.index]?) takes.functions
    | scope id => exact sameView id (apart present)
  · cases handle with
    | cell id => exact present
    | array id => exact Nat.lt_of_lt_of_eq present (congrArg Array.size takes.arrays.symm)
    | exception id => exact Nat.lt_of_lt_of_eq present (congrArg Array.size takes.exceptions.symm)
    | function id => exact Nat.lt_of_lt_of_eq present (congrArg Array.size takes.functions.symm)
    | scope id => exact busy present
  · rw [takes.others (apart used)]
    exact .refl _
  · exact congrArg ExceptionObject.cause (congrArg (·.getD id.index default) takes.exceptions)
  · exact congrArg (·.getD id.index default) takes.arrays
  · exact (congrArg (·[id.index]?) takes.functions).trans
  · exact (congrArg (·[id.index]?) takes.functions).trans found
  · rw [takes.others (apart used)]
    exact .refl _
  · by_cases same : other = id
    · exact .inr (.inr ⟨same, self ▸ same ▸ pooled⟩)
    · rw [takes.others same] at pooled
      exact .inl ⟨arranged.busy pooled, pooled⟩
  · simp only [Machine.capture, takes.frames]

/-- A scope on the heap without members. -/
theorem Takes.clear (takes : before.Takes id scope after) (arranged : before.Arranged args)
    {o : ScopeId → Prop} (unpooled : scope.pooled = false)
    (unbound : scope.kind.trailingCell? = none) (members : scope.members = .empty) :
    Calm o before args after := by
  have self := takes.scope
  obtain ⟨next, sameView⟩ := arranged.heap.clear takes.memory (fun _ => takes.others)
    (self ▸ unpooled) (self ▸ unbound) (self ▸ members)
  have steps := takes.steps arranged next sameView
  exact { steps with
    lasts := steps.lasts.mono fun taken => absurd (unpooled.symm.trans taken.2) nofun }

theorem Takes.place (takes : before.Takes id scope after) (arranged : before.Arranged args)
    (housed : scope.Housed) (unbound : scope.kind.trailingCell? = none)
    (members : scope.members = args) :
    Calm (fun other => other = id ∧ scope.pooled = true) before .empty after := by
  have self := takes.scope
  obtain ⟨next, sameView⟩ := arranged.heap.place takes.memory (fun _ => takes.others)
    (self ▸ housed) (self ▸ unbound) (self ▸ members)
  exact takes.steps arranged next sameView

private theorem Takes.joins (takes : before.Takes id scope after) (arranged : before.Arranged args)
    (framed : before.frames.isEmpty = false) (housed : scope.Housed)
    (unbound : scope.kind.trailingCell? = none) (members : scope.members = args)
    {o : ScopeId → Prop} :
    Calm o before .empty
      (after.modifyTop fun frame => { frame with blocks := frame.blocks ++ [id] }) := by
  obtain ⟨arranged', extension, lasts, capture, limits⟩ :=
    takes.place arranged housed unbound members
  have stays := takes.toOccupies.addBlock arranged.tidy framed
  obtain ⟨top, outer, shape, grown⟩ := FrameStack.blockLists_modifyTop_append id framed
  rw [← takes.frames] at grown
  have shape : before.blocks = top :: outer := shape
  have grown : (after.modifyTop fun frame => { frame with blocks := frame.blocks ++ [id] }).blocks =
      (top ++ [id]) :: outer := grown
  have known : after.blocks = top :: outer :=
    (congrArg FrameStack.blockLists takes.frames).trans shape
  refine ⟨⟨stays.steady.orderly arranged.orderly, stays.spares.tidy, arranged'.heap,
      arranged'.busy⟩,
    ⟨extension.kept, extension.present, extension.linked, extension.cause, extension.array,
      extension.function?, extension.global⟩,
    ⟨lasts.function?, lasts.busy, lasts.endures, fun {other} pooled => ?_,
      fun {other} listed => ?_⟩,
    ?_, limits⟩
  · rw [grown]
    rcases lasts.pooled pooled with earlier | listed | ⟨rfl, -⟩
    · exact .inl earlier
    · rw [known] at listed
      exact .inr (.inl (List.mem_append_left _ listed))
    · exact .inr (.inl (List.mem_append_right _ (.head _)))
  · rw [grown]
    rw [shape] at listed
    exact List.mem_append_left _ listed
  · refine Eq.trans ?_ capture
    simp only [Machine.capture, Machine.modifyTop, FrameStack.modifyTop]
    cases after.frames with
    | mk frames depth depth_eq => cases frames <;> rfl

/-- A fresh slice on its way. -/
theorem Arranged.allocate (arranged : machine.Arranged .empty) {o : ScopeId → Prop}
    {size offset : Nat} {arena : Arena}
    (allocated : machine.heap.memory.arena.allocate size = .ok (offset, arena)) :
    Calm o machine (.inArena ⟨offset, size⟩ 0)
      (machine.withMemory { machine.heap.memory with arena }) := by
  obtain ⟨rfl, -, rfl⟩ := Arena.allocate_eq_ok allocated
  exact arranged.workArgs (Arena.allocate_shifts allocated)
    (Table.allocate_alters arranged.heap.laid.clean size) False.elim (.refl _)

structure Blocks (previous : ScopeId) (index : Index) (before : Machine Code) (id : ScopeId)
    (after : Machine Code) : Prop where
  idle : ¬ before.Busy id
  busy : after.Busy id
  previous : (after.heap.scope id).previous = some previous
  index : (after.heap.scope id).index = index
  kind : (after.heap.scope id).kind = .basic
  content : ∀ slot, after.heap.contentAt id slot = .blank

theorem allocateBlock_steps (arranged : machine.Arranged .empty) {o : ScopeId → Prop}
    (held : List Handle) (previous : ScopeId) (index : Index) :
    match allocateBlock previous index held machine with
    | .ok id after => Calm o machine .empty after ∧ Blocks previous index machine id after
    | .error abort after => after = machine ∧
        ∃ size available capacity,
          abort = .failure { fault := .arenaExhausted size available capacity } := by
  rw [run_allocateBlock]
  by_cases off : (index.captures || machine.frames.isEmpty) = true
  · rw [if_pos off]
    have takes := newScope_takes arranged.tidy (.onHeap (some previous) index .basic)
    have self := takes.scope
    exact ⟨takes.clear arranged rfl rfl rfl, takes.idle, takes.busy,
      congrArg Scope.previous self, congrArg Scope.index self, congrArg Scope.kind self,
      fun slot => congrArg (·.members.content slot machine.heap.memory) self⟩
  · rw [if_neg off]
    have framed : machine.frames.isEmpty = false := by simp_all
    rw [run_allocateTable, if_neg (by rw [framed]; exact Bool.false_ne_true)]
    cases allocated : machine.heap.memory.arena.allocate index.size with
    | error fault =>
        obtain ⟨-, rfl⟩ := Arena.allocate_eq_error allocated
        exact ⟨rfl, _, _, _, rfl⟩
    | ok slice =>
        obtain ⟨offset, arena⟩ := slice
        have sliced := arranged.allocate (o := o) allocated
        obtain ⟨id, after, ran, takes⟩ := pooledScope_takes sliced.arranged.tidy
          ⟨some previous, index, .inArena ⟨offset, index.size⟩ 0, .basic, true⟩ held
        simp only [run_ofExcept, andThen_ok]
        erw [ran]
        have self := takes.scope
        refine ⟨sliced.trans (takes.joins sliced.arranged framed
            ⟨fun _ => ⟨_, _, rfl, Nat.le_refl _⟩, nofun, fun _ => .inl rfl⟩ rfl rfl),
          fun busy => takes.idle (sliced.lasts.busy busy), takes.busy,
          congrArg Scope.previous self, congrArg Scope.index self, congrArg Scope.kind self,
          fun slot => ?_⟩
        exact Table.content_of_cell?_none (congrArg (·.members.cell? slot after.heap.memory) self)

theorem Arranged.setLine (arranged : machine.Arranged args) {o : ScopeId → Prop} (line : Nat) :
    let after := machine.modifyTop fun frame => { frame with line }
    after.Arranged args ∧ machine.Extends (fun _ => False) after ∧ Lasts o machine after ∧
      after.capture = ⟨machine.capture.lines.modifyHead fun here => { here with line }⟩ := by
  intro after
  have stays := setLine_staysInFrame arranged.tidy line
  have blocks : after.blocks = machine.blocks :=
    @FrameStack.blockLists_modifyTop (fun frame => { frame with line }) (fun _ => rfl) _
  refine ⟨⟨stays.steady.orderly arranged.orderly, stays.spares.tidy, arranged.heap, arranged.busy⟩,
    ⟨fun _ _ => .refl _ _, fun {handle} present => ?_, fun _ => .refl _, fun _ => rfl, fun _ => rfl,
      id, rfl⟩,
    ⟨id, id, fun _ => .refl _, fun pooled => .inl ⟨arranged.busy pooled, pooled⟩,
      fun listed => blocks ▸ listed⟩, ?_⟩
  · cases handle <;> exact present
  · simp only [after, Machine.capture, Machine.modifyTop]
    cases machine.frames with
    | mk frames depth depth_eq => cases frames <;> rfl

end Machine

end ScopeMachine
