import ScopeMachine.Proofs.Evaluation.Exhaustion

/-!
Backtraces. The first frame that a failure leaves attaches the frames open there; no frame changes
what an earlier one attached, and a thrown exception keeps a snapshot that is the same from then on.
-/

namespace ScopeMachine

namespace Heap

variable {Code α : Type}

/-- No exception is lost, and none loses or changes the backtrace of its first throw. -/
structure Remembers (before after : Heap Code) : Prop where
  size : before.exceptions.size ≤ after.exceptions.size
  snapshot : ∀ {id : ExceptionId} {trace : Backtrace},
    (before.exception id).backtrace = some trace → (after.exception id).backtrace = some trace

namespace Remembers

theorem of_eq {before after : Heap Code} (same : after.exceptions = before.exceptions) :
    before.Remembers after := by
  refine ⟨Nat.le_of_eq (congrArg Array.size same.symm), fun {id trace} taken => ?_⟩
  rwa [Heap.exception, same]

theorem refl (heap : Heap Code) : heap.Remembers heap := .of_eq rfl

theorem trans {first second third : Heap Code} (left : first.Remembers second)
    (right : second.Remembers third) : first.Remembers third :=
  ⟨Nat.le_trans left.size right.size, fun taken => right.snapshot (left.snapshot taken)⟩

end Remembers

private theorem exception_newException {heap : Heap Code} {exception : ExceptionObject}
    {id : ExceptionId} (old : id.index < heap.exceptions.size) :
    (heap.newException exception).2.exception id = heap.exception id := by
  simp [newException, Heap.exception, Array.getElem?_push, Nat.ne_of_lt old]

private theorem exception_of_size_le {heap : Heap Code} {id : ExceptionId}
    (absent : heap.exceptions.size ≤ id.index) : heap.exception id = default := by
  simp [Heap.exception, absent]

private theorem newException_remembers (heap : Heap Code) (exception : ExceptionObject) :
    heap.Remembers (heap.newException exception).2 := by
  refine ⟨by simp [newException], fun {id trace} taken => ?_⟩
  by_cases old : id.index < heap.exceptions.size
  · rwa [exception_newException old]
  · rw [exception_of_size_le (Nat.le_of_not_lt old)] at taken
    cases taken

private theorem exception_preserveBacktrace {heap : Heap Code} {id : ExceptionId}
    (present : id.index < heap.exceptions.size) (trace : Backtrace) :
    ((heap.preserveBacktrace id trace).exception id).backtrace =
      ((heap.exception id).backtrace <|> some trace) := by
  simp [preserveBacktrace, modifyException, Heap.exception, present, Array.getElem_modify]

private theorem preserveBacktrace_remembers (heap : Heap Code) (id : ExceptionId)
    (trace : Backtrace) :
    heap.Remembers (heap.preserveBacktrace id trace) := by
  refine ⟨by simp [preserveBacktrace, modifyException], fun {other taken} stored => ?_⟩
  by_cases present : other.index < heap.exceptions.size
  · by_cases same : other = id
    · subst same
      simp [exception_preserveBacktrace present, stored]
    · have apart : id.index ≠ other.index := fun equal => same (congrArg ExceptionId.mk equal.symm)
      rw [← stored]
      simp [preserveBacktrace, modifyException, Heap.exception, present, apart,
        Array.getElem_modify]
  · rw [exception_of_size_le (Nat.le_of_not_lt present)] at stored
    cases stored

private theorem sameExceptions_law :
    Heap.Law fun before after : Heap Code => after.exceptions = before.exceptions where
  refl _ := rfl
  trans left right := right.trans left
  slotCell _ _ _ := rfl
  trailingCell {heap id invocation} _ := by
    unfold trailingCell
    split <;> rfl
  insertName _ _ _ _ := rfl
  newCell _ _ := rfl
  modifyCell _ _ _ := rfl

private theorem Deed.remembers {step : Heap Code → α × Heap Code} (deed : Deed step)
    (heap : Heap Code) :
    heap.Remembers (step heap).2 := by
  cases deed with
  | lookup scope name => exact .of_eq (sameExceptions_law.lookup heap scope name)
  | ownMember scope name => exact .of_eq (sameExceptions_law.ownMember heap scope name)
  | member value name => exact .of_eq (sameExceptions_law.member heap value name)
  | createMember scope name permission =>
      exact .of_eq (sameExceptions_law.createMember heap scope name permission)
  | newException exception => exact newException_remembers heap exception
  | caught failure =>
      dsimp only
      unfold Heap.caught
      split
      next => exact .refl heap
      next =>
        split
        next => exact .refl heap
        next => exact newException_remembers heap _
  | _ => exact .of_eq rfl

end Heap

namespace Machine

variable {Code : Type}

structure Recalls (before after : Machine Code) : Prop where
  heap : before.heap.Remembers after.heap
  frames : ∃ line, after.capture.lines =
    before.capture.lines.modifyHead fun (top : TraceLine) => { top with line }

namespace Recalls

private theorem of_remembers {before after : Machine Code} (heap : before.heap.Remembers after.heap)
    (frames : after.frames = before.frames) : before.Recalls after := by
  have same : after.capture.lines = before.capture.lines := by
    unfold capture
    rw [frames]
  refine ⟨heap, ?_⟩
  rw [same]
  cases before.capture.lines with
  | nil => exact ⟨0, rfl⟩
  | cons top outer => exact ⟨top.line, rfl⟩

theorem of_eq {before after : Machine Code} (heap : after.heap.exceptions = before.heap.exceptions)
    (frames : after.frames = before.frames) : before.Recalls after :=
  .of_remembers (.of_eq heap) frames

theorem refl (machine : Machine Code) : machine.Recalls machine := .of_eq rfl rfl

theorem trans {first second third : Machine Code} (left : first.Recalls second)
    (right : second.Recalls third) : first.Recalls third := by
  obtain ⟨line, lines⟩ := left.frames
  obtain ⟨line', lines'⟩ := right.frames
  refine ⟨left.heap.trans right.heap, line', ?_⟩
  rw [lines', lines]
  cases first.capture.lines <;> rfl

end Recalls

/-! Cleaning up touches no exception. -/

@[simp] theorem exceptions_detach (heap : Heap Code) (id : ScopeId) :
    (heap.detach id).exceptions = heap.exceptions := by
  unfold Heap.detach
  dsimp only
  split <;> rfl

@[simp] theorem exceptions_releaseBlocks (held : List Handle) (blocks : List ScopeId)
    (machine : Machine Code) :
    (releaseBlocks held blocks machine).heap.exceptions = machine.heap.exceptions := by
  induction blocks generalizing machine with
  | nil => rfl
  | cons id rest induction =>
      unfold releaseBlocks
      dsimp only
      split
      next => simp [induction, promote]
      next => simp [induction, recycle, Heap.modifyScope]

@[simp] theorem exceptions_closeFrame (machine : Machine Code) (held : List Handle) :
    (machine.closeFrame held).heap.exceptions = machine.heap.exceptions := by
  unfold closeFrame
  split
  next => rfl
  next => simp

@[simp] theorem exceptions_releaseScope (machine : Machine Code) (held : List Handle)
    (id : ScopeId) :
    (machine.releaseScope held id).heap.exceptions = machine.heap.exceptions := by
  unfold releaseScope
  dsimp only
  split
  next => rfl
  next =>
    split
    next => simp [promote]
    next => rfl

private theorem lines_closeFrame (machine : Machine Code) (held : List Handle) :
    (machine.closeFrame held).capture.lines = machine.capture.lines.tail := by
  unfold closeFrame capture
  obtain ⟨heap, ⟨frames, depth, depth_eq⟩, pool, limits, global, shared, host⟩ := machine
  cases frames with
  | nil => rfl
  | cons top outer => simp [FrameStack.pop?]

private theorem lines_modifyTop (change : Frame → Frame) (machine : Machine Code)
    (keeps : ∀ frame, ((change frame).id, (change frame).file) = (frame.id, frame.file)) :
    ∃ line, (machine.modifyTop change).capture.lines =
      machine.capture.lines.modifyHead fun (top : TraceLine) => { top with line } := by
  unfold modifyTop capture FrameStack.modifyTop
  obtain ⟨heap, ⟨frames, depth, depth_eq⟩, pool, limits, global, shared, host⟩ := machine
  cases frames with
  | nil => exact ⟨0, rfl⟩
  | cons top outer =>
      obtain ⟨id, file⟩ := Prod.mk.inj (keeps top)
      exact ⟨(change top).line, by simp [id, file]⟩

namespace Recalls

variable {machine after : Machine Code}

private theorem annotate (machine : Machine Code) (failure : Failure) :
    machine.Recalls (machine.annotate failure).2 := by
  unfold Machine.annotate
  split
  next => exact .refl machine
  next =>
    dsimp only
    split
    next => exact .of_remembers (Heap.preserveBacktrace_remembers ..) rfl
    next => exact .refl machine

private theorem releaseScope (machine : Machine Code) (held : List Handle) (id : ScopeId) :
    machine.Recalls (machine.releaseScope held id) :=
  .of_eq (exceptions_releaseScope ..) (frames_releaseScope ..)

end Recalls

private theorem openFrame_remembers (machine : Machine Code) (id file : String) (scope : ScopeId) :
    machine.heap.Remembers (machine.openFrame id file scope).heap :=
  .of_eq rfl

private theorem closeFrame_recalls {machine inner : Machine Code} {id file : String}
    {scope : ScopeId}
    (recalls : (machine.openFrame id file scope).Recalls inner) (held : List Handle) :
    machine.Recalls (inner.closeFrame held) := by
  have heap : machine.heap.Remembers (inner.closeFrame held).heap :=
    (openFrame_remembers machine id file scope).trans
      (recalls.heap.trans (.of_eq (exceptions_closeFrame ..)))
  obtain ⟨line, lines⟩ := recalls.frames
  have back : (inner.closeFrame held).capture.lines = machine.capture.lines := by
    rw [lines_closeFrame, lines]
    rfl
  refine ⟨heap, ?_⟩
  rw [back]
  exact (Recalls.refl machine).frames

end Machine

namespace Action

open Machine

variable {Code α : Type} {machine : Machine Code}

private theorem andThen_recalls {β : Type} {ending : Ending Code α}
    {next : α → Machine Code → Ending Code β} (first : machine.Recalls (machineLeft ending))
    (second : ∀ result after, ending = .ok result after →
      after.Recalls (machineLeft (next result after))) :
    machine.Recalls (machineLeft (andThen ending next)) := by
  cases ending with
  | ok result after => exact first.trans (second result after rfl)
  | error abort after => exact first

private theorem allocateTable_recalls (held : List Handle) (size : Nat) :
    machine.Recalls (machineLeft (allocateTable size held machine)) := by
  rw [run_allocateTable, run_ofExcept]
  split
  next => exact .refl machine
  next => cases machine.heap.memory.arena.allocate size <;> exact .of_eq rfl rfl

private theorem pooledScope_recalls (held : List Handle) (scope : Scope) :
    machine.Recalls (machineLeft (pooledScope scope held machine)) := by
  rw [run_pooledScope]
  split <;> exact .of_eq rfl rfl

private theorem allocateBlock_recalls (held : List Handle) (previous : ScopeId) (index : Index) :
    machine.Recalls (machineLeft (allocateBlock previous index held machine)) := by
  rw [run_allocateBlock]
  split
  next => exact .of_eq rfl rfl
  next =>
    refine andThen_recalls (allocateTable_recalls ..) fun members middle _ => ?_
    refine andThen_recalls (pooledScope_recalls ..) fun id after _ => ?_
    exact ⟨.of_eq rfl, lines_modifyTop _ after fun _ => rfl⟩

private theorem mapArguments_recalls (definition : Definition Code) (arguments : Table)
    (held : List Handle) :
    machine.Recalls (machineLeft (mapArguments definition arguments held machine)) := by
  rw [run_mapArguments]
  dsimp only
  split
  next => split <;> exact .of_eq rfl rfl
  next => exact .of_eq rfl rfl

private theorem enterCall_recalls (function : Function Code) (id : FunctionId) (arguments : Table)
    (receiver : Option Value) (held : List Handle) :
    machine.Recalls (machineLeft (enterCall function id arguments receiver held machine)) := by
  unfold enterCall
  rw [run_bind]
  refine andThen_recalls (mapArguments_recalls ..) fun mapped middle _ => ?_
  unfold allocateCallScope
  dsimp only
  rw [run_bind, run_onMemory, andThen_ok, run_ite]
  have grown : middle.Recalls (middle.withMemory (mapped.1.ensureCapacity
      (function.definition.body.shape.table .all).size middle.heap.memory).2) := .of_eq rfl rfl
  split
  next => exact grown.trans (pooledScope_recalls ..)
  next => exact grown.trans (.of_eq rfl rfl)

private theorem inFrame_recalls (id file : String) (scope : ScopeId) {body : Action Code Value}
    (held : List Handle)
    (recalls : (machine.openFrame id file scope).Recalls
      (machineLeft (body (.scope scope :: held) (machine.openFrame id file scope)))) :
    machine.Recalls (machineLeft (inFrame id file scope body held machine)) := by
  unfold inFrame
  split
  next => exact .refl machine
  next =>
    dsimp only
    split
    next ran =>
      rw [ran] at recalls
      exact closeFrame_recalls recalls _
    next failure after ran =>
      rw [ran] at recalls
      exact closeFrame_recalls (recalls.trans (.annotate after failure)) _
    next ran =>
      rw [ran] at recalls
      exact closeFrame_recalls recalls _

private theorem Composed.recalls {action : Action Code α} (composed : Composed action)
    (held : List Handle) (machine : Machine Code) :
    machine.Recalls (machineLeft (action held machine)) := by
  induction composed generalizing held machine with
  | pure result => exact .refl machine
  | fail fault => exact .refl machine
  | throw value => exact .refl machine
  | crash => exact .refl machine
  | get => exact .refl machine
  | bind _ _ former latter =>
      rw [run_bind]
      exact andThen_recalls (former held machine) fun result after _ => latter result held after
  | holding handles _ induction => exact induction (handles ++ held) machine
  | onHeap deed => exact .of_remembers (deed.remembers machine.heap) rfl
  | setLine line => exact ⟨.refl _, lines_modifyTop _ machine fun _ => rfl⟩
  | freeTable table => exact .of_eq rfl rfl
  | allocateTable size => exact allocateTable_recalls held size
  | pushEach table values => exact .of_eq rfl rfl
  | allocateBlock previous index => exact allocateBlock_recalls held previous index
  | inFrame id file scope _ induction =>
      exact inFrame_recalls id file scope held (induction _ _)
  | call function id arguments receiver _ induction =>
      rw [run_bind]
      refine andThen_recalls (enterCall_recalls ..) fun scope after _ => ?_
      have body := induction scope held after
      unfold releasingScope
      split
      next ran =>
        rw [ran] at body
        exact body.trans (.releaseScope ..)
      next ran =>
        rw [ran] at body
        exact body.trans (.releaseScope ..)
  | rescuing _ _ inner handler =>
      have body := inner held machine
      unfold Action.rescuing
      split
      next failure after ran =>
        rw [ran] at body
        split
        next => exact body.trans (handler failure _ after)
        next => exact body
      next => exact body

private theorem inFrame_remembers (id file : String) (scope : ScopeId) {body : Action Code Value}
    (held : List Handle) (room : machine.depth < machine.limits.maxDepth) :
    (machineLeft (body (.scope scope :: held) (machine.openFrame id file scope))).heap.Remembers
      (machineLeft (inFrame id file scope body held machine)).heap := by
  unfold inFrame
  rw [if_neg (Nat.not_le_of_lt room)]
  dsimp only
  cases body (.scope scope :: held) (machine.openFrame id file scope) with
  | ok result after => exact .of_eq (exceptions_closeFrame ..)
  | error abort after =>
      cases abort with
      | failure failure =>
          exact (Recalls.annotate after failure).heap.trans (.of_eq (exceptions_closeFrame ..))
      | crash => exact .of_eq (exceptions_closeFrame ..)

private theorem releasingScope_remembers (scope : ScopeId) {body : Action Code Value}
    (held : List Handle) :
    (machineLeft (body held machine)).heap.Remembers
      (machineLeft (releasingScope scope body held machine)).heap := by
  unfold releasingScope
  cases body held machine <;> exact .of_eq (exceptions_releaseScope ..)

private theorem rescuing_remembers {body : Action Code Value} {rescue : Failure → Action Code Value}
    (handler : ∀ failure, Composed (rescue failure)) (held : List Handle) :
    (machineLeft (body held machine)).heap.Remembers
      (machineLeft (rescuing body rescue held machine)).heap := by
  unfold rescuing
  cases body held machine with
  | ok result after => exact .refl _
  | error abort after =>
      cases abort with
      | failure failure =>
          dsimp only
          split
          next => exact ((handler failure).recalls _ after).heap
          next => exact .refl _
      | crash => exact .refl _

private theorem Reaches.remembers {β : Type} {action : Action Code α} {part : Action Code β}
    {held held' : List Handle} {machine' : Machine Code} {pending : List Pending}
    (reached : Reaches action held machine pending part held' machine') :
    machine.heap.Remembers machine'.heap ∧
      (machineLeft (part held' machine')).heap.Remembers
        (machineLeft (action held machine)).heap := by
  induction reached with
  | here composed => exact ⟨.refl _, .refl _⟩
  | @first _ _ _ first next _ held _ machine _ _ latter _ induction =>
      refine ⟨induction.1, induction.2.trans ?_⟩
      rw [run_bind]
      cases first held machine with
      | ok result after => exact ((latter result).recalls held after).heap
      | error abort after => exact .refl _
  | @next _ _ _ first next _ held _ machine _ _ _ result former ran _ induction =>
      have earlier := former.recalls held machine
      rw [ran] at earlier
      rw [run_bind, ran]
      exact ⟨earlier.heap.trans induction.1, induction.2⟩
  | holding _ induction => exact induction
  | inFrame room _ induction =>
      exact ⟨(openFrame_remembers ..).trans induction.1,
        induction.2.trans (inFrame_remembers _ _ _ _ room)⟩
  | @call _ _ _ function id arguments receiver scope held _ machine _ _ _ ran _ induction =>
      have earlier := @enterCall_recalls _ machine function id arguments receiver held
      rw [ran] at earlier
      rw [run_bind, ran]
      exact ⟨earlier.heap.trans induction.1, induction.2.trans (releasingScope_remembers ..)⟩
  | body handler _ induction =>
      exact ⟨induction.1, induction.2.trans (rescuing_remembers handler _)⟩
  | @handler _ body rescue _ held _ machine _ _ _ failure inner failed catchable _ induction =>
      have earlier := inner.recalls held machine
      rw [failed] at earlier
      refine ⟨earlier.heap.trans induction.1, ?_⟩
      unfold Action.rescuing
      simp only [failed, catchable, if_true, run_holding]
      exact induction.2

/-! Agreement of failures underway with the snapshots of what was thrown. -/

/-- A thrown exception travels with the backtrace of its snapshot, or both have none yet. -/
def Agrees (failure : Failure) (heap : Heap Code) : Prop :=
  ∀ id, failure.fault = .thrown (.exception id) → id.index < heap.exceptions.size →
    (heap.exception id).backtrace = failure.backtrace

namespace Agrees

variable {failure : Failure}

private theorem of_unthrown (unthrown : failure.fault.isThrown = false) (heap : Heap Code) :
    Agrees failure heap := by
  intro id same
  rw [same] at unthrown
  cases unthrown

theorem of_eq {before after : Heap Code} (agrees : Agrees failure before)
    (same : after.exceptions = before.exceptions) : Agrees failure after := by
  intro id thrown present
  have agreed := agrees id thrown (same ▸ present)
  rwa [Heap.exception, same]

private theorem thrown (value : Value) (heap : Heap Code) : Agrees (heap.thrown value) heap := by
  intro id same _
  cases same
  rfl

private theorem annotate (agrees : Agrees failure machine.heap) :
    Agrees (machine.annotate failure).1 (machine.annotate failure).2.heap := by
  unfold Machine.annotate
  split
  next => exact agrees
  next untraced =>
    intro id thrown present
    have thrown : failure.fault = .thrown (.exception id) := thrown
    simp only [thrown] at present ⊢
    have old : id.index < machine.heap.exceptions.size := by
      simpa [Heap.preserveBacktrace, Heap.modifyException] using present
    rw [Heap.exception_preserveBacktrace old, agrees id thrown old, untraced]
    rfl

end Agrees

private theorem unthrown_enterCall {function : Function Code} {id : FunctionId} {arguments : Table}
    {receiver : Option Value} {held : List Handle} {after : Machine Code} {failure : Failure}
    (failed : enterCall function id arguments receiver held machine =
      .error (.failure failure) after) : failure.fault.isThrown = false := by
  unfold enterCall at failed
  rw [run_bind, run_mapArguments] at failed
  dsimp only at failed
  split at failed
  next =>
    have allocates (members : Table) (trailing : List Value) (machine : Machine Code) :
        allocateCallScope function.enclosing (function.definition.body.shape.table .all) members
          { function := id, receiver, trailing } held machine ≠ .error
            (.failure failure) after := by
      unfold allocateCallScope
      rw [run_bind, run_onMemory, andThen_ok, run_ite, run_pooledScope]
      split
      next => split <;> exact nofun
      next => exact nofun
    split at failed <;> exact (allocates _ _ _ failed).elim
  next =>
    cases failed
    rfl

private theorem Composed.agrees {action : Action Code α} (composed : Composed action)
    {held : List Handle} {machine after : Machine Code} {failure : Failure}
    (failed : action held machine = .error (.failure failure) after) :
    Agrees failure after.heap := by
  induction composed generalizing held machine after failure with
  | pure result => cases failed
  | fail fault unthrown =>
      cases failed
      exact .of_unthrown unthrown _
  | throw value =>
      cases failed
      exact .thrown value _
  | crash => cases failed
  | get => cases failed
  | @bind _ _ first next _ _ former latter =>
      rw [run_bind] at failed
      cases ran : first held machine with
      | ok result middle =>
          rw [ran] at failed
          exact latter result failed
      | error abort middle =>
          rw [ran] at failed
          cases failed
          exact former ran
  | holding handles _ induction => exact induction failed
  | onHeap deed => cases failed
  | setLine line => cases failed
  | freeTable table => cases failed
  | allocateTable size =>
      exact .of_unthrown (unthrown_of_fatal (exhausts_of_allocateTable failed).fatal) _
  | pushEach table values => cases failed
  | allocateBlock previous index =>
      exact .of_unthrown (unthrown_of_fatal (exhausts_of_allocateBlock failed).fatal) _
  | inFrame id file scope _ induction =>
      unfold Action.inFrame at failed
      split at failed
      next =>
        cases failed
        exact .of_unthrown rfl _
      next =>
        dsimp only at failed
        split at failed
        next => cases failed
        next raised inner ran =>
          cases failed
          exact (induction ran).annotate.of_eq (exceptions_closeFrame ..)
        next => cases failed
  | call function id arguments receiver _ induction =>
      rw [run_bind] at failed
      cases entered : enterCall function id arguments receiver held machine with
      | error abort middle =>
          rw [entered] at failed
          cases failed
          exact .of_unthrown (unthrown_enterCall entered) _
      | ok scope middle =>
          rw [entered, andThen_ok] at failed
          unfold releasingScope at failed
          split at failed
          next => cases failed
          next abort inner ran =>
            cases failed
            exact (induction scope ran).of_eq (exceptions_releaseScope ..)
  | rescuing _ _ inner handler =>
      unfold Action.rescuing at failed
      split at failed
      next raised middle ran =>
        split at failed
        next => exact handler raised failed
        next =>
          cases failed
          exact inner ran
      next => exact inner failed

/-! Frames that a failure leaves. -/

section Leaving

variable {id file : String} {scope : ScopeId} {body : Action Code Value} {held : List Handle}
  {inner after : Machine Code} {raised failure : Failure}

private theorem inFrame_attaches (room : machine.depth < machine.limits.maxDepth)
    (ran : body (.scope scope :: held) (machine.openFrame id file scope) =
      .error (.failure raised) inner)
    (failed : inFrame id file scope body held machine = .error (.failure failure) after) :
    failure = { raised with backtrace := raised.backtrace <|> some inner.capture } := by
  unfold inFrame at failed
  rw [if_neg (Nat.not_le_of_lt room)] at failed
  simp only [ran] at failed
  cases failed
  obtain ⟨fault, backtrace, notes⟩ := raised
  unfold Machine.annotate
  cases backtrace <;> rfl

private theorem Composed.lines (composed : Composed body)
    (ran : body (.scope scope :: held) (machine.openFrame id file scope) =
      .error (.failure raised) inner) :
    ∃ line, inner.capture.lines = ⟨id, file, line⟩ :: machine.capture.lines := by
  have recalls := composed.recalls (.scope scope :: held) (machine.openFrame id file scope)
  rw [ran] at recalls
  obtain ⟨line, lines⟩ := recalls.frames
  exact ⟨line, lines⟩

private theorem unwind_keeps {trace : Backtrace} (traced : failure.backtrace = some trace)
    (pending : List Pending) : (unwind pending failure machine).1 = failure := by
  induction pending generalizing machine with
  | nil => rfl
  | cons next pending induction =>
      cases next with
      | frame held =>
          have still : machine.annotate failure = (failure, machine) := by
            unfold Machine.annotate
            rw [traced]
          simp [settle, still, induction]
      | scope held id => simp [settle, induction]
      | handler => simp [settle, induction]

end Leaving

end Action

open Action

/-- Take any part of a program's run, and any frame that is opened in the course of it. Exceptions
keep the backtrace they first got, from the start of the run to that part, on to the frame, to
where the frame and the part end, and to the end of the run. A failure that leaves the frame has a
backtrace: its own if it had one, else the frames open then, innermost first, each with the line
it last reported. As long as no handler of the part catches it, it leaves the part as it left the
frame. If it carries an exception, that exception has the same backtrace. -/
theorem Script.backtrace_attached_once {script : Script} {held held₁ held' : List Handle}
    {machine machine₁ machine' : Machine Script} {α : Type} {part : Action Script α}
    {outer pending : List Pending} {id file : String} {scope : ScopeId}
    {body : Action Script Value}
    (entered : Reaches script.run held machine outer part held₁ machine₁)
    (reached : Reaches part held₁ machine₁ pending (inFrame id file scope body) held' machine')
    (composed : Composed body) :
    let framed := inFrame id file scope body held' machine'
    (machine.heap.Remembers machine₁.heap ∧ machine₁.heap.Remembers machine'.heap ∧
      machine'.heap.Remembers (machineLeft framed).heap ∧
      (machineLeft framed).heap.Remembers (machineLeft (part held₁ machine₁)).heap ∧
      (machineLeft (part held₁ machine₁)).heap.Remembers
        (machineLeft (script.run held machine)).heap) ∧
    ∀ failure after, framed = .error (.failure failure) after →
      failure.backtrace.isSome = true ∧
      (∀ raised inner, machine'.depth < machine'.limits.maxDepth →
        body (.scope scope :: held') (machine'.openFrame id file scope) =
          .error (.failure raised) inner →
        failure = { raised with backtrace := raised.backtrace <|> some inner.capture } ∧
          ∃ line, inner.capture.lines = ⟨id, file, line⟩ :: machine'.capture.lines) ∧
      (.handler ∉ pending → ∃ final, part held₁ machine₁ = .error (.failure failure) final) ∧
      Agrees failure after.heap := by
  intro framed
  have whole : (inFrame id file scope body).Composed := reached.composed
  refine ⟨⟨entered.remembers.1, reached.remembers.1, (whole.recalls held' machine').heap,
    reached.remembers.2, entered.remembers.2⟩, fun failure after failed => ?_⟩
  have traced := inFrame_traced failed
  refine ⟨traced, fun raised inner room ran => ?_, fun unhandled => ?_, whole.agrees failed⟩
  · exact ⟨inFrame_attaches room ran failed, composed.lines ran⟩
  · obtain ⟨trace, traced⟩ := Option.isSome_iff_exists.mp traced
    have ended := reached.unwinds (fun waits => (unhandled waits).elim) failed
    rw [unwind_keeps traced] at ended
    exact ⟨_, ended⟩

/-- Throws a new exception on its third line. -/
def Script.throwing : Script := .seq [.line 3, .throw (.construct (.lit (.type .exception)) [])]

def Script.thrownException : Ending Script Value → Option (ExceptionId × Option Backtrace × Nat)
  | .error (.failure ⟨.thrown (.exception id), trace, _⟩) after =>
      some (id, trace, after.heap.exceptions.size)
  | _ => none

theorem Script.backtrace_attached_once_throwing :
    ∃ failure after, throwing.run [] (.new ⟨1, 0, true, true⟩ .empty) =
        .error (.failure failure) after ∧
      failure.fault = .thrown (.exception ⟨0⟩) ∧
      failure.backtrace = some ⟨[⟨"main", FunctionSource.file, 3⟩]⟩ ∧
      (after.heap.exception ⟨0⟩).backtrace = failure.backtrace := by
  have outcome : thrownException (throwing.run [] (.new ⟨1, 0, true, true⟩ .empty)) =
      some (⟨0⟩, some ⟨[⟨"main", FunctionSource.file, 3⟩]⟩, 1) := by decide +kernel
  generalize (Machine.new ⟨1, 0, true, true⟩ .empty : Machine Script) = fresh at outcome ⊢
  obtain ⟨scope, body, composed, framed, reached⟩ := run_framed throwing [] fresh
  obtain ⟨-, leaves⟩ := backtrace_attached_once (.here (run_composed throwing)) reached composed
  rw [← framed] at leaves
  unfold thrownException at outcome
  split at outcome
  next id trace notes after ended =>
    simp only [Option.some.injEq, Prod.mk.injEq] at outcome
    obtain ⟨rfl, rfl, made⟩ := outcome
    have agrees := (leaves _ after ended).2.2.2
    exact ⟨_, after, ended, rfl, rfl, agrees ⟨0⟩ rfl (made ▸ Nat.one_pos)⟩
  next => cases outcome

end ScopeMachine
