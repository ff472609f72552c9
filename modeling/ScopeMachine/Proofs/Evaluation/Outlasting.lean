import ScopeMachine.Proofs.Calls.Parameters
import ScopeMachine.Proofs.Evaluation.ScriptSteps

namespace ScopeMachine

open Action Relation

namespace Heap

variable {Code : Type}

private theorem caught_cell_unspent (heap : Heap Code) (scope : ScopeId) (name : String) :
    let made := heap.newScope (.onHeap (some scope) .empty .basic)
    let bound := made.2.createMember made.1 name .publicTier
    ¬ (bound.2.memory.cell bound.1).Spent := by
  intro made bound spent
  have here : made.2.scope made.1 = .onHeap (some scope) .empty .basic := scope_newScope_self ..
  have bare : (made.2.scope made.1).members = .empty := congrArg Scope.members here
  have variant : (made.2.scope made.1).variant = .basic := congrArg Scope.variant here
  have lands : made.2.landing .publicTier made.1 = made.1 :=
    landingWithin_self (by rw [variant]; decide) (by rw [variant]; decide) ..
  have awaits : made.2.Awaits made.1 made.1 [] :=
    awaits_of_new bare bare (Nat.lt_of_lt_of_eq (Nat.lt_succ_self _) (Array.size_push _).symm) nofun
  obtain ⟨-, known, named, -⟩ := awaits.holds.createMember lands name
  have content : bound.2.memory.cell bound.1 = Cell.blank.declare .publicTier := by
    rw [lands] at known named
    rw [← named_of_bare bare name, ← named]
    exact (named_of_named? known).symm
  rw [content] at spent
  exact absurd spent.constant (by decide)

end Heap

namespace Machine

variable {Code : Type} {machine : Machine Code} {held : List Handle} {scope : ScopeId}

private theorem isHeld_of_mem (listed : .scope scope ∈ held) :
    machine.isHeld held scope = true := by
  have root : machine.isRoot held (.scope scope) = true := isRoot_iff.mpr (.inl listed)
  unfold isHeld Heap.isAlive Heap.bury?
  simp [root]

private theorem releaseBlocks_out (listed : .scope scope ∈ held) (blocks : List ScopeId)
    (out : scope ∉ machine.pool) : scope ∉ (releaseBlocks held blocks machine).pool := by
  induction blocks generalizing machine with
  | nil => exact out
  | cons first rest induction =>
      unfold releaseBlocks
      refine induction ?_
      split
      next => exact out
      next unheld =>
        refine List.not_mem_cons_of_ne_of_not_mem ?_ out
        rintro rfl
        exact unheld (isHeld_of_mem (List.mem_append_right _ listed))

private theorem closeFrame_out (listed : .scope scope ∈ held) (out : scope ∉ machine.pool) :
    scope ∉ (machine.closeFrame held).pool := by
  unfold closeFrame
  cases machine.frames.pop? with
  | none => exact out
  | some frames =>
      exact @releaseBlocks_out _ { machine with frames := frames.2 } _ _ listed frames.1.blocks out

private theorem releaseScope_out (listed : .scope scope ∈ held) (out : scope ∉ machine.pool)
    (id : ScopeId) : scope ∉ (machine.releaseScope held id).pool := by
  unfold releaseScope
  dsimp only
  split
  next => exact out
  next =>
    split
    next => exact out
    next unheld =>
      refine List.not_mem_cons_of_ne_of_not_mem ?_ out
      rintro rfl
      exact unheld (isHeld_of_mem listed)

private theorem pooledScope_out (out : scope ∉ machine.pool) (held : List Handle) (new : Scope) :
    scope ∉ (machineLeft (pooledScope new held machine)).pool := by
  rw [run_pooledScope]
  cases pool : machine.pool with
  | nil => exact out
  | cons id rest => exact fun pooled => out (pool ▸ List.mem_cons_of_mem _ pooled)

private theorem andThen_out {α β : Type} {ending : Ending Code α}
    {next : α → Machine Code → Ending Code β}
    (first : scope ∉ (machineLeft ending).pool)
    (second : ∀ result middle, scope ∉ middle.pool →
      scope ∉ (machineLeft (next result middle)).pool) :
    scope ∉ (machineLeft (andThen ending next)).pool := by
  cases ending with
  | ok result middle => exact second result middle first
  | error abort middle => exact first

private theorem allocateBlock_out (out : scope ∉ machine.pool) (held : List Handle)
    (previous : ScopeId)
    (index : Index) : scope ∉ (machineLeft (allocateBlock previous index held machine)).pool := by
  rw [run_allocateBlock]
  split
  next => exact out
  next =>
    have same := (@allocateTable_leaves _ machine scope held index.size).2
    refine andThen_out (same ▸ out) fun members middle out => ?_
    exact andThen_out (pooledScope_out out held _) fun id after out => out

private theorem allocateCallScope_out (out : scope ∉ machine.pool) (previous : ScopeId)
    (index : Index)
    (members : Table) (invocation : Invocation) (held : List Handle) :
    scope ∉
      (machineLeft (allocateCallScope previous index members invocation held machine)).pool := by
  unfold allocateCallScope
  rw [run_bind, run_onMemory, andThen_ok]
  dsimp only
  rw [run_ite]
  split
  next =>
    have out : scope ∉ (machine.withMemory
      (members.ensureCapacity index.size machine.heap.memory).2).pool := out
    exact pooledScope_out out held _
  next => exact out

private theorem enterCall_out (out : scope ∉ machine.pool) (function : Function Code)
    (id : FunctionId)
    (arguments : Table) (receiver : Option Value) (held : List Handle) :
    scope ∉ (machineLeft (enterCall function id arguments receiver held machine)).pool := by
  have same := (@mapArguments_leaves _ machine scope function.definition arguments held).2
  unfold enterCall
  rw [run_bind]
  exact andThen_out (same ▸ out) fun mapped middle out =>
    allocateCallScope_out out _ _ mapped.1 _ held

private theorem annotate_out (out : scope ∉ machine.pool) (failure : Failure) :
    scope ∉ (machine.annotate failure).2.pool := by
  unfold annotate
  split
  next => exact out
  next =>
    dsimp only
    split
    next => exact out
    next => exact out

end Machine

namespace Action

variable {Code : Type} {α β : Type} {scope : ScopeId} {machine : Machine Code} {held : List Handle}

/-- Run by code that holds on to the scope, the action goes by steps of scripts, and none of them
puts the scope into the pool. -/
def Outlasts (scope : ScopeId) (action : Action Code α) : Prop :=
  ∀ (held : List Handle) (machine : Machine Code), .scope scope ∈ held → scope ∉ machine.pool →
    machine.Outlasts scope (machineLeft (action held machine))

end Action

namespace Action

open Machine

variable {Code : Type} {α β : Type} {scope : ScopeId} {machine : Machine Code} {held : List Handle}

private theorem outlasts_step {heap : Heap Code} (out : scope ∉ machine.pool)
    (acts : machine.heap.Acts heap) : machine.Outlasts scope (machine.withHeap heap) :=
  .single ⟨.heap acts, out⟩

private theorem bind_outlasts {first : Action Code α} {next : α → Action Code β}
    (former : first.Outlasts scope) (latter : ∀ result, (next result).Outlasts scope) :
    (first >>= next).Outlasts scope := by
  intro held machine listed out
  have ran := former held machine listed out
  have outside := ran.out out
  rw [run_bind]
  cases ended : first held machine with
  | error abort middle =>
      rw [ended] at ran
      exact ran
  | ok result middle =>
      rw [ended] at ran outside
      exact ran.trans (latter result held middle listed outside)

private theorem catchScope_outlasts (inner : ScopeId) (name : String) (failure : Failure) :
    (catchScope inner name failure : Action Code ScopeId).Outlasts scope := by
  intro held machine _ out
  unfold catchScope
  simp only [run_bind, run_onHeap, run_newScope, run_pure, andThen_ok, machineLeft_ok]
  have caught := outlasts_step out (.caught failure)
  generalize machine.heap.caught failure = thrown at caught ⊢
  have unspent := thrown.2.caught_cell_unspent inner name
  dsimp only at unspent
  have made : (machine.withHeap thrown.2).Outlasts scope (machine.withHeap
      (thrown.2.newScope (.onHeap (some inner) .empty .basic)).2) := outlasts_step out (.newScope _)
  generalize thrown.2.newScope (.onHeap (some inner) .empty .basic) = new at made unspent ⊢
  have named : (machine.withHeap new.2).Outlasts scope (machine.withHeap
      (new.2.createMember new.1 name .publicTier).2) := outlasts_step out (.createMember ..)
  generalize new.2.createMember new.1 name .publicTier = bound at named unspent ⊢
  have installed : (machine.withHeap bound.2).Outlasts scope (machine.withHeap
      (bound.2.modifyCell bound.1 (·.install (thrown.1.getD .null)))) :=
    outlasts_step out (.install _ _ unspent)
  exact caught.trans (made.trans (named.trans installed))

private theorem inFrame_outlasts {body : Action Code Value} (id file : String) {inner : ScopeId}
    (outlasts : body.Outlasts scope) (listed : .scope scope ∈ .scope inner :: held)
    (out : scope ∉ machine.pool) :
    machine.Outlasts scope (machineLeft (inFrame id file inner body held machine)) := by
  have opened : machine.Outlasts scope (machine.openFrame id file inner) :=
    .single ⟨.openFrame id file inner, out⟩
  have ran := outlasts _ (machine.openFrame id file inner) listed out
  have outside := ran.out out
  have whole := opened.trans ran
  have kept (handles : List Handle) : .scope scope ∈ handles ++ .scope inner :: held :=
    List.mem_append_right _ listed
  unfold Action.inFrame
  split
  next => exact .refl
  next =>
    dsimp only
    split
    next ended =>
      rw [ended] at whole outside
      exact whole.tail ⟨.closeFrame _, closeFrame_out (kept _) outside⟩
    next failure middle ended =>
      rw [ended] at whole outside
      have annotated := annotate_out outside failure
      exact (whole.tail ⟨.annotate failure, annotated⟩).tail
        ⟨.closeFrame _, closeFrame_out (kept _) annotated⟩
    next ended =>
      rw [ended] at whole outside
      exact whole.tail ⟨.closeFrame _, closeFrame_out listed outside⟩

private theorem call_outlasts {body : ScopeId → Action Code Value} (function : Function Code)
    (id : FunctionId) (arguments : Table) (receiver : Option Value)
    (outlasts : ∀ inner, (body inner).Outlasts scope) :
    (enterCall function id arguments receiver >>= fun inner =>
      releasingScope inner (body inner)).Outlasts scope := by
  intro held machine listed out
  have out := enterCall_out out function id arguments receiver held
  have entered : machine.Outlasts scope
      (machineLeft (enterCall function id arguments receiver held machine)) :=
    .single ⟨.enterCall function id arguments receiver held, out⟩
  rw [run_bind]
  cases opened : enterCall function id arguments receiver held machine with
  | error abort middle =>
      rw [opened] at entered
      exact entered
  | ok inner middle =>
      rw [opened] at entered out
      have ran := outlasts inner held middle listed out
      have outside := ran.out out
      have whole := entered.trans ran
      rw [andThen_ok]
      unfold Action.releasingScope
      split
      all_goals
        next ended =>
          rw [ended] at whole outside
          exact whole.tail
            ⟨.releaseScope _ inner, releaseScope_out (List.mem_append_right _ listed) outside inner⟩

private theorem rescuing_outlasts {body : Action Code Value} {rescue : Failure → Action Code Value}
    (outlasts : body.Outlasts scope) (handles : ∀ failure, (rescue failure).Outlasts scope) :
    (rescuing body rescue).Outlasts scope := by
  intro held machine listed out
  have ran := outlasts held machine listed out
  have outside := ran.out out
  unfold Action.rescuing
  split
  next failure middle ended =>
    rw [ended] at ran outside
    split
    next =>
      have listed := List.mem_append_right failure.handles listed
      exact ran.trans (handles failure _ middle listed outside)
    next => exact ran
  next => exact ran

private theorem outlasts_rules (scope : ScopeId) :
    Compositional fun {_ : Type} (action : Action Code _) => action.Outlasts scope where
  pure _ _ _ _ _ := .refl
  fail _ _ _ _ _ _ := .refl
  throw _ _ _ _ _ := .refl
  crash _ _ _ _ := .refl
  get _ _ _ _ := .refl
  bind := bind_outlasts
  holding handles outlasts _ _ listed := outlasts _ _ (List.mem_append_right handles listed)
  lookup id name _ _ _ out := outlasts_step out (.lookup id name)
  ownMember id name _ _ _ out := outlasts_step out (.ownMember id name)
  member value name _ _ _ out := outlasts_step out (.member value name)
  createMember id name permission _ _ _ out := outlasts_step out (.createMember id name permission)
  assign cell name value _ _ _ out := outlasts_step out (.assign cell name value)
  makeArray elements frozen _ _ _ out := outlasts_step out (.newArray elements frozen)
  makeException exception _ _ _ out := outlasts_step out (.newException exception)
  newFunction function _ _ _ out := outlasts_step out (.newFunction function)
  newScope _ _ _ _ _ _ out := outlasts_step out (.newScope _)
  ofValues values _ _ _ out := outlasts_step out (.ofValues values)
  catchScope := catchScope_outlasts
  setLine line _ _ _ out := .single ⟨.setLine line, out⟩
  freeTable table held _ _ out := .single ⟨.freeTable table held, out⟩
  allocateTable size held machine _ out :=
    .single ⟨.allocateTable size held,
      (@allocateTable_leaves _ machine scope held size).2.symm ▸ out⟩
  pushEach table values held _ _ out := .single ⟨.pushEach table values held, out⟩
  allocateBlock previous index held _ _ out :=
    .single ⟨.allocateBlock previous index held, allocateBlock_out out held previous index⟩
  inFrame id file _ outlasts _ _ listed :=
    inFrame_outlasts id file outlasts (List.mem_cons_of_mem _ listed)
  call := call_outlasts
  rescuing := rescuing_outlasts

theorem runNode_outlasts {run : Runner Code}
    (outlasts : ∀ code inner, (run code inner).Outlasts scope)
    (node : Node Code) (out : scope ∉ machine.pool) :
    machine.Outlasts scope (machineLeft (runNode run node scope held machine)) :=
  inFrame_outlasts node.id node.file (outlasts node.code scope) List.mem_cons_self out

end Action

theorem Script.runnerAt_outlasts (scope : ScopeId) (frames : Nat) (code : Script)
    (inner : ScopeId) :
    (Expr.runnerAt frames code inner).Outlasts scope :=
  Expr.runnerAt_holds (outlasts_rules scope) (Native.perform_holds (outlasts_rules scope)) frames
    code inner

end ScopeMachine
