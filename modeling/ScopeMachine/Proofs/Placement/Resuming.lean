import ScopeMachine.Proofs.Placement.Opening
import ScopeMachine.Proofs.Placement.Performing

namespace ScopeMachine

open ScopeMachine.Action

def Link.same (given : Handle → Prop) (global : ScopeId) : Link where
  pairs x y := x = y ∧ (x = .scope global ∨ given x)
  firm _ _ := False
  veil _ _ := False
  sure _ a b := a = b ∧ a = global

namespace Machine

variable {kept given aside : Handle → Prop} {fresh later : Machine Script}

/-- Nothing is running, the global scope looks as it did on the fresh machine, and so do the things
that are kept. -/
structure Resumes (kept : Handle → Prop) (fresh later : Machine Script) : Prop where
  unstarted : later.Unstarted
  bounds : later.bounds = fresh.bounds
  global : later.global = fresh.global
  sameView : fresh.heap.SameView later.heap fresh.global
  has : ∀ {handle}, kept handle → later.heap.Has handle
  keeps : ∀ {handle}, kept handle → fresh.heap.Kept later.heap handle

theorem Fresh.resumes (start : fresh.Fresh)
    (has : ∀ {handle}, kept handle → fresh.heap.Has handle) :
    Resumes kept fresh fresh where
  unstarted := start.unstarted
  bounds := rfl
  global := rfl
  sameView := .refl _ _
  has := has
  keeps := fun {handle} _ => .refl _ handle

private theorem Ready.sameView_run {machine : Machine Script} (ready : machine.Ready)
    {script : Script}
    (plain : script.Plain) (held : List Handle) :
    (machineLeft (script.run held machine)).global = machine.global ∧
      machine.heap.SameView (machineLeft (script.run held machine)).heap machine.global := by
  obtain ⟨origin, shut, global, shields⟩ := ready.exists_origin
  have after := ((Script.run_safe shut plain).ends held shields).shields
  generalize machineLeft (script.run held machine) = left at after
  have scope : left.heap.scope machine.global = machine.heap.scope machine.global := by
    rw [shields.global, after.heap.scope global, shields.heap.scope global]
  refine ⟨after.global.trans shields.global.symm, congrArg Scope.previous scope,
    congrArg Scope.index scope, congrArg Scope.kind scope, fun slot => ?_, ?_⟩
  · obtain ⟨same, cells⟩ := after.heap.cell?_global shut global slot
    obtain ⟨same', cells'⟩ := shields.heap.cell?_global shut global slot
    rw [← shields.global] at same cells same' cells'
    unfold Heap.contentAt Table.content
    rw [same, same']
    generalize (origin.heap.scope machine.global).members.cell? slot origin.heap.memory = found
      at cells cells'
    cases found with
    | none => rfl
    | some cell => exact (cells cell rfl).trans (cells' cell rfl).symm
  · have kind : (machine.heap.scope machine.global).kind = .global := by
      rw [shields.global, shields.heap.scope global]
      exact Heap.kind_of_global global
    unfold Heap.binding?
    rw [scope, kind]
    rfl

section Mirrors

variable {inStep veiled : Prop} (start : fresh.Fresh)
  (resumes : Resumes (fun handle => given handle ∨ aside handle) fresh later)
  (supplies : fresh.heap.Supplies given) (others : fresh.heap.Supplies aside)
include resumes supplies

include others in
private theorem Resumes.provided :
    (Script.terms inStep veiled given aside fresh.heap).Provided later where
  supplies := by
    refine ⟨supplies.sort, fun here => resumes.has (.inl here), fun {handle target} here holds =>
      supplies.holds here ?_⟩
    have kept := resumes.keeps (.inl here)
    rcases supplies.sort here with ⟨id, rfl⟩ | ⟨id, rfl⟩ <;> exact kept.shows.mp holds
  sort := others.sort
  has := fun here => resumes.has (.inr here)
  kept := fun here => resumes.keeps (.inr here)

private theorem Resumes.stand_given {handle : Handle} (here : given handle) :
    (Script.terms inStep veiled given aside fresh.heap).Stand (Link.same given fresh.global)
    later.heap
      fresh.heap handle handle := by
  have kept := resumes.keeps (.inl here)
  have pairs {handle : Handle} (here : given handle) :
      (Link.same given fresh.global).pairs handle handle := ⟨rfl, .inr here⟩
  have values {value : Value}
      (named : ∀ target, value.holds target = true → fresh.heap.Holds handle target) :
      (Link.same given fresh.global).Values value value :=
    supplies.values pairs fun target listed =>
      supplies.holds here (named target (Value.mem_handles.mp listed))
  rcases supplies.sort here with ⟨id, rfl⟩ | ⟨id, rfl⟩
  · have same : later.heap.array id = fresh.heap.array id := kept
    refine ⟨?_, congrArg ArrayObject.frozen same⟩
    rw [same]
    refine List.forall₂_same.mpr fun value member => values fun target holds => ?_
    exact Array.any_eq_true'.mpr ⟨value, Array.mem_toList_iff.mp member, holds⟩
  · have same : later.heap.exception id = fresh.heap.exception id := kept
    refine ⟨congrArg ExceptionObject.type same, congrArg ExceptionObject.message same, ?_,
      congrArg ExceptionObject.backtrace same⟩
    rw [same]
    cases caused : (fresh.heap.exception id).cause with
    | none => exact .none
    | some cause =>
        refine .some (values fun target holds => ?_)
        rw [Heap.holds_exception, caused]
        exact holds

include start

omit supplies in
private theorem Resumes.stand_global :
    (Script.terms inStep veiled given aside fresh.heap).Stand (Link.same given fresh.global)
    later.heap
      fresh.heap (.scope fresh.global) (.scope fresh.global) := by
  have first := start.unstarted
  have sameView := resumes.sameView
  have kind : (fresh.heap.scope fresh.global).kind = .global := Heap.kind_of_global first.global
  have variant : (later.heap.scope fresh.global).variant = .global :=
    sameView.variant.trans first.global
  refine ⟨?_, congrArg Index.members sameView.index, ?_, fun slot => ?_, ?_, fun object => ?_,
    fun constructor => ?_⟩
  · rw [sameView.previous, first.outermost]
    exact .none
  · rw [sameView.kind, kind]
    exact .global
  · rw [sameView.content]
    exact ⟨.plain (first.bare slot), rfl, rfl, rfl⟩
  · rw [sameView.binding, Heap.binding?, kind]
    exact .none
  · cases variant.symm.trans object
  · cases variant.symm.trans constructor

variable (inStep veiled) in
include others in
/-- The machine that a program is run on next and a fresh one mirror each other. -/
theorem Resumes.mirrors (apart : ∀ {handle}, given handle → ¬ aside handle)
    (limits : (Script.terms inStep veiled given aside fresh.heap).Bounded later.limits
      fresh.limits) :
    (Script.terms inStep veiled given aside fresh.heap).Mirrors (Link.same given fresh.global)
    .empty .empty
      later fresh := by
  have first := start.unstarted
  have second := resumes.unstarted
  have grounded {machine : Machine Script} (unstarted : machine.Unstarted) :
      machine.heap.Grounded machine.global := by
    refine .intro unstarted.busy.1 (fun _ => unstarted.global) fun {next} linked => ?_
    rcases linked with further | target
    · exact nomatch unstarted.outermost.symm.trans further
    · rw [Heap.kind_of_global unstarted.global] at target
      cases target
  have global := resumes.global
  have variant : (fresh.heap.scope fresh.global).variant ≠ .constructor ∧
      (fresh.heap.scope fresh.global).variant ≠ .basic := by
    rw [show (fresh.heap.scope fresh.global).variant = .global from first.global]
    exact ⟨nofun, nofun⟩
  have variant' := resumes.sameView.variant.symm ▸ variant
  have direct : (Link.same given fresh.global).pairs (.scope fresh.global) (.scope fresh.global) :=
    ⟨rfl, .inl rfl⟩
  refine ⟨second.arranged, first.arranged, ⟨?_, ?_, ?_, ?_, nofun, ?_, nofun, ?_, ?_, ?_,
    ?_, ?_, ?_,
    resumes.provided supplies others, (start.resumes ?_).provided supplies others⟩, ?_,
    limits, fun _ => resumes.bounds⟩
  · exact fun paired paired' => paired.1.symm.trans paired'.1
  · exact fun paired paired' => paired.1.trans paired'.1.symm
  · rintro x _ ⟨rfl, rfl | here⟩
    · exact ⟨global ▸ second.busy, first.busy⟩
    · rcases supplies.sort here with ⟨id, rfl⟩ | ⟨id, rfl⟩ <;>
        exact ⟨resumes.has (.inl here), supplies.has here⟩
  · rintro x _ ⟨rfl, rfl | here⟩
    · exact resumes.stand_global start
    · exact resumes.stand_given supplies here
  · rintro a _ ⟨same, reached⟩
    cases same
    rcases reached with same | here
    · cases same
      exact ⟨global ▸ grounded second, grounded first⟩
    · rcases supplies.sort here with ⟨_, same⟩ | ⟨_, same⟩ <;> cases same
  · rintro reading a _ ⟨rfl, rfl⟩
    refine ⟨.pair direct, ?_⟩
    cases reading with
    | callee => exact ⟨direct, fun block => absurd block variant'.2⟩
    | trailing =>
        refine ⟨direct, ?_⟩
        rw [resumes.sameView.previous, first.outermost]
        exact .none
    | replaced => exact .inl direct
    | outside => exact ⟨variant'.1, variant.1⟩
  · exact id
  · refine fun _ => ⟨fun _ _ => not_false, fun {reading a b} paired _ => ?_⟩
    obtain ⟨same, reached⟩ := paired
    cases same
    rcases reached with same | here
    · cases same
      exact ⟨rfl, rfl⟩
    · rcases supplies.sort here with ⟨_, same⟩ | ⟨_, same⟩ <;> cases same
  · exact ⟨congrArg Handle.scope global, .inl (congrArg Handle.scope global)⟩
  · exact fun here => ⟨rfl, .inr here⟩
  · intro handle other here
    have unpaired {target : Handle} (paired : target = handle ∧
        (target = .scope fresh.global ∨ given target)) : False := by
      obtain ⟨rfl, rfl | there⟩ := paired
      · rcases others.sort here with ⟨_, same⟩ | ⟨_, same⟩ <;> cases same
      · exact apart there here
    exact ⟨fun paired => unpaired ⟨rfl, paired.2⟩, unpaired⟩
  · rintro handle (here | here)
    · exact supplies.has here
    · exact others.has here
  · unfold Machine.capture
    rw [second.frames, first.frames]

end Mirrors

private theorem run_closes {machine : Machine Script} (orderly : machine.Orderly)
    (tidy : machine.Tidy)
    (script : Script) (held : List Handle) :
    (machineLeft (script.run held machine)).frames.marks = machine.frames.marks ∧
      (machineLeft (script.run held machine)).bounds = machine.bounds ∧
      (machineLeft (script.run held machine)).limits = machine.limits := by
  have made := newScope_occupies tidy (.onHeap (some machine.global) .empty .basic)
  have orderly := made.staysInFrame.steady.orderly orderly
  have tidy := made.staysInFrame.spares.tidy
  obtain ⟨marks, bounds, limits, -⟩ := inFrame_restoring orderly tidy "main" FunctionSource.file
    (machine.heap.newScope (.onHeap (some machine.global) .empty .basic)).1 held
    fun room => script.evaluate_mannerly _ _ _ (openFrame_orderly orderly room ..)
      (openFrame_tidy tidy ..)
  exact ⟨marks, bounds, limits⟩

private theorem frames_eq_empty {stack : FrameStack} (unmarked : stack.marks = []) :
    stack = .empty := by
  obtain ⟨frames, depth, rfl⟩ := stack
  cases List.map_eq_nil_iff.mp unmarked
  rfl

theorem Fresh.resumes_run (start : fresh.Fresh) {script : Script}
    (regular : Script.Regular given (fun _ => True) script) (supplies : fresh.heap.Supplies given)
    (others : fresh.heap.Supplies aside) (apart : ∀ {handle}, given handle → ¬ aside handle) :
    Resumes aside fresh (machineLeft (script.run [] fresh)) ∧
      (machineLeft (script.run [] fresh)).limits = fresh.limits := by
  have first := start.unstarted
  have begun : Resumes (fun handle => given handle ∨ aside handle) fresh fresh :=
    start.resumes fun {handle} here => here.elim supplies.has others.has
  have mirrors := begun.mirrors True False start supplies others apart (.of_eq rfl)
  obtain ⟨link, passes, mirrored⟩ :=
    (regular.reflagged.run regular (fun _ => rfl) False.elim mirrors (fun _ => ⟨rfl, rfl⟩)
      []).leaves trivial
  obtain ⟨global, sameView⟩ := start.ready.sameView_run (regular.plain supplies.sort) []
  obtain ⟨marks, bounds, limits⟩ :=
    run_closes first.arranged.orderly first.arranged.tidy script []
  have provided := mirrored.agree.provided
  refine ⟨⟨⟨mirrored.arranged, frames_eq_empty (marks.trans ?_), ?_, ?_, ?_, fun slot => ?_⟩,
    bounds, global, sameView, provided.has, provided.kept⟩, limits⟩
  · rw [first.frames]
    rfl
  · rw [global]
    exact sameView.variant.trans first.global
  · rw [global]
    exact passes.lasts.busy first.busy
  · rw [global]
    exact sameView.previous.trans first.outermost
  · rw [global]
    exact (congrArg (·.value.handles) (sameView.content slot)).trans (first.bare slot)

end Machine

end ScopeMachine
