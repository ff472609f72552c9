import ScopeMachine.Proofs.Liveness.Growth
import ScopeMachine.Proofs.Storage.Laws
import ScopeMachine.Proofs.Storage.ScopesById

namespace ScopeMachine

def ScopeKind.target? : ScopeKind → Option ScopeId
  | .fork target => some target
  | _ => none

/-- Two states of a scope that leads on to the same scopes. -/
structure Scope.Linked (before after : Scope) : Prop where
  previous : after.previous = before.previous
  target : after.kind.target? = before.kind.target?
  variant : after.variant = before.variant

theorem Scope.Linked.refl (scope : Scope) : scope.Linked scope := ⟨rfl, rfl, rfl⟩

theorem Scope.Linked.trans {first second third : Scope} (left : first.Linked second)
    (right : second.Linked third) : first.Linked third :=
  ⟨right.previous.trans left.previous, right.target.trans left.target,
    right.variant.trans left.variant⟩

/-- Everything the function holds is live. -/
def Function.Kept {Code : Type} (live : Handle → Prop) (function : Function Code) : Prop :=
  ∀ target, function.holds target = true → live target

def Scope.Kept (live : Handle → Prop) (scope : Scope) : Prop :=
  ∀ target, scope.holds target = true → live target

theorem Function.kept_of {Code : Type} {live : Handle → Prop} {function : Function Code}
    (enclosing : live (.scope function.enclosing))
    (statics : ∀ scope, function.statics = some scope → live (.scope scope))
    (parent : function.parent.Kept live)
    (overridden : ∀ value, function.overridden = some value → value.Kept live) :
    function.Kept live := by
  intro target holds
  simp only [Function.holds, Bool.or_eq_true, Option.any_eq_true] at holds
  rcases holds with ((outer | ⟨scope, given, static⟩) | parental) | ⟨value, given, replaced⟩
  · exact Handle.eq_of_isScope outer ▸ enclosing
  · exact Handle.eq_of_isScope static ▸ statics scope given
  · exact parent target parental
  · exact overridden value given target replaced

theorem Scope.kept_of {live : Handle → Prop} {scope : Scope}
    (previous : ∀ outer, scope.previous = some outer → live (.scope outer))
    (members : scope.members.Kept live)
    (kind : ∀ target, scope.kind.holds target = true → live target) : scope.Kept live := by
  intro target holds
  simp only [Scope.holds, Bool.or_eq_true, Option.any_eq_true] at holds
  rcases holds with (⟨outer, given, linked⟩ | listed) | held
  · exact Handle.eq_of_isScope linked ▸ previous outer given
  · obtain ⟨cell, member, same⟩ := Array.any_eq_true'.mp listed
    exact Handle.eq_of_isCell same ▸ members cell member
  · exact kind target held

theorem Scope.kept_onHeap {live : Handle → Prop} {previous : ScopeId} {index : Index}
    {kind : ScopeKind} (outer : live (.scope previous))
    (held : ∀ target, kind.holds target = true → live target) :
    (Scope.onHeap (some previous) index kind).Kept live := by
  refine Scope.kept_of ?_ Table.kept_empty held
  rintro _ ⟨⟩
  exact outer

/-- A call whose binding of `in` has not been made yet. -/
theorem ScopeKind.kept_function {live : Handle → Prop} {invocation : Invocation}
    (callee : live (.function invocation.function))
    (receiver : ∀ value, invocation.receiver = some value → value.Kept live)
    (trailing : ∀ value ∈ invocation.trailing, value.Kept live)
    (unbound : invocation.trailingCell = none) (target : Handle)
    (held : (ScopeKind.function invocation).holds target = true) : live target := by
  simp only [holds, unbound, Option.any_none, Bool.or_false, Bool.or_eq_true, Option.any_eq_true,
    List.any_eq_true] at held
  rcases held with (called | ⟨value, given, received⟩) | ⟨value, listed, passed⟩
  · exact Handle.eq_of_isFunction called ▸ callee
  · exact receiver value given target received
  · exact trailing value listed target passed

namespace Heap

variable {Code : Type} {live : Handle → Prop} {heap : Heap Code}

/-- What counts as live: all that something live holds, the cells that slots name, and whatever
there will be. Scopes that do not exist are not live. -/
structure Serves (live : Handle → Prop) (heap : Heap Code) : Prop where
  fresh : ∀ {handle : Handle}, ¬ heap.Has handle → (∀ id, handle ≠ .scope id) → live handle
  named : ∀ {position : Nat} {id : CellId}, heap.memory.arena.peek position = some id →
    live (.cell id)
  closed : ∀ {holder target : Handle}, live holder → heap.Holds holder target → live target

theorem Serves.memory (serves : heap.Serves live) : heap.memory.Serves live :=
  ⟨fun _ fresh => serves.fresh (Nat.not_lt_of_le fresh) nofun, serves.named⟩

/-- Only live things gain holders, and scopes stay linked as they were. -/
structure Grows (live : Handle → Prop) (before after : Heap Code) : Prop where
  has : ∀ {handle : Handle}, before.Has handle → after.Has handle
  named : ∀ {position : Nat} {id : CellId}, after.memory.arena.peek position = some id →
    (∃ origin, before.memory.arena.peek origin = some id) ∨ live (.cell id)
  holds : ∀ {holder target : Handle}, after.Holds holder target →
    before.Holds holder target ∨ live target
  links : ∀ {id : ScopeId}, id.index < before.scopes.size →
    (before.scope id).Linked (after.scope id)

namespace Grows

variable {before after : Heap Code}

theorem refl (heap : Heap Code) : heap.Grows live heap :=
  ⟨id, fun named => .inl ⟨_, named⟩, .inl, fun _ => .refl _⟩

theorem trans {first second third : Heap Code} (left : first.Grows live second)
    (right : second.Grows live third) : first.Grows live third where
  has := right.has ∘ left.has
  named named := by
    rcases right.named named with ⟨origin, earlier⟩ | alive
    · exact left.named earlier
    · exact .inr alive
  holds holds := by
    rcases right.holds holds with earlier | alive
    · exact left.holds earlier
    · exact .inr alive
  links {id} old :=
    have later : id.index < second.scopes.size :=
      left.has (show first.Has (.scope id) from old)
    (left.links old).trans (right.links later)

theorem serves (grows : before.Grows live after) (serves : before.Serves live) :
    after.Serves live where
  fresh absent other := serves.fresh (fun present => absent (grows.has present)) other
  named named := by
    rcases grows.named named with ⟨origin, earlier⟩ | alive
    · exact serves.named earlier
    · exact alive
  closed alive holds := by
    rcases grows.holds holds with earlier | target
    · exact serves.closed alive earlier
    · exact target

/-- Work on cells and slots. -/
theorem of_memory (heap : Heap Code) {memory : Memory} (grows : heap.memory.Grows live memory) :
    heap.Grows live { heap with memory } where
  has {handle} present := by
    cases handle with
    | cell id => exact Nat.lt_of_lt_of_le present grows.size
    | _ => exact present
  named := grows.named
  holds {holder target} holds := by
    cases holder with
    | cell id => exact grows.value holds
    | _ => exact .inl holds
  links _ := .refl _

end Grows

private theorem workScope_grows {id : ScopeId} {memory : Memory}
    (grows : heap.memory.Grows live memory) {change : Scope → Scope}
    (linked : (heap.scope id).Linked (change (heap.scope id)))
    (kept : ∀ target, (change (heap.scope id)).holds target = true →
      (heap.scope id).holds target = true ∨ live target) :
    heap.Grows live ({ heap with memory }.modifyScope id change) := by
  have scopes := scope_modifyScope_or { heap with memory } id
  have stepped := Grows.of_memory heap grows
  constructor
  · intro handle present
    cases handle with
    | scope other =>
        change other.index < (modifyScope { heap with memory } id change).scopes.size
        rw [size_modifyScope]
        exact present
    | _ => exact stepped.has present
  · exact stepped.named
  · intro holder target holds
    cases holder with
    | scope other =>
        rcases scopes other change with same | ⟨rfl, changed⟩
        · rw [holds_scope, same] at holds
          exact .inl holds
        · rw [holds_scope, changed] at holds
          exact kept target holds
    | _ => exact stepped.holds holds
  · intro other old
    rcases scopes other change with same | ⟨rfl, changed⟩
    · rw [same]
      exact .refl _
    · rw [changed]
      exact linked

private theorem modifyScope_grows {id : ScopeId} {change : Scope → Scope}
    (linked : (heap.scope id).Linked (change (heap.scope id)))
    (kept : ∀ target, (change (heap.scope id)).holds target = true →
      (heap.scope id).holds target = true ∨ live target) :
    heap.Grows live (heap.modifyScope id change) :=
  workScope_grows (.refl heap.memory) linked kept

/-! Allocation. -/

theorem newScope_grows {scope : Scope} (kept : scope.Kept live) :
    heap.Grows live (heap.newScope scope).2 := by
  constructor
  · intro handle present
    cases handle with
    | scope id =>
        refine Nat.lt_trans (show id.index < heap.scopes.size from present) ?_
        simp [newScope]
    | _ => exact present
  · exact fun named => .inl ⟨_, named⟩
  · intro holder target holds
    cases holder with
    | scope id =>
        by_cases same : id = (heap.newScope scope).1
        · refine .inr (kept target ?_)
          rw [← scope_newScope_self heap scope, ← same]
          exact holds
        · refine .inl ?_
          rwa [holds_scope, scope_newScope_ne same] at holds
    | _ => exact .inl holds
  · intro id old
    have apart : id ≠ (heap.newScope scope).1 := by
      rintro rfl
      exact Nat.lt_irrefl _ old
    rw [scope_newScope_ne apart]
    exact .refl _

theorem newArray_grows {elements : List Value} (frozen : Bool)
    (kept : ∀ value ∈ elements, value.Kept live) :
    heap.Grows live (heap.newArray elements frozen).2 := by
  constructor
  · intro handle present
    cases handle with
    | array id =>
        refine Nat.lt_trans (show id.index < heap.arrays.size from present) ?_
        simp [newArray]
    | _ => exact present
  · exact fun named => .inl ⟨_, named⟩
  · intro holder target holds
    cases holder with
    | array id =>
        by_cases same : id.index = heap.arrays.size
        · have made : (heap.newArray elements frozen).2.array id = ⟨elements.toArray, frozen⟩ := by
            simp [array, newArray, same]
          rw [holds_array, made] at holds
          obtain ⟨value, member, holds⟩ := Array.any_eq_true'.mp holds
          exact .inr (kept value (List.mem_toArray.mp member) target holds)
        · have other : (heap.newArray elements frozen).2.array id = heap.array id := by
            simp [array, newArray, Array.getElem?_push, same]
          rw [holds_array, other] at holds
          exact .inl holds
    | _ => exact .inl holds
  · exact fun _ => .refl _

theorem newException_grows {exception : ExceptionObject}
    (kept : ∀ value, exception.cause = some value → value.Kept live) :
    heap.Grows live (heap.newException exception).2 := by
  constructor
  · intro handle present
    cases handle with
    | exception id =>
        refine Nat.lt_trans (show id.index < heap.exceptions.size from present) ?_
        simp [newException]
    | _ => exact present
  · exact fun named => .inl ⟨_, named⟩
  · intro holder target holds
    cases holder with
    | exception id =>
        by_cases same : id.index = heap.exceptions.size
        · have made : (heap.newException exception).2.exception id = exception := by
            simp [Heap.exception, newException, same]
          rw [holds_exception, made] at holds
          obtain ⟨value, given, holds⟩ := (Option.any_eq_true ..).mp holds
          exact .inr (kept value given target holds)
        · have other : (heap.newException exception).2.exception id = heap.exception id := by
            simp [Heap.exception, newException, Array.getElem?_push, same]
          rw [holds_exception, other] at holds
          exact .inl holds
    | _ => exact .inl holds
  · exact fun _ => .refl _

theorem newFunction_grows {function : Function Code} (kept : function.Kept live) :
    heap.Grows live (heap.newFunction function).2 := by
  constructor
  · intro handle present
    cases handle with
    | function id =>
        refine Nat.lt_trans (show id.index < heap.functions.size from present) ?_
        simp [newFunction]
    | _ => exact present
  · exact fun named => .inl ⟨_, named⟩
  · intro holder target holds
    cases holder with
    | function id =>
        obtain ⟨other, found, holds⟩ := holds
        unfold function? newFunction at found
        rw [Array.getElem?_push] at found
        split at found
        next =>
          cases found
          exact .inr (kept target holds)
        next => exact .inl ⟨other, found, holds⟩
    | _ => exact .inl holds
  · exact fun _ => .refl _

private theorem newCell_grows {cell : Cell} (kept : cell.value.Kept live) :
    heap.Grows live (heap.newCell cell).2 :=
  .of_memory heap (Memory.new_grows heap.memory kept)

/-! Changes. -/

theorem modifyArray_grows {id : ArrayId} {change : Array Value → Array Value}
    (kept : ∀ value ∈ change (heap.array id).elements,
      value ∈ (heap.array id).elements ∨ value.Kept live) :
    heap.Grows live (heap.modifyArray id change).2 := by
  unfold modifyArray
  split
  next => exact .refl heap
  next =>
    constructor
    · intro handle present
      cases handle with
      | array other =>
          refine Nat.lt_of_lt_of_eq (show other.index < heap.arrays.size from present) ?_
          simp
      | _ => exact present
    · exact fun named => .inl ⟨_, named⟩
    · intro holder target holds
      cases holder with
      | array other =>
          obtain ⟨value, member, holding⟩ := Array.any_eq_true'.mp holds
          simp only [array, Array.getD_eq_getD_getElem?, Array.getElem?_modify] at member
          by_cases same : id.index = other.index
          · rw [if_pos same] at member
            cases found : heap.arrays[other.index]? with
            | none =>
                rw [found] at member
                exact (Array.not_mem_empty _ member).elim
            | some item =>
                have current : heap.array id = item := by
                  simp [array, same, found]
                rw [found] at member
                rcases kept value (current ▸ member) with earlier | alive
                · refine .inl (Array.any_eq_true'.mpr ⟨value, ?_, holding⟩)
                  have current : heap.array other = item := by simp [array, found]
                  rw [current]
                  simpa [array, same, found] using earlier
                · exact .inr (alive target holding)
          · rw [if_neg same] at member
            refine .inl (Array.any_eq_true'.mpr ⟨value, ?_, holding⟩)
            simpa [array] using member
      | _ => exact .inl holds
    · exact fun _ => .refl _

theorem modifyException_grows {id : ExceptionId} {change : ExceptionObject → ExceptionObject}
    (kept : ∀ exception value, (change exception).cause = some value →
      exception.cause = some value ∨ value.Kept live) :
    heap.Grows live (heap.modifyException id change) := by
  unfold modifyException
  constructor
  · intro handle present
    cases handle with
    | exception other =>
        refine Nat.lt_of_lt_of_eq (show other.index < heap.exceptions.size from present) ?_
        simp
    | _ => exact present
  · exact fun named => .inl ⟨_, named⟩
  · intro holder target holds
    cases holder with
    | exception other =>
        obtain ⟨value, given, holding⟩ := (Option.any_eq_true ..).mp holds
        simp only [Heap.exception, Array.getD_eq_getD_getElem?, Array.getElem?_modify] at given
        have before (earlier : (heap.exception other).cause = some value) :
            heap.Holds (.exception other) target :=
          (Option.any_eq_true ..).mpr ⟨value, earlier, holding⟩
        split at given
        next =>
          cases found : heap.exceptions[other.index]? with
          | none =>
              rw [found] at given
              cases given
          | some item =>
              rw [found] at given
              rcases kept item value given with earlier | alive
              · exact .inl (before (by simpa [Heap.exception, found] using earlier))
              · exact .inr (alive target holding)
        next => exact .inl (before (by simpa [Heap.exception] using given))
    | _ => exact .inl holds
  · exact fun _ => .refl _

/-! What live scopes and functions lead to. -/

section Links

variable (closed : ∀ {holder target : Handle}, live holder → heap.Holds holder target →
  live target) {id : ScopeId} (alive : live (.scope id))

include closed alive

private theorem live_previous {outer : ScopeId} (linked : (heap.scope id).previous = some outer) :
    live (.scope outer) :=
  closed alive (holds_scope.mpr (by simp [Scope.holds, linked, Handle.isScope]))

private theorem live_kind {target : Handle} (holds : (heap.scope id).kind.holds target = true) :
    live target :=
  closed alive (holds_scope.mpr (by simp [Scope.holds, holds]))

private theorem live_forkTarget {target : ScopeId} (fork : (heap.scope id).kind = .fork target) :
    live (.scope target) :=
  live_kind closed alive (by simp [fork, ScopeKind.holds, Handle.isScope])

private theorem live_forkedWithin (budget : Nat) : live (.scope (heap.forkedWithin budget id)) := by
  induction budget generalizing id with
  | zero => exact alive
  | succ budget induction =>
      unfold forkedWithin
      split
      next object fork => exact induction (live_forkTarget closed alive fork)
      next => exact alive

private theorem live_landingWithin (permission : Permission) (budget : Nat) :
    live (.scope (heap.landingWithin permission budget id)) := by
  induction budget generalizing id with
  | zero => exact alive
  | succ budget induction =>
      unfold landingWithin
      dsimp only
      split
      next maker previous kind linked =>
        split
        next => exact alive
        next => exact induction (live_previous closed alive linked)
      next object previous fork => exact induction (live_forkTarget closed alive fork)
      next => exact alive

private theorem live_chainWithin (budget : Nat) : ∀ other ∈ heap.chainWithin budget id,
    live (.scope other) := by
  induction budget generalizing id with
  | zero => exact nofun
  | succ budget induction =>
      intro other listed
      unfold chainWithin at listed
      rcases List.mem_cons.mp listed with rfl | listed
      · exact alive
      · cases linked : (heap.scope id).previous with
        | none =>
            rw [linked] at listed
            cases listed
        | some next =>
            rw [linked] at listed
            exact induction (live_previous closed alive linked) other listed

private theorem live_walkWithin {α : Type} {step : ScopeId → Scope → Step α} (good : α → Prop)
    (stops : ∀ {id result}, live (.scope id) → step id (heap.scope id) = .stop (some result) →
      good result)
    (jumps : ∀ {id next}, live (.scope id) → step id (heap.scope id) = .jump next →
      live (.scope next))
    (budget : Nat) {result : α} (found : heap.walkWithin step budget id = some result) :
    good result := by
  induction budget generalizing id with
  | zero => cases found
  | succ budget induction =>
      unfold walkWithin at found
      dsimp only at found
      split at found
      next outcome stopped => exact stops alive (found ▸ stopped)
      next next jumped => exact induction (jumps alive jumped) found
      next =>
        split at found
        next => cases found
        next next linked => exact induction (live_previous closed alive linked) found

private theorem live_constructedBy {function : FunctionId}
    (found : heap.constructedBy? id = some function) : live (.function function) := by
  refine live_walkWithin closed alive (fun function => live (.function function)) ?_ ?_ _ found
  · intro other result alive stopped
    split at stopped
    next maker kind =>
      cases stopped
      exact live_kind closed alive (by simp [kind, ScopeKind.holds, Handle.isFunction])
    next => cases stopped
    next => cases stopped
  · intro other next alive jumped
    split at jumped
    next => cases jumped
    next object fork =>
      cases jumped
      exact live_forkTarget closed alive fork
    next => cases jumped

theorem live_this? {value : Value} (found : heap.this? id = some value) : value.Kept live := by
  refine live_walkWithin closed alive (·.Kept live) ?_ ?_ _ found
  · intro other value alive stopped
    split at stopped
    next receiver _ _ kind =>
      cases stopped
      exact fun target holds => live_kind closed alive (by simp [kind, ScopeKind.holds, holds])
    next =>
      cases stopped
      exact Value.kept_object alive
    next object fork =>
      cases stopped
      exact Value.kept_object (live_forkTarget closed alive fork)
    next => cases stopped
    next => cases stopped
  · intro other next _ jumped
    split at jumped <;> cases jumped

theorem live_super? {value : Value} (found : heap.super? id = some value) : value.Kept live := by
  have ofParent {maker : FunctionId} (alive : live (.function maker)) {value : Value}
      (given : (heap.function? maker).map (·.parent) = some value) : value.Kept live := by
    obtain ⟨function, found, rfl⟩ := Option.map_eq_some_iff.mp given
    exact fun target holds => closed alive ⟨function, found, by simp [Function.holds, holds]⟩
  refine live_walkWithin closed alive (·.Kept live) ?_ ?_ _ found
  · intro other value alive stopped
    have made (maker : FunctionId) (kind : (heap.scope other).kind.holds (.function maker) = true) :
        live (.function maker) := live_kind closed alive kind
    split at stopped
    next invocation kind =>
      split at stopped
      next overridden given =>
        cases stopped
        obtain ⟨function, found, given⟩ := Option.bind_eq_some_iff.mp given
        have called := made invocation.function (by simp [kind, ScopeKind.holds, Handle.isFunction])
        exact fun target holds =>
          closed called ⟨function, found, by simp [Function.holds, given, holds]⟩
      next => cases stopped
    next maker kind =>
      exact ofParent (made maker (by simp [kind, ScopeKind.holds, Handle.isFunction]))
        (by simpa using stopped)
    next maker kind =>
      exact ofParent (made maker (by simp [kind, ScopeKind.holds, Handle.isFunction]))
        (by simpa using stopped)
    next => cases stopped
    next => cases stopped
    next => cases stopped
    next => cases stopped
  · intro other next alive jumped
    split at jumped
    next => split at jumped <;> cases jumped
    next => cases jumped
    next => cases jumped
    next object fork =>
      cases jumped
      exact live_forkTarget closed alive fork
    next => cases jumped
    next => cases jumped
    next => cases jumped

theorem live_callee? {value : Value} (found : heap.callee? id = some value) :
    value.Kept live := by
  refine live_walkWithin closed alive (·.Kept live) ?_ ?_ _ found
  · intro other value alive stopped
    split at stopped
    next invocation kind =>
      cases stopped
      exact Value.kept_function
        (live_kind closed alive (by simp [kind, ScopeKind.holds, Handle.isFunction]))
    next function kind =>
      cases stopped
      exact Value.kept_function
        (live_kind closed alive (by simp [kind, ScopeKind.holds, Handle.isFunction]))
    next => cases stopped
    next => cases stopped
  · intro other next _ jumped
    split at jumped <;> cases jumped

end Links

private theorem live_lineageWithin (closed : ∀ {holder target : Handle}, live holder →
    heap.Holds holder target → live target) {id : FunctionId} (alive : live (.function id))
    (budget : Nat) :
    ∀ other ∈ (heap.lineageWithin budget id).functions, live (.function other) := by
  induction budget generalizing id with
  | zero => exact nofun
  | succ budget induction =>
      unfold lineageWithin
      split
      next => exact nofun
      next function found =>
        have parent_live {parent : FunctionId} (parent_eq : function.parent = .function parent) :
            live (.function parent) :=
          closed alive ⟨function, found, by simp [Function.holds, parent_eq, Value.holds]⟩
        split
        next parent parent_eq =>
          intro other listed
          rcases List.mem_cons.mp listed with rfl | listed
          · exact alive
          · exact induction (parent_live parent_eq) other listed
        next =>
          intro other listed
          rcases List.mem_cons.mp listed with rfl | listed
          · exact alive
          · cases listed

/-! Members. -/

structure Finds (live : Handle → Prop) (before : Heap Code) (outcome : Option CellId × Heap Code) :
    Prop where
  grows : before.Grows live outcome.2
  found : ∀ cell, outcome.1 = some cell → live (.cell cell)

private theorem Finds.nothing (heap : Heap Code) :
    Finds live heap (none, heap) := ⟨.refl heap, nofun⟩

theorem Finds.trans {before middle : Heap Code} {outcome : Option CellId × Heap Code}
    (grows : before.Grows live middle) (finds : Finds live middle outcome) :
    Finds live before outcome :=
  ⟨grows.trans finds.grows, finds.found⟩

private theorem Finds.orElse {found : Option CellId × Heap Code}
    {next : Heap Code → Option CellId × Heap Code} (first : Finds live heap found)
    (further : heap.Grows live found.2 → Finds live found.2 (next found.2)) :
    Finds live heap (orElse found next) := by
  obtain ⟨_ | cell, middle⟩ := found
  · exact (further first.grows).trans first.grows
  · exact first

private theorem firstFound_finds {Place : Type}
    {ask : Place → Heap Code → Option CellId × Heap Code}
    {places : List Place} (serves : heap.Serves live)
    (each : ∀ place ∈ places, ∀ {heap}, heap.Serves live → Finds live heap (ask place heap)) :
    Finds live heap (firstFound ask places heap) :=
  firstFound_induction (motive := fun heap outcome => heap.Serves live → Finds live heap outcome)
    (fun heap _ => .nothing heap) (fun place listed _ _ further serves =>
      (each place listed serves).orElse fun grows => further _ (grows.serves serves)) heap serves

private theorem members_kept (serves : heap.Serves live) {id : ScopeId} (alive : live (.scope id)) :
    (heap.scope id).members.Kept live := by
  intro cell listed
  refine serves.closed alive (show (heap.scope id).holds (.cell cell) = true from ?_)
  have any : (heap.scope id).members.heapCells.any (Handle.isCell (.cell cell)) = true :=
    Array.any_eq_true'.mpr ⟨cell, listed, by simp [Handle.isCell]⟩
  simp [Scope.holds, any]

/-- New members in place of the old ones. -/
theorem holds_members {scope : Scope} {members : Table} (kept : members.Kept live)
    {index : Index} {pooled : Bool} {target : Handle}
    (holds : ({ scope with index, members, pooled } : Scope).holds target = true) :
    scope.holds target = true ∨ live target := by
  unfold Scope.holds at holds ⊢
  simp only [Bool.or_eq_true] at holds ⊢
  rcases holds with (previous | listed) | kind
  · exact .inl (.inl (.inl previous))
  · obtain ⟨cell, member, same⟩ := Array.any_eq_true'.mp listed
    exact .inr (Handle.eq_of_isCell same ▸ kept cell member)
  · exact .inl (.inr kind)

private theorem slotCell_grows (serves : heap.Serves live) {id : ScopeId} (alive : live (.scope id))
    (slot : Nat) :
    heap.Grows live (heap.slotCell id slot).2 ∧ live (.cell (heap.slotCell id slot).1) := by
  have touched := @Table.cellAt_grows live (heap.scope id).members _ serves.memory slot
  have kept := touched.kept (members_kept serves alive)
  refine ⟨workScope_grows touched.memory ⟨rfl, rfl, rfl⟩ fun target => holds_members kept, ?_⟩
  exact Table.cellAt_live serves.memory (members_kept serves alive) slot

private theorem trailingCell_finds (serves : heap.Serves live) {id : ScopeId}
    (alive : live (.scope id))
    {invocation : Invocation} (kind : (heap.scope id).kind = .function invocation) :
    heap.Grows live (heap.trailingCell id invocation).2 ∧
      live (.cell (heap.trailingCell id invocation).1) := by
  unfold trailingCell
  split
  next cell bound =>
    refine ⟨.refl heap, live_kind serves.closed alive ?_⟩
    simp [kind, ScopeKind.holds, bound, Handle.isCell]
  next =>
    have trailing : ∀ value ∈ invocation.trailing, value.Kept live := by
      intro value listed target holds
      refine live_kind serves.closed alive ?_
      have any : invocation.trailing.any (Value.holds target) = true :=
        List.any_eq_true.mpr ⟨value, listed, holds⟩
      simp [kind, ScopeKind.holds, any]
    have array : live (.array ⟨heap.arrays.size⟩) :=
      serves.fresh (Nat.lt_irrefl _) fun id same => by cases same
    have fresh : live (.cell ⟨heap.memory.cells.size⟩) :=
      serves.fresh (Nat.lt_irrefl _) fun id same => by cases same
    have made : heap.Grows live (heap.newArray invocation.trailing true).2 :=
      newArray_grows true trailing
    have constant : (Cell.constant (.array ⟨heap.arrays.size⟩)).value.Kept live := by
      intro target holds
      cases target with
      | array id =>
          have same : id = ⟨heap.arrays.size⟩ := by
            simpa [Cell.constant, Value.holds] using holds
          exact same ▸ array
      | _ => cases holds
    have celled : (heap.newArray invocation.trailing true).2.Grows live
        ((heap.newArray invocation.trailing true).2.newCell
          (.constant (.array ⟨heap.arrays.size⟩))).2 := newCell_grows constant
    refine ⟨made.trans (celled.trans (modifyScope_grows ⟨rfl, ?_, ?_⟩ fun target holds => ?_)),
      fresh⟩
    · change none = (heap.scope id).kind.target?
      rw [kind]
      rfl
    · change ScopeVariant.function = (heap.scope id).kind.variant
      rw [kind]
      rfl
    · change Scope.holds target { heap.scope id with kind := _ } = true at holds
      change (heap.scope id).holds target = true ∨ live target
      simp only [Scope.holds, ScopeKind.holds, Bool.or_eq_true] at holds ⊢
      rw [kind]
      simp only [Bool.or_eq_true]
      rcases holds with outer | ((function | receiver) | values) | cell
      · exact .inl (.inl outer)
      · exact .inl (.inr (.inl (.inl (.inl function))))
      · exact .inl (.inr (.inl (.inl (.inr receiver))))
      · exact .inl (.inr (.inl (.inr values)))
      · exact .inr (Handle.eq_of_isCell cell ▸ fresh)

private theorem storedMember_finds (serves : heap.Serves live) {id : ScopeId}
    (alive : live (.scope id))
    (name : String) : Finds live heap (heap.storedMember id name) := by
  unfold storedMember
  dsimp only
  split
  next slot _ _ =>
    obtain ⟨grown, here⟩ := slotCell_grows serves alive slot
    refine ⟨grown, fun cell found => ?_⟩
    dsimp only at found
    split at found
    next => cases found
    next =>
      cases found
      exact here
  next invocation kind _ =>
    split
    next =>
      obtain ⟨grown, here⟩ := trailingCell_finds serves alive kind
      refine ⟨grown, fun cell found => ?_⟩
      cases found
      exact here
    next => exact .nothing heap
  next slot _ _ =>
    refine ⟨.refl heap, fun cell found => ?_⟩
    obtain ⟨named, -⟩ := Option.filter_eq_some_iff.mp found
    have kept := members_kept serves alive
    generalize (heap.scope id).members = members at named kept
    cases members with
    | onHeap cells reserved => exact kept cell (Table.mem_heapCells.mpr ⟨slot, named⟩)
    | inArena slice length => exact serves.named (Table.peek_of_cell? named).2
  next => exact .nothing heap

theorem ownMember_finds (serves : heap.Serves live) {id : ScopeId} (alive : live (.scope id))
    (name : String) : Finds live heap (heap.ownMember id name) :=
  storedMember_finds serves (live_forkedWithin serves.closed alive _) name

theorem createMember_grows (serves : heap.Serves live) {id : ScopeId} (alive : live (.scope id))
    (name : String) (permission : Permission) :
    heap.Grows live (heap.createMember id name permission).2 ∧
      live (.cell (heap.createMember id name permission).1) := by
  have lands : live (.scope (heap.landing permission id)) :=
    live_landingWithin serves.closed alive ..
  unfold createMember
  generalize heap.landing permission id = target at lands ⊢
  dsimp only
  generalize (heap.scope target).index.insert name permission = inserted
  have renamed : heap.Grows live (heap.modifyScope target fun scope =>
      { scope with index := inserted.2 }) := modifyScope_grows ⟨rfl, rfl, rfl⟩ fun _ => .inl
  obtain ⟨touched, here⟩ := slotCell_grows (renamed.serves serves) lands inserted.1
  exact ⟨renamed.trans (touched.trans (.of_memory _ (Memory.declareCell_grows ..))), here⟩

/-! Resolution. -/

private theorem lookupAlong_finds (serves : heap.Serves live) (name : String) {chain : List ScopeId}
    (alive : ∀ id ∈ chain, live (.scope id)) : Finds live heap (heap.lookupAlong name chain) :=
  firstFound_finds serves fun id listed _ serves => ownMember_finds serves (alive id listed) name

theorem lookup_finds (serves : heap.Serves live) {id : ScopeId} (alive : live (.scope id))
    (name : String) : Finds live heap (heap.lookup id name) :=
  lookupAlong_finds serves name (live_chainWithin serves.closed alive _)

private theorem staticMember_finds (serves : heap.Serves live) {id : FunctionId}
    (alive : live (.function id)) (name : String) :
    Finds live heap (heap.staticMember id name) := by
  unfold staticMember
  split
  next => exact .nothing heap
  next scope statics =>
    obtain ⟨function, found, given⟩ := Option.bind_eq_some_iff.mp statics
    refine ownMember_finds serves (serves.closed alive ⟨function, found, ?_⟩) name
    simp [Function.holds, given, Handle.isScope]

private theorem firstStatic_finds (serves : heap.Serves live) (name : String)
    {functions : List FunctionId} (alive : ∀ id ∈ functions, live (.function id)) :
    Finds live heap (heap.firstStatic name functions) :=
  firstFound_finds serves fun id listed _ serves => staticMember_finds serves (alive id listed) name

private theorem scopeMember_finds (serves : heap.Serves live) {id : ScopeId}
    (alive : live (.scope id))
    (name : String) : Finds live heap (heap.scopeMember id name) := by
  apply (ownMember_finds serves alive name).orElse
  intro grows
  have serves' := grows.serves serves
  unfold sharedMember
  split
  next function found =>
    have maker := live_constructedBy serves'.closed alive found
    exact firstStatic_finds serves' name fun other listed =>
      live_lineageWithin serves'.closed maker _ other (List.mem_reverse.mp listed)
  next => exact .nothing _

private theorem constant_finds (serves : heap.Serves live) {content : Value}
    (kept : content.Kept live) :
    Finds live heap (some (heap.newCell (.constant content)).1,
      (heap.newCell (.constant content)).2) := by
  refine ⟨newCell_grows kept, fun cell found => ?_⟩
  cases found
  exact serves.fresh (Nat.lt_irrefl _) nofun

theorem member_finds (serves : heap.Serves live) {value : Value} (kept : value.Kept live)
    (name : String) : Finds live heap (heap.member value name) := by
  have plain {content : Value} (nothing : ∀ target, content.holds target = false) :=
    constant_finds serves (Value.kept_of_holds_nothing nothing : content.Kept live)
  unfold member
  cases value with
  | object scope => exact scopeMember_finds serves (kept _ (by simp [Value.holds])) name
  | function function => exact staticMember_finds serves (kept _ (by simp [Value.holds])) name
  | exception id =>
      dsimp only
      split
      next => exact plain fun target => by cases target <;> rfl
      next =>
        split
        next =>
          refine constant_finds serves fun target holds => ?_
          refine serves.closed (kept (.exception id) (by simp [Value.holds]))
            (holds_exception.mpr ?_)
          cases cause : (heap.exception id).cause with
          | none =>
              rw [cause] at holds
              cases (holds_null target).symm.trans holds
          | some value =>
              rw [cause] at holds
              exact holds
        next => exact .nothing heap
  | array id =>
      dsimp only
      split
      next => exact plain fun target => by cases target <;> rfl
      next => exact .nothing heap
  | text text =>
      dsimp only
      split
      next => exact plain fun target => by cases target <;> rfl
      next => exact .nothing heap
  | _ => exact .nothing heap

/-! Promotion and globals. -/

theorem detach_grows_of_kept (serves : heap.memory.Serves live) {id : ScopeId}
    (kept : (heap.scope id).members.Kept live) : heap.Grows live (heap.detach id) := by
  unfold detach
  dsimp only
  split
  next =>
    have copied := @Table.safeCopy_grows live (heap.scope id).members _ serves
    exact workScope_grows copied.memory ⟨rfl, rfl, rfl⟩ fun _ => holds_members (copied.kept kept)
  next => exact workScope_grows (.refl _) ⟨rfl, rfl, rfl⟩ fun _ => holds_members kept

theorem detach_grows (serves : heap.Serves live) {id : ScopeId} (alive : live (.scope id)) :
    heap.Grows live (heap.detach id) :=
  detach_grows_of_kept serves.memory (members_kept serves alive)

theorem installBuiltins_grows (serves : heap.Serves live) {scope : ScopeId}
    (alive : live (.scope scope)) : heap.Grows live (heap.installBuiltins scope) := by
  unfold installBuiltins
  generalize BuiltinType.globals = types
  induction types generalizing heap with
  | nil => exact .refl heap
  | cons type types induction =>
      obtain ⟨created, -⟩ :=
        createMember_grows serves alive type.name (.union .publicTier .const)
      have plain : (Value.type type).Kept live :=
        Value.kept_of_holds_nothing fun target => by cases target <;> rfl
      have bound := created.trans (.of_memory _ (Memory.setCell_grows _
        (heap.createMember scope type.name (.union .publicTier .const)).1
        (fun cell => (rfl : (cell.install (.type type)).value = .type type)) plain))
      exact bound.trans (induction (bound.serves serves))

theorem resetGlobal_grows (serves : heap.Serves live) {scope : ScopeId}
    (alive : live (.scope scope)) : heap.Grows live (heap.resetGlobal scope) := by
  have emptied : heap.Grows live (heap.modifyScope scope fun data =>
      { data with index := .empty, members := .empty }) :=
    modifyScope_grows ⟨rfl, rfl, rfl⟩ fun _ => holds_members Table.kept_empty
  exact emptied.trans (installBuiltins_grows (emptied.serves serves) alive)

end Heap

end ScopeMachine
