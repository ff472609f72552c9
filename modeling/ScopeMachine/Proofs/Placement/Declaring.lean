import ScopeMachine.Proofs.Placement.Finding

namespace ScopeMachine

open Arena ScopeMachine.Action

def Heap.insertName {Code : Type} (heap : Heap Code) (id : ScopeId) (name : String)
    (permission : Permission) : CellId × Heap Code :=
  (heap.modifyScope id fun scope =>
    { scope with index := ((heap.scope id).index.insert name permission).2 }).slotCell id
      ((heap.scope id).index.insert name permission).1

theorem Heap.createMember_eq {Code : Type} (heap : Heap Code) (id : ScopeId) (name : String)
    (permission : Permission) :
    heap.createMember id name permission =
      let place := heap.insertName (heap.landing permission id) name permission
      (place.1, place.2.modifyCell place.1 (·.declare permission)) := rfl

private theorem Heap.caught_of_unthrown {Code : Type} {heap : Heap Code} {fault : Fault}
    {backtrace : Option Backtrace} {notes : List String}
    (unthrown : ∀ value, fault ≠ .thrown value) :
    heap.caught ⟨fault, backtrace, notes⟩ =
      match fault.exceptionType? with
      | none => (none, heap)
      | some type =>
          let made := heap.newException { type, message := heap.faultMessage fault, backtrace }
          (some (.exception made.1), made.2) := by
  unfold caught
  split
  next thrown => exact absurd thrown (unthrown _)
  next => rfl

namespace Terms

variable {Code α β γ δ : Type} {terms : Terms Code} {link : Link} {left right : Machine Code}
  {args args' : Table} {kept : Handle → Handle → Prop} {held : List (Handle × Handle)}

namespace Mirrors

section Members

variable (mirrors : terms.Mirrors link .empty .empty left right)
include mirrors

theorem newConstant {value value' : Value} (values : link.Values value value') :
    terms.Accords .empty .empty link left right
      (fun link left right => Option.Rel (link.Holding left right))
      (some (left.heap.newCell (.constant value)).1, (left.heap.newCell (.constant value)).2)
      (some (right.heap.newCell (.constant value')).1,
        (right.heap.newCell (.constant value')).2) := by
  have self : ∀ (heap : Heap Code) (cell : Cell),
      (heap.newCell cell).2.cell (heap.newCell cell).1 = cell := by
    intro heap cell
    simp [Heap.cell, Heap.newCell, Memory.cell, Memory.new]
  refine mirrors.untouched (mirrors.arranged.newCell _) (mirrors.arranged'.newCell _)
    mirrors.bounds (.some ?_)
  rw [Link.Holding, self, self]
  exact ⟨values, rfl, rfl, rfl⟩

theorem member {value value' : Value} (values : link.Values value value') (name : String) :
    terms.Accords .empty .empty link left right
      (fun link left right => Option.Rel (link.Holding left right)) (left.heap.member value name)
      (right.heap.member value' name) := by
  have placed : ∀ {step step' : Option CellId × Heap Code},
      terms.Accords .empty .empty link left right Link.Finds step step' →
      terms.Accords .empty .empty link left right
        (fun link left right => Option.Rel (link.Holding left right)) step step' :=
    fun accords => accords.imp fun after finds => finds.imp fun _ _ _ _ => after.agree.places
  cases values with
  | object paired _ => exact placed (mirrors.scopeMember paired name)
  | function paired => exact placed (mirrors.staticMember paired name)
  | exception paired =>
      have alike := mirrors.agree.exception paired
      simp only [Heap.member, alike.message]
      split
      · exact mirrors.newConstant (.plain rfl)
      · split
        · exact mirrors.newConstant (.getD alike.cause rfl)
        · exact .stay mirrors .none
  | array paired =>
      have sizes := (mirrors.agree.array paired).elements.length_eq
      simp only [Array.length_toList] at sizes
      simp only [Heap.member, sizes]
      split
      · exact mirrors.newConstant (.plain rfl)
      · exact .stay mirrors .none
  | plain bare =>
      unfold Heap.member
      split
      · cases bare
      · cases bare
      · cases bare
      · cases bare
      · split
        · exact mirrors.newConstant (.plain rfl)
        · exact .stay mirrors .none
      · exact .stay mirrors .none

end Members

theorem caught (mirrors : terms.Mirrors link args args' left right)
    {failure failure' : Failure} (failures : link.Failures failure failure') :
    terms.Accords args args' link left right (fun link _ _ => Option.Rel link.Values)
      (left.heap.caught failure) (right.heap.caught failure') := by
  have faults := failures.fault
  obtain ⟨fault, backtrace, notes⟩ := failure
  obtain ⟨fault', backtrace', notes'⟩ := failure'
  cases faults with
  | thrown values => exact .stay mirrors (.some values)
  | plain unthrown =>
      rw [Heap.caught_of_unthrown unthrown, Heap.caught_of_unthrown unthrown]
      cases fault.exceptionType? with
      | none => exact .stay mirrors .none
      | some type =>
          have alike : link.Exceptions
              { type, message := left.heap.faultMessage fault, backtrace }
              { type, message := right.heap.faultMessage fault, backtrace := backtrace' } :=
            ⟨rfl, mirrors.agree.faultMessage (.plain unthrown), .none, failures.backtrace⟩
          exact (mirrors.newException alike).imp fun _ paired => .some (.exception paired)

/-- Firm scopes have no members in the arena. -/
theorem unpooled_of_firm (mirrors : terms.Mirrors link args args' left right) {a b : ScopeId}
    (firm : link.firm a b) :
    (left.heap.scope a).pooled = false ∧ (right.heap.scope b).pooled = false := by
  obtain ⟨paired, unblocked, uncalled⟩ := mirrors.agree.firm firm
  have same : (left.heap.scope a).variant = (right.heap.scope b).variant :=
    (mirrors.agree.scopes paired).kind.variant
  constructor
  · refine Bool.eq_false_iff.mpr fun pooled => ?_
    exact ((mirrors.arranged.heap.housed a).variant pooled).elim unblocked uncalled
  · refine Bool.eq_false_iff.mpr fun pooled => ?_
    rw [same] at unblocked uncalled
    exact ((mirrors.arranged'.heap.housed b).variant pooled).elim unblocked uncalled

theorem insertName (mirrors : terms.Mirrors link args args' left right) {a b : ScopeId}
    (paired : link.pairs (.scope a) (.scope b)) (name : String) (permission : Permission)
    (room : (left.heap.scope a).pooled = true →
      (left.heap.scope a).index.contains name = true)
    (room' : (right.heap.scope b).pooled = true →
      (right.heap.scope b).index.contains name = true) :
    terms.Accords args args' link left right Link.Places
      (left.heap.insertName a name permission) (right.heap.insertName b name permission) := by
  have scopes := mirrors.agree.scopes paired
  have present := mirrors.agree.present paired
  have ⟨slots, members⟩ := Index.insert_congr scopes.members name permission
  obtain ⟨steps, content, binding⟩ :=
    mirrors.arranged.insertName (o := fun _ => False) present.1 name permission room
  obtain ⟨steps', content', binding'⟩ :=
    mirrors.arranged'.insertName (o := fun _ => False) present.2 name permission room'
  have self : ∀ {heap : Heap Code} {id : ScopeId} (index : Index), id.index < heap.scopes.size →
      (heap.modifyScope id fun scope => { scope with index }).scope id =
        { heap.scope id with index } :=
    fun _ old => Heap.scope_modifyScope_self old _
  have ⟨onward, after⟩ := mirrors.touchScope paired steps steps'
    (by rw [self _ present.1.1, self _ present.2.1]; exact members)
    (by rw [self _ present.1.1, self _ present.2.1]; exact scopes.kind)
    (fun slot => by rw [content, content']; exact scopes.content slot)
    (by rw [binding, binding']; exact scopes.binding) mirrors.bounds
  have known := Index.slot?_insert_self (left.heap.scope a).index name permission
  have known' := Index.slot?_insert_self (right.heap.scope b).index name permission
  have fits := Eq.mpr (congrArg (fun scope : Scope => _ < scope.index.size)
    (self _ present.1.1)) (Index.slot?_lt known)
  have fits' := Eq.mpr (congrArg (fun scope : Scope => _ < scope.index.size)
    (self _ present.2.1)) (slots ▸ Index.slot?_lt known')
  rw [Heap.insertName, Heap.insertName, ← slots]
  exact .after onward (after.slotCell paired ((left.heap.scope a).index.insert name permission).1
    (fun _ => fits) fun _ => fits')

/-- A declaration lands where it is made or in a scope whose members are on the heap. -/
theorem createMember (mirrors : terms.Mirrors link args args' left right) {a b : ScopeId}
    (paired : link.pairs (.scope a) (.scope b)) (name : String) (permission : Permission)
    (room : (left.heap.scope a).pooled = true →
      (left.heap.scope a).index.contains name = true)
    (room' : (right.heap.scope b).pooled = true →
      (right.heap.scope b).index.contains name = true) :
    terms.Accords args args' link left right Link.Places
      (left.heap.createMember a name permission) (right.heap.createMember b name permission) := by
  obtain ⟨landed, place⟩ := mirrors.agree.landing paired permission
  have joins : (left.heap.scope (left.heap.landing permission a)).pooled = true →
      (left.heap.scope (left.heap.landing permission a)).index.contains name = true := by
    rcases place with ⟨same, -⟩ | firm
    · rw [same]
      exact room
    · exact fun pooled => absurd (pooled.symm.trans (mirrors.unpooled_of_firm firm).1) nofun
  have joins' : (right.heap.scope (right.heap.landing permission b)).pooled = true →
      (right.heap.scope (right.heap.landing permission b)).index.contains name = true := by
    rcases place with ⟨-, same⟩ | firm
    · rw [same]
      exact room'
    · exact fun pooled => absurd (pooled.symm.trans (mirrors.unpooled_of_firm firm).2) nofun
  rw [Heap.createMember_eq, Heap.createMember_eq]
  refine (mirrors.insertName landed name permission joins joins').trans
    fun {link'} grows mirrors' places => ?_
  have ⟨onward, after⟩ := mirrors'.write places (·.declare permission) (·.declare permission)
    ((mirrors'.agree.places places).declare permission)
  exact ⟨link', onward, after, places.modifyCell ..⟩

end Mirrors

end Terms

end ScopeMachine
