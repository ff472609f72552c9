import ScopeMachine.Proofs.Placement.Mirroring
import ScopeMachine.Proofs.Placement.Walking

namespace ScopeMachine

open Arena ScopeMachine.Action

namespace Link

variable {Code : Type}

/-- Cells that are in one place: a member of linked scopes, or what `in` is bound to in them. -/
inductive Places (link : Link) (left right : Heap Code) : CellId → CellId → Prop where
  | member {a b : ScopeId} {slot : Nat} {cell cell' : CellId}
      (paired : link.pairs (.scope a) (.scope b))
      (named : (left.scope a).members.cell? slot left.memory = some cell)
      (named' : (right.scope b).members.cell? slot right.memory = some cell') :
      Places link left right cell cell'
  | binding {a b : ScopeId} {cell cell' : CellId} (paired : link.pairs (.scope a) (.scope b))
      (named : (left.scope a).kind.trailingCell? = some cell)
      (named' : (right.scope b).kind.trailingCell? = some cell') :
      Places link left right cell cell'

def Holding (link : Link) (left right : Heap Code) (cell cell' : CellId) : Prop :=
  link.Cells (left.cell cell) (right.cell cell')

end Link

theorem Heap.contentAt_of_cell? {Code : Type} {heap : Heap Code} {id : ScopeId} {slot : Nat}
    {cell : CellId} (named : (heap.scope id).members.cell? slot heap.memory = some cell) :
    heap.contentAt id slot = heap.cell cell :=
  Table.content_of_cell? named

theorem Heap.binding?_of_named {Code : Type} {heap : Heap Code} {id : ScopeId} {cell : CellId}
    (named : (heap.scope id).kind.trailingCell? = some cell) :
    heap.binding? id = some (heap.cell cell) :=
  congrArg (Option.map heap.cell) named

namespace Terms

variable {Code α β : Type} {terms : Terms Code} {link link' : Link}
  {left left' right right' : Machine Code} {args args' : Table}

theorem Agree.places (agree : terms.Agree link left right) {cell cell' : CellId}
    (places : link.Places left.heap right.heap cell cell') :
    link.Holding left.heap right.heap cell cell' := by
  cases places with
  | member paired named named' =>
      have content := (agree.scopes paired).content
      rw [Link.Holding, ← Heap.contentAt_of_cell? named, ← Heap.contentAt_of_cell? named']
      exact content _
  | binding paired named named' =>
      have bound := (agree.scopes paired).binding
      rw [Heap.binding?_of_named named, Heap.binding?_of_named named'] at bound
      cases bound with
      | some cells => exact cells

/-- Two steps on the heaps, after which the machines mirror each other with nothing lost. -/
def Accords (terms : Terms Code) (args args' : Table) (link : Link) (left right : Machine Code)
    (related : Link → Heap Code → Heap Code → α → β → Prop) (step : α × Heap Code)
    (step' : β × Heap Code) : Prop :=
  ∃ link', Onward link left right link' (left.withHeap step.2) (right.withHeap step'.2) ∧
    terms.Mirrors link' args args' (left.withHeap step.2) (right.withHeap step'.2) ∧
    related link' step.2 step'.2 step.1 step'.1

namespace Accords

variable {γ δ : Type} {related : Link → Heap Code → Heap Code → α → β → Prop}
  {related' : Link → Heap Code → Heap Code → γ → δ → Prop}

theorem stay (mirrors : terms.Mirrors link args args' left right) {result : α} {result' : β}
    (results : related link left.heap right.heap result result') :
    terms.Accords args args' link left right related (result, left.heap) (result', right.heap) :=
  ⟨link, mirrors.stay _, mirrors, results⟩

theorem imp {step : α × Heap Code} {step' : β × Heap Code} {result : γ} {result' : δ}
    (accords : terms.Accords args args' link left right related step step')
    (implies : ∀ {link'},
      terms.Mirrors link' args args' (left.withHeap step.2) (right.withHeap step'.2) →
      related link' step.2 step'.2 step.1 step'.1 →
      related' link' step.2 step'.2 result result') :
    terms.Accords args args' link left right related' (result, step.2) (result', step'.2) :=
  have ⟨link', onward, mirrors, results⟩ := accords
  ⟨link', onward, mirrors, implies mirrors results⟩

theorem after {heap heap' : Heap Code} {step : α × Heap Code} {step' : β × Heap Code}
    (onward : Onward link left right link' (left.withHeap heap) (right.withHeap heap'))
    (accords : terms.Accords args args' link' (left.withHeap heap) (right.withHeap heap')
      related step step') : terms.Accords args args' link left right related step step' :=
  have ⟨link'', further, mirrors, results⟩ := accords
  ⟨link'', onward.trans further, mirrors, results⟩

theorem trans {step : α × Heap Code} {step' : β × Heap Code} {next : γ × Heap Code}
    {next' : δ × Heap Code}
    (accords : terms.Accords args args' link left right related step step')
    (further : ∀ {link'}, link.Grows link' →
      terms.Mirrors link' args args' (left.withHeap step.2) (right.withHeap step'.2) →
      related link' step.2 step'.2 step.1 step'.1 →
      terms.Accords args args' link' (left.withHeap step.2) (right.withHeap step'.2) related'
        next next') :
    terms.Accords args args' link left right related' next next' := by
  obtain ⟨link', onward, mirrors, results⟩ := accords
  obtain ⟨link'', onward', mirrors', results'⟩ := further onward.grows mirrors results
  exact ⟨link'', onward.trans onward', mirrors', results'⟩

end Accords

namespace Mirrors

variable (mirrors : terms.Mirrors link args args' left right)
include mirrors

theorem make {x y : Handle} {next next' : Table}
    (steps : left.Calm (fun _ => False) next left')
    (steps' : right.Calm (fun _ => False) next' right') (absent : ¬ left.Present x)
    (absent' : ¬ right.Present y) (present : left'.Present x) (present' : right'.Present y)
    (stand : terms.Stand (link.add x y False fun _ => False) left'.heap right'.heap x y)
    (plain : ∀ {a}, x ≠ .scope a) (bounds : terms.inStep → left'.bounds = right'.bounds) :
    Onward link left right (link.add x y False fun _ => False) left' right' ∧
      terms.Mirrors (link.add x y False fun _ => False) next next' left' right' :=
  ⟨onward_of_steps steps steps' (link.grows_add ..),
    mirrors.step steps steps' (mirrors.agree.add steps.extension steps'.extension absent absent'
      present present' stand (fun same => absurd same plain) (fun same => absurd same plain)
        id) bounds⟩

theorem newArray {values values' : List Value}
    (elements : List.Forall₂ link.Values values values') (frozen : Bool) :
    terms.Accords args args' link left right
      (fun link _ _ a b => link.pairs (.array a) (.array b))
      (left.heap.newArray values frozen) (right.heap.newArray values' frozen) := by
  have self : ∀ (heap : Heap Code) (values : List Value),
      (heap.newArray values frozen).2.array ⟨heap.arrays.size⟩ = ⟨values.toArray, frozen⟩ := by
    intro heap values
    simp [Heap.array, Heap.newArray]
  have there (heap : Heap Code) (values : List Value) :
      (heap.newArray values frozen).2.Has (.array ⟨heap.arrays.size⟩) := by
    simp [Heap.Has, Heap.newArray]
  have stand : (link.add (.array ⟨left.heap.arrays.size⟩) (.array ⟨right.heap.arrays.size⟩)
      False fun _ => False).Arrays ((left.heap.newArray values frozen).2.array
        ⟨left.heap.arrays.size⟩)
        ((right.heap.newArray values' frozen).2.array ⟨right.heap.arrays.size⟩) := by
    rw [self, self]
    exact ⟨(link.grows_add ..).listValues elements, rfl⟩
  obtain ⟨onward, made⟩ := mirrors.make (mirrors.arranged.newArray values frozen)
    (mirrors.arranged'.newArray values' frozen) (x := .array ⟨left.heap.arrays.size⟩)
    (y := .array ⟨right.heap.arrays.size⟩) (Nat.lt_irrefl _) (Nat.lt_irrefl _)
    (there left.heap values) (there right.heap values')
    stand (fun same => by cases same) mirrors.bounds
  exact ⟨_, onward, made, link.pairs_add ..⟩

theorem newException {exception exception' : ExceptionObject}
    (alike : link.Exceptions exception exception') :
    terms.Accords args args' link left right
      (fun link _ _ a b => link.pairs (.exception a) (.exception b))
      (left.heap.newException exception) (right.heap.newException exception') := by
  have self : ∀ (heap : Heap Code) (exception : ExceptionObject),
      (heap.newException exception).2.exception ⟨heap.exceptions.size⟩ = exception := by
    intro heap exception
    simp [Heap.exception, Heap.newException]
  have there (heap : Heap Code) (exception : ExceptionObject) :
      (heap.newException exception).2.Has (.exception ⟨heap.exceptions.size⟩) := by
    simp [Heap.Has, Heap.newException]
  have stand : (link.add (.exception ⟨left.heap.exceptions.size⟩)
      (.exception ⟨right.heap.exceptions.size⟩) False fun _ => False).Exceptions
        ((left.heap.newException exception).2.exception ⟨left.heap.exceptions.size⟩)
        ((right.heap.newException exception').2.exception ⟨right.heap.exceptions.size⟩) := by
    rw [self, self]
    exact ⟨alike.type, alike.message,
      alike.cause.imp fun _ _ _ _ => (link.grows_add ..).values, alike.backtrace⟩
  obtain ⟨onward, made⟩ := mirrors.make (mirrors.arranged.newException exception)
    (mirrors.arranged'.newException exception') (x := .exception ⟨left.heap.exceptions.size⟩)
    (y := .exception ⟨right.heap.exceptions.size⟩) (Nat.lt_irrefl _) (Nat.lt_irrefl _)
    (there left.heap exception) (there right.heap exception')
    stand (fun same => by cases same) mirrors.bounds
  exact ⟨_, onward, made, link.pairs_add ..⟩

theorem newFunction {function function' : Function Code}
    (functions : terms.Functions link function function') :
    terms.Accords args args' link left right
      (fun link _ _ f g => link.pairs (.function f) (.function g))
      (left.heap.newFunction function) (right.heap.newFunction function') := by
  have self : ∀ (heap : Heap Code) (function : Function Code),
      (heap.newFunction function).2.function? ⟨heap.functions.size⟩ = some function := by
    intro heap function
    simp [Heap.function?, Heap.newFunction]
  have there (heap : Heap Code) (function : Function Code) :
      (heap.newFunction function).2.Has (.function ⟨heap.functions.size⟩) := by
    simp [Heap.Has, Heap.newFunction]
  have grows := link.grows_add (.function ⟨left.heap.functions.size⟩)
    (.function ⟨right.heap.functions.size⟩) False fun _ => False
  have founded : Founded ⟨left.heap.functions.size⟩ function ∧
      Founded ⟨right.heap.functions.size⟩ function' := by
    have parents := functions.parent
    constructor
    · intro parent is
      rw [is] at parents
      generalize function'.parent = above at parents
      cases parents with
      | plain bare => cases bare
      | function paired => exact (mirrors.agree.present paired).1
    · intro parent is
      rw [is] at parents
      generalize function.parent = above at parents
      cases parents with
      | plain bare => cases bare
      | function paired => exact (mirrors.agree.present paired).2
  obtain ⟨onward, made⟩ := mirrors.make (mirrors.arranged.newFunction function)
    (mirrors.arranged'.newFunction function') (x := .function ⟨left.heap.functions.size⟩)
    (y := .function ⟨right.heap.functions.size⟩) (Nat.lt_irrefl _) (Nat.lt_irrefl _)
    (there left.heap function) (there right.heap function')
    ⟨function, function', self left.heap function, self right.heap function',
      functions.grow grows, founded⟩
    (fun same => by cases same) mirrors.bounds
  exact ⟨_, onward, made, link.pairs_add ..⟩

end Mirrors

def Solid (variant : ScopeVariant) : Prop := variant ≠ .basic ∧ variant ≠ .function

/-- What may be read in a new scope, given what may be read in the scope around it. -/
def scopeReads (variant : ScopeVariant) (reads : Reading → Prop) : Reading → Prop
  | .callee => variant = .basic → reads .callee
  | .trailing => reads .trailing
  | .replaced => True
  | .outside => variant ≠ .constructor

theorem scopeReads_of_callReads {variant : ScopeVariant} {reads reads' : Reading → Prop}
    {reading : Reading} (unblocked : variant ≠ .basic)
    (outer : reads .trailing → reads' .trailing) (allowed : callReads reads reading) :
    scopeReads variant reads' reading := by
  cases reading with
  | callee => exact fun block => absurd block unblocked
  | trailing => exact outer allowed
  | replaced => exact trivial
  | outside => exact allowed.elim

theorem scopeReads_of_blockReads {reads : Reading → Prop} {reading : Reading}
    (allowed : blockReads reads reading) : scopeReads .basic reads reading := by
  cases reading with
  | callee => exact fun _ => allowed
  | trailing => exact allowed
  | replaced => exact trivial
  | outside => exact nofun

/-- Linked scopes whose members are on the heap. -/
structure Makes (variant : ScopeVariant) (reads : Reading → Prop) (link : Link)
    (left right : Heap Code) (a b : ScopeId) : Prop where
  paired : link.pairs (.scope a) (.scope b)
  sure : ∀ {reading}, scopeReads variant reads reading → link.sure reading a b
  firm : Solid variant → link.firm a b
  unpooled : (left.scope a).pooled = false
  unpooled' : (right.scope b).pooled = false

/-- Two scopes just made, over linked ones. -/
structure Newcomers (link : Link) (left right : Heap Code) (previous previous' a b : ScopeId) :
    Prop where
  outer : (left.scope a).previous = some previous
  outer' : (right.scope b).previous = some previous'
  under : link.Under previous previous'
  base : (left.scope a).variant = .constructor → link.firm previous previous'
  members : (left.scope a).index.members = (right.scope b).index.members
  kinds : link.Kinds (left.scope a).kind (right.scope b).kind
  content : ∀ slot, link.Cells (left.contentAt a slot) (right.contentAt b slot)
  unbound : (left.scope a).kind.trailingCell? = none
  unbound' : (right.scope b).kind.trailingCell? = none

private theorem Newcomers.grounded {link : Link} {left right : Machine Code}
    {previous previous' a b : ScopeId}
    (newcomers : Newcomers link left.heap right.heap previous previous' a b)
    (busy : left.Busy a) (busy' : right.Busy b)
    (beyond : ∀ {a b}, link.Under a b → left.heap.Grounded a ∧ right.heap.Grounded b) :
    left.heap.Grounded a ∧ right.heap.Grounded b := by
  have targets := newcomers.kinds.targets
  constructor
  · refine .intro busy.1
      (fun last => absurd (newcomers.outer.symm.trans last) (Option.some_ne_none _))
      fun {next} linked => ?_
    rcases linked with before | target
    · cases newcomers.outer.symm.trans before
      exact (beyond newcomers.under).1
    · rw [target] at targets
      generalize (right.heap.scope b).kind.target? = target' at targets
      cases targets with
      | some paired => exact (beyond (.pair paired)).1
  · refine .intro busy'.1
      (fun last => absurd (newcomers.outer'.symm.trans last) (Option.some_ne_none _))
      fun {next} linked => ?_
    rcases linked with before | target
    · cases newcomers.outer'.symm.trans before
      exact (beyond newcomers.under).2
    · rw [target] at targets
      generalize (left.heap.scope a).kind.target? = target' at targets
      cases targets with
      | some paired => exact (beyond (.pair paired)).2

private theorem Newcomers.sure {link link' : Link} {left right : Heap Code}
    {previous previous' a b : ScopeId} {reading : Reading}
    (newcomers : Newcomers link left right previous previous' a b) (grows : link.Grows link')
    (paired : link'.pairs (.scope a) (.scope b))
    (reads : scopeReads (left.scope a).variant (fun reading => link.sure reading previous previous')
      reading) :
    link'.Sure left right reading a b := by
  cases reading with
  | callee =>
      refine ⟨paired, fun block => ?_⟩
      rw [newcomers.outer, newcomers.outer']
      exact .some (grows.sure (reads block))
  | trailing =>
      refine ⟨paired, ?_⟩
      rw [newcomers.outer, newcomers.outer']
      exact .some (grows.sure reads)
  | replaced => exact .inl paired
  | outside => exact ⟨reads, fun same => reads (newcomers.kinds.variant.trans same)⟩

theorem Mirrors.addScope (mirrors : terms.Mirrors link args args' left right)
    {o o' : ScopeId → Prop} {next next' : Table} (steps : left.Calm o next left')
    (steps' : right.Calm o' next' right') {previous previous' a b : ScopeId} (idle : ¬ left.Busy a)
    (idle' : ¬ right.Busy b) (busy : left'.Busy a) (busy' : right'.Busy b)
    (newcomers : Newcomers link left'.heap right'.heap previous previous' a b)
    (bounds : terms.inStep → left'.bounds = right'.bounds) :
    terms.Mirrors (link.add (.scope a) (.scope b) (Solid (left'.heap.scope a).variant)
        (scopeReads (left'.heap.scope a).variant fun reading =>
          link.sure reading previous previous'))
      next next' left' right' := by
  have outer := newcomers.outer
  have outer' := newcomers.outer'
  have grows := link.grows_add (.scope a) (.scope b) (Solid (left'.heap.scope a).variant)
    (scopeReads (left'.heap.scope a).variant fun reading => link.sure reading previous previous')
  have agree := mirrors.agree
  refine mirrors.step steps steps' (agree.add steps.extension steps'.extension idle idle' busy busy'
    ?_ ?_ ?_ fun _ => trivial) bounds
  · refine (?_ : Link.Scopes _ _ _ _ _)
    constructor
    · rw [outer, outer']
      exact .some (grows.under newcomers.under)
    · exact newcomers.members
    · exact grows.kinds newcomers.kinds
    · exact fun slot => grows.cells (newcomers.content slot)
    · rw [Heap.binding?, Heap.binding?, newcomers.unbound, newcomers.unbound']
      exact .none
    · exact fun object => .inr ⟨by rw [object]; exact ⟨by decide, by decide⟩, rfl, rfl⟩
    · rw [outer, outer']
      exact fun built => .some (grows.firm (newcomers.base built))
  · rintro _ _ ⟨⟩ ⟨⟩
    obtain ⟨here, there⟩ := newcomers.grounded busy busy' fun under =>
      agree.founded_extend under steps.extension steps'.extension
    exact ⟨here, there, id⟩
  · rintro _ _ ⟨⟩ ⟨⟩ reading
    refine ⟨newcomers.sure grows (link.pairs_add ..), fun apart other => ?_⟩
    obtain ⟨none, plain⟩ := agree.bare apart
    have paired : link.pairs (.scope previous) (.scope previous') := by
      cases newcomers.under with
      | pair paired => exact paired
      | veil veiled => exact absurd veiled (none _ _)
    cases reading with
    | callee => exact fun _ => plain paired fun same => by cases same
    | trailing => exact plain paired fun same => by cases same
    | replaced => exact trivial
    | outside => exact absurd rfl other

/-- A scope on the heap without members. -/
theorem Mirrors.newScope (mirrors : terms.Mirrors link args args' left right)
    {previous previous' : ScopeId} {index index' : Index} {kind kind' : ScopeKind}
    (under : link.Under previous previous') (members : index.members = index'.members)
    (kinds : link.Kinds kind kind')
    (base : kind.variant = .constructor → link.firm previous previous')
    (unbound : kind.trailingCell? = none) (unbound' : kind'.trailingCell? = none) :
    terms.Accords args args' link left right
      (Makes kind.variant fun reading => link.sure reading previous previous')
      (left.heap.newScope (.onHeap (some previous) index kind))
      (right.heap.newScope (.onHeap (some previous') index' kind')) := by
  have takes := Machine.newScope_takes mirrors.arranged.tidy (.onHeap (some previous) index kind)
  have takes' := Machine.newScope_takes mirrors.arranged'.tidy
    (.onHeap (some previous') index' kind')
  have self := takes.scope
  have self' := takes'.scope
  have steps : left.Calm (fun _ => False) args _ := takes.clear mirrors.arranged rfl unbound rfl
  have steps' : right.Calm (fun _ => False) args' _ :=
    takes'.clear mirrors.arranged' rfl unbound' rfl
  have variant := congrArg Scope.variant self
  have made := mirrors.addScope steps steps' takes.idle takes'.idle takes.busy takes'.busy
    ⟨congrArg Scope.previous self, congrArg Scope.previous self', under,
      fun built => base (variant.symm.trans built),
      by rw [self, self']; exact members, by rw [self, self']; exact kinds,
      fun slot => by
        rw [Heap.contentAt, Heap.contentAt, self, self']
        exact .blank link,
      by rw [self]; exact unbound, by rw [self']; exact unbound'⟩ mirrors.bounds
  exact ⟨_, onward_of_steps steps steps' (link.grows_add ..), made, link.pairs_add ..,
    fun reads => .inr ⟨by rw [variant]; exact reads, rfl, rfl⟩,
    fun solid => .inr ⟨by rw [variant]; exact solid, rfl, rfl⟩, congrArg Scope.pooled self,
    congrArg Scope.pooled self'⟩

end Terms

end ScopeMachine
