import ScopeMachine.Proofs.Frames.ScopesInUse
import ScopeMachine.Proofs.Liveness.Grounds
import ScopeMachine.Proofs.Placement.Links
import ScopeMachine.Proofs.Placement.SameView

namespace ScopeMachine

/-- What a piece of code may do in the scope it runs in: the names that it declares, and what it
reads there. -/
structure Licence where
  names : String → Prop
  reads : Reading → Prop

/-- The terms on which two runs are compared. -/
structure Terms (Code : Type) where
  /-- Both arenas are filled alike. -/
  inStep : Prop
  /-- The right machine may make a scope for a call where the left one makes none. -/
  veiled : Prop
  /-- The arrays and exceptions that the programs name. -/
  given : Handle → Prop
  /-- Arrays and exceptions that the programs have nothing to do with. -/
  aside : Handle → Prop
  /-- The heap that the things set aside come from. -/
  origin : Heap Code
  /-- Pieces of code that do the same, with no more than the licence allows. -/
  twins : Licence → Code → Code → Prop
  relax : ∀ {names : String → Prop} {reads reads' : Reading → Prop} {code code' : Code},
    (∀ {reading}, reads reading → reads' reading) → twins ⟨names, reads⟩ code code' →
      twins ⟨names, reads'⟩ code code'

namespace Heap

variable {Code : Type}

/-- The things given are arrays and exceptions that contain no others. -/
structure Supplies (heap : Heap Code) (given : Handle → Prop) : Prop where
  sort : ∀ {handle}, given handle →
    (∃ id, handle = .array id) ∨ ∃ id, handle = .exception id
  has : ∀ {handle}, given handle → heap.Has handle
  holds : ∀ {handle target}, given handle → heap.Holds handle target → given target

theorem Supplies.values {heap : Heap Code} {given : Handle → Prop} (supplies : heap.Supplies given)
    {link : Link} (pairs : ∀ {handle}, given handle → link.pairs handle handle) {value : Value}
    (named : ∀ handle ∈ value.handles, given handle) : link.Values value value := by
  cases value with
  | array id => exact .array (pairs (named _ (.head _)))
  | exception id => exact .exception (pairs (named _ (.head _)))
  | function id =>
      rcases supplies.sort (named _ (.head _)) with ⟨_, same⟩ | ⟨_, same⟩ <;> cases same
  | object id =>
      rcases supplies.sort (named _ (.head _)) with ⟨_, same⟩ | ⟨_, same⟩ <;> cases same
  | _ => exact .plain rfl

/-- A thing is as it was. -/
def Kept (before after : Heap Code) : Handle → Prop
  | .cell _ => True
  | .array id => after.array id = before.array id
  | .exception id => after.exception id = before.exception id
  | .function id => after.function? id = before.function? id
  | .scope id => before.SameView after id

theorem Kept.refl (heap : Heap Code) (handle : Handle) : heap.Kept heap handle := by
  cases handle with
  | cell id => exact trivial
  | scope id => exact SameView.refl heap id
  | array id => exact rfl
  | exception id => exact rfl
  | function id => exact rfl

theorem Kept.trans {first second third : Heap Code} {handle : Handle}
    (left : first.Kept second handle) (right : second.Kept third handle) :
    first.Kept third handle := by
  cases handle with
  | cell id => exact trivial
  | scope id => exact SameView.trans left right
  | array id => exact Eq.trans right left
  | exception id => exact Eq.trans right left
  | function id => exact Eq.trans right left

def Displays (heap : Heap Code) : Handle → Handle → Prop
  | .cell _, _ => False
  | .scope id, target =>
      (heap.scope id).previous.any target.isScope = true ∨
        (heap.scope id).kind.holds target = true ∨
        (∃ slot, (heap.contentAt id slot).value.holds target = true) ∨
        ∃ cell, heap.binding? id = some cell ∧ cell.value.holds target = true
  | handle, target => heap.Holds handle target

theorem Kept.shows {before after : Heap Code} {handle target : Handle}
    (kept : before.Kept after handle) :
    after.Displays handle target ↔ before.Displays handle target := by
  cases handle with
  | cell id => exact .rfl
  | array id =>
      change after.array id = before.array id at kept
      simp only [Displays, Holds, kept]
  | exception id =>
      change after.exception id = before.exception id at kept
      simp only [Displays, Holds, kept]
  | function id =>
      change after.function? id = before.function? id at kept
      simp only [Displays, Holds, kept]
  | scope id =>
      have sameView : before.SameView after id := kept
      simp only [Displays, sameView.previous, sameView.kind, sameView.content, sameView.binding]

end Heap

namespace Terms

variable {Code : Type} (terms : Terms Code) (link : Link)

structure Nodes (licence : Licence) (left right : Node Code) : Prop where
  id : left.id = right.id
  file : left.file = right.file
  members : ∀ view, (left.shape.table view).members = (right.shape.table view).members
  twins : terms.twins licence left.code right.code

/-- What may be read in a block. -/
def blockReads (reads : Reading → Prop) : Reading → Prop
  | .callee => reads .callee
  | .trailing => reads .trailing
  | .replaced | .outside => True

/-- What may be read in the scope of a call or of a constructor. -/
def callReads (reads : Reading → Prop) : Reading → Prop
  | .callee | .replaced => True
  | .trailing => reads .trailing
  | .outside => False

/-- What a body may read, given what may be read where its function was made. If it may be run
there, neither `callee` nor `in` is its own. -/
def bodyReads (definition : Definition Code) (reads : Reading → Prop) (reading : Reading) : Prop :=
  if definition.skipsScope then reading = .replaced ∧ reads .outside else callReads reads reading

theorem callReads_of_bodyReads {definition : Definition Code} {reads : Reading → Prop}
    {reading : Reading} (allowed : bodyReads definition reads reading) :
    callReads reads reading := by
  unfold bodyReads at allowed
  split at allowed
  next => exact allowed.1 ▸ trivial
  next => exact allowed

theorem bodyReads_replaced (definition : Definition Code) {reads : Reading → Prop}
    (outside : reads .outside) : bodyReads definition reads .replaced := by
  unfold bodyReads
  split
  next => exact ⟨rfl, outside⟩
  next => exact trivial

theorem replaced_of_bodyReads {definition : Definition Code} {reads : Reading → Prop}
    {reading : Reading} (skips : definition.skipsScope = true)
    (allowed : bodyReads definition reads reading) : reading = .replaced ∧ reads .outside := by
  rwa [bodyReads, if_pos skips] at allowed

section Reads

variable {reads reads' : Reading → Prop} (more : ∀ {reading}, reads reading → reads' reading)
  {reading : Reading}
include more

theorem blockReads_mono (allowed : blockReads reads reading) : blockReads reads' reading := by
  cases reading with
  | callee => exact more allowed
  | trailing => exact more allowed
  | replaced => exact trivial
  | outside => exact trivial

theorem callReads_mono (allowed : callReads reads reading) : callReads reads' reading := by
  cases reading with
  | callee => exact trivial
  | trailing => exact more allowed
  | replaced => exact trivial
  | outside => exact allowed

theorem bodyReads_mono {definition : Definition Code}
    (allowed : bodyReads definition reads reading) : bodyReads definition reads' reading := by
  unfold bodyReads at allowed ⊢
  split at allowed
  next skips => exact if_pos skips ▸ allowed.imp_right more
  next stays => exact if_neg stays ▸ callReads_mono more allowed

end Reads

/-- Two definitions that differ at most in whether they capture, made where some readings are sure.
A call that needs no scope of its own declares nothing. -/
structure Definitions (reads : Reading → Prop) (left right : Definition Code) : Prop where
  name : left.name = right.name
  params : left.params = right.params
  rest : left.rest = right.rest
  blockLocals : left.blockLocals = right.blockLocals
  implicitBindings : left.implicitBindings = right.implicitBindings
  captures : terms.inStep → left.captures = right.captures
  body : terms.Nodes ⟨fun name => left.body.shape.all.contains name = true, bodyReads left reads⟩
    left.body right.body
  bare : left.skipsScope = true → left.body.shape.all.members = #[]
  statics : Option.Rel
    (terms.Nodes ⟨fun _ => True, blockReads reads⟩) left.statics right.statics
  superArguments : Option.Rel
    (terms.Nodes ⟨fun _ => True, callReads reads⟩) left.superArguments right.superArguments

namespace Definitions

variable {terms : Terms Code} {reads : Reading → Prop} {left right : Definition Code}
  (definitions : terms.Definitions reads left right)
include definitions

theorem relax {reads' : Reading → Prop} (more : ∀ {reading}, reads reading → reads' reading) :
    terms.Definitions reads' left right where
  name := definitions.name
  params := definitions.params
  rest := definitions.rest
  blockLocals := definitions.blockLocals
  implicitBindings := definitions.implicitBindings
  captures := definitions.captures
  body := { definitions.body with
    twins := terms.relax (bodyReads_mono more) definitions.body.twins }
  bare := definitions.bare
  statics := definitions.statics.imp fun _ _ _ _ nodes =>
    { nodes with twins := terms.relax (blockReads_mono more) nodes.twins }
  superArguments := definitions.superArguments.imp fun _ _ _ _ nodes =>
    { nodes with twins := terms.relax (callReads_mono more) nodes.twins }

theorem arity : left.arity = right.arity := congrArg List.length definitions.params

theorem isVariadic : left.isVariadic = right.isVariadic := congrArg Option.isSome definitions.rest

theorem accepts (count : Nat) : left.accepts count = right.accepts count := by
  rw [Definition.accepts, Definition.accepts, definitions.arity, definitions.isVariadic]

theorem skipsScope : left.skipsScope = right.skipsScope := by
  rw [Definition.skipsScope, Definition.skipsScope, definitions.blockLocals,
    definitions.implicitBindings, definitions.params, definitions.rest]

end Definitions

structure Functions (left right : Function Code) : Prop where
  enclosing : link.Under left.enclosing right.enclosing
  parent : link.Values left.parent right.parent
  definition : terms.Definitions (fun reading => link.sure reading left.enclosing right.enclosing)
    left.definition right.definition
  statics : Option.Rel (fun a b => link.pairs (.scope a) (.scope b)) left.statics right.statics
  overridden : Option.Rel link.Values left.overridden right.overridden

end Terms

namespace Link

variable {Code : Type} (link : Link)

structure Arrays (left right : ArrayObject) : Prop where
  elements : List.Forall₂ link.Values left.elements.toList right.elements.toList
  frozen : left.frozen = right.frozen

structure Exceptions (left right : ExceptionObject) : Prop where
  type : left.type = right.type
  message : left.message = right.message
  cause : Option.Rel link.Values left.cause right.cause
  backtrace : left.backtrace = right.backtrace

/-- Two scopes that look alike. Objects are firm, and so is what a constructor builds on. -/
structure Scopes (left right : Heap Code) (a b : ScopeId) : Prop where
  previous : Option.Rel link.Under (left.scope a).previous (right.scope b).previous
  members : (left.scope a).index.members = (right.scope b).index.members
  kind : link.Kinds (left.scope a).kind (right.scope b).kind
  content : ∀ slot, link.Cells (left.contentAt a slot) (right.contentAt b slot)
  binding : Option.Rel link.Cells (left.binding? a) (right.binding? b)
  object : (left.scope a).variant = .object → link.firm a b
  base : (left.scope a).variant = .constructor →
    Option.Rel link.firm (left.scope a).previous (right.scope b).previous

def Sure (left right : Heap Code) : Reading → ScopeId → ScopeId → Prop
  | .callee, a, b => link.pairs (.scope a) (.scope b) ∧ ((left.scope a).variant = .basic →
      Option.Rel (link.sure .callee) (left.scope a).previous (right.scope b).previous)
  | .trailing, a, b => link.pairs (.scope a) (.scope b) ∧
      Option.Rel (link.sure .trailing) (left.scope a).previous (right.scope b).previous
  | .replaced, a, b => link.pairs (.scope a) (.scope b) ∨
      (left.scope a).variant ≠ .constructor ∧ (right.scope b).variant ≠ .constructor
  | .outside, a, b =>
      (left.scope a).variant ≠ .constructor ∧ (right.scope b).variant ≠ .constructor

end Link

structure Heap.Veils {Code : Type} (heap : Heap Code) (id next : ScopeId) : Prop where
  previous : (heap.scope id).previous = some next
  nameless : (heap.scope id).index.members = #[]
  call : ∃ invocation function, (heap.scope id).kind = .function invocation ∧
    invocation.receiver = none ∧ heap.function? invocation.function = some function ∧
    function.overridden = none

theorem Heap.Veils.variant {Code : Type} {heap : Heap Code} {id next : ScopeId}
    (veils : heap.Veils id next) : (heap.scope id).variant = .function := by
  obtain ⟨_, _, kind, -⟩ := veils.call
  exact congrArg ScopeKind.variant kind

theorem Heap.Veils.displays {Code : Type} {heap : Heap Code} {id next : ScopeId}
    (veils : heap.Veils id next) : heap.Displays (.scope id) (.scope next) :=
  .inl (by simp [veils.previous, Handle.isScope])

theorem Heap.Veils.carry {Code : Type} {heap heap' : Heap Code} {id next : ScopeId}
    (veils : heap.Veils id next) (sameView : heap.SameView heap' id)
    (function? : ∀ {id function}, heap.function? id = some function →
      heap'.function? id = some function) : heap'.Veils id next where
  previous := sameView.previous.trans veils.previous
  nameless := (congrArg Index.members sameView.index).trans veils.nameless
  call := by
    obtain ⟨invocation, function, kind, bare, found, root⟩ := veils.call
    exact ⟨invocation, function, sameView.kind.trans kind, bare, function? found, root⟩

namespace Terms

variable {Code : Type} (terms : Terms Code) (link : Link)

def Founded (id : FunctionId) (function : Function Code) : Prop :=
  ∀ {parent : FunctionId}, function.parent = .function parent → parent.index < id.index

/-- What linked things have in common. -/
def Stand (left right : Heap Code) : Handle → Handle → Prop
  | .array a, .array b => link.Arrays (left.array a) (right.array b)
  | .exception a, .exception b => link.Exceptions (left.exception a) (right.exception b)
  | .function a, .function b => ∃ function function',
      left.function? a = some function ∧ right.function? b = some function' ∧
        terms.Functions link function function' ∧ Founded a function ∧ Founded b function'
  | .scope a, .scope b => link.Scopes left right a b
  | _, _ => False

end Terms

/-- The thing has been allocated, and is no scope that waits in the pool. Cells do not count. -/
def Machine.Present {Code : Type} (machine : Machine Code) : Handle → Prop
  | .cell _ => False
  | .scope id => machine.Busy id
  | handle => machine.heap.Has handle

namespace Terms

variable {Code : Type} (terms : Terms Code)

structure Provided (machine : Machine Code) : Prop where
  supplies : machine.heap.Supplies terms.given
  sort : ∀ {handle}, terms.aside handle →
    (∃ id, handle = .array id) ∨ ∃ id, handle = .exception id
  has : ∀ {handle}, terms.aside handle → machine.heap.Has handle
  kept : ∀ {handle}, terms.aside handle → terms.origin.Kept machine.heap handle

/-- Linked things are there, one for one, and have what they should in common. -/
structure Agree (link : Link) (left right : Machine Code) : Prop where
  unique : ∀ {x y y'}, link.pairs x y → link.pairs x y' → y = y'
  unique' : ∀ {x x' y}, link.pairs x y → link.pairs x' y → x = x'
  present : ∀ {x y}, link.pairs x y → left.Present x ∧ right.Present y
  stand : ∀ {x y}, link.pairs x y → terms.Stand link left.heap right.heap x y
  firm : ∀ {a b}, link.firm a b → link.pairs (.scope a) (.scope b) ∧
    (left.heap.scope a).variant ≠ .basic ∧ (left.heap.scope a).variant ≠ .function
  grounded : ∀ {a b}, link.pairs (.scope a) (.scope b) →
    left.heap.Grounded a ∧ right.heap.Grounded b
  veil : ∀ {id next}, link.veil id next →
    right.Busy id ∧ right.heap.Veils id next ∧ ∀ x, ¬ link.pairs x (.scope id)
  sure : ∀ {reading a b}, link.sure reading a b →
    link.Under a b ∧ link.Sure left.heap right.heap reading a b
  outside : ∀ {a b}, link.sure .outside a b → link.sure .replaced a b
  bare : ¬ terms.veiled → (∀ id next, ¬ link.veil id next) ∧
    ∀ {reading a b}, link.pairs (.scope a) (.scope b) → reading ≠ .outside →
      link.sure reading a b
  global : link.pairs (.scope left.global) (.scope right.global)
  given : ∀ {handle}, terms.given handle → link.pairs handle handle
  aside : ∀ {handle other}, terms.aside handle →
    ¬ link.pairs handle other ∧ ¬ link.pairs other handle
  provided : terms.Provided left
  provided' : terms.Provided right

theorem Functions.grow {terms : Terms Code} {link link' : Link} {left right : Function Code}
    (grows : link.Grows link') (functions : terms.Functions link left right) :
    terms.Functions link' left right where
  enclosing := grows.under functions.enclosing
  parent := grows.values functions.parent
  definition := functions.definition.relax grows.sure
  statics := functions.statics.imp fun _ _ _ _ => grows.pairs
  overridden := functions.overridden.imp fun _ _ _ _ => grows.values

/-! Things that stay as they are. -/

section Stand

variable {terms : Terms Code} {link link' : Link} {left left' right right' : Heap Code}
  {x y : Handle}

theorem Stand.carry (grows : link.Grows link') (stand : terms.Stand link left right x y)
    (kept : left.Kept left' x) (kept' : right.Kept right' y) :
    terms.Stand link' left' right' x y := by
  cases x with
  | cell a => cases y <;> exact stand.elim
  | array a =>
      cases y with
      | array b =>
          have same : left'.array a = left.array a := kept
          have same' : right'.array b = right.array b := kept'
          change link'.Arrays (left'.array a) (right'.array b)
          rw [same, same']
          exact ⟨grows.listValues stand.elements, stand.frozen⟩
      | _ => exact stand.elim
  | exception a =>
      cases y with
      | exception b =>
          have same : left'.exception a = left.exception a := kept
          have same' : right'.exception b = right.exception b := kept'
          change link'.Exceptions (left'.exception a) (right'.exception b)
          rw [same, same']
          exact ⟨stand.type, stand.message, stand.cause.imp fun _ _ _ _ => grows.values,
            stand.backtrace⟩
      | _ => exact stand.elim
  | function a =>
      cases y with
      | function b =>
          have same : left'.function? a = left.function? a := kept
          have same' : right'.function? b = right.function? b := kept'
          obtain ⟨function, function', found, found', functions, founded⟩ := stand
          exact ⟨function, function', same.trans found, same'.trans found', functions.grow grows,
            founded⟩
      | _ => exact stand.elim
  | scope a =>
      cases y with
      | scope b =>
          have sameView : left.SameView left' a := kept
          have sameView' : right.SameView right' b := kept'
          have scopes : link.Scopes left right a b := stand
          refine (?_ : link'.Scopes left' right' a b)
          constructor
          · rw [sameView.previous, sameView'.previous]
            exact scopes.previous.imp fun _ _ _ _ => grows.under
          · rw [sameView.index, sameView'.index]
            exact scopes.members
          · rw [sameView.kind, sameView'.kind]
            exact grows.kinds scopes.kind
          · intro slot
            rw [sameView.content, sameView'.content]
            exact grows.cells (scopes.content slot)
          · rw [sameView.binding, sameView'.binding]
            exact scopes.binding.imp fun _ _ _ _ => grows.cells
          · rw [sameView.variant]
            exact grows.firm ∘ scopes.object
          · rw [sameView.variant, sameView.previous, sameView'.previous]
            exact fun built => (scopes.base built).imp fun _ _ _ _ => grows.firm
      | _ => exact stand.elim

theorem Stand.within {keep keep' : Handle → Prop} (stand : terms.Stand link left right x y)
    (lifted : ∀ {id next}, link.veil id next → keep' (.scope id) → keep' (.scope next))
    (self : keep x) (self' : keep' y) (kept : ∀ target, left.Displays x target → keep target)
    (kept' : ∀ target, right.Displays y target → keep' target) :
    terms.Stand (link.within keep keep') left right x y := by
  cases x with
  | cell a => cases y <;> exact stand.elim
  | array a =>
      cases y with
      | array b =>
          exact ⟨Link.Values.within_list stand.elements
            (fun target holds => kept target (by simpa [Heap.Displays] using holds))
            fun target holds => kept' target (by simpa [Heap.Displays] using holds), stand.frozen⟩
      | _ => exact stand.elim
  | exception a =>
      cases y with
      | exception b =>
          exact ⟨stand.type, stand.message,
            Link.Values.within_option stand.cause kept kept', stand.backtrace⟩
      | _ => exact stand.elim
  | function a =>
      cases y with
      | function b =>
          obtain ⟨function, function', found, found', functions, founded⟩ := stand
          refine ⟨function, function', found, found', ?_, founded⟩
          have here : ∀ target, function.holds target = true → keep target :=
            fun target holds => kept target ⟨function, found, holds⟩
          have there : ∀ target, function'.holds target = true → keep' target :=
            fun target holds => kept' target ⟨function', found', holds⟩
          have around : keep (.scope function.enclosing) :=
            here _ (by simp [Function.holds, Handle.isScope])
          have around' : keep' (.scope function'.enclosing) :=
            there _ (by simp [Function.holds, Handle.isScope])
          constructor
          · exact functions.enclosing.within lifted around around'
          · refine functions.parent.within (fun target holds => here target ?_)
              fun target holds => there target ?_
            all_goals simp [Function.holds, holds]
          · exact functions.definition.relax fun sure => ⟨sure, around, around'⟩
          · refine functions.statics.imp fun a b some some' paired =>
              ⟨paired, here _ ?_, there _ ?_⟩
            all_goals simp [Function.holds, Handle.isScope, some, some']
          · refine Link.Values.within_option functions.overridden (fun target holds =>
              here target ?_)
              fun target holds => there target ?_
            all_goals simp [Function.holds, holds]
      | _ => exact stand.elim
  | scope a =>
      cases y with
      | scope b =>
          have scopes : link.Scopes left right a b := stand
          have before : ∀ {next : ScopeId}, (left.scope a).previous = some next →
              keep (.scope next) := fun {next} some =>
            kept _ (.inl (by simp [some, Handle.isScope]))
          have before' : ∀ {next : ScopeId}, (right.scope b).previous = some next →
              keep' (.scope next) := fun {next} some =>
            kept' _ (.inl (by simp [some, Handle.isScope]))
          refine (?_ : (link.within keep keep').Scopes left right a b)
          constructor
          · exact scopes.previous.imp fun _ _ some some' under =>
              under.within lifted (before some) (before' some')
          · exact scopes.members
          · exact scopes.kind.within (fun target holds => kept target (.inr (.inl holds)))
              fun target holds => kept' target (.inr (.inl holds))
          · exact fun slot => (scopes.content slot).within
              (fun target holds => kept target (.inr (.inr (.inl ⟨slot, holds⟩))))
              fun target holds => kept' target (.inr (.inr (.inl ⟨slot, holds⟩)))
          · exact scopes.binding.imp fun cell cell' some some' cells => cells.within
              (fun target holds => kept target (.inr (.inr (.inr ⟨cell, some, holds⟩))))
              fun target holds => kept' target (.inr (.inr (.inr ⟨cell', some', holds⟩)))
          · exact fun made => ⟨scopes.object made, self, self'⟩
          · exact fun built => (scopes.base built).imp fun _ _ some some' firm =>
              ⟨firm, before some, before' some'⟩
      | _ => exact stand.elim

end Stand

end Terms

end ScopeMachine
