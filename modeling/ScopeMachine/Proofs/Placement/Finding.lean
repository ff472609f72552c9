import ScopeMachine.Proofs.Placement.Accords
import ScopeMachine.Proofs.Placement.Wording

namespace ScopeMachine

open Arena ScopeMachine.Action

/-- The names alone decide the slots. -/
theorem Index.slot?_congr {index index' : Index} (members : index.members = index'.members)
    (name : String) : index.slot? name = index'.slot? name := by
  rw [slot?, members, slot?]

theorem Index.insert_congr {index index' : Index} (members : index.members = index'.members)
    (name : String) (permission : Permission) :
    (index.insert name permission).1 = (index'.insert name permission).1 ∧
      (index.insert name permission).2.members = (index'.insert name permission).2.members := by
  unfold insert size
  rw [slot?_congr members]
  split
  · exact ⟨rfl, members⟩
  · exact ⟨congrArg Array.size members, congrArg (Array.push · _) members⟩

theorem Link.Places.modifyCell {Code : Type} {link : Link} {left right : Heap Code}
    {cell cell' : CellId} (places : link.Places left right cell cell') (id id' : CellId)
    (change change' : Cell → Cell) :
    link.Places (left.modifyCell id change) (right.modifyCell id' change') cell cell' := by
  cases places with
  | member paired named named' => exact .member paired named named'
  | binding paired named named' => exact .binding paired named named'

private theorem Link.Scopes.revise {Code : Type} {link : Link} {left left' right right' : Heap Code}
    {a b : ScopeId} (scopes : link.Scopes left right a b)
    (linked : (left.scope a).Linked (left'.scope a))
    (linked' : (right.scope b).Linked (right'.scope b))
    (members : (left'.scope a).index.members = (right'.scope b).index.members)
    (kind : link.Kinds (left'.scope a).kind (right'.scope b).kind)
    (content : ∀ slot, link.Cells (left'.contentAt a slot) (right'.contentAt b slot))
    (binding : Option.Rel link.Cells (left'.binding? a) (right'.binding? b)) :
    link.Scopes left' right' a b where
  previous := by
    rw [linked.previous, linked'.previous]
    exact scopes.previous
  members := members
  kind := kind
  content := content
  binding := binding
  object made := scopes.object (linked.variant ▸ made)
  base built := by
    rw [linked.previous, linked'.previous]
    exact scopes.base (linked.variant ▸ built)

namespace Terms

variable {Code α β : Type} {terms : Terms Code} {link : Link}
  {left left' right right' : Machine Code} {args args' : Table}

namespace Mirrors

variable (mirrors : terms.Mirrors link args args' left right)
include mirrors

/-- Linked things are touched, and still have in common what they should. -/
theorem touch {x y : Handle} {next next' : Table} (paired : link.pairs x y)
    (steps : left.Steps (· = x) (fun _ => False) next left')
    (steps' : right.Steps (· = y) (fun _ => False) next' right')
    (stand : terms.Stand link left'.heap right'.heap x y)
    (bounds : terms.inStep → left'.bounds = right'.bounds) :
    Onward link left right link left' right' ∧ terms.Mirrors link next next' left' right' := by
  refine ⟨onward_of_steps steps steps' (.refl link), mirrors.step steps steps' ?_ bounds⟩
  refine mirrors.agree.revise steps.extension steps'.extension
    (fun same => ⟨y, same ▸ paired⟩) (fun same => ⟨x, same ▸ paired⟩) ?_
  rintro x' y' paired' (rfl | rfl)
  · exact mirrors.agree.unique paired paired' ▸ stand
  · exact mirrors.agree.unique' paired paired' ▸ stand

/-- Members, names or bindings of linked scopes change. -/
theorem touchScope {a b : ScopeId} {heap heap' : Heap Code} {next next' : Table}
    (paired : link.pairs (.scope a) (.scope b))
    (steps : left.Steps (· = .scope a) (fun _ => False) next (left.withHeap heap))
    (steps' : right.Steps (· = .scope b) (fun _ => False) next' (right.withHeap heap'))
    (members : (heap.scope a).index.members = (heap'.scope b).index.members)
    (kind : link.Kinds (heap.scope a).kind (heap'.scope b).kind)
    (content : ∀ slot, link.Cells (heap.contentAt a slot) (heap'.contentAt b slot))
    (binding : Option.Rel link.Cells (heap.binding? a) (heap'.binding? b))
    (bounds : terms.inStep → heap.memory.bounds = heap'.memory.bounds) :
    Onward link left right link (left.withHeap heap) (right.withHeap heap') ∧
      terms.Mirrors link next next' (left.withHeap heap) (right.withHeap heap') := by
  have present := mirrors.agree.present paired
  exact mirrors.touch paired steps steps'
    ((mirrors.agree.scopes paired).revise (steps.extension.linked present.1)
      (steps'.extension.linked present.2) members kind content binding) bounds

/-- Nothing that anyone can see is touched. -/
theorem untouched {related : Link → Heap Code → Heap Code → α → β → Prop} {step : α × Heap Code}
    {step' : β × Heap Code} {next next' : Table}
    (steps : left.Calm (fun _ => False) next (left.withHeap step.2))
    (steps' : right.Calm (fun _ => False) next' (right.withHeap step'.2))
    (bounds : terms.inStep → (left.withHeap step.2).bounds = (right.withHeap step'.2).bounds)
    (results : related link step.2 step'.2 step.1 step'.1) :
    terms.Accords next next' link left right related step step' :=
  ⟨link, onward_of_steps steps steps' (.refl link), mirrors.quiet steps steps' bounds, results⟩

end Mirrors

namespace Mirrors

variable (mirrors : terms.Mirrors link args args' left right)
include mirrors

theorem slotCell {a b : ScopeId} (paired : link.pairs (.scope a) (.scope b)) (slot : Nat)
    (room : (left.heap.scope a).pooled = true → slot < (left.heap.scope a).index.size)
    (room' : (right.heap.scope b).pooled = true → slot < (right.heap.scope b).index.size) :
    terms.Accords args args' link left right Link.Places (left.heap.slotCell a slot)
      (right.heap.slotCell b slot) := by
  have present := mirrors.agree.present paired
  obtain ⟨steps, named, still⟩ := mirrors.arranged.slotCell (o := fun _ => False) present.1
    slot room
  obtain ⟨steps', named', still'⟩ :=
    mirrors.arranged'.slotCell (o := fun _ => False) present.2 slot room'
  exact mirrors.untouched steps steps'
    (fun inStep => still.trans ((mirrors.bounds inStep).trans still'.symm))
    (.member paired named named')

/-- A write in one place. -/
theorem write {cell cell' : CellId} (places : link.Places left.heap right.heap cell cell')
    (change change' : Cell → Cell)
    (alike : link.Cells (change (left.heap.cell cell)) (change' (right.heap.cell cell'))) :
    Onward link left right link (left.withHeap (left.heap.modifyCell cell change))
        (right.withHeap (right.heap.modifyCell cell' change')) ∧
      terms.Mirrors link args args' (left.withHeap (left.heap.modifyCell cell change))
        (right.withHeap (right.heap.modifyCell cell' change')) := by
  cases places with
  | @member a b slot _ _ paired named named' =>
      have scopes := mirrors.agree.scopes paired
      obtain ⟨steps, content, binding⟩ := mirrors.arranged.modifyMember named change
      obtain ⟨steps', content', binding'⟩ := mirrors.arranged'.modifyMember named' change'
      refine mirrors.touchScope paired steps steps' scopes.members scopes.kind (fun slot' => ?_) ?_
        mirrors.bounds
      · rw [content, content', Heap.contentAt_of_cell? named, Heap.contentAt_of_cell? named']
        split
        · exact alike
        · exact scopes.content slot'
      · rw [binding, binding']
        exact scopes.binding
  | @binding a b _ _ paired named named' =>
      have scopes := mirrors.agree.scopes paired
      obtain ⟨steps, content, binding⟩ := mirrors.arranged.modifyBinding named change
      obtain ⟨steps', content', binding'⟩ := mirrors.arranged'.modifyBinding named' change'
      refine mirrors.touchScope paired steps steps' scopes.members scopes.kind (fun slot => ?_) ?_
        mirrors.bounds
      · rw [content, content']
        exact scopes.content slot
      · rw [binding, binding', Heap.binding?_of_named named, Heap.binding?_of_named named']
        exact .some alike

end Mirrors

end Terms

namespace Terms.Mirrors

variable {Code : Type} {terms : Terms Code} {link : Link} {left right : Machine Code}
  {args args' : Table}
  (mirrors : terms.Mirrors link args args' left right) {a b : ScopeId}
  (paired : link.pairs (.scope a) (.scope b)) {invocation invocation' : Invocation}
  (kind : (left.heap.scope a).kind = .function invocation)
  (kind' : (right.heap.scope b).kind = .function invocation')
include mirrors paired kind kind'

private theorem bindTrailing (unbound : invocation.trailingCell = none)
    (unbound' : invocation'.trailingCell = none) {cell cell' : Cell}
    (cells : link.Cells cell cell') :
    terms.Accords args args' link left right Link.Places
      (left.heap.bindTrailing a invocation cell) (right.heap.bindTrailing b invocation' cell') := by
  have present := mirrors.agree.present paired
  have scopes := mirrors.agree.scopes paired
  have kinds := scopes.kind
  rw [kind, kind'] at kinds
  obtain ⟨steps, content, binding⟩ :=
    mirrors.arranged.bindTrailing (o := fun _ => False) present.1 kind unbound cell
  obtain ⟨steps', content', binding'⟩ :=
    mirrors.arranged'.bindTrailing (o := fun _ => False) present.2 kind' unbound' cell'
  have self := Heap.scope_bindTrailing present.1.1 invocation cell
  have self' := Heap.scope_bindTrailing present.2.1 invocation' cell'
  have ⟨onward, after⟩ := mirrors.touchScope paired steps steps'
    (by rw [self, self']; exact scopes.members)
    (by rw [self, self']
        cases kinds with
        | function paired receiver trailing => exact .function paired receiver trailing)
    (fun slot => by rw [content, content']; exact scopes.content slot)
    (by rw [binding, binding']; exact .some cells) mirrors.bounds
  exact ⟨link, onward, after, .binding paired (congrArg (·.kind.trailingCell?) self)
    (congrArg (·.kind.trailingCell?) self')⟩

private theorem trailingCell :
    terms.Accords args args' link left right Link.Places
      (left.heap.trailingCell a invocation) (right.heap.trailingCell b invocation') := by
  have scopes := mirrors.agree.scopes paired
  have kinds := scopes.kind
  have binding := scopes.binding
  have named : (left.heap.scope a).kind.trailingCell? = invocation.trailingCell := by
    rw [kind]
    rfl
  have named' : (right.heap.scope b).kind.trailingCell? = invocation'.trailingCell := by
    rw [kind']
    rfl
  rw [Heap.binding?, Heap.binding?, named, named'] at binding
  rw [kind, kind'] at kinds
  unfold Heap.trailingCell
  cases bound : invocation.trailingCell with
  | some cell =>
      rw [bound] at binding
      obtain ⟨_, there, -⟩ := binding.exists_some
      obtain ⟨cell', bound', -⟩ := Option.map_eq_some_iff.mp there
      rw [bound']
      exact .stay mirrors (.binding paired (named.trans bound) (named'.trans bound'))
  | none =>
      rw [bound] at binding
      have bound' := Option.map_eq_none_iff.mp binding.eq_none
      rw [bound']
      cases kinds with
      | function _ receiver trailing =>
          exact (mirrors.newArray trailing true).trans fun grows mirrors' arrays =>
            mirrors'.bindTrailing (grows.pairs paired) kind kind' bound bound'
              ⟨.array arrays, rfl, rfl, rfl⟩

end Terms.Mirrors

/-- Members that were found in one place, or not at all. -/
abbrev Link.Finds {Code : Type} (link : Link) (left right : Heap Code) :
    Option CellId → Option CellId → Prop :=
  Option.Rel (link.Places left right)

namespace Terms

variable {Code α β : Type} {terms : Terms Code} {link : Link} {left right : Machine Code}
  {args args' : Table}

private theorem Accords.orElse {related : Link → Heap Code → Heap Code → α → β → Prop}
    {step : Option α × Heap Code} {step' : Option β × Heap Code}
    {next : Heap Code → Option α × Heap Code} {next' : Heap Code → Option β × Heap Code}
    (first : terms.Accords args args' link left right
      (fun link left right => Option.Rel (related link left right)) step step')
    (second : ∀ {link'}, link.Grows link' →
      terms.Mirrors link' args args' (left.withHeap step.2) (right.withHeap step'.2) →
      terms.Accords args args' link' (left.withHeap step.2) (right.withHeap step'.2)
        (fun link left right => Option.Rel (related link left right)) (next step.2)
        (next' step'.2)) :
    terms.Accords args args' link left right
      (fun link left right => Option.Rel (related link left right))
      (Heap.orElse step next) (Heap.orElse step' next') := by
  refine first.trans fun {link'} grows mirrors results => ?_
  obtain ⟨found, heap⟩ := step
  obtain ⟨found', heap'⟩ := step'
  cases results with
  | some related => exact .stay mirrors (.some related)
  | none => exact second grows mirrors

namespace Mirrors

variable (mirrors : terms.Mirrors link args args' left right)
include mirrors

private theorem visible {a b : ScopeId} (paired : link.pairs (.scope a) (.scope b)) (slot : Nat) :
    link.Finds left.heap right.heap
      (((left.heap.scope a).members.cell? slot left.heap.memory).filter fun cell =>
        (left.heap.cell cell).isVisible)
      (((right.heap.scope b).members.cell? slot right.heap.memory).filter fun cell =>
        (right.heap.cell cell).isVisible) := by
  have same := ((mirrors.agree.scopes paired).content slot).isVisible
  unfold Heap.contentAt at same
  cases named : (left.heap.scope a).members.cell? slot left.heap.memory with
  | none =>
      rw [Table.content_of_cell?_none named] at same
      cases named' : (right.heap.scope b).members.cell? slot right.heap.memory with
      | none => exact .none
      | some cell' =>
          rw [Table.content_of_cell? named'] at same
          rw [Option.filter_some, Heap.cell, ← same]
          exact .none
  | some cell =>
      rw [Table.content_of_cell? named] at same
      cases named' : (right.heap.scope b).members.cell? slot right.heap.memory with
      | none =>
          rw [Table.content_of_cell?_none named'] at same
          rw [Option.filter_some, Heap.cell, same]
          exact .none
      | some cell' =>
          rw [Table.content_of_cell? named'] at same
          rw [Option.filter_some, Option.filter_some, Heap.cell, Heap.cell, same]
          split
          · exact .some (.member paired named named')
          · exact .none

private theorem storedMember {a b : ScopeId} (paired : link.pairs (.scope a) (.scope b))
    (name : String) :
    terms.Accords args args' link left right Link.Finds (left.heap.storedMember a name)
      (right.heap.storedMember b name) := by
  have scopes := mirrors.agree.scopes paired
  have kinds := scopes.kind
  have slots := Index.slot?_congr scopes.members name
  generalize kind : (left.heap.scope a).kind = here at kinds
  generalize kind' : (right.heap.scope b).kind = there at kinds
  cases kinds with
  | function =>
      simp only [Heap.storedMember, kind, kind', slots]
      cases known' : (right.heap.scope b).index.slot? name with
      | none =>
          simp only
          split
          · exact (mirrors.trailingCell paired kind kind').imp fun _ places => .some places
          · exact .stay mirrors .none
      | some slot =>
          refine (mirrors.slotCell paired slot (fun _ => Index.slot?_lt (slots.trans known'))
            fun _ => Index.slot?_lt known').imp fun after places => ?_
          have invalid : ((left.heap.slotCell a slot).2.cell
            (left.heap.slotCell a slot).1).isInvalid =
              ((right.heap.slotCell b slot).2.cell (right.heap.slotCell b slot).1).isInvalid :=
            (after.agree.places places).isInvalid
          rw [invalid]
          split
          · exact .none
          · exact .some places
  | _ =>
      simp only [Heap.storedMember, kind, kind', slots]
      cases (right.heap.scope b).index.slot? name with
      | none => exact .stay mirrors .none
      | some slot => exact .stay mirrors (mirrors.visible paired slot)

theorem ownMember {a b : ScopeId} (paired : link.pairs (.scope a) (.scope b)) (name : String) :
    terms.Accords args args' link left right Link.Finds (left.heap.ownMember a name)
      (right.heap.ownMember b name) :=
  mirrors.storedMember (mirrors.agree.forked paired) name

end Mirrors

end Terms

private theorem Heap.Veils.ownMember {Code : Type} {heap : Heap Code} {id next : ScopeId}
    (veils : heap.Veils id next) {name : String} (other : name ≠ "in") :
    heap.ownMember id name = (none, heap) := by
  obtain ⟨invocation, _, kind, -⟩ := veils.call
  have still : heap.forked id = id := by
    unfold forked
    cases heap.scopes.size with
    | zero => rfl
    | succ budget => rw [forkedWithin, kind]
  have nameless : (heap.scope id).index.slot? name = none := by
    rw [Index.slot?, veils.nameless]
    exact Array.findIdx?_empty
  unfold Heap.ownMember storedMember
  rw [still]
  simp only [kind, nameless, beq_iff_eq, other, if_false]

namespace Terms

variable {Code α β : Type} {terms : Terms Code} {link : Link} {left right : Machine Code}
  {args args' : Table}

namespace Mirrors

private theorem lookupAlong {earlier : Link} {name : String} {scopes scopes' : List ScopeId}
    (chains : earlier.Chains (name ≠ "in") scopes scopes') (grows : earlier.Grows link)
    (mirrors : terms.Mirrors link args args' left right) :
    terms.Accords args args' link left right Link.Finds (left.heap.lookupAlong name scopes)
      (right.heap.lookupAlong name scopes') := by
  induction chains generalizing link left right with
  | nil => exact .stay mirrors .none
  | veil other veiled _ induction =>
      rw [Heap.lookupAlong_cons right.heap,
        (mirrors.agree.veil (grows.veil veiled)).2.1.ownMember other]
      exact induction grows mirrors
  | cons first _ induction =>
      rw [Heap.lookupAlong_cons, Heap.lookupAlong_cons]
      exact (mirrors.ownMember (grows.pairs first) name).orElse fun further mirrors' =>
        induction (grows.trans further) mirrors'

variable (mirrors : terms.Mirrors link args args' left right)
include mirrors

theorem lookup {a b : ScopeId} (under : link.Under a b) {name : String}
    (clear : name ≠ "in" ∨ link.sure .trailing a b) :
    terms.Accords args args' link left right Link.Finds (left.heap.lookup a name)
      (right.heap.lookup b name) :=
  lookupAlong (mirrors.agree.chain under clear) (.refl link) mirrors

theorem staticMember {f g : FunctionId} (paired : link.pairs (.function f) (.function g))
    (name : String) :
    terms.Accords args args' link left right Link.Finds (left.heap.staticMember f name)
      (right.heap.staticMember g name) := by
  obtain ⟨function, function', found, found', functions, -⟩ := mirrors.agree.function paired
  have statics := functions.statics
  simp only [Heap.staticMember, found, found', Option.bind_some]
  cases here : function.statics with
  | none =>
      rw [here] at statics
      rw [statics.eq_none]
      exact .stay mirrors .none
  | some a =>
      rw [here] at statics
      obtain ⟨b, there, scopes⟩ := statics.exists_some
      rw [there]
      exact mirrors.ownMember scopes name

end Mirrors

namespace Mirrors

private theorem firstStatic (mirrors : terms.Mirrors link args args' left right)
    {functions functions' : List FunctionId}
    (paired : List.Forall₂ (fun f g => link.pairs (.function f) (.function g)) functions functions')
    (name : String) :
    terms.Accords args args' link left right Link.Finds (left.heap.firstStatic name functions)
      (right.heap.firstStatic name functions') := by
  induction functions generalizing link left right functions' with
  | nil =>
      cases paired
      exact .stay mirrors .none
  | cons f others induction =>
      cases paired with
      | cons first rest =>
          rw [Heap.firstStatic_cons, Heap.firstStatic_cons]
          exact (mirrors.staticMember first name).orElse fun grows mirrors' =>
            induction mirrors' (rest.imp fun _ _ => grows.pairs)

variable (mirrors : terms.Mirrors link args args' left right)
include mirrors

private theorem typeMember {f g : FunctionId} (paired : link.pairs (.function f) (.function g))
    (name : String) :
    terms.Accords args args' link left right Link.Finds (left.heap.typeMember f name)
      (right.heap.typeMember g name) :=
  mirrors.firstStatic (List.rel_reverse (mirrors.agree.lineage paired).1) name

private theorem sharedMember {a b : ScopeId} (paired : link.pairs (.scope a) (.scope b))
    (name : String) :
    terms.Accords args args' link left right Link.Finds (left.heap.sharedMember a name)
      (right.heap.sharedMember b name) := by
  have makers := mirrors.agree.constructedBy? paired
  unfold Heap.sharedMember
  generalize left.heap.constructedBy? a = maker at makers
  generalize right.heap.constructedBy? b = maker' at makers
  cases makers with
  | none => exact .stay mirrors .none
  | some made => exact mirrors.typeMember made name

theorem scopeMember {a b : ScopeId} (paired : link.pairs (.scope a) (.scope b)) (name : String) :
    terms.Accords args args' link left right Link.Finds (left.heap.scopeMember a name)
      (right.heap.scopeMember b name) :=
  (mirrors.ownMember paired name).orElse fun grows mirrors' =>
    mirrors'.sharedMember (grows.pairs paired) name

end Mirrors

end Terms

end ScopeMachine
