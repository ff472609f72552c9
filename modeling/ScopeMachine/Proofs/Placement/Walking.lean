import ScopeMachine.Proofs.Placement.AgreementChanges

namespace ScopeMachine

namespace Link

inductive Turns {α β : Type} (alike : ScopeId → ScopeId → Prop) (related : α → β → Prop)
    (a : ScopeId) (previous previous' : Option ScopeId) : Heap.Step α → Heap.Step β → Prop where
  | stop {result : Option α} {result' : Option β} (results : Option.Rel related result result') :
      Turns alike related a previous previous' (.stop result) (.stop result')
  | outward (further : Option.Rel alike previous previous') :
      Turns alike related a previous previous' .outward .outward
  | jump {next next' : ScopeId} (further : alike next next') :
      Turns alike related a previous previous' (.jump next) (.jump next')
  | lift {here : Heap.Step α} {next : ScopeId} (linked : previous' = some next)
      (further : alike a next) : Turns alike related a previous previous' here .outward

inductive Chains (link : Link) (passed : Prop) : List ScopeId → List ScopeId → Prop where
  | nil : Chains link passed [] []
  | cons {a b : ScopeId} {outer outer' : List ScopeId} (paired : link.pairs (.scope a) (.scope b))
      (further : Chains link passed outer outer') : Chains link passed (a :: outer) (b :: outer')
  | veil {b next : ScopeId} {outer outer' : List ScopeId} (pass : passed)
      (veiled : link.veil b next) (further : Chains link passed outer outer') :
      Chains link passed outer (b :: outer')

end Link

inductive Heap.Descent {Code : Type} (heap : Heap Code) :
    FunctionId → List FunctionId → Value → Prop
    where
  | base {id : FunctionId} {function : Function Code} (found : heap.function? id = some function)
      (root : ∀ parent, function.parent ≠ .function parent) : Descent heap id [id] function.parent
  | further {id parent : FunctionId} {function : Function Code} {supers : List FunctionId}
      {root : Value} (found : heap.function? id = some function)
      (super : function.parent = .function parent) (above : Descent heap parent supers root) :
      Descent heap id (id :: supers) root

theorem Heap.Descent.mono {Code : Type} {heap heap' : Heap Code} {id : FunctionId}
    {functions : List FunctionId} {root : Value} (descent : heap.Descent id functions root)
    (stays : ∀ {id function}, heap.function? id = some function →
      heap'.function? id = some function) : heap'.Descent id functions root := by
  induction descent with
  | base found root => exact .base (stays found) root
  | further found super _ induction => exact .further (stays found) super induction

private theorem Heap.Grounded.walk_eq {Code α : Type} {heap : Heap Code} {id : ScopeId}
    {step : ScopeId → Scope → Heap.Step α} (grounded : heap.Grounded id)
    (jumps : ∀ {id next} {scope : Scope}, step id scope = .jump next →
      scope.kind.target? = some next) :
    heap.walk step id = match step id (heap.scope id) with
      | .stop result => result
      | .jump next => heap.walk step next
      | .outward => (heap.scope id).previous.bind (heap.walk step) := by
  rw [← grounded.walk jumps (Nat.le_succ _), Heap.walkWithin]
  cases step id (heap.scope id) with
  | stop result => rfl
  | jump next => rfl
  | outward => cases (heap.scope id).previous <;> rfl

private theorem Heap.Grounded.chain_eq {Code : Type} {heap : Heap Code} {id : ScopeId}
    (grounded : heap.Grounded id) :
    heap.chain id = id :: (heap.scope id).previous.elim [] heap.chain := by
  rw [← grounded.anchored.chain _ (Nat.le_succ _), Heap.chainWithin]
  cases (heap.scope id).previous <;> rfl

private theorem Heap.Grounded.landing {Code : Type} {heap : Heap Code} {id : ScopeId}
    (grounded : heap.Grounded id) (permission : Permission) {budget : Nat}
    (enough : heap.scopes.size ≤ budget) :
    heap.landingWithin permission budget id = heap.landing permission id := by
  refine grounded.settles (fun budget extra id later => ?_) enough
  rw [Nat.add_right_comm]
  unfold Heap.landingWithin
  dsimp only
  split
  next previous kind linked =>
    split
    next => rfl
    next => exact later previous (.inl linked)
  next object kind => exact later object (.inr (by rw [kind]; rfl))
  next => rfl

namespace Terms.Agree

variable {Code : Type} {terms : Terms Code} {link : Link} {left right : Machine Code}
  (agree : terms.Agree link left right)
include agree

theorem scopes {a b : ScopeId} (paired : link.pairs (.scope a) (.scope b)) :
    link.Scopes left.heap right.heap a b :=
  agree.stand paired

theorem function {f g : FunctionId} (paired : link.pairs (.function f) (.function g)) :
    ∃ function function', left.heap.function? f = some function ∧
      right.heap.function? g = some function' ∧ terms.Functions link function function' ∧
        Founded f function ∧ Founded g function' :=
  agree.stand paired

theorem array {a b : ArrayId} (paired : link.pairs (.array a) (.array b)) :
    link.Arrays (left.heap.array a) (right.heap.array b) :=
  agree.stand paired

theorem exception {a b : ExceptionId} (paired : link.pairs (.exception a) (.exception b)) :
    link.Exceptions (left.heap.exception a) (right.heap.exception b) :=
  agree.stand paired

/-! Walks along scopes. -/

section Walks

variable {α β : Type} {related : α → β → Prop} {alike : ScopeId → ScopeId → Prop}

omit agree in
theorem walk {step : ScopeId → Scope → Heap.Step α} {step' : ScopeId → Scope → Heap.Step β}
    (turns : ∀ {a b}, alike a b → Link.Turns alike related a (left.heap.scope a).previous
      (right.heap.scope b).previous (step a (left.heap.scope a)) (step' b (right.heap.scope b)))
    (jumps : ∀ {id next scope}, step id scope = .jump next → scope.kind.target? = some next)
    (jumps' : ∀ {id next scope}, step' id scope = .jump next → scope.kind.target? = some next)
    {a b : ScopeId} (grounded : left.heap.Grounded a) (grounded' : right.heap.Grounded b)
    (here : alike a b) : Option.Rel related (left.heap.walk step a) (right.heap.walk step' b) := by
  -- The left walk gets on with every step, or else the right one does.
  induction grounded generalizing b with
  | @intro a old outermost onward induction =>
  have grounded : left.heap.Grounded a := .intro old outermost onward
  induction grounded' with
  | @intro b old' outermost' onward' induction' =>
      have grounded' : right.heap.Grounded b := .intro old' outermost' onward'
      have turn := turns here
      generalize walked : step a (left.heap.scope a) = turned at turn
      generalize walked' : step' b (right.heap.scope b) = turned' at turn
      cases turn with
      | stop results =>
          rw [grounded.walk_eq jumps, grounded'.walk_eq jumps', walked, walked']
          exact results
      | jump further =>
          rw [grounded.walk_eq jumps, grounded'.walk_eq jumps', walked, walked']
          exact induction (.inr (jumps walked)) (onward' (.inr (jumps' walked'))) further
      | lift linked further =>
          rw [grounded'.walk_eq jumps', walked', linked]
          exact induction' (.inl linked) further
      | outward further =>
          rw [grounded.walk_eq jumps, grounded'.walk_eq jumps', walked, walked']
          generalize linked : (left.heap.scope a).previous = outer at further
          generalize linked' : (right.heap.scope b).previous = outer' at further
          cases further with
          | none => exact .none
          | some further => exact induction (.inl linked) (onward' (.inl linked')) further

theorem walkUnder {step : ScopeId → Scope → Heap.Step α} {step' : ScopeId → Scope → Heap.Step β}
    (turns : ∀ {a b}, link.pairs (.scope a) (.scope b) → Link.Turns link.Under related a
      (left.heap.scope a).previous (right.heap.scope b).previous (step a (left.heap.scope a))
      (step' b (right.heap.scope b)))
    (lifts : ∀ {id next}, right.heap.Veils id next → step' id (right.heap.scope id) = .outward)
    (jumps : ∀ {id next scope}, step id scope = .jump next → scope.kind.target? = some next)
    (jumps' : ∀ {id next scope}, step' id scope = .jump next → scope.kind.target? = some next)
    {a b : ScopeId} (under : link.Under a b) :
    Option.Rel related (left.heap.walk step a) (right.heap.walk step' b) := by
  refine walk (fun {a b} under => ?_) jumps jumps' (agree.founded under).1 (agree.founded under).2
    under
  cases under with
  | pair paired => exact turns paired
  | veil veiled under =>
      have veils := (agree.veil veiled).2.1
      rw [lifts veils]
      exact .lift veils.previous under

end Walks

variable {a b : ScopeId}

section Under

variable (under : link.Under a b)
include under

theorem this? : Option.Rel link.Values (left.heap.this? a) (right.heap.this? b) := by
  have jumps : ∀ {id next : ScopeId} {scope : Scope}, Heap.thisStep id scope = .jump next →
      scope.kind.target? = some next := by
    intro id next scope jumped
    unfold Heap.thisStep at jumped
    split at jumped <;> cases jumped
  rw [Heap.this?_eq_walk, Heap.this?_eq_walk]
  refine agree.walkUnder (fun {a b} paired => ?_) (fun {id next} veils => ?_) jumps jumps under
  · have scopes := agree.scopes paired
    have kinds := scopes.kind
    have object := scopes.object
    unfold Heap.thisStep
    rw [Scope.variant] at object
    generalize (left.heap.scope a).kind = kind at kinds object
    generalize (right.heap.scope b).kind = kind' at kinds
    cases kinds with
    | global => exact .stop .none
    | basic => exact .outward scopes.previous
    | constructor => exact .outward scopes.previous
    | plainObject => exact .stop (.some (.object paired (object rfl)))
    | object => exact .stop (.some (.object paired (object rfl)))
    | fork paired firm => exact .stop (.some (.object paired firm))
    | @function invocation invocation' _ receiver _ =>
        obtain ⟨_, receiver₁, _, _⟩ := invocation
        obtain ⟨_, receiver₂, _, _⟩ := invocation'
        cases receiver with
        | none => exact .outward scopes.previous
        | some values => exact .stop (.some values)
  · obtain ⟨⟨_, _, _, _⟩, _, kind, bare, -⟩ := veils.call
    cases bare
    unfold Heap.thisStep
    rw [kind]

theorem super? : Option.Rel link.Values (left.heap.super? a) (right.heap.super? b) := by
  have jumps : ∀ {heap : Heap Code} {id next : ScopeId} {scope : Scope},
      heap.superStep id scope = .jump next → scope.kind.target? = some next := by
    intro heap id next scope jumped
    unfold Heap.superStep at jumped
    split at jumped
    next => split at jumped <;> cases jumped
    next object fork => cases jumped
    next => cases jumped
    next object fork => cases jumped; rw [fork]; rfl
    all_goals cases jumped
  rw [Heap.super?_eq_walk, Heap.super?_eq_walk]
  refine agree.walkUnder (fun {a b} paired => ?_) (fun {id next} veils => ?_) jumps jumps under
  · have scopes := agree.scopes paired
    have kinds := scopes.kind
    have parent : ∀ {f g}, link.pairs (.function f) (.function g) →
        Link.Turns link.Under link.Values a (left.heap.scope a).previous
          (right.heap.scope b).previous (.stop ((left.heap.function? f).map (·.parent)))
          (.stop ((right.heap.function? g).map (·.parent))) := by
      intro f g paired
      obtain ⟨function, function', found, found', functions, -⟩ := agree.function paired
      rw [found, found']
      exact .stop (.some functions.parent)
    unfold Heap.superStep
    generalize (left.heap.scope a).kind = kind at kinds
    generalize (right.heap.scope b).kind = kind' at kinds
    cases kinds with
    | global => exact .stop .none
    | basic => exact .outward scopes.previous
    | constructor paired => exact parent paired
    | plainObject => exact .stop .none
    | object paired => exact parent paired
    | fork paired _ => exact .jump (.pair paired)
    | @function invocation invocation' paired _ _ =>
        obtain ⟨function, function', found, found', functions, -⟩ := agree.function paired
        have overridden := functions.overridden
        dsimp only
        rw [found, found', Option.bind_some, Option.bind_some]
        generalize function.overridden = replaced at overridden
        generalize function'.overridden = replaced' at overridden
        cases overridden with
        | none => exact .outward scopes.previous
        | some values => exact .stop (.some values)
  · obtain ⟨_, _, kind, -, found, root⟩ := veils.call
    unfold Heap.superStep
    rw [kind]
    dsimp only
    rw [found, Option.bind_some, root]

end Under

theorem callee? (sure : link.sure .callee a b) :
    Option.Rel link.Values (left.heap.callee? a) (right.heap.callee? b) := by
  have jumps : ∀ {id next : ScopeId} {scope : Scope}, Heap.calleeStep id scope = .jump next →
      scope.kind.target? = some next := by
    intro id next scope jumped
    unfold Heap.calleeStep at jumped
    split at jumped <;> cases jumped
  have founded := agree.founded (agree.sure sure).1
  rw [Heap.callee?_eq_walk, Heap.callee?_eq_walk]
  refine walk (fun {a b} sure => ?_) jumps jumps founded.1 founded.2 sure
  obtain ⟨paired, outer⟩ := (agree.sure sure).2
  have kinds := (agree.scopes paired).kind
  unfold Heap.calleeStep
  rw [Scope.variant] at outer
  generalize (left.heap.scope a).kind = kind at kinds outer
  generalize (right.heap.scope b).kind = kind' at kinds
  cases kinds with
  | basic => exact .outward (outer rfl)
  | function paired _ _ => exact .stop (.some (.function paired))
  | constructor paired => exact .stop (.some (.function paired))
  | _ => exact .stop .none

theorem chain {passed : Prop} (under : link.Under a b)
    (clear : passed ∨ link.sure .trailing a b) :
    link.Chains passed (left.heap.chain a) (right.heap.chain b) := by
  obtain ⟨grounded, grounded'⟩ := agree.founded under
  induction grounded generalizing b with
  | @intro a old outermost onward induction =>
  have grounded : left.heap.Grounded a := .intro old outermost onward
  induction grounded' with
  | @intro b old' outermost' onward' induction' =>
      have grounded' : right.heap.Grounded b := .intro old' outermost' onward'
      have direct : ∀ {further : ScopeId → ScopeId → Prop}, link.pairs (.scope a) (.scope b) →
          Option.Rel further (left.heap.scope a).previous (right.heap.scope b).previous →
          (∀ {a b}, further a b → link.Under a b ∧ (passed ∨ link.sure .trailing a b)) →
          link.Chains passed (left.heap.chain a) (right.heap.chain b) := by
        intro further paired outward alike
        rw [grounded.chain_eq, grounded'.chain_eq]
        refine .cons paired ?_
        generalize linked : (left.heap.scope a).previous = outer at outward
        generalize linked' : (right.heap.scope b).previous = outer' at outward
        cases outward with
        | none => exact .nil
        | some here =>
            exact induction (.inl linked) (alike here).1 (alike here).2 (onward' (.inl linked'))
      rcases clear with pass | sure
      · cases under with
        | pair paired => exact direct paired (agree.previous paired) fun under => ⟨under, .inl pass⟩
        | veil veiled under =>
            have veils := (agree.veil veiled).2.1
            rw [grounded'.chain_eq, veils.previous]
            exact .veil pass veiled (induction' (.inl veils.previous) under (.inl pass))
      · obtain ⟨paired, outer⟩ := (agree.sure sure).2
        exact direct paired outer fun sure => ⟨(agree.sure sure).1, .inr sure⟩

section Resolving

variable (paired : link.pairs (.scope a) (.scope b))
include paired

theorem constructedBy? : Option.Rel (fun f g => link.pairs (.function f) (.function g))
    (left.heap.constructedBy? a) (right.heap.constructedBy? b) := by
  have founded := agree.grounded paired
  refine walk (fun {a b} (paired : link.pairs (.scope a) (.scope b)) => ?_) ?_ ?_ founded.1
    founded.2
    paired
  -- Of either machine, only forks jump.
  rotate_left
  iterate 2
    intro id next scope jumped
    split at jumped
    next => cases jumped
    next object fork => cases jumped; rw [fork]; rfl
    next => cases jumped
  have kinds := (agree.scopes paired).kind
  generalize (left.heap.scope a).kind = kind at kinds
  generalize (right.heap.scope b).kind = kind' at kinds
  cases kinds with
  | plainObject => exact .stop .none
  | object paired => exact .stop (.some paired)
  | fork paired _ => exact .jump paired
  | _ => exact .stop .none

/-! Forks and landings. -/

theorem forked : link.pairs (.scope (left.heap.forked a)) (.scope (right.heap.forked b)) := by
  have within : ∀ (budget : Nat) {a b : ScopeId}, link.pairs (.scope a) (.scope b) →
      link.pairs (.scope (left.heap.forkedWithin budget a))
        (.scope (right.heap.forkedWithin budget b)) := by
    intro budget
    induction budget with
    | zero => exact id
    | succ budget induction =>
        intro a b paired
        have kinds := (agree.scopes paired).kind
        unfold Heap.forkedWithin
        generalize (left.heap.scope a).kind = kind at kinds
        generalize (right.heap.scope b).kind = kind' at kinds
        cases kinds with
        | fork paired _ => exact induction paired
        | _ => exact paired
  obtain ⟨grounded, grounded'⟩ := agree.grounded paired
  rw [← grounded.anchored.forked _ (Nat.le_max_left _ right.heap.scopes.size),
    ← grounded'.anchored.forked _ (Nat.le_max_right left.heap.scopes.size _)]
  exact within _ paired

theorem landingWithin (permission : Permission) (budget : Nat) :
    link.pairs (.scope (left.heap.landingWithin permission budget a))
        (.scope (right.heap.landingWithin permission budget b)) ∧
      (left.heap.landingWithin permission budget a = a ∧
          right.heap.landingWithin permission budget b = b ∨
        link.firm (left.heap.landingWithin permission budget a)
          (right.heap.landingWithin permission budget b)) := by
  induction budget generalizing a b with
  | zero => exact ⟨paired, .inl ⟨rfl, rfl⟩⟩
  | succ budget induction =>
      have onward : ∀ {next next' : ScopeId}, link.pairs (.scope next) (.scope next') →
          link.firm next next' →
          link.pairs (.scope (left.heap.landingWithin permission budget next))
              (.scope (right.heap.landingWithin permission budget next')) ∧
            link.firm (left.heap.landingWithin permission budget next)
              (right.heap.landingWithin permission budget next') := by
        intro next next' paired firm
        obtain ⟨paired, same | firm⟩ := induction paired
        · rw [same.1, same.2] at paired ⊢
          exact ⟨paired, firm⟩
        · exact ⟨paired, firm⟩
      have scopes := agree.scopes paired
      have kinds := scopes.kind
      have previous := scopes.previous
      have base := scopes.base
      unfold Heap.landingWithin
      dsimp only
      rw [Scope.variant] at base
      generalize (left.heap.scope a).kind = kind at kinds base
      generalize (right.heap.scope b).kind = kind' at kinds
      generalize (left.heap.scope a).previous = outer at previous base
      generalize (right.heap.scope b).previous = outer' at previous base
      cases kinds with
      | constructor =>
          cases previous with
          | none => exact ⟨paired, .inl ⟨rfl, rfl⟩⟩
          | some further =>
              dsimp only
              split
              next => exact ⟨paired, .inl ⟨rfl, rfl⟩⟩
              next =>
                cases base rfl with
                | some firm => exact (onward (agree.firm firm).1 firm).imp_right .inr
      | fork further firm => exact (onward further firm).imp_right .inr
      | _ => exact ⟨paired, .inl ⟨rfl, rfl⟩⟩

theorem landing (permission : Permission) :
    link.pairs (.scope (left.heap.landing permission a))
    (.scope (right.heap.landing permission b)) ∧
      (left.heap.landing permission a = a ∧ right.heap.landing permission b = b ∨
        link.firm (left.heap.landing permission a) (right.heap.landing permission b)) := by
  obtain ⟨grounded, grounded'⟩ := agree.grounded paired
  have lands := agree.landingWithin paired permission
    (max left.heap.scopes.size right.heap.scopes.size)
  rwa [grounded.landing permission (Nat.le_max_left _ _),
    grounded'.landing permission (Nat.le_max_right _ _)] at lands

end Resolving

/-! Super functions. -/

/-- Super functions are linked one by one, and so is what they end in. -/
theorem descent {f g : FunctionId} {functions functions' : List FunctionId} {root root' : Value}
    (paired : link.pairs (.function f) (.function g))
    (descent : left.heap.Descent f functions root)
    (descent' : right.heap.Descent g functions' root') :
    List.Forall₂ (fun f g => link.pairs (.function f) (.function g)) functions functions' ∧
      link.Values root root' := by
  induction descent generalizing g functions' with
  | @base f function found based =>
      obtain ⟨_, _, here, there, alike, -⟩ := agree.function paired
      cases found.symm.trans here
      have parents := alike.parent
      cases descent' with
      | base found' =>
          cases found'.symm.trans there
          exact ⟨.cons paired .nil, parents⟩
      | further found' super =>
          cases found'.symm.trans there
          obtain ⟨parent, same, -⟩ := (super ▸ parents).to_function
          exact absurd same (based parent)
  | @further f parent function supers root found super _ induction =>
      obtain ⟨_, _, here, there, alike, -⟩ := agree.function paired
      cases found.symm.trans here
      have parents := alike.parent
      rw [super] at parents
      cases descent' with
      | base found' based =>
          cases found'.symm.trans there
          obtain ⟨other, same, -⟩ := parents.of_function
          exact absurd same (based other)
      | further found' super' above =>
          cases found'.symm.trans there
          obtain ⟨_, same, paired'⟩ := (super' ▸ parents).of_function
          cases same
          have ⟨others, roots⟩ := induction paired' above
          exact ⟨.cons paired others, roots⟩

theorem descendsWithin (budget : Nat) {budget' : Nat} {f g : FunctionId}
    (paired : link.pairs (.function f) (.function g)) (below : f.index < budget)
    (below' : g.index < budget') :
    left.heap.Descent f (left.heap.lineageWithin budget f).functions
        (left.heap.lineageWithin budget f).root ∧
      right.heap.Descent g (right.heap.lineageWithin budget' g).functions
        (right.heap.lineageWithin budget' g).root := by
  induction budget generalizing budget' f g with
  | zero => exact absurd below (Nat.not_lt_zero _)
  | succ budget induction =>
      obtain ⟨budget', rfl⟩ := Nat.exists_eq_add_of_lt below'
      obtain ⟨function, function', found, found', functions, founded, founded'⟩ :=
        agree.function paired
      have parents := functions.parent
      unfold Heap.lineageWithin
      dsimp only
      rw [found, found']
      dsimp only
      by_cases super : ∃ parent, function.parent = .function parent
      · obtain ⟨parent, super⟩ := super
        obtain ⟨parent', super', above⟩ := (super ▸ parents).of_function
        have rest := @induction (g.index + budget') _ _ above
          (Nat.lt_of_lt_of_le (founded super) (Nat.le_of_lt_succ below))
          (Nat.lt_of_lt_of_le (founded' super') (Nat.le_add_right _ _))
        rw [super, super']
        exact ⟨.further found super rest.1, .further found' super' rest.2⟩
      · have based : ∀ parent, function.parent ≠ .function parent := fun parent same =>
          super ⟨parent, same⟩
        have based' : ∀ parent, function'.parent ≠ .function parent := fun parent same =>
          super ((same ▸ parents).to_function.imp fun _ => And.left)
        split
        next same => exact absurd same (based _)
        next => exact ⟨.base found based, .base found' based'⟩

/-- The walk along super functions goes all the way. -/
theorem descends {f g : FunctionId} (paired : link.pairs (.function f) (.function g)) :
    left.heap.Descent f (left.heap.lineage f).functions (left.heap.lineage f).root ∧
      right.heap.Descent g (right.heap.lineage g).functions (right.heap.lineage g).root :=
  agree.descendsWithin _ paired (agree.present paired).1 (agree.present paired).2

theorem lineage {f g : FunctionId} (paired : link.pairs (.function f) (.function g)) :
    List.Forall₂ (fun f g => link.pairs (.function f) (.function g))
        (left.heap.lineage f).functions (right.heap.lineage g).functions ∧
      link.Values (left.heap.lineage f).root (right.heap.lineage g).root :=
  agree.descent paired (agree.descends paired).1 (agree.descends paired).2

end Terms.Agree

end ScopeMachine
