import ScopeMachine.Proofs.Construction.Chains
import ScopeMachine.Proofs.Liveness.Discretion

/-!
Private members. What a constructor declares for itself is found neither on the object nor from the
scope of any other constructor that works on it, however long code goes on.
-/

namespace ScopeMachine

open ScopeMachine.Action Heap Relation

variable {Code : Type}

namespace Heap

variable {heap heap' : Heap Code} {id : FunctionId} {functions : List FunctionId}

theorem SuperChain.mono (chain : heap.SuperChain id functions)
    (stays : ∀ {id function}, heap.function? id = some function →
      heap'.function? id = some function) : heap'.SuperChain id functions := by
  induction chain with
  | base found super => exact .base (stays found) super
  | further found super _ induction => exact .further (stays found) super induction

private theorem SuperChain.tied (chain : heap.SuperChain id functions) {maker : FunctionId}
    (listed : maker ∈ functions) : heap.Tied (.function id) (.function maker) := by
  induction chain with
  | base => exact List.mem_singleton.mp listed ▸ .refl
  | further found super _ induction =>
      rcases List.mem_cons.mp listed with rfl | listed
      · exact .refl
      · exact .head (.super found super) (induction listed)

private theorem SuperChain.lineageWithin_subset (chain : heap.SuperChain id functions)
    (budget : Nat) :
    (heap.lineageWithin budget id).functions ⊆ functions := by
  induction chain generalizing budget with
  | base found super =>
      cases budget with
      | zero => exact List.nil_subset _
      | succ budget => simp [lineageWithin, found, super]
  | further found super _ induction =>
      cases budget with
      | zero => exact List.nil_subset _
      | succ budget =>
          simp only [lineageWithin, found, super]
          exact List.cons_subset_cons _ (induction budget)

/-- A constructor keeps what is private. -/
theorem Targets.landing_self {scope object enclosing : ScopeId} {function : FunctionId}
    (targets : heap.Targets scope object enclosing function) {permission : Permission}
    (hidden : permission.declared.isPrivate = true) : heap.landing permission scope = scope := by
  obtain ⟨outer, previous, -, -⟩ := targets.passes
  unfold landing
  cases heap.scopes.size with
  | zero => rfl
  | succ budget => simp [landingWithin, targets.kind, previous, hidden]

private theorem Targets.leads {scope object enclosing : ScopeId} {function : FunctionId}
    (targets : heap.Targets scope object enclosing function) :
    ReflTransGen heap.Links scope object := by
  obtain ⟨outer, previous, -, passes⟩ := targets.passes
  have outward : ReflTransGen heap.Links scope outer := .single (.inl previous)
  rcases passes with rfl | fork
  · exact outward
  · exact outward.tail (.inr (by rw [fork]; rfl))

/-- A cell that is none of the members of an object, whether they are gone through by slot or looked
for by name. -/
structure Lacks (heap : Heap Code) (object : ScopeId) (cell : CellId) : Prop where
  slot : ∀ slot, (heap.scope object).members.cell? slot heap.memory ≠ some cell
  own : ∀ name, (heap.ownMember object name).1 ≠ some cell
  member : ∀ name, (heap.member (.object object) name).1 ≠ some cell

private theorem Secludes.cell?_ne {watched : ScopeId → Prop} {owner other : ScopeId} {cell : CellId}
    (secludes : heap.Secludes watched owner cell) (apart : other ≠ owner)
    (counts : (heap.scope other).variant ≠ .function ∨ watched other) (slot : Nat) :
    (heap.scope other).members.cell? slot heap.memory ≠ some cell := by
  intro named
  cases members : (heap.scope other).members with
  | onHeap cells reserved =>
      rw [members] at named
      have listed : cell ∈ (heap.scope other).members.heapCells := by
        rw [members]
        exact Table.mem_heapCells.mpr ⟨_, named⟩
      exact nomatch (holds_cell_of_mem listed).symm.trans (secludes.unshared apart counts)
  | inArena slice length =>
      rw [members] at named
      exact secludes.unnamed _ (Table.peek_of_cell? named).2

end Heap

private theorem Machine.Targets.live {machine : Machine Code} {scope object enclosing : ScopeId}
    {function : FunctionId} (targets : machine.Targets scope object enclosing function)
    {known : List Handle} (guarded : machine.Guarded known) (listed : .scope scope ∈ known) :
    machine.Live known (.scope object) :=
  (guarded.live_of_known listed).tied guarded (Tied.leads .refl targets.targets.leads)

namespace Client

variable {origin start client later : Client Code} {id : FunctionId} {object : ScopeId}
  {secret : ScopeId → CellId → Prop}

def privacy (origin : Client Code) (id : FunctionId) (object : ScopeId)
    (secret : ScopeId → CellId → Prop) : Secrecy where
  recent scope := object.index < scope.index
  watched scope := origin.machine.heap.Tied (.function id) (.scope scope)
  secret := secret

structure Builds (origin : Client Code) (id : FunctionId) (object : ScopeId)
    (secret : ScopeId → CellId → Prop) (client : Client Code) : Prop where
  orderly : client.Orderly
  lasting : client.machine.Lasting object
  kind : (client.machine.heap.scope object).kind = .object (some id)
  functions : ∀ {other function}, origin.machine.heap.function? other = some function →
    client.machine.heap.function? other = some function
  tied : ∀ {target}, origin.machine.heap.Tied (.function id) target →
    client.machine.heap.Tied (.scope object) target
  evolves : ∀ {other}, origin.machine.heap.Tied (.function id) (.scope other) →
    (origin.machine.heap.scope other).Evolves (client.machine.heap.scope other)
  discreet : client.Discreet (privacy origin id object secret)

private theorem Orderly.old_of_tied (orderly : origin.Orderly)
    (listed : .function id ∈ origin.known)
    {other : ScopeId} (tied : origin.machine.heap.Tied (.function id) (.scope other)) :
    other.index < origin.machine.heap.scopes.size :=
  ((orderly.guarded.live_of_known listed).tied orderly.guarded tied).there rfl

private theorem Opens.builds {limits : Limits} {choice : GlobalChoice}
    (reachable : Reachable limits choice origin) (listed : .function id ∈ origin.known)
    (opens : Opens origin start id object) : origin.Builds id object (fun _ _ => False) start where
  orderly := Leads.orderly opens.leads reachable.orderly
  lasting := opens.lasting
  kind := opens.kind
  functions := opens.evolves.functions
  tied {target} tied := by
    induction tied with
    | refl => exact .single (.maker (.inr opens.kind))
    | tail tied ties induction =>
        refine .tail induction (ties.carry opens.evolves.functions fun {other} same => ?_)
        exact opens.evolves.scope (reachable.orderly.old_of_tied listed (same ▸ tied)) trivial
  evolves tied := opens.evolves.scope (reachable.orderly.old_of_tied listed tied) trivial
  discreet := by
    have discreet : start.Discreet .idle := Reachable.discreet (reachable.trans opens.leads)
    refine discreet.retell fun {owner cell} owned => ?_
    rcases owned with secret | owns
    · exact secret.elim
    · exact nomatch owns.holds.symm.trans (opens.blank owns.recent)

namespace Builds

variable (builds : origin.Builds id object secret client)

include builds

private theorem leads (leads : client.Leads later)
    (live : later.machine.Live later.known (.scope object)) :
    origin.Builds id object secret later := by
  obtain ⟨lasting, evolves⟩ := Leads.lasting leads builds.orderly builds.lasting
  have anchored : later.Anchored object := ⟨lasting, live⟩
  refine ⟨Leads.orderly leads builds.orderly, lasting, ?_, ?_, ?_, ?_, ?_⟩
  · rw [evolves.kind_eq, builds.kind]
    simp [Scope.variant, builds.kind, ScopeKind.variant]
  · intro other function found
    exact Leads.function? leads builds.orderly (builds.functions found)
  · intro target tied
    exact Leads.tied_carry leads builds.orderly builds.lasting anchored (builds.tied tied)
  · intro other tied
    exact (builds.evolves tied).trans
      ((Leads.tied leads builds.orderly builds.lasting anchored (builds.tied tied)).2 rfl)
  · exact Leads.discreet leads builds.orderly builds.lasting anchored builds.tied builds.discreet

private theorem hands {known : List Handle} (orderly : Client.Orderly ⟨client.machine, known⟩)
    (present : ∀ {cell}, .cell cell ∈ known →
      cell.index < client.machine.heap.memory.cells.size) :
    Client.Builds origin id object secret ⟨client.machine, known⟩ :=
  ⟨orderly, builds.lasting, builds.kind, builds.functions, builds.tied, builds.evolves,
    builds.discreet.heap, present, builds.discreet.hosted⟩

private theorem outward {inner outer : ScopeId}
    (tied : origin.machine.heap.Tied (.function id) (.scope inner))
    (leads : ReflTransGen client.machine.heap.Links inner outer) :
    origin.machine.heap.Tied (.function id) (.scope outer) := by
  induction leads with
  | refl => exact tied
  | tail _ linked induction =>
      have evolves := builds.evolves induction
      exact .tail induction
        (.link (linked.imp evolves.previous.symm.trans evolves.target.symm.trans))

end Builds

/-- Code after it has declared a member in a scope. -/
def declared (client : Client Code) (scope : ScopeId) (name : String) (permission : Permission) :
    Client Code :=
  let (cell, heap) := client.machine.heap.createMember scope name permission
  ⟨{ client.machine with heap }, .cell cell :: client.known⟩

private theorem declared_moves {scope : ScopeId} (listed : .scope scope ∈ client.known)
    (name : String)
    (permission : Permission) : client.Move (client.declared scope name permission) :=
  .request (.createMember listed name permission) []

private theorem Builds.declares (builds : origin.Builds id object (fun _ _ => False) client)
    {scope enclosing : ScopeId} {function : FunctionId}
    (targets : client.machine.Targets scope object enclosing function)
    (listed : .scope scope ∈ client.known) (recent : object.index < scope.index) (name : String)
    {permission : Permission} (hidden : permission.declared.isPrivate = true) :
    origin.Builds id object (fun owner cell => owner = scope ∧
      cell = (client.machine.heap.createMember scope name permission).1)
      (client.declared scope name permission) := by
  have moves := declared_moves listed name permission
  have leads : client.Leads (client.declared scope name permission) := .single moves
  have orderly := Leads.orderly leads builds.orderly
  have targets' := Leads.targets leads builds.orderly targets
  have builds' := builds.leads leads
    (targets'.live orderly.guarded (List.mem_cons_of_mem _ listed))
  have made {heap : Heap Code} (targets : heap.Targets scope object enclosing function) :
      (heap.scope scope).variant = .constructor := congrArg ScopeKind.variant targets.kind
  have holds := createMember_holds builds.discreet.heap targets.lasting.old
    (made targets.targets) name (targets.targets.landing_self hidden)
  refine { builds' with discreet := builds'.discreet.retell fun {owner cell} secret => ?_ }
  rcases secret with ⟨rfl, rfl⟩ | owns
  · exact builds'.discreet.heap.secludes (.inr ⟨recent, made targets'.targets, holds⟩)
  · exact builds'.discreet.heap.secludes (.inr owns)

private theorem Orderly.elsewhere (orderly : origin.Orderly) (listed : .function id ∈ origin.known)
    (old : object.index = origin.machine.heap.scopes.size) {heap : Heap Code}
    {scope other : ScopeId}
    (recent : object.index < scope.index)
    (tied : origin.machine.heap.Tied (.function id) (.scope other)) :
    other ≠ scope ∧ ((heap.scope other).variant ≠ .function ∨
      (privacy origin id object secret).watched other) := by
  refine ⟨?_, .inr tied⟩
  rintro rfl
  have below := orderly.old_of_tied listed tied
  omega

namespace Builds

variable {scope : ScopeId} {cell : CellId} (builds : origin.Builds id object secret client)
  (recent : object.index < scope.index)

include builds recent

private theorem apart : object ≠ scope ∧ ((client.machine.heap.scope object).variant ≠ .function ∨
    (privacy origin id object secret).watched object) := by
  refine ⟨?_, .inl ?_⟩
  · rintro rfl
    exact Nat.lt_irrefl _ recent
  · simp [Scope.variant, builds.kind, ScopeKind.variant]

variable (orderly : origin.Orderly) (listed : .function id ∈ origin.known)
  (old : object.index = origin.machine.heap.scopes.size) (kept : secret scope cell)
  {functions : List FunctionId} (chain : origin.machine.heap.SuperChain id functions)

include orderly listed old kept chain

private theorem lacks : client.machine.heap.Lacks object cell := by
  have sound := builds.discreet.heap.sound
  have secludes := builds.discreet.heap.secludes (.inl kept)
  have itself : client.machine.heap.forked object = object :=
    forkedWithin_self (by rw [builds.kind]; rfl) _
  obtain ⟨apart, counts⟩ := builds.apart recent
  refine ⟨secludes.cell?_ne apart counts, fun name => ?_, fun name => ?_⟩
  · refine (ownMember_finding sound object name).misses secludes fun {found} same => ?_
    rw [same, itself]
    exact ⟨apart, counts⟩
  · refine (objectMember_finding sound builds.kind name).misses secludes fun {found} given => ?_
    rcases given with same | ⟨maker, member, function, known, statics, stored, same⟩
    · rw [same, itself]
      exact ⟨apart, counts⟩
    · -- The maker is in the super chain, so it was there from the start.
      have member : maker ∈ functions :=
        (chain.mono builds.functions).lineageWithin_subset _ member
      obtain ⟨function', found'⟩ := chain.found member
      cases known.symm.trans (builds.functions found')
      have tied : origin.machine.heap.Tied (.function id) (.scope statics) :=
        .tail (chain.tied member) (.statics found' stored)
      rw [same]
      exact orderly.elsewhere listed old recent (builds.outward tied (forkedWithin_leads _ _))

private theorem off_scope {inner enclosing : ScopeId} {maker : FunctionId}
    (targets : client.machine.Targets inner object enclosing maker)
    (found : ∃ function, origin.machine.heap.function? maker = some function ∧
      function.enclosing = enclosing) (member : maker ∈ functions) (other : inner ≠ scope)
    (innerListed : .scope inner ∈ client.known) (name : String) :
    (client.machine.heap.lookup inner name).1 ≠ some cell := by
  have live := builds.orderly.guarded.live_of_known innerListed
  have grounded := builds.orderly.guarded.grounded (live.there rfl) live.found
  obtain ⟨outer, forked, whole⟩ := targets.targets.chain_eq grounded
  obtain ⟨function, found, rfl⟩ := found
  refine (lookup_finding builds.discreet.heap.sound inner name).misses
    (builds.discreet.heap.secludes (.inl kept)) ?_
  rintro _ ⟨next, listed', rfl⟩
  rw [whole] at listed'
  rcases List.mem_cons.mp listed' with rfl | listed'
  · have itself : client.machine.heap.forked next = next :=
      forkedWithin_self targets.targets.target_scope _
    rw [itself]
    refine ⟨other, .inl ?_⟩
    simp [Scope.variant, targets.targets.kind, ScopeKind.variant]
  rcases List.mem_cons.mp listed' with rfl | listed'
  · rw [forked]
    exact builds.apart recent
  · have tied : origin.machine.heap.Tied (.function id) (.scope function.enclosing) :=
      .tail (chain.tied member) (.enclosing found)
    exact orderly.elsewhere listed old recent
      (builds.outward tied ((chainWithin_leads listed').trans (forkedWithin_leads _ _)))

end Builds

end Client

/-- Code that has come by an evaluator of what began at `origin`, and has its scope in hand. -/
def Visit.Onward (origin : Client Code) (visit : Visit Code) (client : Client Code) : Prop :=
  ∃ hands, origin.Leads ⟨visit.machine, hands⟩ ∧ Client.Leads ⟨visit.machine, hands⟩ client ∧
    .scope visit.point.scope ∈ client.known

variable {run : Runner Code} {trusted : Code → Prop} {owned held known : List Handle}
  {machine : Machine Code}

/-- Code that constructs comes by the evaluators of the construction. What it declares for itself in
the scope of one of them, parameters and members alike, is from then on found neither on the object
nor from the scope of another function: not while the construction goes on, and not after it. -/
theorem Action.private_members_stay_private {limits : Limits} {choice : GlobalChoice}
    (reachable : Client.Reachable limits choice ⟨machine, known⟩)
    (serves : run.Serves trusted owned) (trusts : machine.heap.Trusts trusted)
    (owns : owned ⊆ held) (remembers : held ⊆ known) {id : FunctionId}
    {functions : List FunctionId} (chain : machine.heap.SuperChain id functions)
    (listed : .function id ∈ known) {arguments : Option Table}
    (kept : ∀ table ∈ arguments, table.Kept (· ∈ known)) :
    ∃ object : ScopeId,
      (∀ {value after}, constructFunction run id arguments held machine = .ok value after →
        value = .object object) ∧
      (∃ known', Client.Passes ⟨machine, known⟩ (visits run id arguments held machine)
        ⟨machineLeft (constructFunction run id arguments held machine), known'⟩) ∧
      ∀ visit ∈ visits run id arguments held machine,
        .scope visit.point.scope ∈ visit.held ∧ ∀ client, visit.Onward ⟨machine, known⟩ client →
          ∀ (name : String) {permission : Permission}, permission.declared.isPrivate = true →
            ∀ later, Client.Leads (client.declared visit.point.scope name permission) later →
              let cell := (client.machine.heap.createMember visit.point.scope name permission).1
              (.scope object ∈ later.known → later.machine.heap.Lacks object cell) ∧
              ∀ next ∈ visits run id arguments held machine,
                next.point.function ≠ visit.point.function → next.Onward ⟨machine, known⟩ later →
                  ∀ other, (later.machine.heap.lookup next.point.scope other).1 ≠ some cell := by
  have orderly := reachable.orderly
  obtain ⟨function, found⟩ := chain.found chain.mem_self
  obtain ⟨start, object, opens, goes, result⟩ := journalConstruct_goes @serves
    ⟨orderly, trusts, owns, remembers⟩ found listed kept
  obtain ⟨known', passes, -, -⟩ := goes.passes
  rw [journalConstruct_ending] at passes
  have begins := opens.builds reachable listed
  have among : (machine.heap.lineage id).functions ⊆ functions := chain.lineageWithin_subset _
  refine ⟨object, result, ⟨known', passes⟩, fun visit member => ?_⟩
  obtain ⟨leads, within, -, recent, maker, foundMaker, targets⟩ := goes.visits visit member
  have orderlyVisit := Client.Leads.orderly leads begins.orderly
  refine ⟨within, ?_⟩
  rintro client ⟨hands, comes, works, still⟩ name permission hidden later onward
  have here := (begins.leads leads (targets.live orderlyVisit.guarded within)).hands
    (Client.Leads.orderly comes orderly)
    (Client.Reachable.discreet (reachable.trans comes)).known
  have orderlyClient := Client.Leads.orderly works here.orderly
  have targets := Client.Leads.targets works here.orderly targets
  have before := here.leads works (targets.live orderlyClient.guarded still)
  have secretly := before.declares targets still recent name hidden
  have orderlyLater := Client.Leads.orderly onward secretly.orderly
  have declared : Client.Leads client (client.declared visit.point.scope name permission) :=
    .single (Client.declared_moves still name permission)
  have targets := Client.Leads.targets (declared.trans onward) before.orderly targets
  refine ⟨fun known => ?_, ?_⟩
  · have after := secretly.leads onward (orderlyLater.guarded.live_of_known known)
    exact after.lacks recent orderly listed opens.fresh ⟨rfl, rfl⟩ chain
  · rintro next member' different ⟨hands', comes', works', known⟩ other
    obtain ⟨leads', -, listed', -, maker', foundMaker', targets'⟩ := goes.visits next member'
    have targets' := Client.Leads.targets works' (Client.Leads.orderly comes' orderly) targets'
    have after := secretly.leads onward (targets'.live orderlyLater.guarded known)
    refine after.off_scope recent orderly listed opens.fresh ⟨rfl, rfl⟩ chain targets' ?_
      (among listed') ?_ known other
    · obtain ⟨function, found⟩ := chain.found (among listed')
      have same := Client.Leads.function? leads' begins.orderly (begins.functions found)
      cases foundMaker'.symm.trans same
      exact ⟨_, found, rfl⟩
    · rintro same
      have kind := targets'.targets.kind
      rw [same, targets.targets.kind] at kind
      exact different (ScopeKind.constructor.inj kind).symm

namespace Derivation

def objectMade : Ending Unit Value → Option ScopeId
  | .ok (.object object) _ => some object
  | _ => none

theorem private_members_stay_private_derived :
    ∃ (object outer inner : ScopeId) (client : Client Unit),
      (∃ after, constructFunction declaring ⟨1⟩ none [] derived.machine =
        .ok (.object object) after) ∧
      derived.Leads client ∧
      [.scope object, .scope outer, .scope inner] ⊆ client.known ∧
      let later := client.declared inner "secret" .privateTier
      let cell := (client.machine.heap.createMember inner "secret" .privateTier).1
      later.machine.heap.Lacks object cell ∧
        ∀ other, (later.machine.heap.lookup outer other).1 ≠ some cell := by
  have known : .function ⟨1⟩ ∈ derived.known := by decide +kernel
  have finishes : objectMade (constructFunction declaring ⟨1⟩ none [] derived.machine) =
      some ⟨2⟩ := by decide +kernel
  have story : (visits declaring ⟨1⟩ none [] derived.machine).map Visit.point =
      [⟨.binding, ⟨1⟩, ⟨3⟩⟩, ⟨.superArguments, ⟨1⟩, ⟨3⟩⟩, ⟨.binding, ⟨0⟩, ⟨5⟩⟩,
        ⟨.superArguments, ⟨0⟩, ⟨5⟩⟩, ⟨.body, ⟨0⟩, ⟨5⟩⟩, ⟨.body, ⟨1⟩, ⟨3⟩⟩] := by decide +kernel
  have hands : (visits declaring ⟨1⟩ none [] derived.machine)[2]?.map Visit.held =
      some [.scope ⟨5⟩, .scope ⟨2⟩, .scope ⟨3⟩] := by decide +kernel
  have reachable : Client.Reachable ⟨8, 8, true, true⟩ .empty ⟨derived.machine, derived.known⟩ :=
    .tail based_reachable derived_moves
  obtain ⟨object, result, path, stays⟩ :=
    @private_members_stay_private _ declaring _ [] [] _ _ _ _ reachable declaring_serves
      (fun _ _ _ => trivial) (List.nil_subset _) (List.nil_subset _) _ _ derived_chain known none
      fun table given => absurd given (Option.not_mem_none table)
  cases ended : constructFunction declaring ⟨1⟩ none [] derived.machine with
  | error abort after =>
      rw [ended] at finishes
      cases finishes
  | ok value after =>
      obtain rfl := result ended
      rw [ended] at finishes
      obtain rfl : object = ⟨2⟩ := Option.some.inj finishes
      obtain ⟨_, rest, whole, -, story⟩ := List.map_eq_cons_iff.mp story
      obtain ⟨next, rest, rfl, nextPoint, story⟩ := List.map_eq_cons_iff.mp story
      obtain ⟨visit, rest, rfl, point, -⟩ := List.map_eq_cons_iff.mp story
      rw [whole] at path hands stays
      obtain ⟨_, _, -, first, _, -, second, known', holds, third, -⟩ := path
      have held : visit.held = [.scope ⟨5⟩, .scope ⟨2⟩, .scope ⟨3⟩] := Option.some.inj hands
      rw [held] at holds
      obtain ⟨inner, object, outer⟩ : .scope ⟨5⟩ ∈ known' ∧ .scope ⟨2⟩ ∈ known' ∧
          .scope ⟨3⟩ ∈ known' := by simpa using holds
      have leads := (first.trans second).trans third
      have moves := @Client.declared_moves _ ⟨visit.machine, known'⟩ _ inner "secret" .privateTier
      have secretive : Permission.privateTier.declared.isPrivate = true := by decide
      obtain ⟨-, hides⟩ := stays visit (by simp)
      rw [point] at hides
      obtain ⟨lacks, misses⟩ := hides ⟨visit.machine, known'⟩
        ⟨known', leads, .refl, by rw [point]; exact inner⟩ "secret" secretive _ .refl
      refine ⟨⟨2⟩, ⟨3⟩, ⟨5⟩, ⟨visit.machine, known'⟩, ⟨after, rfl⟩, leads,
        by simp [inner, object, outer], lacks (List.mem_cons_of_mem _ object), ?_⟩
      have misses := misses next (by simp) (by simp [nextPoint]) ⟨_, first.trans second,
        third.tail moves, by rw [nextPoint]; exact List.mem_cons_of_mem _ outer⟩
      rwa [nextPoint] at misses

end Derivation

end ScopeMachine
