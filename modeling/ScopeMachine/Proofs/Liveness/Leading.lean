import ScopeMachine.Proofs.Evaluation.Reaching
import ScopeMachine.Proofs.Liveness.Evolution

namespace ScopeMachine

open ScopeMachine.Action Relation

/-- What comes with the end of an action: what its result gives, or what a failure carries. -/
def Action.yields {Code α : Type} (gain : α → List Handle) : Ending Code α → List Handle
  | .ok result _ => gain result
  | .error abort _ => abort.handles

def Function.handles {Code : Type} (function : Function Code) : List Handle :=
  .scope function.enclosing :: (function.statics.toList.map .scope ++ function.parent.handles ++
    function.overridden.toList.flatMap Value.handles)

theorem Function.holds_of_mem_handles {Code : Type} {function : Function Code} {handle : Handle}
    (listed : handle ∈ function.handles) : function.holds handle = true := by
  unfold handles at listed
  unfold holds
  simp only [List.mem_cons, List.mem_append, List.mem_map, List.mem_flatMap, Option.mem_toList,
    Value.mem_handles] at listed
  simp only [Bool.or_eq_true, Option.any_eq_true]
  rcases listed with rfl | (⟨scope, given, rfl⟩ | parent) | ⟨value, given, holds⟩
  · exact .inl (.inl (.inl (beq_self_eq_true _)))
  · exact .inl (.inl (.inr ⟨scope, given, beq_self_eq_true _⟩))
  · exact .inl (.inr parent)
  · exact .inr ⟨value, given, holds⟩

namespace Heap

variable {Code : Type}

/-- All functions are made of trusted code. -/
def Trusts (trusted : Code → Prop) (heap : Heap Code) : Prop :=
  ∀ {id : FunctionId} {function : Function Code}, heap.function? id = some function →
    ∀ node ∈ function.definition.nodes, trusted node.code

private theorem Trusts.of_functions {trusted : Code → Prop} {before after : Heap Code}
    (same : after.functions = before.functions) (trusts : before.Trusts trusted) :
    after.Trusts trusted := by
  intro id function found
  unfold function? at found
  rw [same] at found
  exact trusts found

def Within (heap : Heap Code) (known : List Handle) (handle : Handle) : Prop :=
  ∃ holder ∈ known, ReflTransGen heap.Holds holder handle

namespace Within

variable {heap : Heap Code} {known : List Handle} {holder handle : Handle}

theorem of_mem (listed : handle ∈ known) : heap.Within known handle := ⟨handle, listed, .refl⟩

theorem closed (within : heap.Within known holder) (holds : heap.Holds holder handle) :
    heap.Within known handle := by
  obtain ⟨first, listed, chain⟩ := within
  exact ⟨first, listed, chain.tail holds⟩

theorem mono {more : List Handle} (within : heap.Within known handle) (fewer : known ⊆ more) :
    heap.Within more handle := by
  obtain ⟨first, listed, chain⟩ := within
  exact ⟨first, fewer listed, chain⟩

end Within

end Heap

namespace Client

variable {Code : Type} {α β : Type} {known kept : List Handle} {machine : Machine Code}

namespace Leads

/-- Code follows what it knows to what that holds. -/
theorem follow {gained : List Handle}
    (held : ∀ handle ∈ gained, ∃ holder ∈ known, machine.heap.Holds holder handle) :
    Leads ⟨machine, known⟩ ⟨machine, gained ++ known⟩ := by
  induction gained with
  | nil => exact .refl
  | cons handle gained induction =>
      have earlier := induction fun other listed => held other (List.mem_cons_of_mem _ listed)
      obtain ⟨holder, listed, holds⟩ := held handle List.mem_cons_self
      exact .tail earlier
        (.follow (List.mem_append_right _ listed) (Heap.mem_holders.mpr holds))

theorem forget (fewer : kept ⊆ known) : Leads ⟨machine, known⟩ ⟨machine, kept⟩ :=
  .single (.forget fewer)

/-- Code that follows holders gets to all that is within its reach. -/
theorem reach {gained : List Handle}
    (within : ∀ handle ∈ gained, machine.heap.Within known handle) :
    Leads ⟨machine, known⟩ ⟨machine, gained ++ known⟩ := by
  have one {known : List Handle} {handle : Handle} (within : machine.heap.Within known handle) :
      Leads ⟨machine, known⟩ ⟨machine, handle :: known⟩ := by
    obtain ⟨holder, listed, chain⟩ := within
    induction chain with
    | refl => exact forget (List.cons_subset.mpr ⟨listed, List.Subset.refl _⟩)
    | @tail middle handle _ holds induction =>
        refine (induction.tail (.follow List.mem_cons_self (Heap.mem_holders.mpr holds))).trans
          (forget ?_)
        exact List.cons_subset_cons _ (List.subset_cons_self ..)
  induction gained with
  | nil => exact .refl
  | cons handle gained induction =>
      obtain ⟨here, others⟩ := List.forall_mem_cons.mp within
      exact (induction others).trans (one (here.mono (List.subset_append_right ..)))

end Leads

/-- Code goes on, and makes functions of trusted code only if it comes by no other code. -/
structure Advances (trusted : Code → Prop) (before after : Client Code) : Prop where
  leads : Leads before after
  trusts : before.machine.heap.Trusts trusted → after.machine.heap.Trusts trusted

namespace Advances

variable {trusted : Code → Prop} {before middle after : Client Code}

theorem refl (client : Client Code) : Advances trusted client client := ⟨.refl, id⟩

theorem trans (former : Advances trusted before middle) (latter : Advances trusted middle after) :
    Advances trusted before after :=
  ⟨former.leads.trans latter.leads, latter.trusts ∘ former.trusts⟩

theorem of_functions (leads : Leads before after)
    (same : after.machine.heap.functions = before.machine.heap.functions) :
    Advances trusted before after :=
  ⟨leads, .of_functions same⟩

/-- Code that learns or forgets something leaves the machine as it is. -/
theorem of_leads (leads : Leads ⟨machine, known⟩ ⟨machine, kept⟩) :
    Advances trusted ⟨machine, known⟩ ⟨machine, kept⟩ :=
  .of_functions leads rfl

end Advances

/-- Code comes from `machine`, holding `known`, to the end of an action, holds on to `kept`, and
takes what the action yields in hand. -/
def Works (trusted : Code → Prop) (kept known : List Handle) (machine : Machine Code)
    (ending : Ending Code α) (gain : α → List Handle) : Prop :=
  ∃ known', Advances trusted ⟨machine, known⟩ ⟨machineLeft ending, known'⟩ ∧ kept ⊆ known' ∧
    yields gain ending ⊆ known'

namespace Works

variable {trusted : Code → Prop} {gain : α → List Handle} {gain' : β → List Handle}
  {ending : Ending Code α} {held : List Handle}

theorem pure {result : α} (remembers : kept ⊆ known) (gains : gain result ⊆ known) :
    Works trusted kept known machine (.ok result machine) gain :=
  ⟨known, .refl _, remembers, gains⟩

theorem abort {abort : Abort} (remembers : kept ⊆ known) (gains : abort.handles ⊆ known) :
    Works trusted kept known machine (.error abort machine : Ending Code α) gain :=
  ⟨known, .refl _, remembers, gains⟩

theorem fail {fault : Fault} (remembers : kept ⊆ known) (unthrown : fault.isThrown = false) :
    Works trusted kept known machine (.error (.failure { fault }) machine : Ending Code α)
      gain := by
  refine abort remembers fun handle listed => ?_
  cases fault with
  | thrown value => cases unthrown
  | _ => cases listed

theorem after {middle : Machine Code} {between : List Handle}
    (advances : Advances trusted ⟨machine, known⟩ ⟨middle, between⟩)
    (works : Works trusted kept between middle ending gain) :
    Works trusted kept known machine ending gain := by
  obtain ⟨known', later, remembers, gains⟩ := works
  exact ⟨known', advances.trans later, remembers, gains⟩

/-- One part of an action after another, with less in hand in the end. -/
theorem andThenFewer {kept' : List Handle} {next : α → Machine Code → Ending Code β}
    (first : Works trusted kept known machine ending gain) (forgets : kept' ⊆ kept)
    (second : ∀ {result middle between}, ending = .ok result middle →
      Advances trusted ⟨machine, known⟩ ⟨middle, between⟩ → kept ⊆ between →
      gain result ⊆ between → Works trusted kept' between middle (next result middle) gain') :
    Works trusted kept' known machine (Action.andThen ending next) gain' := by
  obtain ⟨between, advances, remembers, gains⟩ := first
  cases ending with
  | ok result middle => exact (second rfl advances remembers gains).after advances
  | error abort middle => exact ⟨between, advances, List.Subset.trans forgets remembers, gains⟩

theorem andThen {next : α → Machine Code → Ending Code β}
    (first : Works trusted kept known machine ending gain)
    (second : ∀ {result middle between}, ending = .ok result middle →
      Advances trusted ⟨machine, known⟩ ⟨middle, between⟩ → kept ⊆ between →
      gain result ⊆ between → Works trusted kept between middle (next result middle) gain') :
    Works trusted kept known machine (Action.andThen ending next) gain' :=
  first.andThenFewer (List.Subset.refl _) second

theorem fewer {kept' : List Handle} (forgets : kept' ⊆ kept)
    (works : Works trusted kept known machine ending gain) :
    Works trusted kept' known machine ending gain := by
  obtain ⟨known', advances, remembers, yielded⟩ := works
  exact ⟨known', advances, List.Subset.trans forgets remembers, yielded⟩

theorem giving {gain' : α → List Handle}
    (gives : ∀ {known'}, kept ⊆ known' → ∀ result, gain result ⊆ known' → gain' result ⊆ known')
    (works : Works trusted kept known machine ending gain) :
    Works trusted kept known machine ending gain' := by
  obtain ⟨known', advances, remembers, yielded⟩ := works
  cases ending with
  | ok result after => exact ⟨known', advances, remembers, gives remembers result yielded⟩
  | error abort after => exact ⟨known', advances, remembers, yielded⟩

/-- A request, which makes no function. -/
theorem request {action : Action Code α} (asked : Request known action gain)
    (mild : ∀ {abort after}, action held machine = .error abort after → abort.handles = [])
    (functions : (machineLeft (action held machine)).heap.functions = machine.heap.functions) :
    Works trusted known known machine (action held machine) gain := by
  have moved : Leads ⟨machine, known⟩ (Client.after known gain (action held machine)) :=
    .single (.request asked held)
  cases ended : action held machine with
  | ok result after =>
      rw [ended] at moved functions
      exact ⟨_, .of_functions moved functions, List.subset_append_right ..,
        List.subset_append_left ..⟩
  | error abort after =>
      rw [ended] at moved functions
      exact ⟨known, .of_functions moved functions, List.Subset.refl _, by
        rw [yields, mild ended]
        exact List.nil_subset _⟩

/-- A write that a constant may refuse. -/
theorem assign (id : CellId) (name : String) {value : Value} (kept : value.Kept (· ∈ known)) :
    Works trusted known known machine (tryHeap (·.assign id name value) held machine)
      fun _ => [] := by
  refine request (.assign id name kept) ?_ ?_ <;> rw [run_tryHeap]
  · intro abort after refused
    split at refused
    next => cases refused
    next fault written =>
      cases refused
      cases outcome : machine.heap.assign id name value with
      | mk outcome' heap' =>
          rw [outcome] at written
          subst written
          rw [(assign_refused outcome).1]
          rfl
  · unfold Heap.assign
    split <;> rfl

theorem declareMember {scope : ScopeId} (listed : .scope scope ∈ known)
    (name : String) (permission : Permission) {value : Value} (stored : value.Kept (· ∈ known)) :
    Works trusted known known machine (declareMember scope name permission value held machine)
      fun _ => [] := by
  unfold Action.declareMember
  rw [run_bind]
  refine (request (.createMember listed name permission) nofun
    (Heap.sameFunctions_law.createMember ..)).andThen ?_
  intro cell middle between _ _ remembers gains
  exact (assign cell name fun target holds => remembers (stored target holds)).fewer remembers

theorem newArray {values : List Value}
    (stored : ∀ value ∈ values, value.Kept (· ∈ known)) :
    Works trusted known known machine (newArray values held machine) Value.handles := by
  unfold Action.newArray
  rw [run_bind]
  refine (request (.newArray false stored) nofun rfl).andThen ?_
  intro id middle between _ _ remembers gains
  exact pure remembers gains

theorem freeTable (table : Table) :
    Works trusted known known machine (freeTable table held machine) fun _ => [] :=
  request (.freeTable table) nofun rfl

theorem newScope {previous : ScopeId} {index : Index} {kind : ScopeKind}
    (listed : .scope previous ∈ known)
    (holds : ∀ target, kind.holds target = true → target ∈ known) :
    Works trusted known known machine
      (newScope (.onHeap (some previous) index kind) held machine) fun id => [.scope id] := by
  exact request (.newScope (Scope.kept_onHeap listed holds)) nofun rfl

theorem getFunction {id : FunctionId} (listed : .function id ∈ known) :
    Works trusted known known machine (getFunction id held machine) Function.handles := by
  unfold Action.getFunction
  rw [run_bind, run_get, andThen_ok]
  cases found : machine.heap.function? id with
  | none => exact fail (List.Subset.refl _) rfl
  | some function =>
      have leads : Leads ⟨machine, known⟩ ⟨machine, function.handles ++ known⟩ :=
        .follow fun handle member =>
          ⟨_, listed, function, found, Function.holds_of_mem_handles member⟩
      exact ⟨_, .of_leads leads, List.subset_append_right .., List.subset_append_left ..⟩

end Works

/-! Values that come out of tables and arrays. -/

/-- Code that knows the cells of a table comes to know what its slots hold. -/
theorem Leads.values {table : Table} (listed : table.Kept (· ∈ known)) :
    ∃ known', Leads ⟨machine, known⟩ ⟨machine, known'⟩ ∧ known ⊆ known' ∧
      ∀ value ∈ table.values machine.heap.memory, value.Kept (· ∈ known') := by
  have cell {slot : Nat} {id : CellId} (found : table.cell? slot machine.heap.memory = some id)
      {known' : List Handle} (more : known ⊆ known') :
      Leads ⟨machine, known'⟩ ⟨machine, .cell id :: known'⟩ := by
    cases table with
    | onHeap cells reserved =>
        have mine : .cell id ∈ known' := more (listed id (Table.mem_heapCells.mpr ⟨slot, found⟩))
        exact .single (.forget (List.cons_subset.mpr ⟨mine, List.Subset.refl _⟩))
    | inArena slice length =>
        refine .single (.take (Machine.isRoot_iff.mpr (.inr (.inr ?_))))
        exact ⟨_, (Table.peek_of_cell? found).2⟩
  have each (slots : List Nat) : ∃ known', Leads ⟨machine, known⟩ ⟨machine, known'⟩ ∧
      known ⊆ known' ∧ ∀ value ∈ slots.filterMap fun slot => table.value? slot machine.heap.memory,
        value.Kept (· ∈ known') := by
    induction slots with
    | nil => exact ⟨known, .refl, List.Subset.refl _, nofun⟩
    | cons slot slots induction =>
        obtain ⟨known', leads, more, stored⟩ := induction
        cases found : table.cell? slot machine.heap.memory with
        | none =>
            refine ⟨known', leads, more, fun value member => ?_⟩
            rw [List.filterMap_cons] at member
            unfold Table.value? at member
            rw [found] at member
            split at member
            next => exact stored value member
            next given =>
              split at given
              next =>
                cases given
                rcases List.mem_cons.mp member with rfl | member
                · exact Value.kept_null
                · exact stored value member
              next => cases given
        | some id =>
            have holds (handle : Handle) (listed :
              handle ∈ (machine.heap.memory.value id).handles) :
                ∃ holder ∈ .cell id :: known', machine.heap.Holds holder handle :=
              ⟨_, List.mem_cons_self, Value.mem_handles.mp listed⟩
            refine ⟨_, .trans leads (.trans (cell found more) (Leads.follow holds)),
              fun handle old => ?_,
              fun value member => ?_⟩
            · exact List.mem_append_right _ (List.mem_cons_of_mem _ (more old))
            · rw [List.filterMap_cons] at member
              unfold Table.value? at member
              rw [found] at member
              have later (stored : value.Kept (· ∈ known')) : value.Kept
                  (· ∈ (machine.heap.memory.value id).handles ++ .cell id :: known') :=
                fun target holds =>
                  List.mem_append_right _ (List.mem_cons_of_mem _ (stored target holds))
              split at member
              next => exact later (stored value member)
              next given =>
                split at given
                next =>
                  cases given
                  rcases List.mem_cons.mp member with rfl | member
                  · exact fun target holds => List.mem_append_left _ (Value.mem_handles.mpr holds)
                  · exact later (stored value member)
                next => cases given
  exact each _

namespace Works

variable {trusted : Code → Prop} {held : List Handle}

theorem takeValues {arguments : Option Table}
    (listed : ∀ table ∈ arguments, table.Kept (· ∈ known)) :
    Works trusted known known machine (takeValues arguments held machine)
      (·.flatMap Value.handles) := by
  cases arguments with
  | none => exact pure (List.Subset.refl _) (List.nil_subset _)
  | some table =>
      obtain ⟨known', leads, more, stored⟩ := @Leads.values _ _ machine _ (listed table rfl)
      have freed := @freeTable _ known' machine trusted held table
      unfold Action.takeValues
      dsimp only
      rw [run_bind, run_get, andThen_ok, run_bind]
      refine after (.of_leads leads) (Works.fewer more (freed.andThen ?_))
      intro _ middle between _ _ remembers _
      refine pure remembers fun handle member => remembers ?_
      obtain ⟨value, given, member⟩ := List.mem_flatMap.mp member
      exact stored value given handle (Value.mem_handles.mp member)

theorem declareParams {scope : ScopeId} (listed : .scope scope ∈ known)
    (params : List Declaration) {values : List Value}
    (stored : ∀ value ∈ values, value.Kept (· ∈ known)) :
    Works trusted known known machine (declareParams scope params values held machine) fun _ =>
    [] := by
  induction params generalizing known machine values with
  | nil => exact pure (List.Subset.refl _) (List.nil_subset _)
  | cons param params induction =>
      unfold Action.declareParams
      rw [run_bind]
      refine (declareMember listed param.name param.permission ?_).andThen ?_
      · cases values with
        | nil => exact Value.kept_null
        | cons first rest => exact stored first List.mem_cons_self
      · intro _ middle between _ _ remembers _
        refine Works.fewer remembers
          (induction (remembers listed) fun value member target holds => ?_)
        exact remembers (stored value (List.mem_of_mem_tail member) target holds)

theorem bindArguments (definition : Definition Code) {scope : ScopeId}
    (within : .scope scope ∈ known) {arguments : Option Table}
    (listed : ∀ table ∈ arguments, table.Kept (· ∈ known)) :
    Works trusted known known machine (bindArguments definition scope arguments held machine)
      fun _ => [] := by
  unfold Action.bindArguments
  dsimp only
  rw [run_bind]
  refine (takeValues listed).andThen ?_
  intro values middle between _ _ remembers gains
  have stored : ∀ value ∈ values, value.Kept (· ∈ between) := fun value member target holds =>
    gains (List.mem_flatMap.mpr ⟨value, member, Value.mem_handles.mpr holds⟩)
  refine Works.fewer remembers ?_
  split
  next =>
    rw [run_bind, run_fail]
    exact fail (List.Subset.refl _) rfl
  next =>
    rw [run_bind]
    refine (declareParams (remembers within) definition.params stored).andThen ?_
    intro _ middle after _ _ remembers' _
    cases definition.rest with
    | none => exact pure remembers' (List.nil_subset _)
    | some rest =>
        dsimp only
        rw [run_bind]
        refine Works.fewer remembers' ((newArray ?_).andThen ?_)
        · exact fun value member target holds =>
            remembers' (stored value (List.mem_of_mem_drop member) target holds)
        · intro collected middle last _ _ remembers'' gains
          refine Works.fewer remembers''
            (declareMember (remembers'' (remembers' (remembers within))) rest.name
              rest.permission fun target holds => ?_)
          exact gains (Value.mem_handles.mpr holds)

theorem superArgumentTable {value : Value}
    (listed : value.handles ⊆ known) :
    Works trusted known known machine (superArgumentTable value held machine)
      (·.toList.flatMap Table.cellHandles) := by
  unfold Action.superArgumentTable
  split
  next => exact pure (List.Subset.refl _) (List.nil_subset _)
  next id =>
    have mine : .array id ∈ known := listed List.mem_cons_self
    have leads : Leads ⟨machine, known⟩
        ⟨machine, (machine.heap.elements id).flatMap Value.handles ++ known⟩ := by
      refine .follow fun handle member => ⟨_, mine, ?_⟩
      obtain ⟨value, given, member⟩ := List.mem_flatMap.mp member
      exact Array.any_eq_true'.mpr
        ⟨value, Array.mem_toList_iff.mp given, Value.mem_handles.mp member⟩
    rw [run_bind, run_readHeap, andThen_ok, run_bind]
    refine after (.of_leads leads) (Works.fewer (List.subset_append_right ..)
      ((request (.tableOf fun value given target holds => ?_) nofun rfl).andThen ?_))
    · exact List.mem_append_left _
        (List.mem_flatMap.mpr ⟨value, given, Value.mem_handles.mpr holds⟩)
    · intro table middle between _ _ remembers gains
      refine pure remembers fun handle member => gains ?_
      simpa using member
  next =>
    rw [run_bind, run_readHeap, andThen_ok, run_fail]
    exact fail (List.Subset.refl _) rfl

theorem extendRoot (root : Value) (arguments : Option Table) :
    Works trusted known known machine (extendRoot root arguments held machine) fun _ => [] := by
  unfold Action.extendRoot
  split
  next =>
    cases arguments with
    | none => exact pure (List.Subset.refl _) (List.nil_subset _)
    | some table => exact freeTable table
  next => exact fail (List.Subset.refl _) rfl
  next =>
    rw [run_bind, run_readHeap, andThen_ok, run_fail]
    exact fail (List.Subset.refl _) rfl

theorem inFrame (id file : String) {scope : ScopeId} {body : Action Code Value}
    (remembers : .scope scope :: held ⊆ known)
    (works : Works trusted (.scope scope :: held) known (machine.openFrame id file scope)
      (body (.scope scope :: held) (machine.openFrame id file scope)) Value.handles) :
    Works trusted (.scope scope :: held) known machine
      (Action.inFrame id file scope body held machine) Value.handles := by
  obtain ⟨between, advances, kept, gains⟩ := works
  have opened : Advances trusted ⟨machine, known⟩ ⟨machine.openFrame id file scope, known⟩ :=
    .of_functions (.single (.openFrame (remembers List.mem_cons_self) id file)) rfl
  have closed {final : Machine Code} {gained : List Handle} (yielded : gained ⊆ between) :
      Advances trusted ⟨final, between⟩ ⟨final.closeFrame (gained ++ .scope scope :: held),
        gained ++ .scope scope :: held⟩ :=
    .of_functions (.single (.closeFrame (List.append_subset.mpr ⟨yielded, kept⟩)))
      (Machine.functions_closeFrame ..)
  unfold Action.inFrame
  split
  next => exact abort remembers (List.nil_subset _)
  next =>
    dsimp only
    cases ended : body (.scope scope :: held) (machine.openFrame id file scope) with
    | ok result final =>
        rw [ended] at advances gains
        exact ⟨_, opened.trans (advances.trans (closed gains)), List.subset_append_right ..,
          List.subset_append_left ..⟩
    | error abort final =>
        rw [ended] at advances gains
        cases abort with
        | crash =>
            exact ⟨_, opened.trans (advances.trans (closed (List.nil_subset _))),
              List.Subset.refl _, List.nil_subset _⟩
        | failure failure =>
            have annotated : Advances trusted ⟨final, between⟩
                ⟨(final.annotate failure).2, between⟩ := by
              unfold Machine.annotate
              cases failure.backtrace with
              | some trace => exact .refl _
              | none =>
                  dsimp only
                  split
                  next id _ =>
                    refine .of_functions (.single (.request (.changeException id ?_) [])) rfl
                    exact fun exception value given => .inl given
                  next => exact .refl _
            have same : (final.annotate failure).1.handles = failure.handles := by
              unfold Failure.handles
              rw [fault_annotate]
            have yielded : (final.annotate failure).1.handles ⊆ between := same ▸ gains
            exact ⟨_, opened.trans (advances.trans (annotated.trans (closed yielded))),
              List.subset_append_right .., List.subset_append_left ..⟩

end Works

end Client

/-- Code that is about to run: nothing is amiss, all functions are made of trusted code, and it has
things of its own and what its callers hold. -/
structure Client.Prepared {Code : Type} (trusted : Code → Prop) (owned held : List Handle)
    (client : Client Code) : Prop where
  orderly : client.Orderly
  trusts : client.machine.heap.Trusts trusted
  owns : owned ⊆ held
  remembers : held ⊆ client.known

namespace Client.Prepared

variable {Code : Type} {trusted : Code → Prop} {owned held : List Handle}
  {before after : Client Code}

theorem advance (prepared : Prepared trusted owned held before)
    (advances : Advances trusted before after) (remembers : held ⊆ after.known) :
    Prepared trusted owned held after :=
  ⟨Leads.orderly advances.leads prepared.orderly, advances.trusts prepared.trusts, prepared.owns,
    remembers⟩

theorem holding {handles : List Handle} (prepared : Prepared trusted owned held before)
    (gained : handles ⊆ before.known) : Prepared trusted owned (handles ++ held) before :=
  { prepared with
    owns := List.subset_append_of_subset_right handles prepared.owns
    remembers := List.append_subset.mpr ⟨gained, prepared.remembers⟩ }

end Client.Prepared

/-- Trusted code works through the operations of the machine alone. It knows the scope that it is to
run in. -/
def Action.Runner.Serves {Code : Type} (run : Runner Code) (trusted : Code → Prop)
    (owned : List Handle) : Prop :=
  ∀ {code : Code} {scope : ScopeId} {held known : List Handle} {machine : Machine Code},
    trusted code → Client.Prepared trusted owned held ⟨machine, known⟩ → .scope scope ∈ held →
    Client.Works trusted held known machine (run code scope held machine) Value.handles

theorem Client.Works.runNode {Code : Type} {run : Action.Runner Code} {trusted : Code → Prop}
    {owned held known : List Handle} {machine : Machine Code} (serves : run.Serves trusted owned)
    (prepared : Prepared trusted owned held ⟨machine, known⟩) {node : Node Code}
    (trusting : trusted node.code) {scope : ScopeId} (within : .scope scope ∈ known) :
    Works trusted (.scope scope :: held) known machine
      (Action.runNode run node scope held machine) Value.handles := by
  have inside := prepared.holding (List.forall_mem_singleton.mpr within)
  have opened : Advances trusted ⟨machine, known⟩
      ⟨machine.openFrame node.id node.file scope, known⟩ :=
    .of_functions (.single (.openFrame within node.id node.file)) rfl
  exact .inFrame node.id node.file inside.remembers
    (serves trusting (inside.advance opened inside.remembers) List.mem_cons_self)

end ScopeMachine
