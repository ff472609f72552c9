import ScopeMachine.Proofs.Construction.Making
import ScopeMachine.Proofs.Construction.ProtocolOrder

namespace ScopeMachine

open ScopeMachine.Action

variable {Code : Type}

theorem Table.kept_of_subset {table : Table} {known : List Handle}
    (listed : table.cellHandles ⊆ known) : table.Kept (· ∈ known) :=
  fun id cell => listed (List.mem_map.mpr ⟨id, Array.mem_toList_iff.mpr cell, rfl⟩)

private theorem Table.kept_option_of_subset {arguments : Option Table} {known : List Handle}
    (listed : arguments.toList.flatMap Table.cellHandles ⊆ known) :
    ∀ table ∈ arguments, table.Kept (· ∈ known) := fun table given =>
  Table.kept_of_subset fun _ cell =>
    listed (List.mem_flatMap.mpr ⟨table, Option.mem_toList.mpr given, cell⟩)

theorem Table.Kept.subset {table : Table} {known : List Handle} (kept : table.Kept (· ∈ known)) :
    table.cellHandles ⊆ known :=
  fun _ listed => kept.cellHandles _ listed

theorem Value.kept_of_subset {values : List Value} {known : List Handle}
    (listed : values.flatMap handles ⊆ known) : ∀ value ∈ values, value.Kept (· ∈ known) :=
  fun value given => kept_iff.mpr fun _ handle =>
    listed (List.mem_flatMap.mpr ⟨value, given, handle⟩)

namespace Client

namespace Works

variable {α β : Type} {trusted : Code → Prop} {known held : List Handle} {machine : Machine Code}

private theorem single (type : BuiltinType) {values : List Value}
    (stored : values.flatMap Value.handles ⊆ known) :
    Works trusted known known machine (single type values held machine) Value.handles := by
  unfold Action.single
  split
  next value => exact pure (List.Subset.refl _) (by simpa using stored)
  next => exact fail (List.Subset.refl _) rfl

private theorem cast {convert : Heap Code → Value → Except Fault α}
    (unthrown : ∀ heap value fault, convert heap value = .error fault → fault.isThrown = false)
    (value : Value) :
    Works trusted known known machine (cast convert value held machine) fun _ => [] := by
  unfold Action.cast
  rw [run_bind, run_get, andThen_ok, run_ofExcept]
  split
  next => exact pure (List.Subset.refl _) (List.nil_subset _)
  next fault refused => exact fail (List.Subset.refl _) (unthrown _ value fault refused)

private theorem convert (type : BuiltinType) {values : List Value}
    (stored : values.flatMap Value.handles ⊆ known) :
    Works trusted known known machine (convert type values held machine) Value.handles := by
  have casting {α : Type} {cast : Heap Code → Value → Except Fault α} {make : α → Value}
      (unthrown : ∀ heap value fault, cast heap value = .error fault → fault.isThrown = false)
      (bare : ∀ result, (make result).handles = []) :
      Works trusted known known machine
        ((do return make (← Action.cast cast (← Action.single type values)) : Action Code Value)
          held machine) Value.handles := by
    rw [run_bind]
    refine (single type stored).andThen ?_
    intro value middle between _ _ remembers _
    rw [run_bind]
    refine fewer remembers ((Works.cast unthrown value).andThen ?_)
    intro result middle last _ _ remembers _
    exact pure remembers (bare result ▸ List.nil_subset _)
  unfold Action.convert
  split
  next =>
    rw [run_bind]
    refine (single _ stored).andThen ?_
    intro value middle between _ _ remembers _
    exact pure remembers (List.nil_subset _)
  next => exact casting Composed.toBool_unthrown fun _ => rfl
  next => exact casting Composed.toExact_unthrown fun _ => rfl
  next => exact casting Composed.toInexact_unthrown fun _ => rfl
  next => exact newArray (Value.kept_of_subset stored)
  next => exact fail (List.Subset.refl _) rfl

private theorem callType (type : BuiltinType) {arguments : Option Table}
    (listed : arguments.toList.flatMap Table.cellHandles ⊆ known) :
    Works trusted known known machine (callType type arguments held machine) Value.handles := by
  unfold Action.callType
  rw [run_bind]
  refine (takeValues (Table.kept_option_of_subset listed)).andThen ?_
  intro values middle between _ _ remembers gains
  exact fewer remembers (convert type gains)

private theorem newException (type : BuiltinType) {values : List Value}
    (stored : values.flatMap Value.handles ⊆ known) :
    Works trusted known known machine (newException type values held machine) Value.handles := by
  unfold Action.newException
  dsimp only
  split
  next =>
    rw [run_bind, run_fail]
    exact fail (List.Subset.refl _) rfl
  next =>
    rw [run_bind, run_get, andThen_ok, run_bind]
    refine (request (.newException fun value given => ?_) nofun rfl).andThen ?_
    · exact Value.kept_of_subset stored value (List.mem_of_getElem? given)
    · intro id middle between _ _ remembers gains
      exact pure remembers gains

private theorem constructType (type : BuiltinType) {arguments : Option Table}
    (listed : arguments.toList.flatMap Table.cellHandles ⊆ known) :
    Works trusted known known machine (constructType type arguments held machine)
      Value.handles := by
  have taken := @takeValues _ known machine trusted held _ (Table.kept_option_of_subset listed)
  unfold Action.constructType
  split
  next =>
    rw [run_bind]
    refine taken.andThen ?_
    intro values middle between _ _ remembers gains
    exact fewer remembers (newException type gains)
  next =>
    split
    next =>
      rw [run_bind]
      refine taken.andThen ?_
      intro values middle between _ _ remembers _
      refine fewer remembers ?_
      dsimp only
      split
      next =>
        rw [run_bind, run_fail]
        exact fail (List.Subset.refl _) rfl
      next =>
        have global : Leads ⟨middle, between⟩ ⟨middle, .scope middle.global :: between⟩ :=
          .single (.take (Machine.isRoot_iff.mpr (.inr (.inr (.inl rfl)))))
        rw [run_bind, run_get, andThen_ok, run_bind]
        refine after (.of_leads global) (fewer (List.subset_cons_self ..)
          ((newScope List.mem_cons_self fun _ holds => by cases holds).andThen ?_))
        intro scope middle last _ _ remembers gains
        exact pure remembers gains
    next => exact fail (List.Subset.refl _) rfl
    next => exact fail (List.Subset.refl _) rfl
    next => exact callType type listed

/-! Arguments. -/

private theorem handles_of_allocateTable {size : Nat} {abort : Abort} {after : Machine Code}
    (failed : allocateTable size held machine = .error abort after) : abort.handles = [] := by
  rw [run_allocateTable, run_ofExcept] at failed
  split at failed
  next => cases failed
  next =>
    cases outcome : machine.heap.memory.arena.allocate size with
    | error fault =>
        obtain ⟨-, rfl⟩ := Arena.allocate_eq_error outcome
        rw [outcome] at failed
        cases failed
        rfl
    | ok result =>
        rw [outcome] at failed
        cases failed

private theorem functions_allocateTable (size : Nat) :
    (machineLeft (allocateTable size held machine)).heap.functions = machine.heap.functions := by
  rw [run_allocateTable, run_ofExcept]
  split
  next => rfl
  next => split <;> rfl

private theorem allocateTable (size : Nat) :
    Works trusted known known machine (allocateTable size held machine) Table.cellHandles := by
  have allocated : Works trusted known known machine (Action.allocateTable size held machine)
      fun _ => [] :=
    request (.allocateTable size) handles_of_allocateTable (functions_allocateTable size)
  cases ended : Action.allocateTable size held machine with
  | error abort after =>
      rw [ended] at allocated
      exact allocated
  | ok table after =>
      rw [ended] at allocated
      obtain ⟨known', advances, remembers, -⟩ := allocated
      have bare : table.cellHandles = [] := by
        rw [Table.cellHandles, Machine.bare_of_allocateTable ended]
        rfl
      refine ⟨known', advances, remembers, ?_⟩
      change table.cellHandles ⊆ known'
      rw [bare]
      exact List.nil_subset _

private theorem push {table : Table} (listed : table.cellHandles ⊆ known) {value : Value}
    (stored : value.Kept (· ∈ known)) :
    Works trusted known known machine (onMemory (table.push value) held machine)
      Table.cellHandles := by
  change Works trusted known known machine (onMemory (table.pushEach [value]) held machine) _
  exact request (.pushEach (Table.kept_of_subset listed) (List.forall_mem_singleton.mpr stored))
    nofun rfl

theorem argumentTable {values : List Value} (stored : values.flatMap Value.handles ⊆ known) :
    Works trusted known known machine (argumentTable values held machine)
      (·.toList.flatMap Table.cellHandles) := by
  unfold Action.argumentTable
  rw [run_ite]
  split
  next => exact pure (List.Subset.refl _) (List.nil_subset _)
  next =>
    rw [run_bind]
    refine (allocateTable values.length).andThen ?_
    intro table middle between _ _ remembers gains
    rw [run_bind]
    refine fewer remembers ((request (.pushEach (Table.kept_of_subset gains) fun value given =>
      Value.kept_of_subset (List.Subset.trans stored remembers) value given) nofun rfl).andThen ?_)
    intro table middle last _ _ remembers gains
    exact pure remembers (by simpa using gains)

private theorem settleArguments (definition : Definition Code) {arguments : Table}
    (listed : arguments.cellHandles ⊆ known) :
    Works trusted known known machine (settleArguments definition arguments held machine)
      Table.cellHandles := by
  unfold Action.settleArguments
  rw [run_ite]
  split
  next =>
    have copied := @request _ _ known machine trusted _ held _
      (.safeCopy (Table.kept_of_subset listed)) nofun rfl
    obtain ⟨known', advances, remembers, gains⟩ := copied
    exact ⟨known', advances, remembers, (List.append_subset.mp gains).1⟩
  next => exact pure (List.Subset.refl _) listed

private theorem mapArguments (definition : Definition Code) {arguments : Table}
    (listed : arguments.cellHandles ⊆ known) :
    Works trusted known known machine (mapArguments definition arguments held machine)
      fun mapped => mapped.1.cellHandles ++ mapped.2.flatMap Value.handles := by
  unfold Action.mapArguments
  rw [run_bind]
  refine (settleArguments definition listed).andThen ?_
  intro arguments middle between _ _ remembers gains
  refine fewer remembers ?_
  dsimp only
  split
  next =>
    rw [run_bind]
    refine (freeTable arguments).andThen ?_
    intro _ middle last _ _ remembers _
    rw [run_bind, run_fail]
    exact fail remembers rfl
  next =>
    obtain ⟨known', leads, more, stored⟩ :=
      @Leads.values _ between middle _ (Table.kept_of_subset gains)
    have trailing : ((arguments.values middle.heap.memory).drop definition.arity).flatMap
        Value.handles ⊆ known' := by
      intro handle member
      obtain ⟨value, given, member⟩ := List.mem_flatMap.mp member
      exact stored value (List.mem_of_mem_drop given) handle (Value.mem_handles.mp member)
    rw [run_bind, run_get, andThen_ok]
    refine after (.of_leads leads) (fewer more ?_)
    split
    next =>
      rw [run_bind]
      refine (newArray (Value.kept_of_subset trailing)).andThen ?_
      intro rest middle last _ _ remembers restGains
      have gains := List.Subset.trans gains (List.Subset.trans more remembers)
      rw [run_bind]
      refine fewer remembers ((request (.truncate (Table.kept_of_subset gains) definition.arity)
        nofun rfl).andThen ?_)
      intro table middle final _ _ remembers' gains'
      rw [run_bind]
      have restGains := List.Subset.trans restGains remembers'
      refine fewer remembers' ((push gains' (Value.kept_iff.mpr restGains)).andThen ?_)
      intro table middle final _ _ remembers'' gains''
      exact pure remembers'' (List.append_subset.mpr ⟨gains'', List.Subset.trans trailing
        (List.Subset.trans remembers (List.Subset.trans remembers' remembers''))⟩)
    next =>
      exact pure (List.Subset.refl _)
        (List.append_subset.mpr ⟨List.Subset.trans gains more, trailing⟩)

/-! Scopes. -/

theorem allocateBlock {previous : ScopeId} (listed : .scope previous ∈ known) (index : Index) :
    Works trusted known known machine (allocateBlock previous index held machine)
      fun id => [.scope id] := by
  refine request (.allocateBlock listed index) ?_ ?_
  · intro abort after failed
    rw [run_allocateBlock] at failed
    split at failed
    next => cases failed
    next =>
      cases made : Action.allocateTable index.size held machine with
      | error abort middle =>
          rw [made] at failed
          cases failed
          exact handles_of_allocateTable made
      | ok members middle =>
          rw [made, andThen_ok, run_pooledScope] at failed
          split at failed <;> cases failed
  · have same := @functions_allocateTable _ held machine index.size
    rw [run_allocateBlock]
    split
    next => rfl
    next =>
      cases made : Action.allocateTable index.size held machine with
      | error abort middle =>
          rw [made] at same
          exact same
      | ok members middle =>
          rw [made] at same
          rw [andThen_ok, run_pooledScope]
          split <;> exact same

private theorem allocateCallScope {previous : ScopeId} (outer : .scope previous ∈ known)
    (index : Index)
    {members : Table} (listed : members.cellHandles ⊆ known) {invocation : Invocation}
    (held' : ∀ target, (ScopeKind.function invocation).holds target = true → target ∈ known) :
    Works trusted known known machine
      (allocateCallScope previous index members invocation held machine)
      fun id => [.scope id] := by
  have kept : (Scope.mk (some previous) index members (.function invocation) false).Kept
      (· ∈ known) := by
    refine Scope.kept_of ?_ (Table.kept_of_subset listed) held'
    rintro _ ⟨⟩
    exact outer
  have run : ∃ id after, Action.allocateCallScope previous index members invocation held machine =
      .ok id after ∧ after.heap.functions = machine.heap.functions := by
    unfold Action.allocateCallScope
    rw [run_bind, run_onMemory, andThen_ok]
    dsimp only
    rw [run_ite, run_pooledScope]
    split
    next => split <;> exact ⟨_, _, rfl, rfl⟩
    next => exact ⟨_, _, rfl, rfl⟩
  obtain ⟨id, after, run, functions⟩ := run
  refine request (.allocateCallScope kept) ?_ ?_
  · intro abort after failed
    rw [run] at failed
    cases failed
  · rw [run]
    exact functions

private theorem enterCall {function : Function Code} (closure : function.handles ⊆ known)
    {id : FunctionId} (callee : .function id ∈ known) {arguments : Table}
    (listed : arguments.cellHandles ⊆ known) {receiver : Option Value}
    (received : receiver.toList.flatMap Value.handles ⊆ known) :
    Works trusted known known machine (enterCall function id arguments receiver held machine)
      fun scope => [.scope scope] := by
  unfold Action.enterCall
  rw [run_bind]
  refine (mapArguments function.definition listed).andThen ?_
  intro mapped middle between _ _ remembers gains
  obtain ⟨cells, trailing⟩ := List.append_subset.mp gains
  refine fewer remembers (allocateCallScope (remembers (closure List.mem_cons_self)) _ cells
    (ScopeKind.kept_function (remembers callee) (fun value given => ?_)
      (Value.kept_of_subset trailing) rfl))
  exact Value.kept_of_subset (List.Subset.trans received remembers) value
    (Option.mem_toList.mpr given)

private theorem releasingScope {scope : ScopeId} {body : Action Code Value}
    (works : Works trusted (.scope scope :: held) known machine (body held machine)
      Value.handles) :
    Works trusted held known machine (Action.releasingScope scope body held machine)
      Value.handles := by
  obtain ⟨between, advances, remembers, gains⟩ := works
  have released {final : Machine Code} {gained : List Handle} (yielded : gained ⊆ between) :
      Advances trusted ⟨final, between⟩ ⟨final.releaseScope (gained ++ held) scope,
        gained ++ held⟩ :=
    .of_functions (.single (.releaseScope (remembers List.mem_cons_self)
      (List.append_subset.mpr ⟨yielded, fun _ old => remembers (List.mem_cons_of_mem _ old)⟩)))
      (Machine.functions_releaseScope ..)
  unfold Action.releasingScope
  cases ended : body held machine with
  | ok result final =>
      rw [ended] at advances gains
      exact ⟨_, advances.trans (released gains), List.subset_append_right ..,
        List.subset_append_left ..⟩
  | error abort final =>
      rw [ended] at advances gains
      exact ⟨_, advances.trans (released gains), List.subset_append_right ..,
        List.subset_append_left ..⟩

/-! What walks over the scopes find. -/

theorem readHeap {question : Heap Code → α} {gain : α → List Handle}
    (within : ∀ handle ∈ gain (question machine.heap), machine.heap.Within known handle) :
    Works trusted known known machine (readHeap question held machine) gain := by
  rw [run_readHeap]
  exact ⟨_, .of_leads (Leads.reach within), List.subset_append_right ..,
    List.subset_append_left ..⟩

private theorem asked (question : Heap Code → α) :
    Works trusted known known machine (Action.readHeap question held machine) fun _ => [] :=
  pure (List.Subset.refl _) (List.nil_subset _)

theorem within_value {cell : CellId} (listed : .cell cell ∈ known) :
    ∀ handle ∈ (machine.heap.memory.value cell).handles, machine.heap.Within known handle :=
  fun _ member => .closed (.of_mem listed) (Value.mem_handles.mp member)

private theorem replacedMember {constructor : ScopeId} (listed : .scope constructor ∈ known)
    (name : String) :
    Works trusted known known machine (replacedMember constructor name held machine)
      (·.toList.flatMap Value.handles) := by
  unfold Action.replacedMember
  rw [run_bind, run_get, andThen_ok]
  cases found : machine.heap.this? constructor with
  | none => exact pure (List.Subset.refl _) (List.nil_subset _)
  | some value =>
      cases value with
      | object object =>
          have within : (Value.object object).Kept (machine.heap.Within known) :=
            Heap.live_this? Heap.Within.closed (.of_mem listed) found
          dsimp only
          rw [run_bind]
          refine after (.of_leads (Leads.reach (Value.kept_iff.mp within)))
            (fewer (List.subset_append_right ..)
              ((request (.ownMember (List.mem_append_left _ List.mem_cons_self) name) nofun
                (Heap.sameFunctions_law.ownMember ..)).andThen ?_))
          intro cell middle between _ _ remembers gains
          rw [run_bind, run_get, andThen_ok]
          cases cell with
          | none => exact pure remembers (List.nil_subset _)
          | some id =>
              have reached := @within_value _ between middle id (gains List.mem_cons_self)
              refine after (.of_leads (Leads.reach reached)) (pure ?_ ?_)
              · exact List.subset_append_of_subset_right _ remembers
              · simp
      | _ => exact pure (List.Subset.refl _) (List.nil_subset _)

private theorem replacing {enclosing : ScopeId} (listed : .scope enclosing ∈ known)
    (name : String) :
    Works trusted known known machine (replacing enclosing name held machine)
      (·.toList.flatMap Value.handles) := by
  unfold Action.replacing
  rw [run_bind, run_get, andThen_ok, run_ite]
  split
  next => exact replacedMember listed name
  next => exact pure (List.Subset.refl _) (List.nil_subset _)

private theorem newFunction {function : Function Code} (kept : function.Kept (· ∈ known))
    (trusting : ∀ node ∈ function.definition.nodes, trusted node.code) :
    Works trusted known known machine (onHeap (·.newFunction function) held machine)
      fun id => [.function id] := by
  refine ⟨_, ⟨.single (.request (.newFunction kept) held), fun trusts => ?_⟩,
    List.subset_append_right .., List.subset_append_left ..⟩
  intro id other found
  have found : (machine.heap.functions.push function)[id.index]? = some other := found
  rw [Array.getElem?_push] at found
  split at found
  next =>
    cases found
    exact trusting
  next => exact trusts found

end Works

end Client

namespace Action

variable {α β : Type} {trusted : Code → Prop} {owned held asks : List Handle}

/-- Code that has in hand what the action asks for, and what its callers hold, can do it by the
operations of the machine alone. -/
structure MadeOfMoves (trusted : Code → Prop) (owned held asks : List Handle)
    (action : Action Code α) (gain : α → List Handle) : Prop where
  works : ∀ {known : List Handle} {machine : Machine Code},
    Client.Prepared trusted owned held ⟨machine, known⟩ → asks ⊆ known →
      Client.Works trusted held known machine (action held machine) gain

namespace MadeOfMoves

variable {gain : α → List Handle} {gain' : β → List Handle} {first : Action Code α}
  {next : α → Action Code β}

theorem of_works {action : Action Code α} (works : ∀ {known : List Handle} {machine : Machine Code},
      asks ⊆ known → held ⊆ known →
        Client.Works trusted known known machine (action held machine) gain) :
    MadeOfMoves trusted owned held asks action gain :=
  ⟨fun prepared asked => (works asked prepared.remembers).fewer prepared.remembers⟩

theorem pure {result : α} (gains : gain result ⊆ asks ++ held) :
    MadeOfMoves trusted owned held asks (pure result) gain :=
  ⟨fun prepared asked => .pure prepared.remembers
    (List.Subset.trans gains (List.append_subset.mpr ⟨asked, prepared.remembers⟩))⟩

theorem fail {fault : Fault} (unthrown : fault.isThrown = false) :
    MadeOfMoves trusted owned held asks (fail fault) gain :=
  ⟨fun prepared _ => .fail prepared.remembers unthrown⟩

theorem asking {asks' : List Handle} {action : Action Code α}
    (made : MadeOfMoves trusted owned held asks' action gain) (fewer : asks' ⊆ asks ++ held) :
    MadeOfMoves trusted owned held asks action gain :=
  ⟨fun prepared asked => made.works prepared
    (List.Subset.trans fewer (List.append_subset.mpr ⟨asked, prepared.remembers⟩))⟩

theorem giving {gain' : α → List Handle} {action : Action Code α}
    (made : MadeOfMoves trusted owned held asks action gain)
    (fewer : ∀ result, gain' result ⊆ gain result) :
    MadeOfMoves trusted owned held asks action gain' :=
  ⟨fun prepared asked => (made.works prepared asked).giving fun _ result gains =>
    List.Subset.trans (fewer result) gains⟩

/-- Other code may have run in the first part: what is left in hand is the result. -/
theorem bind (former : MadeOfMoves trusted owned held asks first gain)
    (latter : ∀ result, MadeOfMoves trusted owned held (gain result) (next result) gain') :
    MadeOfMoves trusted owned held asks (first >>= next) gain' := by
  refine ⟨fun prepared asked => ?_⟩
  rw [run_bind]
  refine (former.works prepared asked).andThen ?_
  intro result middle between _ advances remembers gains
  exact (latter result).works (prepared.advance advances remembers) gains

/-- No other code runs in the first part. -/
theorem quietly (former : ∀ {known : List Handle} {machine : Machine Code}, asks ⊆ known →
      held ⊆ known → Client.Works trusted known known machine (first held machine) gain)
    (latter : ∀ result, MadeOfMoves trusted owned held (gain result ++ asks) (next result) gain') :
    MadeOfMoves trusted owned held asks (first >>= next) gain' := by
  refine ⟨fun prepared asked => ?_⟩
  rw [run_bind]
  refine (former asked prepared.remembers).andThenFewer prepared.remembers ?_
  intro result middle between _ advances remembers gains
  exact (latter result).works
    (prepared.advance advances (List.Subset.trans prepared.remembers remembers))
    (List.append_subset.mpr ⟨gains, List.Subset.trans asked remembers⟩)

theorem get {next : Machine Code → Action Code β}
    (latter : ∀ machine, MadeOfMoves trusted owned held asks (next machine) gain') :
    MadeOfMoves trusted owned held asks (MonadState.get >>= next) gain' :=
  ⟨fun prepared asked => (latter _).works prepared asked⟩

theorem holding {handles : List Handle} {action : Action Code α} (listed : handles ⊆ asks ++ held)
    (made : MadeOfMoves trusted owned (handles ++ held) asks action gain) :
    MadeOfMoves trusted owned held asks (holding handles action)
      fun result => handles ++ gain result := by
  refine ⟨fun prepared asked => ?_⟩
  have inHand := List.Subset.trans listed (List.append_subset.mpr ⟨asked, prepared.remembers⟩)
  have works := made.works (prepared.holding inHand) asked
  exact (works.giving fun remembers result gains =>
    List.append_subset.mpr ⟨(List.append_subset.mp remembers).1, gains⟩).fewer
      (List.subset_append_right ..)

theorem holdingOn {handles : List Handle} {action : Action Code α}
    (made : MadeOfMoves trusted owned (handles ++ held) [] action gain) :
    MadeOfMoves trusted owned held handles (Action.holding handles action)
      fun result => handles ++ gain result :=
  holding (List.subset_append_left ..) (made.asking (List.nil_subset _))

theorem getFunction {id : FunctionId} {next : Function Code → Action Code β}
    (listed : .function id ∈ asks)
    (latter : ∀ function : Function Code, (∀ node ∈ function.definition.nodes, trusted node.code) →
      MadeOfMoves trusted owned held (function.handles ++ asks) (next function) gain') :
    MadeOfMoves trusted owned held asks (getFunction id >>= next) gain' := by
  refine ⟨fun {known machine} prepared asked => ?_⟩
  rw [run_bind]
  cases found : machine.heap.function? id with
  | none =>
      unfold Action.getFunction
      rw [run_bind, run_get, andThen_ok, found]
      exact .fail prepared.remembers rfl
  | some function =>
      have leads : Client.Leads ⟨machine, known⟩ ⟨machine, function.handles ++ known⟩ :=
        .follow fun handle member =>
          ⟨_, asked listed, function, found, Function.holds_of_mem_handles member⟩
      have advances : Client.Advances trusted ⟨machine, known⟩ ⟨machine, _⟩ := .of_leads leads
      rw [getFunction_eq found, andThen_ok]
      refine .after advances ((latter function (prepared.trusts found)).works
        (prepared.advance advances (List.subset_append_of_subset_right _ prepared.remembers)) ?_)
      exact List.append_subset.mpr ⟨List.subset_append_left ..,
        List.subset_append_of_subset_right _ asked⟩

section Code

variable {run : Runner Code} (serves : run.Serves trusted owned)

include serves

theorem runNode {node : Node Code} (trusting : trusted node.code) (scope : ScopeId) :
    MadeOfMoves trusted owned held [.scope scope] (runNode run node scope)
      fun value => .scope scope :: value.handles :=
  ⟨fun prepared asked =>
    ((Client.Works.runNode serves prepared trusting (asked List.mem_cons_self)).giving
      fun remembers _ gains => List.cons_subset.mpr ⟨remembers List.mem_cons_self, gains⟩).fewer
        (List.subset_cons_self ..)⟩

theorem callFunction (id : FunctionId) (arguments : Option Table) (receiver : Option Value) :
    MadeOfMoves trusted owned held
      (.function id :: arguments.toList.flatMap Table.cellHandles ++
        receiver.toList.flatMap Value.handles)
      (callFunction run id arguments receiver) Value.handles := by
  refine .getFunction List.mem_cons_self fun function trusting => ?_
  have body := trusting function.definition.body List.mem_cons_self
  have entered (table : Table) : MadeOfMoves trusted owned held
      (.function id :: function.handles ++ table.cellHandles ++
        receiver.toList.flatMap Value.handles)
      (Action.enterCall function id table receiver >>= fun scope =>
        Action.releasingScope scope (Action.runNode run function.definition.body scope))
      Value.handles := by
    refine .quietly (fun asked _ => .enterCall ?_ ?_ ?_ ?_) fun scope =>
      ⟨fun prepared inHand => .releasingScope
        (.runNode serves prepared body (inHand List.mem_cons_self))⟩
    all_goals simp_all
  simp only [enterCall_bind] at entered
  dsimp only
  split
  next =>
    refine .get fun machine => ?_
    split
    next =>
      refine ((runNode serves body function.enclosing).giving
        fun _ => List.subset_cons_self ..).asking ?_
      exact List.cons_subset.mpr ⟨by simp [Function.handles], List.nil_subset _⟩
    next =>
      cases arguments with
      | none =>
          exact .quietly (fun _ _ => .allocateTable 0) fun table =>
            (entered table).asking (by grind)
      | some table => exact (entered table).asking (by simp; grind)
  next =>
    cases arguments with
    | none => exact .fail rfl
    | some table => exact .quietly (fun _ _ => .freeTable table) fun _ => .fail rfl

theorem makeFunction {enclosing : ScopeId} (within : .scope enclosing ∈ held)
    (parent : Option Value) {definition : Definition Code}
    (trusting : ∀ node ∈ definition.nodes, trusted node.code) :
    MadeOfMoves trusted owned held (parent.toList.flatMap Value.handles)
      (makeFunction run enclosing parent definition) fun id => [.function id] := by
  have static (overridden : Option Value) : MadeOfMoves trusted owned held
      ((parent.toList ++ overridden.toList).flatMap Value.handles)
      (staticPart run enclosing definition
        ((parent.toList ++ overridden.toList).flatMap Value.handles))
      fun statics => statics.toList.map .scope ++
        (parent.toList ++ overridden.toList).flatMap Value.handles := by
    unfold staticPart
    cases given : definition.statics with
    | none => exact .pure (by simp)
    | some node =>
        have body : trusted node.code := trusting node (by simp [Definition.nodes, given])
        refine .quietly (fun _ inHand => .newScope (inHand within)
          fun _ holds => absurd holds Bool.false_ne_true) fun scope => ?_
        refine .bind (.holding (by grind) ((runNode serves body scope).asking (by grind)))
          fun _ => .pure ?_
        simp
  rw [makeFunction_eq]
  refine .quietly (fun _ inHand => .replacing (inHand within) _) fun overridden => ?_
  refine .bind ((static overridden).asking (by simp)) fun statics =>
    .of_works fun asked inHand => ?_
  simp only [List.flatMap_append, List.append_subset] at asked
  obtain ⟨made, superior, replaced⟩ := asked
  refine .newFunction (Function.kept_of (inHand within) (fun scope given => ?_) ?_
    fun value given => ?_) trusting
  · have given : statics = some scope := given
    exact made (by simp [given])
  · cases parent with
    | none => exact Value.kept_iff.mpr (List.forall_mem_nil _)
    | some value => exact Value.kept_of_subset superior value (by simp)
  · have given : overridden = some value := given
    exact Value.kept_of_subset replaced value (by simp [given])

theorem callValue (callee : Value) (arguments : Option Table) :
    MadeOfMoves trusted owned held
      (callee.handles ++ arguments.toList.flatMap Table.cellHandles)
      (callValue run callee arguments) Value.handles := by
  cases callee with
  | function id => exact (callFunction serves id arguments none).asking (by simp [Value.handles])
  | type type => exact .of_works fun asked _ => .callType type (List.append_subset.mp asked).2
  | _ => exact .quietly (fun _ _ => .asked _) fun _ => .fail rfl

theorem constructFunction (id : FunctionId) (arguments : Option Table) :
    MadeOfMoves trusted owned held (.function id :: arguments.toList.flatMap Table.cellHandles)
      (constructFunction run id arguments) Value.handles := by
  refine ⟨fun {known machine} prepared asked => ?_⟩
  obtain ⟨callee, listed⟩ := List.cons_subset.mp asked
  cases found : machine.heap.function? id with
  | none =>
      unfold Action.constructFunction Action.getFunction
      rw [run_bind, run_bind, run_get, andThen_ok, found]
      exact .fail prepared.remembers rfl
  | some function =>
      obtain ⟨_, _, _, goes, _⟩ := journalConstruct_goes serves prepared found callee
        (Table.kept_option_of_subset listed)
      exact journalConstruct_ending run id arguments held machine ▸ goes.works

theorem constructValue (callee : Value) (arguments : Option Table) :
    MadeOfMoves trusted owned held
      (callee.handles ++ arguments.toList.flatMap Table.cellHandles)
      (constructValue run callee arguments) Value.handles := by
  cases callee with
  | function id => exact constructFunction serves id arguments
  | type type => exact .of_works fun asked _ => .constructType type (List.append_subset.mp asked).2
  | _ => exact .quietly (fun _ _ => .asked _) fun _ => .fail rfl

end Code

end MadeOfMoves

end Action

end ScopeMachine
