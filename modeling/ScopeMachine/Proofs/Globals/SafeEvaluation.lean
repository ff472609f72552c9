import ScopeMachine.Proofs.Globals.SafeCalls
import ScopeMachine.Proofs.Storage.Landing

namespace ScopeMachine

open Action

namespace Expr

variable {Op : Type}

/-- An expression with no object among its literals. The code of its functions is as plain. -/
abbrev Plain : Expr Op → Prop := Literals fun value => ∀ scope, value ≠ .object scope

end Expr

namespace Heap

variable {Code : Type}

def withMember (heap : Heap Code) (outer : ScopeId) (name : String) (value : Value) :
    ScopeId × Heap Code :=
  let (inner, heap) := heap.newScope (.onHeap (some outer) .empty .basic)
  let (cell, heap) := heap.createMember inner name .publicTier
  (inner, heap.modifyCell cell (·.install value))

private theorem Shields.withMember {trusted : Code → Prop} {origin heap : Heap Code}
    (shields : origin.Shields trusted heap) (shut : origin.Sealed) (outer : ScopeId)
    (name : String) {value : Value} (kept : value.Kept origin.Inner) :
    origin.Shields trusted (heap.withMember outer name value).2 ∧
      ¬ origin.Global (heap.withMember outer name value).1 := by
  have inward : (Scope.onHeap (some outer) .empty .basic).Inward origin := ⟨fun _ => nofun, nofun⟩
  obtain ⟨opened, inner⟩ := shields.newScope inward
  have itself := scope_newScope_self heap (.onHeap (some outer) .empty .basic)
  unfold Heap.withMember
  generalize heap.newScope (.onHeap (some outer) .empty .basic) = made at opened inner itself
  obtain ⟨id, after⟩ := made
  dsimp only at opened inner itself ⊢
  have still : after.landing .publicTier id = id :=
    landingWithin_self (by rw [itself]; nofun) (by rw [itself]; nofun) ..
  have bare : (after.scope (after.landing .publicTier id)).members = .empty := by
    rw [still, itself]
    rfl
  have apart := opened.apart_of_createMember bare name
  have created := opened.createMember shut inner name .publicTier
  exact ⟨created.modifyCell (fun global => absurd global apart) fun _ handle holds =>
    .inr (kept handle holds), inner⟩

end Heap

namespace Action.Safe

variable {Code : Type} {trusted : Code → Prop} {origin : Machine Code}

private theorem throw {α : Type} {good : α → Prop} {value : Value} (clear : origin.Clear value) :
    Safe trusted origin good (Action.readHeap (·.thrown value) >>= failWith : Action Code α) := by
  refine ⟨fun held {machine} shields => ⟨shields, fun handle listed => ?_⟩⟩
  have listed : handle ∈ (machine.heap.thrown value).handles := listed
  unfold Failure.handles Heap.thrown at listed
  exact clear handle (Value.mem_handles.mp listed)

section Expressions

variable {Op : Type} {trusted : Expr Op → Prop} {origin : Machine (Expr Op)}

private theorem found (name : String) (cell : Option CellId) :
    Safe trusted origin (fun _ => True) (Expr.found name cell) := by
  cases cell with
  | none => exact .fail rfl
  | some cell => exact .pure trivial

private theorem valueOf (cell : CellId) : Safe trusted origin origin.Clear (Expr.valueOf cell) :=
  .readHeap fun shields => shields.values cell

private theorem lookup (scope : ScopeId) (name : String) :
    Safe trusted origin (fun _ => True) (Action.onHeap (·.lookup scope name)) :=
  .onHeap fun shields => ⟨shields.lookupAlong name _, trivial⟩

private theorem memberOf (object : Value) (name : String) :
    Safe trusted origin origin.Clear (Expr.memberOf object name) :=
  .bind (.onHeap fun shields => ⟨shields.member object name, trivial⟩) fun cell (_ : True) =>
    .bind (.found name cell) fun cell _ => .valueOf cell

private theorem sum (left right : Value) :
    Safe trusted origin origin.Clear (Expr.sum left right) := by
  have clear {value : Value} (bare : ∀ scope, value ≠ .object scope) :
      Safe trusted origin origin.Clear (Pure.pure value : Action (Expr Op) Value) :=
    .pure (Heap.kept_of_no_object bare)
  have casting (heap : Heap (Expr Op)) (value : Value) :
      Safe trusted origin (fun _ => True) (Action.ofExcept (heap.toInexact value)) :=
    .ofExcept (fun _ _ => trivial) (Composed.toInexact_unthrown heap value)
  refine .bind .get fun machine _ => ?_
  dsimp only
  split
  next => exact clear nofun
  next => exact clear nofun
  next => exact clear nofun
  next =>
    exact .bind (casting machine.heap left) fun _ _ =>
      .bind (casting machine.heap right) fun _ _ => clear nofun

private theorem named {walk : Heap (Expr Op) → Option Value}
    (leads : ∀ {heap : Heap (Expr Op)}, origin.heap.Shields trusted heap →
      ∀ {value : Value}, walk heap = some value → origin.Clear value) :
    Safe trusted origin origin.Clear (do return (← Action.readHeap walk).getD .null) := by
  have asked : Safe trusted origin (fun answer => ∀ value, answer = some value →
      origin.Clear value) (Action.readHeap walk) :=
    .readHeap fun shields value found => leads shields found
  refine .bind asked fun answer clear => .pure ?_
  cases answer with
  | none => exact Value.kept_null
  | some value => exact clear value rfl

private theorem callMember (shut : origin.heap.Sealed) {run : Runner (Expr Op)}
    (serves : ∀ (code : Expr Op) (scope : ScopeId), trusted code → ¬ origin.heap.Global scope →
      Safe trusted origin origin.Clear (run code scope))
    {receiver : Value} (clear : origin.Clear receiver) (method : Value)
    (arguments : Option Table) :
    Safe trusted origin origin.Clear (Expr.callMember run receiver method arguments) := by
  unfold Expr.callMember
  split
  next id =>
    refine .callFunction shut serves id arguments ?_
    rintro _ ⟨⟩
    exact clear
  next => exact .callValue shut serves method arguments

private theorem bindAndHandle_eq (scope : ScopeId) (name : String)
    (handler : ScopeId → Action (Expr Op) Value) (failure : Failure) :
    Expr.catching.bindAndHandle scope name handler failure =
      Action.onHeap (·.caught failure) >>= fun caught =>
        Action.onHeap (·.withMember scope name (caught.getD .null)) >>= fun inner =>
          Action.holding [.scope inner] (handler inner) := by
  funext held machine
  unfold Expr.catching.bindAndHandle Action.newScope Heap.withMember
  simp only [run_bind, run_onHeap, andThen_ok]

private theorem catching (shut : origin.heap.Sealed) (scope : ScopeId) (name : String)
    {body : Action (Expr Op) Value} {handler : ScopeId → Action (Expr Op) Value}
    (safe : Safe trusted origin origin.Clear body)
    (handling : ∀ inner, ¬ origin.heap.Global inner →
      Safe trusted origin origin.Clear (handler inner)) :
    Safe trusted origin origin.Clear (Expr.catching scope name body handler) := by
  have rescue {failure : Failure} (kept : ∀ handle ∈ failure.handles, origin.heap.Inner handle) :
      Safe trusted origin origin.Clear
        (Expr.catching.bindAndHandle scope name handler failure) := by
    have first : Safe trusted origin (fun caught => ∀ value, caught = some value →
        origin.Clear value) (Action.onHeap (·.caught failure)) :=
      .onHeap fun shields => shields.caught kept
    rw [bindAndHandle_eq]
    refine .bind first fun caught clear => ?_
    have bound : origin.Clear (caught.getD .null) := by
      cases caught with
      | none => exact Value.kept_null
      | some value => exact clear value rfl
    have opened : Safe trusted origin (fun inner => ¬ origin.heap.Global inner)
        (Action.onHeap (·.withMember scope name (caught.getD .null))) :=
      .onHeap fun shields => shields.withMember shut scope name bound
    exact .bind opened fun inner inside => .holding _ (handling inner inside)
  rw [Expr.catching_eq]
  refine ⟨fun held {machine} shields => ?_⟩
  have ended := safe.ends held shields
  unfold Action.rescuing
  split
  next failure after ran =>
    rw [ran] at ended
    split
    next => exact (rescue ended.2).ends _ ended.1
    next => exact ended
  next => exact ended

end Expressions

end Action.Safe

def Operations.Safe (Op : Type) [Operations Op] : Prop :=
  ∀ {origin : Machine (Expr Op)}, origin.heap.Sealed → ∀ {run : Runner (Expr Op)},
    (∀ code scope, code.Plain → ¬ origin.heap.Global scope →
      Action.Safe Expr.Plain origin origin.Clear (run code scope)) →
    ∀ (op : Op) {operands : List (Operand Op)},
      (∀ operand ∈ operands, ∀ scope, ¬ origin.heap.Global scope →
        Action.Safe Expr.Plain origin origin.Clear (operand scope)) →
      ∀ scope, ¬ origin.heap.Global scope →
        Action.Safe Expr.Plain origin origin.Clear (Operations.perform run op operands scope)

namespace Expr

open Action.Safe

variable {Op : Type} [Operations Op] {origin : Machine (Expr Op)} {run : Runner (Expr Op)}

section Lists

variable {exprs : List (Expr Op)}
  (each : ∀ expr ∈ exprs, ∀ scope, ¬ origin.heap.Global scope →
    Safe Plain origin origin.Clear (expr.eval run scope))

include each

private theorem evalEach_safe {scope : ScopeId} (inner : ¬ origin.heap.Global scope) :
    Safe Plain origin (fun values => ∀ value ∈ values, origin.Clear value)
      (evalEach run exprs scope) := by
  induction exprs with
  | nil => exact .pure nofun
  | cons first rest induction =>
      refine .bind (each first List.mem_cons_self scope inner) fun value clear =>
        .bind (.holding _ (induction fun expr listed => each expr (List.mem_cons_of_mem _ listed)))
          fun values clears => .pure ?_
      exact List.forall_mem_cons.mpr ⟨clear, clears⟩

private theorem evalSeq_safe {last : Value} (clear : origin.Clear last) {scope : ScopeId}
    (inner : ¬ origin.heap.Global scope) :
    Safe Plain origin origin.Clear (evalSeq run exprs last scope) := by
  induction exprs generalizing last with
  | nil => exact .pure clear
  | cons first rest induction =>
      exact .bind (.holding _ (each first List.mem_cons_self scope inner)) fun value clear =>
        induction (fun expr listed => each expr (List.mem_cons_of_mem _ listed)) clear

private theorem delayEach_safe : ∀ operand ∈ delayEach run exprs, ∀ scope,
    ¬ origin.heap.Global scope →
    Safe Plain origin origin.Clear (operand scope) := by
  induction exprs with
  | nil => nofun
  | cons first rest induction =>
      exact List.forall_mem_cons.mpr ⟨each first List.mem_cons_self,
        induction fun expr listed => each expr (List.mem_cons_of_mem _ listed)⟩

end Lists

private theorem eval_safe (steady : Operations.Safe Op) (shut : origin.heap.Sealed)
    (serves : ∀ (code : Expr Op) (scope : ScopeId), code.Plain → ¬ origin.heap.Global scope →
      Safe Plain origin origin.Clear (run code scope))
    {expr : Expr Op} (plain : expr.Plain) {scope : ScopeId} (inner : ¬ origin.heap.Global scope) :
    Safe Plain origin origin.Clear (expr.eval run scope) := by
  induction plain generalizing scope with
  | lit bare => exact .pure (Heap.kept_of_no_object bare)
  | var name =>
      exact .bind (.lookup scope name) fun cell _ => .bind (.found name cell) fun cell _ =>
        .valueOf cell
  | declare name permission _ init =>
      exact .bind (init inner) fun value clear =>
        .bind (.declareMember shut inner name permission clear) fun _ _ => .pure clear
  | assign name _ assigned =>
      exact .bind (assigned inner) fun value clear => .bind (.lookup scope name) fun cell _ =>
        .bind (.found name cell) fun cell _ =>
          .bind (.tryAssign shut cell name clear) fun _ _ => .pure clear
  | setMember name _ _ target assigned =>
      refine .bind (target inner) fun object within =>
        .bind (.holding _ (assigned inner)) fun value clear => ?_
      dsimp only
      split
      next object =>
        exact .bind (.declareMember shut (Heap.not_global_of_kept within) name .publicTier clear)
          fun _ _ => .pure clear
      next =>
        exact .bind (.readHeap fun _ => rfl) fun fault (unthrown : fault.isThrown = false) =>
          .refused unthrown _
  | block index _ body =>
      exact .bind (.allocateBlock scope index) fun block within =>
        .holding _ (evalSeq_safe (fun expr listed _ => body expr listed) Value.kept_null within)
  | seq _ body => exact evalSeq_safe (fun expr listed _ => body expr listed) Value.kept_null inner
  | @define definition parent code _ _ superior =>
      have made {parent : Option Value} (parental : ∀ value, parent = some value →
          origin.Clear value) : Safe Plain origin origin.Clear (do
            return .function (← makeFunction run scope parent definition)) :=
        .bind (.makeFunction serves inner parental code) fun _ _ =>
          .pure (Heap.kept_of_no_object fun scope same => by cases same)
      cases parent with
      | none => exact made fun value given => by cases given
      | some parent =>
          refine .bind (superior parent rfl inner) fun value clear => made ?_
          rintro _ ⟨⟩
          exact clear
  | call _ _ called arguments =>
      exact .bind (called inner) fun callee _ => .holding _ <|
        .bind (evalEach_safe (fun expr listed _ => arguments expr listed) inner)
          fun values clear => .bind (.argumentTable clear) fun table _ =>
            .callValue shut serves callee table
  | callMethod name _ _ target arguments =>
      exact .bind (target inner) fun receiver within => .bind (.memberOf receiver name)
        fun method _ =>
          .bind (.holding _ (evalEach_safe (fun expr listed _ => arguments expr listed) inner))
            fun values clear => .holding _ <| .bind (.argumentTable clear) fun table _ =>
              .callMember shut serves within method table
  | construct _ _ called arguments =>
      exact .bind (called inner) fun callee _ => .holding _ <|
        .bind (evalEach_safe (fun expr listed _ => arguments expr listed) inner)
          fun values clear => .bind (.argumentTable clear) fun table _ =>
            .constructValue shut serves callee table
  | member name _ target =>
      exact .bind (target inner) fun object _ => .memberOf object name
  | thisValue => exact named fun shields => shields.this?
  | superValue => exact named fun shields => shields.super?
  | calleeValue => exact named fun _ => Heap.kept_callee?
  | add _ _ former latter =>
      exact .bind (former inner) fun left _ => .bind (.holding _ (latter inner)) fun right _ =>
        .sum left right
  | throw _ thrown => exact .bind (thrown inner) fun _ clear => .throw clear
  | attempt name _ _ body rescue =>
      exact .catching shut scope name (body inner) fun _ within => rescue within
  | array _ elements =>
      exact .bind (evalEach_safe (fun expr listed _ => elements expr listed) inner)
        fun _ clear => .newArray clear
  | line number => exact .bind (.setLine number) fun _ _ => .pure Value.kept_null
  | crash => exact .crash
  | perform op _ operands =>
      exact steady shut serves op (delayEach_safe fun expr listed _ => operands expr listed)
        scope inner

private theorem runnerAt_safe (steady : Operations.Safe Op) (shut : origin.heap.Sealed)
    (frames : Nat)
    (code : Expr Op) (scope : ScopeId) (plain : code.Plain) (inner : ¬ origin.heap.Global scope) :
    Safe Plain origin origin.Clear (runnerAt frames code scope) := by
  induction frames generalizing code scope with
  | zero => exact .bind .get fun _ _ => .fail rfl
  | succ frames induction => exact eval_safe steady shut induction plain inner

private theorem evaluate_safe (steady : Operations.Safe Op) (shut : origin.heap.Sealed)
    {expr : Expr Op}
    (plain : expr.Plain) {scope : ScopeId} (inner : ¬ origin.heap.Global scope) :
    Safe Plain origin origin.Clear (expr.evaluate scope) :=
  .bind .get fun _ _ => eval_safe steady shut (runnerAt_safe steady shut _) plain inner

end Expr

/-- The literals of a function built from a source are those of its source. -/
theorem Expr.Literals.define_build {good : Value → Prop} {source : FunctionSource}
    (body : source.body.Literals good)
    (statics : ∀ expr, source.statics = some expr → expr.Literals good)
    (superArguments : ∀ exprs, source.superArguments = some exprs →
      ∀ expr ∈ exprs, expr.Literals good)
    {parent : Option Script} (superior : ∀ expr, parent = some expr → expr.Literals good) :
    Expr.Literals good (.define source.build parent) := by
  refine .define (fun node listed => ?_) superior
  simp only [Definition.nodes, FunctionSource.build, List.mem_cons, List.mem_append,
    Option.mem_toList, Option.map_eq_some_iff] at listed
  rcases listed with rfl | ⟨expr, given, rfl⟩ | ⟨exprs, given, rfl⟩
  · exact body
  · exact statics expr given
  · exact .array (superArguments exprs given)

private theorem Native.perform_safe : Operations.Safe Native := by
  intro origin _ run _ native operands _ scope _
  have watermark : Action.Safe Expr.Plain origin origin.Clear
      (watermarkValue : Action Script Value) :=
    .bind .get fun _ _ => .pure (Heap.kept_of_no_object nofun)
  have bare {values : List Value} (other : ∀ value ∈ values, ∀ scope, value ≠ .object scope) :
      ∀ value ∈ values, origin.Clear value :=
    fun value listed => Heap.kept_of_no_object (other value listed)
  change Action.Safe Expr.Plain origin origin.Clear (native.perform scope)
  unfold Native.perform
  cases native with
  | frames =>
      refine .bind .get fun machine _ => .newArray (bare fun value listed => ?_)
      obtain ⟨frame, -, rfl⟩ := List.mem_map.mp listed
      nofun
  | callee => exact .named fun _ => Heap.kept_callee?
  | arguments =>
      have two : ∀ value ∈ [Value.exact 1, Value.exact 2], origin.Clear value := bare (by simp)
      refine .bind watermark fun before first => .bind (.argumentTable nofun) fun none? _ =>
        .bind (.argumentTable two) fun table _ => .bind watermark fun after last =>
          .bind .get fun machine shields => ?_
      refine .bind (.newArray (shields.values _)) fun array listed => .newArray ?_
      have absent : origin.Clear (.bool none?.isNone) := Heap.kept_of_no_object nofun
      simp [first, absent, last, listed]

theorem Script.run_safe {origin : Machine Script} (shut : origin.heap.Sealed) {script : Script}
    (plain : script.Plain) : Action.Safe Expr.Plain origin origin.Clear script.run :=
  .bind .get fun _ _ => .bind (.newScope (Action.Safe.inward_basic ..)) fun scope inner =>
    .inFrame _ _ scope (Expr.evaluate_safe Native.perform_safe shut plain inner)

end ScopeMachine
