import ScopeMachine.Proofs.Evaluation.Composed
import ScopeMachine.Proofs.Placement.Scoping
import ScopeMachine.Proofs.Placement.Versions

namespace ScopeMachine

open ScopeMachine.Action

namespace Terms

variable {Op α β : Type} {terms : Terms (Expr Op)} {link : Link}
  {left right : Machine (Expr Op)} {a b : ScopeId} {licence : Licence}
  {held : List (Handle × Handle)} {run run' : Runner (Expr Op)}

structure Evaluates [Operations Op] (terms : Terms (Expr Op)) (licence : Licence)
    (run run' : Runner (Expr Op)) (expr expr' : Expr Op) : Prop where
  on {link : Link} {left right : Machine (Expr Op)} {a b : ScopeId} {held : List (Handle × Handle)}
    (stage : terms.Stage licence link left right a b held) :
    terms.Matches held (Held held) link left right (terms.Meets Link.Values) (expr.eval run a)
      (expr'.eval run' b)

namespace Matches

private theorem bindHolding {γ δ : Type} {meeting : Meeting (Expr Op) γ δ}
    {meeting' : Meeting (Expr Op) α β}
    {action : Action (Expr Op) γ} {action' : Action (Expr Op) δ}
    {next : γ → Action (Expr Op) α} {next' : δ → Action (Expr Op) β} {values values' : List Value}
    (alike : List.Forall₂ link.Values values values')
    (inner : terms.Matches (Link.Values.listSides values values' ++ held)
      (Held (Link.Values.listSides values values' ++ held)) link left right meeting action action')
    (onward : ∀ {link' result left' result' right'},
      link.Passes (Held held) left right link' left' right' →
      List.Forall₂ link'.Values values values' → meeting link' result left' result' right' →
      terms.Matches held (Held held) link' left' right' meeting' (next result) (next' result')) :
    terms.Matches held (Held held) link left right meeting'
      (Action.holding (values.flatMap Value.handles) action >>= next)
      (Action.holding (values'.flatMap Value.handles) action' >>= next') := by
  obtain ⟨here, there, -⟩ := Link.Values.listHandles alike
  rw [← here, ← there]
  exact .bind (.holding _ inner) (List.mem_append_right _) fun passes met =>
    onward (passes.weaken (List.mem_append_right _))
      (passes.listValues alike fun _ listed => List.mem_append_left _ listed) met

section Parts

variable [Operations Op]

private theorem evalEach {parts parts' : List (Expr Op)}
    (each : List.Forall₂ (terms.Evaluates licence run run') parts parts')
    (stage : terms.Stage licence link left right a b held) :
    terms.Matches held (Held held) link left right
    (terms.Meets fun link => List.Forall₂ link.Values)
      (Expr.evalEach run parts a) (Expr.evalEach run' parts' b) := by
  induction each generalizing link left right held with
  | nil => exact .pure stage.mirrors ⟨stage.mirrors, .nil⟩
  | @cons part part' parts parts' first _ induction =>
      unfold Expr.evalEach
      refine .bind (first.on stage) id fun {link' value left' value' right'} passes met => ?_
      have values : List.Forall₂ link'.Values [value] [value'] := .cons met.2 .nil
      rw [← List.flatMap_singleton Value.handles value,
        ← List.flatMap_singleton Value.handles value']
      refine .bindHolding values (induction ((stage.after passes met.1).holding _))
        fun _ values met' => ?_
      cases values with
      | cons first _ => exact .pure met'.1 ⟨met'.1, .cons first met'.2⟩

private theorem evalSeq {parts parts' : List (Expr Op)}
    (each : List.Forall₂ (terms.Evaluates licence run run') parts parts')
    (stage : terms.Stage licence link left right a b held) {last last' : Value}
    (values : link.Values last last') :
    terms.Matches held (Held held) link left right (terms.Meets Link.Values)
      (Expr.evalSeq run parts last a) (Expr.evalSeq run' parts' last' b) := by
  induction each generalizing link left right held last last' with
  | nil => exact .pure stage.mirrors ⟨stage.mirrors, values⟩
  | @cons part part' parts parts' first _ induction =>
      unfold Expr.evalSeq
      rw [← List.flatMap_singleton Value.handles last, ← List.flatMap_singleton Value.handles last']
      exact .bindHolding (.cons values .nil) (first.on (stage.holding _)) fun passes _ met =>
        induction (stage.after passes met.1) met.2

end Parts

private theorem callMember (follows : terms.Follows run run') {arguments arguments' : Option Table}
    (brings : terms.Brings link arguments arguments' left right)
    {receiver receiver' method method' : Value} (receivers : link.Values receiver receiver')
    (methods : link.Values method method') :
    terms.Matches held (Held held) link left right (terms.Meets Link.Values)
      (Expr.callMember run receiver method arguments)
      (Expr.callMember run' receiver' method' arguments') := by
  have plain : terms.Matches held (Held held) link left right (terms.Meets Link.Values) _ _ :=
    .callValue follows brings methods
  cases methods with
  | plain bare =>
      cases method with
      | function => cases bare
      | _ => exact plain
  | function paired => exact .callFunction follows brings paired (.some receivers)
  | array | exception | object => exact plain

end Matches

namespace Evaluates

open Expr

variable [Operations Op] {first first' second second' : Expr Op} {parts parts' : List (Expr Op)}

private theorem lit {value : Value} (given : ∀ handle ∈ value.handles, terms.given handle) :
    terms.Evaluates licence run run' (.lit value) (.lit value) :=
  ⟨fun stage => .pure stage.mirrors ⟨stage.mirrors,
    stage.mirrors.agree.provided.supplies.values stage.mirrors.agree.given given⟩⟩

private theorem var {name : String} (clear : terms.veiled → name ≠ "in" ∨ licence.reads .trailing) :
    terms.Evaluates licence run run' (.var name) (.var name) :=
  ⟨fun stage => .var stage.mirrors stage.under (stage.clear nofun clear)⟩

private theorem declare {name : String} (permission : Permission) (allowed : licence.names name)
    (inner : terms.Evaluates licence run run' first first') :
    terms.Evaluates licence run run' (.declare name permission first)
      (.declare name permission first') := by
  refine ⟨fun {link left right a b held} stage => ?_⟩
  refine .bind (inner.on stage) id fun passes met => ?_
  have stage := stage.after passes met.1
  exact .bindOnward (.declareMember stage.mirrors (stage.declares allowed) name permission
    (fun pooled => stage.admits pooled name allowed)
    (fun pooled => stage.admits' pooled name allowed) met.2)
    fun grows met' => .pure met'.1 ⟨met'.1, grows.values met.2⟩

private theorem assign {name : String}
    (clear : terms.veiled → name ≠ "in" ∨ licence.reads .trailing)
    (inner : terms.Evaluates licence run run' first first') :
    terms.Evaluates licence run run' (.assign name first) (.assign name first') := by
  refine ⟨fun {link left right a b held} stage => ?_⟩
  refine .bind (inner.on stage) id fun passes met => ?_
  have stage := stage.after passes met.1
  exact .assignVar met.1 stage.under (stage.clear nofun clear) met.2

private theorem both {γ δ : Type} {meeting : Meeting (Expr Op) γ δ}
    {next : Value → Value → Action (Expr Op) γ} {next' : Value → Value → Action (Expr Op) δ}
    (inner : terms.Evaluates licence run run' first first')
    (other : terms.Evaluates licence run run' second second')
    (stage : terms.Stage licence link left right a b held)
    (onward : ∀ {link' left' right' value value' result result'},
      terms.Mirrors link' .empty .empty left' right' → link'.Values value value' →
      link'.Values result result' →
      terms.Matches held (Held held) link' left' right' meeting (next value result)
        (next' value' result')) :
    terms.Matches held (Held held) link left right meeting
      (first.eval run a >>= fun value => holding value.handles (second.eval run a) >>= next value)
      (first'.eval run' b >>= fun value =>
        holding value.handles (second'.eval run' b) >>= next' value) := by
  refine .bind (inner.on stage) id fun {link' value left' value' right'} passes met => ?_
  rw [← List.flatMap_singleton Value.handles value, ← List.flatMap_singleton Value.handles value']
  refine .bindHolding (.cons met.2 .nil) (other.on ((stage.after passes met.1).holding _))
    fun _ values met' => ?_
  cases values with
  | cons values _ => exact onward met'.1 values met'.2

private theorem setMember (name : String) (inner : terms.Evaluates licence run run' first first')
    (other : terms.Evaluates licence run run' second second') :
    terms.Evaluates licence run run' (.setMember first name second)
      (.setMember first' name second') := by
  refine ⟨fun {link left right a b held} stage => ?_⟩
  exact both inner other stage fun mirrors values others => .storeMember mirrors values name others

private theorem add (inner : terms.Evaluates licence run run' first first')
    (other : terms.Evaluates licence run run' second second') :
    terms.Evaluates licence run run' (.add first second) (.add first' second') := by
  refine ⟨fun {link left right a b held} stage => ?_⟩
  exact both inner other stage fun mirrors values others => .sum mirrors values others

private theorem block {index index' : Index} (members : index.members = index'.members)
    (same : terms.inStep → index = index')
    (each : List.Forall₂ (terms.Evaluates ⟨fun name => index.contains name = true,
      blockReads licence.reads⟩ run run') parts parts') :
    terms.Evaluates licence run run' (.block index parts) (.block index' parts') := by
  refine ⟨fun {link left right a b held} stage => ?_⟩
  refine .bind (.allocateBlock stage.mirrors stage.under members same) id
    fun {link' inner left' inner' right'} passes met => ?_
  obtain ⟨mirrors, ⟨paired, sure⟩, known, known'⟩ := met
  have suits : Suits ⟨fun name => index.contains name = true, blockReads licence.reads⟩ link' left'
      right' inner inner' := by
    refine .of_paired paired (fun allowed => sure (blockReads_mono stage.sure allowed))
      (fun _ name declared => ?_) fun _ name declared => ?_
    · rw [known]
      exact declared
    · rw [known', Index.contains, ← Index.slot?_congr members]
      exact declared
  exact .weaken (.holding [(.scope inner, .scope inner')] (.evalSeq each
    { suits with mirrors, listed := .head _ } (.plain rfl))) (.tail _)

private theorem seq (each : List.Forall₂ (terms.Evaluates licence run run') parts parts') :
    terms.Evaluates licence run run' (.seq parts) (.seq parts') :=
  ⟨fun stage => .evalSeq each stage (.plain rfl)⟩

section Calls

variable (follows : terms.Follows run run')
include follows

private theorem define {definition definition' : Definition (Expr Op)}
    (definitions : terms.Definitions licence.reads definition definition')
    (clear : terms.veiled → definition.name = "anon" ∨ licence.reads .replaced) :
    terms.Evaluates licence run run' (.define definition none) (.define definition' none) := by
  refine ⟨fun {link left right a b held} stage => ?_⟩
  exact .bind (.makeFunction follows definitions stage
    (definitions.name ▸ stage.clear nofun clear) .none) id
    fun _ met => .pure met.1 ⟨met.1, .function met.2⟩

private theorem derive {definition definition' : Definition (Expr Op)}
    (definitions : terms.Definitions licence.reads definition definition')
    (clear : terms.veiled → definition.name = "anon" ∨ licence.reads .replaced)
    (inner : terms.Evaluates licence run run' first first') :
    terms.Evaluates licence run run' (.define definition (some first))
      (.define definition' (some first')) := by
  refine ⟨fun {link left right a b held} stage => ?_⟩
  refine .bind (inner.on stage) id fun passes met => ?_
  have stage := stage.after passes met.1
  exact .bind (.makeFunction follows definitions stage
    (definitions.name ▸ stage.clear nofun clear) (.some met.2)) id
    fun _ met' => .pure met'.1 ⟨met'.1, .function met'.2⟩

omit follows in
private theorem applied {next next' : Value → Option Table → Action (Expr Op) Value}
    (inner : terms.Evaluates licence run run' first first')
    (each : List.Forall₂ (terms.Evaluates licence run run') parts parts')
    (stage : terms.Stage licence link left right a b held)
    (onward : ∀ {link' left' right' value value' arguments arguments' held'},
      link'.Values value value' → terms.Brings link' arguments arguments' left' right' →
      terms.Matches held' (Held held') link' left' right' (terms.Meets Link.Values)
        (next value arguments) (next' value' arguments')) :
    terms.Matches held (Held held) link left right (terms.Meets Link.Values)
      (first.eval run a >>= fun value => holding value.handles
        (evalEach run parts a >>= fun arguments => argumentTable arguments >>= next value))
      (first'.eval run' b >>= fun value => holding value.handles
        (evalEach run' parts' b >>= fun arguments => argumentTable arguments >>= next' value)) := by
  refine .bind (inner.on stage) id fun {link' value left' value' right'} passes met => ?_
  obtain ⟨here, there, -⟩ := met.2.handles
  rw [← here, ← there]
  refine .weaken (.holding _ (.bind (.evalEach each ((stage.after passes met.1).holding _)) id
    fun passes' met' => ?_)) (List.mem_append_right _)
  have values := passes'.values met.2 fun _ listed => List.mem_append_left _ listed
  exact .bindOnward (.argumentTable met'.1 met'.2) fun grows brings =>
    onward (grows.values values) brings

private theorem call (inner : terms.Evaluates licence run run' first first')
    (each : List.Forall₂ (terms.Evaluates licence run run') parts parts') :
    terms.Evaluates licence run run' (.call first parts) (.call first' parts') := by
  refine ⟨fun {link left right a b held} stage => ?_⟩
  exact applied inner each stage fun values brings => .callValue follows brings values

private theorem construct (inner : terms.Evaluates licence run run' first first')
    (each : List.Forall₂ (terms.Evaluates licence run run') parts parts') :
    terms.Evaluates licence run run' (.construct first parts) (.construct first' parts') := by
  refine ⟨fun {link left right a b held} stage => ?_⟩
  exact applied inner each stage fun values brings => .constructValue follows brings values

private theorem callMethod (name : String) (inner : terms.Evaluates licence run run' first first')
    (each : List.Forall₂ (terms.Evaluates licence run run') parts parts') :
    terms.Evaluates licence run run' (.callMethod first name parts)
      (.callMethod first' name parts') := by
  refine ⟨fun {link left right a b held} stage => ?_⟩
  refine .bind (inner.on stage) id fun {link₁ receiver left₁ receiver' right₁} passes met => ?_
  have stage₁ := stage.after passes met.1
  refine .bind (.memberOf stage₁.mirrors met.2 name) (fun _ => trivial)
    fun {link₂ method left₂ method' right₂} (onward : Onward link₁ left₁ right₁ link₂ left₂ right₂)
      met₂ => ?_
  have stage₂ := stage₁.after (onward.weaken fun _ => trivial) met₂.1
  have values : List.Forall₂ link₂.Values [receiver, method] [receiver', method'] :=
    .cons (onward.grows.values met.2) (.cons met₂.2 .nil)
  have handles : ∀ one other : Value,
      one.handles ++ other.handles = [one, other].flatMap Value.handles := by simp
  rw [handles, handles]
  refine .bindHolding values (.evalEach each (stage₂.holding _)) fun _ values met₃ => ?_
  cases values with
  | cons receivers methods =>
      cases methods with
      | cons methods _ =>
          obtain ⟨here, there, -⟩ := methods.handles
          rw [← here, ← there]
          exact .weaken (.holding _ (.bindOnward (.argumentTable met₃.1 met₃.2) fun grows brings =>
            .callMember follows brings (grows.values receivers) (grows.values methods)))
            (List.mem_append_right _)

end Calls

private theorem member (name : String) (inner : terms.Evaluates licence run run' first first') :
    terms.Evaluates licence run run' (.member first name) (.member first' name) := by
  refine ⟨fun {link left right a b held} stage => ?_⟩
  exact .bind (inner.on stage) id fun _ met => .memberOf met.1 met.2 name

private theorem thisValue : terms.Evaluates licence run run' (.thisValue : Expr Op) .thisValue :=
  ⟨fun stage => .bindRead (.pure stage.mirrors ⟨stage.mirrors,
    .getD (stage.mirrors.agree.this? stage.under) rfl⟩)⟩

private theorem superValue : terms.Evaluates licence run run' (.superValue : Expr Op) .superValue :=
  ⟨fun stage => .bindRead (.pure stage.mirrors ⟨stage.mirrors,
    .getD (stage.mirrors.agree.super? stage.under) rfl⟩)⟩

private theorem calleeValue (clear : terms.veiled → licence.reads .callee) :
    terms.Evaluates licence run run' (.calleeValue : Expr Op) .calleeValue :=
  ⟨fun stage => .bindRead (.pure stage.mirrors ⟨stage.mirrors,
    .getD (stage.mirrors.agree.callee? (stage.surely nofun clear)) rfl⟩)⟩

private theorem throw (inner : terms.Evaluates licence run run' first first') :
    terms.Evaluates licence run run' (.throw first) (.throw first') := by
  refine ⟨fun {link left right a b held} stage => ?_⟩
  exact .bind (inner.on stage) id fun _ met => .throw met.1 met.2

private theorem attempt (name : String) (inner : terms.Evaluates licence run run' first first')
    (handler : terms.Evaluates ⟨fun _ => True, blockReads licence.reads⟩ run run' second second') :
    terms.Evaluates licence run run' (.attempt first name second)
    (.attempt first' name second') := by
  refine ⟨fun {link left right a b held} stage => ?_⟩
  exact .catching stage name (inner.on stage) fun _ stage => handler.on stage

private theorem array (each : List.Forall₂ (terms.Evaluates licence run run') parts parts') :
    terms.Evaluates licence run run' (.array parts) (.array parts') := by
  refine ⟨fun {link left right a b held} stage => ?_⟩
  exact .bind (.evalEach each stage) id fun _ met => .newArray met.1 met.2

private theorem line (number : Nat) :
    terms.Evaluates licence run run' (.line number) (.line number) :=
  ⟨fun stage => .setLine stage.mirrors number⟩

private theorem crash : terms.Evaluates licence run run' (.crash : Expr Op) .crash :=
  ⟨fun stage => .crash stage.mirrors⟩

end Evaluates

end Terms

namespace Script

variable {inStep veiled : Prop} {given aside : Handle → Prop} {origin : Heap Script}
  {licence : Licence} {run run' : Runner Script} {script script' : Script}

private theorem evaluates_each {parts parts' : List Script} (length : parts.length = parts'.length)
    (evaluates : ∀ pair ∈ parts.zip parts', ∀ {licence : Licence},
      Regular given licence.names pair.1 → (inStep → pair.1 = pair.2) →
        (veiled → Confined licence.reads pair.1) →
          (terms inStep veiled given aside origin).Evaluates licence run run' pair.1 pair.2)
    (regular : ∀ part ∈ parts, Regular given licence.names part) (same : inStep → parts = parts')
    (confined : veiled → ∀ part ∈ parts, Confined licence.reads part) :
    List.Forall₂ ((terms inStep veiled given aside origin).Evaluates licence run run') parts
      parts' := by
  refine List.forall₂_iff_zip.mpr ⟨length, fun {part part'} listed => ?_⟩
  have first := (List.of_mem_zip listed).1
  refine evaluates _ listed (regular part first) (fun here => ?_) fun here =>
    confined here part first
  obtain rfl := same here
  rw [List.zip_eq_zipWith, List.zipWith_self] at listed
  obtain ⟨_, -, pair⟩ := List.mem_map.mp listed
  cases pair
  rfl

theorem Reflagged.evaluates (follows : (terms inStep veiled given aside origin).Follows run run')
    (reflagged : Reflagged script script') (regular : Regular given licence.names script)
    (same : inStep → script = script') (confined : veiled → Confined licence.reads script) :
    (terms inStep veiled given aside origin).Evaluates licence run run' script script' := by
  induction reflagged generalizing licence with
  | lit value =>
      cases regular with
      | lit supplied => exact .lit supplied
  | var name => exact .var (fun here => by cases confined here; assumption)
  | declare name permission _ induction =>
      cases regular with
      | declare _ allowed inner =>
          exact .declare permission allowed
            (induction inner (fun here => (Expr.declare.inj (same here)).2.2)
              fun here => by cases confined here; assumption)
  | assign name _ induction =>
      cases regular with
      | assign _ inner =>
          exact .assign (fun here => by cases confined here; assumption)
            (induction inner (fun here => (Expr.assign.inj (same here)).2)
              fun here => by cases confined here; assumption)
  | setMember name _ _ induction induction' =>
      cases regular with
      | setMember _ inner other =>
          exact .setMember name
            (induction inner (fun here => (Expr.setMember.inj (same here)).1)
              fun here => by cases confined here; assumption)
            (induction' other (fun here => (Expr.setMember.inj (same here)).2.2)
              fun here => by cases confined here; assumption)
  | block members length _ induction =>
      cases regular with
      | block inner =>
          exact .block members (fun here => (Expr.block.inj (same here)).1)
            (evaluates_each length induction inner (fun here => (Expr.block.inj (same here)).2)
              fun here => by cases confined here; assumption)
  | seq length _ induction =>
      cases regular with
      | seq inner =>
          exact .seq (evaluates_each length induction inner (fun here => Expr.seq.inj (same here))
            fun here => by cases confined here; assumption)
  | @define source source' parent parent' name params rest locals body static statics arguments
      superArguments derived super _ _ _ induction =>
      have ⟨lawful, parents⟩ := regular.lawful
      have definitions := (@Script.Reflagged.definitions _ _ _ _ aside origin)
        (.define name params rest locals body static statics arguments superArguments derived super)
        lawful (fun here => (Expr.define.inj (same here)).1) confined
      have clear := fun here => (confined here).parts.clear
      cases parent with
      | none =>
          obtain rfl := Option.isNone_iff_eq_none.mp (Option.isSome_eq_false_iff.mp derived.symm)
          exact .define follows definitions clear
      | some one =>
          obtain ⟨other, rfl⟩ := Option.isSome_iff_exists.mp derived.symm
          exact .derive follows definitions clear (induction one rfl other rfl (parents one rfl)
            (fun here => Option.some.inj (Expr.define.inj (same here)).2)
            fun here => (confined here).parts.super one rfl)
  | call _ length _ induction others =>
      cases regular with
      | call inner parts =>
          exact .call follows
            (induction inner (fun here => (Expr.call.inj (same here)).1)
              fun here => by cases confined here; assumption)
            (evaluates_each length others parts (fun here => (Expr.call.inj (same here)).2)
              fun here => by cases confined here; assumption)
  | callMethod name _ length _ induction others =>
      cases regular with
      | callMethod _ inner parts =>
          exact .callMethod follows name
            (induction inner (fun here => (Expr.callMethod.inj (same here)).1)
              fun here => by cases confined here; assumption)
            (evaluates_each length others parts (fun here => (Expr.callMethod.inj (same here)).2.2)
              fun here => by cases confined here; assumption)
  | construct _ length _ induction others =>
      cases regular with
      | construct inner parts =>
          exact .construct follows
            (induction inner (fun here => (Expr.construct.inj (same here)).1)
              fun here => by cases confined here; assumption)
            (evaluates_each length others parts (fun here => (Expr.construct.inj (same here)).2)
              fun here => by cases confined here; assumption)
  | member name _ induction =>
      cases regular with
      | member _ inner =>
          exact .member name
            (induction inner (fun here => (Expr.member.inj (same here)).1)
              fun here => by cases confined here; assumption)
  | thisValue => exact .thisValue
  | superValue => exact .superValue
  | calleeValue => exact .calleeValue (fun here => by cases confined here; assumption)
  | add _ _ induction induction' =>
      cases regular with
      | add inner other =>
          exact .add
            (induction inner (fun here => (Expr.add.inj (same here)).1)
              fun here => by cases confined here; assumption)
            (induction' other (fun here => (Expr.add.inj (same here)).2)
              fun here => by cases confined here; assumption)
  | throw _ induction =>
      cases regular with
      | throw inner =>
          exact .throw (induction inner (fun here => Expr.throw.inj (same here))
            fun here => by cases confined here; assumption)
  | attempt name _ _ induction induction' =>
      cases regular with
      | attempt _ inner other =>
          exact .attempt name
            (induction inner (fun here => (Expr.attempt.inj (same here)).1)
              fun here => by cases confined here; assumption)
            (induction' other (fun here => (Expr.attempt.inj (same here)).2.2)
              fun here => by cases confined here; assumption)
  | array length _ induction =>
      cases regular with
      | array inner =>
          exact .array (evaluates_each length induction inner
            (fun here => Expr.array.inj (same here)) fun here => by cases confined here; assumption)
  | line number => exact .line number
  | crash => exact .crash

end Script

end ScopeMachine
