import ScopeMachine.Proofs.Globals.SafeEvaluation
import ScopeMachine.Proofs.Names.Shapes
import ScopeMachine.Proofs.Placement.Agreeing
import ScopeMachine.Script

namespace ScopeMachine

/-- A program whose functions are built from sources, whose literals name given things only, and
which declares the names allowed. What a function or a block declares is in its own shape. -/
inductive Script.Regular (given : Handle → Prop) : (String → Prop) → Script → Prop where
  | lit {names : String → Prop} {value : Value}
      (supplied : ∀ handle ∈ value.handles, given handle) : Regular given names (.lit value)
  | var {names : String → Prop} (name : String) : Regular given names (.var name)
  | declare {names : String → Prop} {name : String} (permission : Permission) {init : Script}
      (allowed : names name) (inner : Regular given names init) :
      Regular given names (.declare name permission init)
  | assign {names : String → Prop} (name : String) {value : Script}
      (inner : Regular given names value) : Regular given names (.assign name value)
  | setMember {names : String → Prop} {object value : Script} (name : String)
      (first : Regular given names object) (second : Regular given names value) :
      Regular given names (.setMember object name value)
  | block {names : String → Prop} {index : Index} {body : List Script}
      (inner : ∀ part ∈ body, Regular given (fun name => index.contains name = true) part) :
      Regular given names (.block index body)
  | seq {names : String → Prop} {body : List Script}
      (inner : ∀ part ∈ body, Regular given names part) : Regular given names (.seq body)
  | define {names : String → Prop} (source : FunctionSource) {parent : Option Script}
      (body : Regular given (fun name => source.shape.all.contains name = true) source.body)
      (statics : ∀ static ∈ source.statics, Regular given (fun _ => True) static)
      (superArguments : ∀ arguments ∈ source.superArguments, ∀ argument ∈ arguments,
        Regular given (fun _ => True) argument)
      (super : ∀ expr ∈ parent, Regular given names expr) :
      Regular given names (.define source.build parent)
  | call {names : String → Prop} {callee : Script} {arguments : List Script}
      (first : Regular given names callee)
      (inner : ∀ part ∈ arguments, Regular given names part) :
      Regular given names (.call callee arguments)
  | callMethod {names : String → Prop} {object : Script} (name : String)
      {arguments : List Script} (first : Regular given names object)
      (inner : ∀ part ∈ arguments, Regular given names part) :
      Regular given names (.callMethod object name arguments)
  | construct {names : String → Prop} {callee : Script} {arguments : List Script}
      (first : Regular given names callee)
      (inner : ∀ part ∈ arguments, Regular given names part) :
      Regular given names (.construct callee arguments)
  | member {names : String → Prop} {object : Script} (name : String)
      (inner : Regular given names object) : Regular given names (.member object name)
  | thisValue {names : String → Prop} : Regular given names .thisValue
  | superValue {names : String → Prop} : Regular given names .superValue
  | calleeValue {names : String → Prop} : Regular given names .calleeValue
  | add {names : String → Prop} {left right : Script} (first : Regular given names left)
      (second : Regular given names right) : Regular given names (.add left right)
  | throw {names : String → Prop} {value : Script} (inner : Regular given names value) :
      Regular given names (.throw value)
  | attempt {names : String → Prop} {body handler : Script} (name : String)
      (first : Regular given names body) (second : Regular given (fun _ => True) handler) :
      Regular given names (.attempt body name handler)
  | array {names : String → Prop} {elements : List Script}
      (inner : ∀ part ∈ elements, Regular given names part) : Regular given names (.array elements)
  | line {names : String → Prop} (number : Nat) : Regular given names (.line number)
  | crash {names : String → Prop} : Regular given names .crash

/-- Two versions of a program, with the flags about capturing set as one likes in either. -/
inductive Script.Reflagged : Script → Script → Prop where
  | lit (value : Value) : Reflagged (.lit value) (.lit value)
  | var (name : String) : Reflagged (.var name) (.var name)
  | declare (name : String) (permission : Permission) {init init' : Script}
      (inner : Reflagged init init') :
      Reflagged (.declare name permission init) (.declare name permission init')
  | assign (name : String) {value value' : Script} (inner : Reflagged value value') :
      Reflagged (.assign name value) (.assign name value')
  | setMember (name : String) {object object' value value' : Script}
      (first : Reflagged object object') (second : Reflagged value value') :
      Reflagged (.setMember object name value) (.setMember object' name value')
  | block {index index' : Index} {body body' : List Script}
      (members : index.members = index'.members) (length : body.length = body'.length)
      (inner : ∀ pair ∈ body.zip body', Reflagged pair.1 pair.2) :
      Reflagged (.block index body) (.block index' body')
  | seq {body body' : List Script} (length : body.length = body'.length)
      (inner : ∀ pair ∈ body.zip body', Reflagged pair.1 pair.2) :
      Reflagged (.seq body) (.seq body')
  | define {source source' : FunctionSource} {parent parent' : Option Script}
      (name : source.name = source'.name) (params : source.params = source'.params)
      (rest : source.rest = source'.rest) (locals : source.locals = source'.locals)
      (body : Reflagged source.body source'.body)
      (static : source.statics.isSome = source'.statics.isSome)
      (statics : ∀ one ∈ source.statics, ∀ other ∈ source'.statics, Reflagged one other)
      (arguments : source.superArguments.map List.length = source'.superArguments.map List.length)
      (superArguments : ∀ one ∈ source.superArguments, ∀ other ∈ source'.superArguments,
        ∀ pair ∈ one.zip other, Reflagged pair.1 pair.2)
      (derived : parent.isSome = parent'.isSome)
      (super : ∀ one ∈ parent, ∀ other ∈ parent', Reflagged one other) :
      Reflagged (.define source.build parent) (.define source'.build parent')
  | call {callee callee' : Script} {arguments arguments' : List Script}
      (first : Reflagged callee callee') (length : arguments.length = arguments'.length)
      (inner : ∀ pair ∈ arguments.zip arguments', Reflagged pair.1 pair.2) :
      Reflagged (.call callee arguments) (.call callee' arguments')
  | callMethod (name : String) {object object' : Script} {arguments arguments' : List Script}
      (first : Reflagged object object') (length : arguments.length = arguments'.length)
      (inner : ∀ pair ∈ arguments.zip arguments', Reflagged pair.1 pair.2) :
      Reflagged (.callMethod object name arguments) (.callMethod object' name arguments')
  | construct {callee callee' : Script} {arguments arguments' : List Script}
      (first : Reflagged callee callee') (length : arguments.length = arguments'.length)
      (inner : ∀ pair ∈ arguments.zip arguments', Reflagged pair.1 pair.2) :
      Reflagged (.construct callee arguments) (.construct callee' arguments')
  | member (name : String) {object object' : Script} (inner : Reflagged object object') :
      Reflagged (.member object name) (.member object' name)
  | thisValue : Reflagged .thisValue .thisValue
  | superValue : Reflagged .superValue .superValue
  | calleeValue : Reflagged .calleeValue .calleeValue
  | add {left left' right right' : Script} (first : Reflagged left left')
      (second : Reflagged right right') : Reflagged (.add left right) (.add left' right')
  | throw {value value' : Script} (inner : Reflagged value value') :
      Reflagged (.throw value) (.throw value')
  | attempt (name : String) {body body' handler handler' : Script} (first : Reflagged body body')
      (second : Reflagged handler handler') :
      Reflagged (.attempt body name handler) (.attempt body' name handler')
  | array {elements elements' : List Script} (length : elements.length = elements'.length)
      (inner : ∀ pair ∈ elements.zip elements', Reflagged pair.1 pair.2) :
      Reflagged (.array elements) (.array elements')
  | line (number : Nat) : Reflagged (.line number) (.line number)
  | crash : Reflagged .crash .crash

/-- A program that tells no more than it may of the scopes it runs in, nor do the functions that it
makes of theirs. -/
inductive Script.Confined : (Reading → Prop) → Script → Prop where
  | lit {reads : Reading → Prop} (value : Value) : Confined reads (.lit value)
  | var {reads : Reading → Prop} {name : String} (clear : name ≠ "in" ∨ reads .trailing) :
      Confined reads (.var name)
  | declare {reads : Reading → Prop} (name : String) (permission : Permission) {init : Script}
      (inner : Confined reads init) : Confined reads (.declare name permission init)
  | assign {reads : Reading → Prop} {name : String} {value : Script}
      (clear : name ≠ "in" ∨ reads .trailing) (inner : Confined reads value) :
      Confined reads (.assign name value)
  | setMember {reads : Reading → Prop} {object value : Script} (name : String)
      (first : Confined reads object) (second : Confined reads value) :
      Confined reads (.setMember object name value)
  | block {reads : Reading → Prop} (index : Index) {body : List Script}
      (inner : ∀ part ∈ body, Confined (Terms.blockReads reads) part) :
      Confined reads (.block index body)
  | seq {reads : Reading → Prop} {body : List Script} (inner : ∀ part ∈ body, Confined reads part) :
      Confined reads (.seq body)
  | define {reads : Reading → Prop} {definition : Definition Script} {parent : Option Script}
      (clear : definition.name = "anon" ∨ reads .replaced)
      (body : Confined (Terms.bodyReads definition reads) definition.body.code)
      (statics : ∀ node ∈ definition.statics, Confined (Terms.blockReads reads) node.code)
      (superArguments : ∀ node ∈ definition.superArguments,
        Confined (Terms.callReads reads) node.code)
      (super : ∀ expr ∈ parent, Confined reads expr) : Confined reads (.define definition parent)
  | call {reads : Reading → Prop} {callee : Script} {arguments : List Script}
      (first : Confined reads callee) (inner : ∀ part ∈ arguments, Confined reads part) :
      Confined reads (.call callee arguments)
  | callMethod {reads : Reading → Prop} {object : Script} (name : String) {arguments : List Script}
      (first : Confined reads object) (inner : ∀ part ∈ arguments, Confined reads part) :
      Confined reads (.callMethod object name arguments)
  | construct {reads : Reading → Prop} {callee : Script} {arguments : List Script}
      (first : Confined reads callee) (inner : ∀ part ∈ arguments, Confined reads part) :
      Confined reads (.construct callee arguments)
  | member {reads : Reading → Prop} {object : Script} (name : String)
      (inner : Confined reads object) : Confined reads (.member object name)
  | thisValue {reads : Reading → Prop} : Confined reads .thisValue
  | superValue {reads : Reading → Prop} : Confined reads .superValue
  | calleeValue {reads : Reading → Prop} (clear : reads .callee) : Confined reads .calleeValue
  | add {reads : Reading → Prop} {left right : Script} (first : Confined reads left)
      (second : Confined reads right) : Confined reads (.add left right)
  | throw {reads : Reading → Prop} {value : Script} (inner : Confined reads value) :
      Confined reads (.throw value)
  | attempt {reads : Reading → Prop} {body handler : Script} (name : String)
      (first : Confined reads body) (second : Confined (Terms.blockReads reads) handler) :
      Confined reads (.attempt body name handler)
  | array {reads : Reading → Prop} {elements : List Script}
      (inner : ∀ part ∈ elements, Confined reads part) : Confined reads (.array elements)
  | line {reads : Reading → Prop} (number : Nat) : Confined reads (.line number)
  | crash {reads : Reading → Prop} : Confined reads .crash

namespace Script

variable {given : Handle → Prop} {names : String → Prop} {script script' : Script}

private theorem Confined.relax {reads reads' : Reading → Prop} (confined : Confined reads script)
    (more : ∀ {reading}, reads reading → reads' reading) : Confined reads' script := by
  induction confined generalizing reads' with
  | lit value => exact .lit value
  | var clear => exact .var (clear.imp_right more)
  | declare name permission _ inner => exact .declare name permission (inner more)
  | assign clear _ inner => exact .assign (clear.imp_right more) (inner more)
  | setMember name _ _ first second => exact .setMember name (first more) (second more)
  | block index _ inner =>
      exact .block index fun part listed => inner part listed (Terms.blockReads_mono more)
  | seq _ inner => exact .seq fun part listed => inner part listed more
  | define clear _ _ _ _ body statics superArguments super =>
      exact .define (clear.imp_right more) (body (Terms.bodyReads_mono more))
        (fun node listed => statics node listed (Terms.blockReads_mono more))
        (fun node listed => superArguments node listed (Terms.callReads_mono more))
        fun expr listed => super expr listed more
  | call _ _ first inner => exact .call (first more) fun part listed => inner part listed more
  | callMethod name _ _ first inner =>
      exact .callMethod name (first more) fun part listed => inner part listed more
  | construct _ _ first inner =>
      exact .construct (first more) fun part listed => inner part listed more
  | member name _ inner => exact .member name (inner more)
  | thisValue => exact .thisValue
  | superValue => exact .superValue
  | calleeValue clear => exact .calleeValue (more clear)
  | add _ _ first second => exact .add (first more) (second more)
  | throw _ inner => exact .throw (inner more)
  | attempt name _ _ first second =>
      exact .attempt name (first more) (second (Terms.blockReads_mono more))
  | array _ inner => exact .array fun part listed => inner part listed more
  | line number => exact .line number
  | crash => exact .crash

theorem Regular.reflagged (regular : Regular given names script) : Reflagged script script := by
  have each : ∀ {parts : List Script}, (∀ part ∈ parts, Reflagged part part) →
      ∀ pair ∈ parts.zip parts, Reflagged pair.1 pair.2 := fun inner pair listed => by
    rw [List.zip_eq_zipWith, List.zipWith_self] at listed
    obtain ⟨part, member, rfl⟩ := List.mem_map.mp listed
    exact inner part member
  induction regular with
  | lit => exact .lit _
  | var name => exact .var name
  | declare permission _ _ inner => exact .declare _ permission inner
  | assign name _ inner => exact .assign name inner
  | setMember name _ _ first second => exact .setMember name first second
  | block _ inner => exact .block rfl rfl (each inner)
  | seq _ inner => exact .seq rfl (each inner)
  | define source _ _ _ _ body statics superArguments super =>
      refine .define rfl rfl rfl rfl body rfl ?_ rfl ?_ rfl ?_
      · intro one here other there
        cases Option.mem_unique here there
        exact statics one here
      · intro one here other there
        cases Option.mem_unique here there
        exact each (superArguments one here)
      · intro one here other there
        cases Option.mem_unique here there
        exact super one here
  | call _ _ first inner => exact .call first rfl (each inner)
  | callMethod name _ _ first inner => exact .callMethod name first rfl (each inner)
  | construct _ _ first inner => exact .construct first rfl (each inner)
  | member name _ inner => exact .member name inner
  | thisValue => exact .thisValue
  | superValue => exact .superValue
  | calleeValue => exact .calleeValue
  | add _ _ first second => exact .add first second
  | throw _ inner => exact .throw inner
  | attempt name _ _ first second => exact .attempt name first second
  | array _ inner => exact .array rfl (each inner)
  | line number => exact .line number
  | crash => exact .crash

theorem Regular.plain (sort : ∀ {handle}, given handle →
      (∃ id, handle = .array id) ∨ ∃ id, handle = .exception id)
    (regular : Regular given names script) : script.Plain := by
  induction regular with
  | @lit _ value supplied =>
      refine .lit fun scope same => ?_
      subst same
      rcases sort (supplied _ (.head _)) with ⟨_, same⟩ | ⟨_, same⟩ <;> cases same
  | var name => exact .var name
  | declare permission _ _ inner => exact .declare _ permission inner
  | assign name _ inner => exact .assign name inner
  | setMember name _ _ first second => exact .setMember name first second
  | block _ inner => exact .block _ inner
  | seq _ inner => exact .seq inner
  | define source _ _ _ _ body statics superArguments super =>
      exact .define_build body (fun static => statics static) superArguments (fun expr =>
        super expr)
  | call _ _ first inner => exact .call first inner
  | callMethod name _ _ first inner => exact .callMethod name first inner
  | construct _ _ first inner => exact .construct first inner
  | member name _ inner => exact .member name inner
  | thisValue => exact .thisValue
  | superValue => exact .superValue
  | calleeValue => exact .calleeValue
  | add _ _ first second => exact .add first second
  | throw _ inner => exact .throw inner
  | attempt name _ _ first second => exact .attempt name first second
  | array _ inner => exact .array inner
  | line number => exact .line number
  | crash => exact .crash

private theorem Reflagged.namesImplicit (reflagged : Reflagged script script') :
    script.namesImplicit = script'.namesImplicit := by
  have each : ∀ {parts parts' : List Script}, parts.length = parts'.length →
      (∀ pair ∈ parts.zip parts', pair.1.namesImplicit = pair.2.namesImplicit) →
        Expr.anyNamesImplicit parts = Expr.anyNamesImplicit parts' := by
    intro parts parts' length inner
    have alike : List.Forall₂ (fun part part' => part.namesImplicit = part'.namesImplicit) parts
        parts' := List.forall₂_iff_zip.mpr ⟨length, fun listed => inner _ listed⟩
    clear length inner
    induction alike with
    | nil => rfl
    | cons first _ induction => exact congrArg₂ (· || ·) first induction
  induction reflagged with
  | declare _ _ _ inner | assign _ _ inner | member _ _ inner | throw _ inner => exact inner
  | setMember _ _ _ first second | add _ _ first second | attempt _ _ _ first second =>
      exact congrArg₂ (· || ·) first second
  | block _ length _ inner | seq length _ inner | array length _ inner => exact each length inner
  | call _ length _ first inner | callMethod _ _ length _ first inner
  | construct _ length _ first inner => exact congrArg₂ (· || ·) first (each length inner)
  | _ => rfl

structure Lawful (given : Handle → Prop) (definition : Definition Script) : Prop where
  body : Regular given (fun name => definition.body.shape.all.contains name = true)
    definition.body.code
  statics : ∀ node ∈ definition.statics, Regular given (fun _ => True) node.code
  superArguments : ∀ node ∈ definition.superArguments, Regular given (fun _ => True) node.code
  bare : definition.skipsScope = true → definition.body.shape.all.members = #[]

structure Confines (reads : Reading → Prop) (definition : Definition Script)
    (parent : Option Script) : Prop where
  clear : definition.name = "anon" ∨ reads .replaced
  body : Confined (Terms.bodyReads definition reads) definition.body.code
  statics : ∀ node ∈ definition.statics, Confined (Terms.blockReads reads) node.code
  superArguments : ∀ node ∈ definition.superArguments, Confined (Terms.callReads reads) node.code
  super : ∀ expr ∈ parent, Confined reads expr

theorem Confined.parts {reads : Reading → Prop} {definition : Definition Script}
    {parent : Option Script} (confined : Confined reads (.define definition parent)) :
    Confines reads definition parent := by
  cases confined with
  | define clear body statics superArguments super =>
      exact ⟨clear, body, statics, superArguments, super⟩

theorem Regular.lawful {definition : Definition Script} {parent : Option Script}
    (regular : Regular given names (.define definition parent)) :
    Lawful given definition ∧ ∀ expr ∈ parent, Regular given names expr := by
  generalize form : (.define definition parent : Script) = script at regular
  cases regular with
  | define source body statics superArguments super =>
      cases form
      refine ⟨⟨body, fun node listed => ?_, fun node listed => ?_, fun skips => ?_⟩, super⟩
      · obtain ⟨static, here, rfl⟩ := Option.mem_map.mp listed
        exact statics static here
      · obtain ⟨arguments, here, rfl⟩ := Option.mem_map.mp listed
        exact .array (superArguments arguments here)
      · simp only [Definition.skipsScope, FunctionSource.build, Bool.and_eq_true, Bool.not_not,
          List.isEmpty_iff, Option.isNone_iff_eq_none] at skips
        obtain ⟨⟨⟨locals, -⟩, params⟩, rest⟩ := skips
        change source.shape.all.members = #[]
        unfold FunctionSource.shape
        rw [params, rest, locals]
        rfl
  | _ => cases form

/-- The terms on which two runs of scripts are compared. -/
def terms (inStep veiled : Prop) (given aside : Handle → Prop) (origin : Heap Script) :
    Terms Script where
  inStep := inStep
  veiled := veiled
  given := given
  aside := aside
  origin := origin
  twins licence code code' :=
    Reflagged code code' ∧ Regular given licence.names code ∧ (inStep → code = code') ∧
      (veiled → Confined licence.reads code)
  relax := fun more twins =>
    ⟨twins.1, twins.2.1, twins.2.2.1, fun veiled => (twins.2.2.2 veiled).relax more⟩

variable {inStep veiled : Prop} {reads : Reading → Prop} {aside : Handle → Prop}
  {origin : Heap Script}

theorem Reflagged.definitions {definition definition' : Definition Script}
    {parent parent' : Option Script}
    (reflagged : Reflagged (.define definition parent) (.define definition' parent'))
    (lawful : Lawful given definition) (same : inStep → definition = definition')
    (confined : veiled → Confined reads (.define definition parent)) :
    (terms inStep veiled given aside origin).Definitions reads definition definition' := by
  generalize form : (.define definition parent : Script) = script at reflagged
  generalize form' : (.define definition' parent' : Script) = script' at reflagged
  cases reflagged with
  | @define source source' _ _ name params rest locals body static statics arguments
      superArguments =>
      cases form
      cases form'
      have parameters : source.paramDeclarations = source'.paramDeclarations := by
        unfold FunctionSource.paramDeclarations
        rw [params]
      have others : source.restDeclaration = source'.restDeclaration := by
        unfold FunctionSource.restDeclaration
        rw [rest]
      -- A further part of a definition runs in a scope of its own.
      have nodes : ∀ {reads : Reading → Prop} {part part' : Option Script},
          part.isSome = part'.isSome →
          (∀ one ∈ part, ∀ other ∈ part', Reflagged one other) →
          (∀ node ∈ part.map (source.node .empty), Regular given (fun _ => True) node.code) →
          (inStep → part.map (source.node .empty) = part'.map (source'.node .empty)) →
          (veiled → ∀ node ∈ part.map (source.node .empty), Confined reads node.code) →
          Option.Rel ((terms inStep veiled given aside origin).Nodes ⟨fun _ => True, reads⟩)
            (part.map (source.node .empty)) (part'.map (source'.node .empty)) := by
        intro reads part part' some reflagged regular same confined
        cases part with
        | none =>
            obtain rfl := Option.isNone_iff_eq_none.mp (Option.isSome_eq_false_iff.mp some.symm)
            exact .none
        | some one =>
            obtain ⟨other, rfl⟩ := Option.isSome_iff_exists.mp some.symm
            refine .some ⟨name, rfl, fun _ => rfl, reflagged one rfl other rfl, regular _ rfl,
              fun here => ?_, fun veiled => confined veiled _ rfl⟩
            exact congrArg Node.code (Option.some.inj (same here))
      refine ⟨name, parameters, others, ?_, body.namesImplicit,
        fun here => congrArg Definition.captures (same here), ⟨name, rfl, fun view => ?_, body,
          lawful.body, fun here => congrArg (·.body.code) (same here),
          fun veiled => (confined veiled).parts.body⟩, lawful.bare, ?_, ?_⟩
      · exact congrArg (!·.isEmpty) locals
      · change (source.shape.table view).members = (source'.shape.table view).members
        unfold FunctionSource.shape
        rw [Shape.table_ofDeclarations, Shape.table_ofDeclarations, parameters, others, locals]
        rfl
      · exact nodes static statics lawful.statics
          (fun here => congrArg Definition.statics (same here))
          fun veiled => (confined veiled).parts.statics
      · have whole : ∀ (source : FunctionSource), source.build.superArguments =
            (source.superArguments.map Expr.array).map (source.node .empty) := fun source =>
          (Option.map_map ..).symm
        have regular := lawful.superArguments
        have same := fun here => congrArg Definition.superArguments (same here)
        have confined := fun veiled => (confined veiled).parts.superArguments
        rw [whole] at regular same confined ⊢
        rw [whole] at same ⊢
        refine nodes ?_ ?_ regular same confined
        · simpa using congrArg Option.isSome arguments
        · rintro _ here _ there
          obtain ⟨one, listed, rfl⟩ := Option.mem_map.mp here
          obtain ⟨other, listed', rfl⟩ := Option.mem_map.mp there
          rw [Option.mem_def.mp listed, Option.mem_def.mp listed'] at arguments
          exact .array (Option.some.inj arguments) (superArguments one listed other listed')
  | _ => cases form

end Script

end ScopeMachine
