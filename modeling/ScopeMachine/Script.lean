import ScopeMachine.Evaluation
import ScopeMachine.Machine.Global

namespace ScopeMachine

open ScopeMachine.Action

/-- Bodies that the host executes itself. -/
inductive Native where
  /-- The open frames as an array of texts. -/
  | frames
  | callee
  /-- Allocates argument tables and reports the watermark around them. -/
  | arguments
  deriving DecidableEq, Repr

namespace Native

variable {Code : Type}

def frameText (frame : Frame) : Value :=
  .text (frame.id ++ " " ++ frame.file ++ ":" ++ toString frame.line)

def watermarkValue : Action Code Value := do
  return .ofCount (← get).watermark

def perform (native : Native) (scope : ScopeId) : Action Code Value :=
  match native with
  | .frames => do newArray ((← get).frames.toList.map frameText)
  | .callee => do return (← readHeap (·.callee? scope)).getD .null
  | .arguments => do
      let before ← watermarkValue
      let none? ← argumentTable []
      let table ← argumentTable [.exact 1, .exact 2]
      let after ← watermarkValue
      let values := (table.getD .empty).values (← get).heap.memory
      newArray [before, .bool none?.isNone, after, ← newArray values]

end Native

instance : Operations Native where
  perform _ native _ scope := native.perform scope

/-- A program of the script language. -/
abbrev Script : Type := Expr Native

structure FunctionSource where
  name : String
  /-- Names of the parameters, and whether each is private. -/
  params : List (String × Bool) := []
  rest : Option String := none
  locals : List Declaration := []
  captures : Bool := false
  body : Script
  statics : Option Script := none
  superArguments : Option (List Script) := none

namespace FunctionSource

def file : String := "test.osc"

def paramDeclarations (source : FunctionSource) : List Declaration :=
  source.params.map fun (name, isPrivate) =>
    ⟨name, if isPrivate then .privateTier else .publicTier⟩

def restDeclaration (source : FunctionSource) : Option Declaration :=
  source.rest.map fun name => ⟨name, .publicTier⟩

def shape (source : FunctionSource) : Shape :=
  .ofDeclarations
    (source.paramDeclarations ++ source.restDeclaration.toList ++ source.locals)
    source.captures

def node (source : FunctionSource) (shape : Shape) (code : Script) : Node Script :=
  ⟨source.name, file, shape, code⟩

def build (source : FunctionSource) : Definition Script where
  name := source.name
  body := source.node source.shape source.body
  statics := source.statics.map (source.node .empty)
  superArguments := source.superArguments.map fun arguments =>
    source.node .empty (.array arguments)
  params := source.paramDeclarations
  rest := source.restDeclaration
  captures := source.captures
  blockLocals := !source.locals.isEmpty
  implicitBindings := source.body.namesImplicit

end FunctionSource

def Native.define (name : String) (native : Native) : Script :=
  .define { name, body := ⟨name, "native.osc", .empty, .perform native []⟩ } none

/-- Runs a program in a new scope over the machine's global, in a frame of its own. -/
def Script.run (script : Script) : Action Script Value := do
  let global := (← get).global
  let scope ← newScope (.onHeap (some global) .empty .basic)
  inFrame "main" FunctionSource.file scope (script.evaluate scope)

end ScopeMachine
