import ScopeMachine.Text.Mention
import ScopeMachine.Text.Quoted
import ScopeMachine.Text.Record
import ScopeMachine.Value.Rendering

namespace ScopeMachine

def nameText (name : String) : String := "Symbol(" ++ name ++ ")"

def suppliedText (text : String) : String :=
  String.ofList (Text.nameMentions .new text.toList)

def quotedText (text : String) : String := suppliedText (Text.quoted text)

def Declaration.debugText (declaration : Declaration) : String :=
  Text.record "Param"
    [("name", nameText declaration.name), ("permission", declaration.permission.text)]

def TraceLine.debugText (line : TraceLine) : String :=
  Text.record "BacktraceFrame"
    [("name", quotedText line.name), ("file", quotedText line.file),
      ("line", toString line.line)]

def Backtrace.debugText (trace : Backtrace) : String :=
  Text.record "EvalBacktrace" [("frames", Text.list (trace.lines.map (·.debugText)))]

def Definition.debugText {Code : Type} (definition : Definition Code) : String :=
  Text.partialRecord "FunctionData"
    [("name", nameText definition.name),
      ("params", Text.list (definition.params.map (·.debugText))),
      ("rest", Text.option (definition.rest.map (·.debugText))),
      ("captures_nested_functions", Text.truth definition.captures),
      ("has_block_locals", Text.truth definition.blockLocals),
      ("uses_implicit_bindings", Text.truth definition.implicitBindings)]

namespace Heap

variable {Code : Type}

def functionDebugText (heap : Heap Code) (function : Function Code) : String :=
  Text.partialRecord "Function"
    [("name", quotedText function.name),
      ("super_fn", quotedText (heap.typeName function.parent)),
      ("data", function.definition.debugText)]

def guardedText (content : Option String) : String :=
  Text.record "RefCell" [("value", Text.option content)]

def debugTextWithin (heap : Heap Code) : Nat → Value → String
  | 0, _ => ".."
  | budget + 1, value =>
      match value with
      | .null => "Null"
      | .bool value => "Bool(" ++ Text.truth value ++ ")"
      | .exact value => "Exact(" ++ toString value.toInt ++ ")"
      | .inexact value => "Inexact(" ++ Decimal.floatText .inspected value ++ ")"
      | .text value => "Str(" ++ quotedText value ++ ")"
      | .array id =>
          "Array(" ++ Text.record "ArrayValue"
            [("elements", suppliedText (heap.text value)),
              ("frozen", Text.truth (heap.array id).frozen)] ++ ")"
      | .function id =>
          "Function(" ++ (heap.function? id).elim "" heap.functionDebugText ++ ")"
      | .object scope => "Object(" ++ (heap.scope scope).debugText ++ ")"
      | .type type => "Type(" ++ type.name ++ ")"
      | .exception id =>
          let exception := heap.exception id
          "Exception(" ++ Text.record "ExceptionObject"
            [("ty", exception.type.name), ("message", quotedText exception.message),
              ("cause", guardedText (exception.cause.map (heap.debugTextWithin budget))),
              ("backtrace", guardedText (exception.backtrace.map (·.debugText)))] ++ ")"

def debugText (heap : Heap Code) (value : Value) : String :=
  heap.debugTextWithin (heap.exceptions.size + 1) value

def cellDebugText (heap : Heap Code) (id : CellId) : String :=
  let cell := heap.cell id
  Text.record "Reference"
    [("value", heap.debugText cell.value), ("permission", cell.permission.text)]

end Heap

end ScopeMachine
