import ScopeMachine.Function

namespace ScopeMachine

/-- An expression. `Op` names further operations of the host, which get their operands
unevaluated. -/
inductive Expr (Op : Type) where
  | lit (value : Value)
  | var (name : String)
  | declare (name : String) (permission : Permission) (init : Expr Op)
  | assign (name : String) (value : Expr Op)
  | setMember (object : Expr Op) (name : String) (value : Expr Op)
  | block (index : Index) (body : List (Expr Op))
  | seq (body : List (Expr Op))
  | define (definition : Definition (Expr Op)) (parent : Option (Expr Op))
  | call (callee : Expr Op) (arguments : List (Expr Op))
  | callMethod (object : Expr Op) (name : String) (arguments : List (Expr Op))
  | construct (callee : Expr Op) (arguments : List (Expr Op))
  | member (object : Expr Op) (name : String)
  | thisValue
  | superValue
  | calleeValue
  | add (left right : Expr Op)
  | throw (value : Expr Op)
  | attempt (body : Expr Op) (name : String) (handler : Expr Op)
  | array (elements : List (Expr Op))
  | line (number : Nat)
  | crash
  | perform (op : Op) (operands : List (Expr Op))

namespace Expr

variable {Op : Type}

instance : Inhabited (Expr Op) := ⟨.lit .null⟩

mutual

def namesImplicit : Expr Op → Bool
  | .superValue | .calleeValue => true
  | .lit _ | .var _ | .thisValue | .line _ | .crash | .define .. => false
  | .declare _ _ inner | .assign _ inner | .member inner _ | .throw inner =>
      inner.namesImplicit
  | .setMember left _ right | .add left right | .attempt left _ right =>
      left.namesImplicit || right.namesImplicit
  | .block _ body | .seq body | .array body | .perform _ body => anyNamesImplicit body
  | .call callee arguments | .callMethod callee _ arguments | .construct callee arguments =>
      callee.namesImplicit || anyNamesImplicit arguments

def anyNamesImplicit : List (Expr Op) → Bool
  | [] => false
  | first :: rest => first.namesImplicit || anyNamesImplicit rest

end

end Expr

end ScopeMachine
