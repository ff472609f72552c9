namespace ScopeMachine

/-- The types that exist before any script runs. -/
inductive BuiltinType where
  | object
  | function
  | array
  | boolean
  | exactNumber
  | inexactNumber
  | string
  | null
  | exception
  | noSuchMember
  | nullReference
  | illegalArgument
  | unsupportedOperation
  deriving DecidableEq, Repr, Inhabited

namespace BuiltinType

def all : List BuiltinType :=
  [.object, .function, .array, .boolean, .exactNumber, .inexactNumber, .string, .null,
    .exception, .noSuchMember, .nullReference, .illegalArgument, .unsupportedOperation]

def name : BuiltinType → String
  | .object => "Object"
  | .function => "Function"
  | .array => "Array"
  | .boolean => "Boolean"
  | .exactNumber => "ExactNumber"
  | .inexactNumber => "InexactNumber"
  | .string => "String"
  | .null => "Null"
  | .exception => "Exception"
  | .noSuchMember => "NoSuchMemberException"
  | .nullReference => "NullReferenceException"
  | .illegalArgument => "IllegalArgumentException"
  | .unsupportedOperation => "UnsupportedOperationException"

def ofName? (name : String) : Option BuiltinType := all.find? (·.name == name)

def globals : List BuiltinType := all.filter (· != .null)

def parent : BuiltinType → Option BuiltinType
  | .object => none
  | .noSuchMember | .nullReference | .illegalArgument | .unsupportedOperation =>
      some .exception
  | _ => some .object

def supertypes (type : BuiltinType) : List BuiltinType :=
  type :: match type.parent with
    | none => []
    | some parent => parent :: parent.parent.toList

def isSubtype (type of : BuiltinType) : Bool := type.supertypes.contains of

def isException (type : BuiltinType) : Bool := type.isSubtype .exception

end BuiltinType

end ScopeMachine
