namespace ScopeMachine

structure Symbol where
  id : UInt32
  deriving DecidableEq, Repr, Inhabited

namespace Symbol

def reservedNames : List String := ["", "this", "super", "callee", "in", "anon"]

def empty : Symbol := ⟨0⟩

def isReserved (symbol : Symbol) : Bool := symbol.id.toNat < reservedNames.length

def debugText (symbol : Symbol) : String := "Symbol(" ++ toString symbol.id.toNat ++ ")"

def compare (left right : Symbol) : Ordering := Ord.compare left.id right.id

end Symbol

inductive InternError where
  | overflow (count : Nat)
  deriving DecidableEq, Repr

def InternError.message : InternError → String
  | .overflow count =>
      s!"symbol table exceeded capacity: {count} names, max is 4294967295"

structure Interner where
  /-- The id of every name. -/
  ids : List (String × Symbol)
  /-- The name of every id, in the order of the ids. -/
  names : Array String
  deriving DecidableEq, Repr

namespace Interner

def new : Interner where
  ids := Symbol.reservedNames.zipIdx.map fun (name, position) => (name, ⟨position.toUInt32⟩)
  names := Symbol.reservedNames.toArray

def get? (interner : Interner) (name : String) : Option Symbol := interner.ids.lookup name

def tryIntern (interner : Interner) (name : String) :
    Except InternError Symbol × Interner :=
  match interner.get? name with
  | some symbol => (.ok symbol, interner)
  | none =>
      if interner.names.size < UInt32.size then
        let symbol : Symbol := ⟨interner.names.size.toUInt32⟩
        (.ok symbol, ⟨(name, symbol) :: interner.ids, interner.names.push name⟩)
      else
        (.error (.overflow interner.names.size), interner)

def intern (interner : Interner) (name : String) : Except String Symbol × Interner :=
  let (result, interner) := interner.tryIntern name
  (result.mapError InternError.message, interner)

def lookup (interner : Interner) (symbol : Symbol) : String :=
  interner.names.getD symbol.id.toNat ""

def size (interner : Interner) : Nat := interner.names.size

def isEmpty (interner : Interner) : Bool :=
  interner.size ≤ Symbol.reservedNames.length

end Interner

end ScopeMachine
