import ScopeMachine.Permission

namespace ScopeMachine

/-- One declared member. -/
structure Declaration where
  name : String
  permission : Permission
  deriving DecidableEq, Repr, Inhabited

/-- Slot numbering of one view of a shape: a member's slot is its position. -/
structure Index where
  members : Array Declaration
  captures : Bool
  deriving DecidableEq, Repr, Inhabited

namespace Index

def empty : Index := ⟨#[], false⟩

def size (index : Index) : Nat := index.members.size

def slot? (index : Index) (name : String) : Option Nat :=
  index.members.findIdx? (·.name == name)

def contains (index : Index) (name : String) : Bool := (index.slot? name).isSome

def nameAt? (index : Index) (slot : Nat) : Option String :=
  index.members[slot]?.map (·.name)

def permissionAt? (index : Index) (slot : Nat) : Option Permission :=
  index.members[slot]?.map (·.permission)

/-- A name keeps its first slot; a new name takes the next one. -/
def insert (index : Index) (name : String) (permission : Permission) : Nat × Index :=
  match index.slot? name with
  | some slot => (slot, index)
  | none =>
      (index.size,
        { index with members := index.members.push ⟨name, permission.declared⟩ })

def ofDeclarations (declarations : List Declaration) (captures : Bool) : Index :=
  { declarations.foldl
      (fun index declaration =>
        (index.insert declaration.name declaration.permission).2) empty
    with captures }

end Index

/-- The three views of one body's or block's declarations. -/
structure Shape where
  all : Index
  publicProtected : Index
  privateOnly : Index
  deriving DecidableEq, Repr, Inhabited

namespace Shape

def declarationsOf (view : View) (declarations : List Declaration) : List Declaration :=
  declarations.filter fun declaration => view.admits declaration.permission.declared

def ofDeclarations (declarations : List Declaration) (captures : Bool) : Shape where
  all := .ofDeclarations (declarationsOf .all declarations) captures
  publicProtected := .ofDeclarations (declarationsOf .publicProtected declarations) captures
  privateOnly := .ofDeclarations (declarationsOf .privateOnly declarations) captures

def empty : Shape := ofDeclarations [] false

def table (shape : Shape) : View → Index
  | .all => shape.all
  | .publicProtected => shape.publicProtected
  | .privateOnly => shape.privateOnly

def captures (shape : Shape) : Bool := shape.all.captures

end Shape

end ScopeMachine
