import ScopeMachine.Fault
import ScopeMachine.Permission

namespace ScopeMachine

/-- One storage cell. `declared` is set by the first declaration, `written` by a write that counts
against a constant. -/
structure Cell where
  value : Value
  permission : Permission
  declared : Bool
  written : Bool
  deriving Repr

namespace Cell

/-- An undeclared cell. -/
def holding (value : Value) : Cell := ⟨value, .publicTier, false, false⟩

def blank : Cell := holding .null

instance : Inhabited Cell := ⟨blank⟩

def withPermission (value : Value) (permission : Permission) : Cell :=
  ⟨value, permission.declared, true, false⟩

/-- A declared constant that has had its one write. -/
def constant (value : Value) : Cell :=
  ⟨value, (Permission.publicTier.union .const).declared, true, true⟩

def isInvalid (cell : Cell) : Bool := cell.permission.isInvalid

def isVisible (cell : Cell) : Bool := cell.declared && !cell.isInvalid

/-- Only the first declaration counts. -/
def declare (cell : Cell) (permission : Permission) : Cell :=
  if cell.declared then cell
  else { cell with permission := permission.declared, declared := true }

def assign (cell : Cell) (name : String) (value : Value) : Except Fault Cell :=
  if cell.written && cell.permission.isConst then .error (.constReassignment name)
  else .ok { cell with value, written := true }

def install (cell : Cell) (value : Value) : Cell := { cell with value, written := true }

def reset (cell : Cell) (value : Value) : Cell := { cell with value, written := false }

def invalidate (cell : Cell) : Cell :=
  { cell with permission := cell.permission.union .invalid, value := .null }

@[simp] theorem declare_of_declared {cell : Cell} (declared : cell.declared = true)
    (permission : Permission) : cell.declare permission = cell := by
  simp [declare, declared]

end Cell

end ScopeMachine
