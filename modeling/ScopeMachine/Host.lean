import ScopeMachine.Observation

namespace ScopeMachine

structure Shelf (α : Type) where
  entries : List (String × α)

namespace Shelf

variable {α : Type}

def empty : Shelf α := ⟨[]⟩

instance : Inhabited (Shelf α) := ⟨empty⟩

def get? (shelf : Shelf α) (name : String) : Option α :=
  (shelf.entries.find? (·.1 == name)).map (·.2)

def remove (shelf : Shelf α) (name : String) : Shelf α :=
  ⟨shelf.entries.filter (·.1 != name)⟩

def put (shelf : Shelf α) (name : String) (item : α) : Shelf α :=
  ⟨(name, item) :: (shelf.remove name).entries⟩

def items (shelf : Shelf α) : List α := shelf.entries.map (·.2)

end Shelf

/-- What the embedding host holds on to, and its log, latest entry first. -/
structure Host where
  references : Shelf CellId := .empty
  tables : Shelf Table := .empty
  scopes : Shelf ScopeId := .empty
  failures : Shelf Failure := .empty
  log : List Observation := []

namespace Host

instance : Inhabited Host := ⟨{}⟩

/-- A cell of the arena has no holder besides its slot and the host's references: a table that
moves to the heap takes its cells out of the arena. -/
def shares (host : Host) (id : CellId) : Bool := host.references.items.contains id

def handles (host : Host) : List Handle :=
  host.references.items.map .cell ++
    host.tables.items.flatMap (fun table => table.heapCells.toList.map .cell) ++
    host.scopes.items.map .scope ++ host.failures.items.flatMap Failure.handles

end Host

end ScopeMachine
