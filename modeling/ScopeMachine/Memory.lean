import ScopeMachine.Arena
import ScopeMachine.Cell

namespace ScopeMachine

/-- All cells ever made, and the arena whose slots name some of them. -/
structure Memory where
  cells : Array Cell
  arena : Arena
  deriving Repr, Inhabited

namespace Memory

def ofCapacity (capacity : Nat) : Memory := ⟨#[], .ofCapacity capacity⟩

def cell (memory : Memory) (id : CellId) : Cell := memory.cells.getD id.index .blank

def value (memory : Memory) (id : CellId) : Value := (memory.cell id).value

def new (memory : Memory) (cell : Cell) : CellId × Memory :=
  (⟨memory.cells.size⟩, { memory with cells := memory.cells.push cell })

def modifyCell (memory : Memory) (id : CellId) (change : Cell → Cell) : Memory :=
  { memory with cells := memory.cells.modify id.index change }

def assign (memory : Memory) (id : CellId) (name : String) (value : Value) :
    Except Fault Unit × Memory :=
  match (memory.cell id).assign name value with
  | .ok cell => (.ok (), memory.modifyCell id fun _ => cell)
  | .error fault => (.error fault, memory)

def newAll (memory : Memory) (cells : List Cell) : Array CellId × Memory :=
  cells.foldl
    (fun (ids, memory) cell =>
      let (id, memory) := memory.new cell
      (ids.push id, memory))
    (#[], memory)

def modifyArena (memory : Memory) (change : Arena → Arena) : Memory :=
  { memory with arena := change memory.arena }

/-- The cell of a slot, made on first touch. -/
def slot (memory : Memory) (position : Nat) : CellId × Memory :=
  match memory.arena.peek position with
  | some id => (id, memory)
  | none =>
      let (id, memory) := memory.new .blank
      (id, memory.modifyArena (·.put position (some id)))

/-- Moves the cells of a slice out of the arena. The arena keeps no hold on them, so recycling
the slice later cannot touch them. -/
def take (memory : Memory) (offset length : Nat) : Array CellId × Memory :=
  (List.range length).foldl
    (fun (ids, memory) step =>
      let (id, memory) := memory.slot (offset + step)
      (ids.push id, memory.modifyArena (·.put (offset + step) none)))
    (#[], memory)

def releaseSlot (shared : CellId → Bool) (memory : Memory) (position : Nat) : Memory :=
  match memory.arena.peek position with
  | none => memory
  | some id =>
      if shared id then memory.modifyArena (·.put position none)
      else memory.modifyCell id fun _ => .blank

/-- Makes the slots from `low` up to but not including `high` reusable. -/
def release (shared : CellId → Bool) (memory : Memory) (low high : Nat) : Memory :=
  (List.range' low (min high memory.arena.slots.size - low)).foldl (releaseSlot shared) memory

def releaseTo (shared : CellId → Bool) (memory : Memory) (mark : Nat) : Memory :=
  if memory.arena.watermark ≤ mark then memory
  else
    (memory.release shared mark memory.arena.watermark).modifyArena
      fun arena => { arena with watermark := mark }

def resetSlice (memory : Memory) (offset length : Nat) : Memory :=
  (List.range' offset length).foldl
    (fun memory position =>
      match memory.arena.peek position with
      | none => memory
      | some id => memory.modifyCell id (·.reset .null))
    memory

def closeFrame (shared : CellId → Bool) (memory : Memory) (mark : Nat) : Memory :=
  (memory.modifyArena (·.closeFrame)).releaseTo shared mark

end Memory

end ScopeMachine
