import ScopeMachine.Fault

namespace ScopeMachine

/-- Storage for member tables that do not outlive their frame: slices are carved off at the
watermark and handed back in reverse order. A slot is empty until it is first touched. -/
structure Arena where
  slots : Array (Option CellId)
  /-- The first free slot. -/
  watermark : Nat
  /-- The watermark at which each open frame began, innermost first. -/
  marks : List Nat
  capacity : Nat
  deriving Repr

namespace Arena

def ofCapacity (capacity : Nat) : Arena := ⟨#[], 0, [], capacity⟩

instance : Inhabited Arena := ⟨ofCapacity 0⟩

def openFrame (arena : Arena) : Arena := { arena with marks := arena.watermark :: arena.marks }

def closeFrame (arena : Arena) : Arena := { arena with marks := arena.marks.tail }

/-- The lowest slot that belongs to the innermost frame. -/
def floor (arena : Arena) : Nat := arena.marks.headD 0

def available (arena : Arena) : Nat := arena.capacity - arena.watermark

def allocate (arena : Arena) (size : Nat) : Except Fault (Nat × Arena) :=
  if arena.available < size then
    .error (.arenaExhausted size arena.available arena.capacity)
  else .ok (arena.watermark, { arena with watermark := arena.watermark + size })

/-- The slice ends at the watermark and belongs to the innermost frame. Only such a slice may
move the watermark. -/
def isTop (arena : Arena) (offset length : Nat) : Bool :=
  offset + length == arena.watermark && arena.floor ≤ offset

def grow? (arena : Arena) (offset length extra : Nat) : Option Arena :=
  if arena.isTop offset length && extra ≤ arena.available then
    some { arena with watermark := arena.watermark + extra }
  else none

/-- Hands a top slice back; any other stays where it is. -/
def popTop? (arena : Arena) (offset length : Nat) : Option Arena :=
  if arena.isTop offset length then some { arena with watermark := offset } else none

def peek (arena : Arena) (position : Nat) : Option CellId :=
  (arena.slots[position]?).join

def put (arena : Arena) (position : Nat) (content : Option CellId) : Arena :=
  if position < arena.slots.size then
    { arena with slots := arena.slots.setIfInBounds position content }
  else
    { arena with
      slots :=
        (arena.slots ++ Array.replicate (position - arena.slots.size) none).push content }

end Arena

end ScopeMachine
