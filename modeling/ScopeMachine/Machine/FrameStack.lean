import ScopeMachine.Value.Basic

namespace ScopeMachine

/-- One running node. -/
structure Frame where
  id : String
  file : String
  /-- The scope last reported for the frame. -/
  scope : ScopeId
  /-- The line last reported for the frame, zero before the first report. -/
  line : Nat
  /-- The arena's watermark when the frame was opened. -/
  mark : Nat
  /-- Block scopes allocated while this frame was on top, in that order. -/
  blocks : List ScopeId
  deriving Repr

/-- The open frames, innermost first, together with how many there are. -/
structure FrameStack where
  toList : List Frame
  depth : Nat
  depth_eq : depth = toList.length

namespace FrameStack

def empty : FrameStack := ⟨[], 0, rfl⟩

instance : Inhabited FrameStack := ⟨empty⟩

def isEmpty (stack : FrameStack) : Bool := stack.toList.isEmpty

def top? (stack : FrameStack) : Option Frame := stack.toList.head?

def push (frame : Frame) (stack : FrameStack) : FrameStack :=
  ⟨frame :: stack.toList, stack.depth + 1, congrArg Nat.succ stack.depth_eq⟩

/-- The innermost frame and the frames around it. -/
def pop? : FrameStack → Option (Frame × FrameStack)
  | ⟨[], _, _⟩ => none
  | ⟨top :: outer, depth, depth_eq⟩ =>
      some (top, ⟨outer, depth - 1, congrArg Nat.pred depth_eq⟩)

def modifyTop (change : Frame → Frame) : FrameStack → FrameStack
  | ⟨[], depth, depth_eq⟩ => ⟨[], depth, depth_eq⟩
  | ⟨top :: outer, depth, depth_eq⟩ => ⟨change top :: outer, depth, depth_eq⟩

theorem pop?_push (frame : Frame) (stack : FrameStack) :
    (stack.push frame).pop? = some (frame, stack) := rfl

end FrameStack

end ScopeMachine
