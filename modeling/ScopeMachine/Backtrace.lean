namespace ScopeMachine

/-- One line of a backtrace: what ran, where it came from, and the last line it reported. -/
structure TraceLine where
  name : String
  file : String
  line : Nat
  deriving DecidableEq, Repr, Inhabited

/-- The frames that were open at one moment, innermost first. -/
structure Backtrace where
  lines : List TraceLine
  deriving DecidableEq, Repr, Inhabited

namespace Backtrace

def size (trace : Backtrace) : Nat := trace.lines.length

def isEmpty (trace : Backtrace) : Bool := trace.lines.isEmpty

def lineText (position : Nat) (line : TraceLine) : String :=
  let place :=
    if line.file.isEmpty then "" else " at " ++ line.file ++ ":" ++ toString line.line
  "  " ++ toString position ++ ": " ++ line.name ++ place ++ "\n"

def text (trace : Backtrace) : String :=
  if trace.isEmpty then ""
  else "stack backtrace:\n" ++ String.join (trace.lines.mapIdx lineText)

end Backtrace

end ScopeMachine
