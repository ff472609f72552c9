import ScopeMachine.Text.Record

namespace ScopeMachine

/-- Limits and switches of one machine. -/
structure Limits where
  maxDepth : Nat
  arenaCapacity : Nat
  skipScope : Bool
  useCompiler : Bool
  deriving DecidableEq, Repr

namespace Limits

def default : Limits where
  maxDepth := 2048
  arenaCapacity := 8192
  skipScope := true
  useCompiler := true

instance : Inhabited Limits := ⟨default⟩

def debugText (limits : Limits) : String :=
  Text.record "RuntimeConfig"
    [("max_frame_depth", toString limits.maxDepth),
      ("members_arena_capacity", toString limits.arenaCapacity),
      ("skip_scope_fast_path", Text.truth limits.skipScope),
      ("use_compiler", Text.truth limits.useCompiler)]

end Limits

inductive Mode where
  | interpret
  | bounded (depth : Nat)
  deriving DecidableEq, Repr, Inhabited

namespace Mode

def ceiling : Mode → Option Nat
  | .interpret => none
  | .bounded depth => some depth

def isBounded (mode : Mode) : Bool := mode.ceiling.isSome

def apply (mode : Mode) (limits : Limits) : Limits :=
  match mode with
  | .interpret => limits
  | .bounded depth => { limits with maxDepth := min limits.maxDepth depth }

end Mode

structure Settings where
  limits : Limits := .default
  mode : Mode := .interpret
  deriving DecidableEq, Repr

namespace Settings

instance : Inhabited Settings := ⟨{}⟩

inductive Change where
  | maxDepth (depth : Nat)
  | arenaCapacity (capacity : Nat)
  | skipScope (enabled : Bool)
  | useCompiler (enabled : Bool)
  | mode (mode : Mode)
  | limits (limits : Limits)
  deriving DecidableEq, Repr

def change (settings : Settings) : Change → Settings
  | .maxDepth depth =>
      { settings with limits := { settings.limits with maxDepth := depth } }
  | .arenaCapacity capacity =>
      { settings with limits := { settings.limits with arenaCapacity := capacity } }
  | .skipScope enabled =>
      { settings with limits := { settings.limits with skipScope := enabled } }
  | .useCompiler enabled =>
      { settings with limits := { settings.limits with useCompiler := enabled } }
  | .mode mode => { settings with mode }
  | .limits limits => { settings with limits }

def changeAll (settings : Settings) (changes : List Change) : Settings :=
  changes.foldl change settings

def effective (settings : Settings) : Limits := settings.mode.apply settings.limits

end Settings

end ScopeMachine
