import ScopeMachine.Proofs.Calls.Constructing

/-!
Every form of call, on any value, and what becomes of its argument table.
-/

namespace ScopeMachine

open Machine Action

/-- The ways to call a value. -/
inductive CallForm where
  /-- As a function. -/
  | function (callee : Value)
  /-- A function with a receiver. -/
  | method (callee : FunctionId) (receiver : Value)
  | constructor (callee : Value)
  /-- Its constructor, on an object made by another. -/
  | extension (callee : Value) (object : ScopeId)

namespace CallForm

variable {Code : Type}

def perform (run : Runner Code) (arguments : Option Table) : CallForm → Action Code Value
  | .function callee => callValue run callee arguments
  | .method callee receiver => callFunction run callee arguments (some receiver)
  | .constructor callee => constructValue run callee arguments
  | .extension callee object => do
      extendValue run callee object arguments
      return .null

def refuses : CallForm → Bool
  | .function (.function _) | .function (.type _) => false
  | .function _ => true
  | .method .. => false
  | .constructor (.function _) => false
  | .constructor (.type type) => type == .function || type == .null
  | .constructor _ => true
  | .extension (.function _) _ | .extension (.type .object) _ => false
  | .extension .. => true

def Names (machine : Machine Code) : CallForm → Prop
  | .function (.function id) | .constructor (.function id) | .method id _ =>
      (machine.heap.function? id).isSome
  | .extension (.function id) object =>
      (machine.heap.function? id).isSome ∧ machine.Houses object
  | _ => True

def escapes (run : Runner Code) (arguments : Table) (held : List Handle) (machine : Machine Code) :
    CallForm → Bool
  | .function (.function id) => Action.escapes run id arguments none held machine
  | .method id receiver => Action.escapes run id arguments (some receiver) held machine
  | _ => false

variable {offset : Nat} {machine : Machine Code} {table : Table} {run : Runner Code}
  (held : List Handle)

private theorem perform_extension (callee : Value) (object : ScopeId) (arguments : Option Table) :
    machineLeft ((extension callee object).perform run arguments held machine) =
      machineLeft (extendValue run callee object arguments held machine) := by
  unfold perform
  dsimp only
  rw [run_bind]
  cases extendValue run callee object arguments held machine <;> rfl

private theorem watermark_of_accepted (mannerly : ∀ code scope, Mannerly (run code scope))
    (orderly : machine.Orderly) (tidy : machine.Tidy) {form : CallForm} (names : form.Names machine)
    (seated : table.Seated offset machine.heap.memory)
    (stays : form.escapes run table held machine = false) (accepts : form.refuses = false) :
    (machineLeft (form.perform run (some table) held machine)).watermark = offset := by
  cases form with
  | function callee =>
      cases callee with
      | function id =>
          exact callFunction_watermark held mannerly orderly tidy names none seated stays
      | type type => exact callType_watermark held type seated
      | _ => cases accepts
  | method callee receiver =>
      exact callFunction_watermark held mannerly orderly tidy names (some receiver) seated stays
  | constructor callee =>
      cases callee with
      | function id => exact constructFunction_watermark mannerly held orderly tidy names seated
      | type type =>
          refine constructType_watermark held type ⟨?_, ?_⟩ seated
          · rintro rfl
            cases accepts
          · rintro rfl
            cases accepts
      | _ => cases accepts
  | extension callee object =>
      rw [perform_extension]
      cases callee with
      | function id =>
          exact extendFunction_watermark mannerly held orderly tidy names.1 names.2 seated
      | type type =>
          cases type with
          | object => exact seated.free machine.host.shares
          | _ => cases accepts
      | _ => cases accepts

private theorem machineLeft_of_refused {form : CallForm} (arguments : Option Table)
    (refuses : form.refuses = true) :
    machineLeft (form.perform run arguments held machine) = machine := by
  cases form with
  | function callee =>
      cases callee with
      | function id => cases refuses
      | type type => cases refuses
      | _ => rfl
  | method callee receiver => cases refuses
  | constructor callee =>
      cases callee with
      | function id => cases refuses
      | type type =>
          cases type with
          | function | null => rfl
          | _ => cases refuses
      | _ => rfl
  | extension callee object =>
      rw [perform_extension]
      cases callee with
      | function id => cases refuses
      | type type =>
          cases type with
          | object => cases refuses
          | _ => rfl
      | _ => rfl

/-- On return from a call of any form, on any value and with any outcome, the watermark is back
where the argument table began if and only if the call was not refused before it looked at the
arguments, or their table has no slots. -/
theorem watermark_restored_iff (mannerly : ∀ code scope, Mannerly (run code scope))
    (orderly : machine.Orderly) (tidy : machine.Tidy) (form : CallForm)
    (names : form.Names machine) {slice : Slice} {length : Nat}
    (top : machine.heap.memory.arena.isTop slice.offset slice.capacity = true)
    (stays : form.escapes run (.inArena slice length) held machine = false) :
    (machineLeft (form.perform run (some (.inArena slice length)) held machine)).watermark =
        slice.offset ↔
      form.refuses = false ∨ slice.capacity = 0 := by
  cases refuses : form.refuses with
  | false =>
      have seated : Table.Seated slice.offset (.inArena slice length) machine.heap.memory :=
        ⟨rfl, top⟩
      have restored := watermark_of_accepted held mannerly orderly tidy names seated stays refuses
      exact ⟨fun _ => .inl rfl, fun _ => restored⟩
  | true =>
      have stop := (Arena.isTop_iff.mp top).1
      rw [machineLeft_of_refused held _ refuses]
      change machine.heap.memory.arena.watermark = slice.offset ↔ _
      rw [← stop]
      simp

def equipped (machine : Machine Script) : Machine Script :=
  let identity : FunctionSource :=
    { name := "identity", params := [("x", false)], body := .var "x" }
  let made :=
    machine.heap.newFunction ⟨machine.global, .type .object, identity.build, none, none⟩
  (machine.withHeap made.2).openFrame "main" FunctionSource.file machine.global

private theorem equipped_in_order {machine : Machine Script} (orderly : machine.Orderly)
    (tidy : machine.Tidy) (room : machine.depth < machine.limits.maxDepth) :
    (equipped machine).Orderly ∧ (equipped machine).Tidy := by
  unfold equipped
  extract_lets identity made
  have staysInFrame : machine.StaysInFrame (machine.withHeap made.2) :=
    .of_heap tidy (.of_scopes rfl (.refl _))
  exact ⟨openFrame_orderly (staysInFrame.steady.orderly orderly) room _ _ _,
    openFrame_tidy staysInFrame.spares.tidy _ _ _⟩

/-- A frame in which a table for the only argument of the function stands ready. -/
def ready : Machine Script :=
  machineLeft (argumentTable [.bool true] [] (equipped (.new ⟨2, 8, true, true⟩ .empty)))

private theorem ready_in_order : ready.Orderly ∧ ready.Tidy := by
  have ⟨orderly, tidy⟩ := equipped_in_order (new_orderly ⟨2, 8, true, true⟩ .empty)
    (new_tidy ..) (Nat.zero_lt_succ 1)
  have staysInFrame : Machine.StaysInFrame _ ready :=
    (Composed.rules.argumentTable [.bool true]).mannerly [] _ orderly tidy
  exact ⟨staysInFrame.steady.orderly orderly, staysInFrame.spares.tidy⟩

theorem watermark_restored_identity :
    let run : Runner Script := Expr.runnerAt 2
    let form := CallForm.function (.function ⟨0⟩)
    ready.Orderly ∧ ready.Tidy ∧ form.Names ready ∧
      ready.heap.memory.arena.isTop 0 1 = true ∧
      form.escapes run (.inArena ⟨0, 1⟩ 1) [] ready = false ∧
      ((machineLeft (form.perform run (some (.inArena ⟨0, 1⟩ 1)) [] ready)).watermark = 0 ↔
        form.refuses = false ∨ 1 = 0) := by
  intro run form
  have ⟨orderly, tidy⟩ := ready_in_order
  have mannerly : ∀ code scope, Mannerly (run code scope) := fun code scope =>
    (Expr.runnerAt_composed Native.perform_composed 2 code scope).mannerly
  have names : (ready.heap.function? ⟨0⟩).isSome = true := by decide +kernel
  have top : ready.heap.memory.arena.isTop 0 1 = true := by decide +kernel
  have stays : form.escapes run (.inArena ⟨0, 1⟩ 1) [] ready = false := by decide +kernel
  exact ⟨orderly, tidy, names, top, stays,
    watermark_restored_iff [] mannerly orderly tidy form names top stays⟩

/-- Calling null as a function is refused, and its argument table keeps its slot. -/
theorem refused_call_leaks :
    let form := CallForm.function .null
    form.Names ready ∧ ready.heap.memory.arena.isTop 0 1 = true ∧
      form.escapes (Expr.runnerAt 2) (.inArena ⟨0, 1⟩ 1) [] ready = false ∧
      (machineLeft (form.perform (Expr.runnerAt 2) (some (.inArena ⟨0, 1⟩ 1)) [] ready)).watermark =
        1 := by
  refine ⟨trivial, ?_, rfl, ?_⟩
  · decide +kernel
  · decide +kernel

end CallForm

end ScopeMachine
