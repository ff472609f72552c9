import ScopeMachine.Proofs.Evaluation.Sealing

/-!
What the holders of references can do to cells, in any order. A declaration stands for good; a
constant takes one assignment until the host starts it afresh.
-/

namespace ScopeMachine

/-- Anything that a reference lets its holder do to the cell, apart from looking at it. -/
inductive Cell.Act where
  | declare (permission : Permission)
  | assign (name : String) (value : Value)
  | install (value : Value)
  | reset (value : Value)
  | invalidate

/-- A cell as it is made. -/
inductive Cell.Making where
  | holding (value : Value)
  | withPermission (value : Value) (permission : Permission)
  | constant (value : Value)

namespace Permission

private theorem inter_union_invalid {part : Permission} (apart : invalid.inter part = none)
    (permission : Permission) : (permission.union invalid).inter part = permission.inter part := by
  rw [inter_union, apart, union_none]

private theorem contains_union_invalid {part : Permission} (apart : invalid.inter part = none)
    (permission : Permission) :
    (permission.union invalid).contains part = permission.contains part :=
  congrArg (fun shared => shared.bits == part.bits) (inter_union_invalid apart permission)

private theorem isInvalid_union_invalid (permission : Permission) :
    (permission.union invalid).isInvalid = true := by
  refine beq_iff_eq.mpr (UInt16.eq_of_toBitVec_eq (BitVec.eq_of_getLsbD_eq fun position _ => ?_))
  change ((permission.bits.toBitVec ||| invalid.bits.toBitVec) &&& invalid.bits.toBitVec).getLsbD
    position = _
  rw [BitVec.getLsbD_and, BitVec.getLsbD_or]
  cases invalid.bits.toBitVec.getLsbD position <;> simp

end Permission

namespace Cell

def Making.cell : Making → Cell
  | .holding value => .holding value
  | .withPermission value permission => .withPermission value permission
  | .constant value => .constant value

namespace Act

def after : Act → Cell → Cell
  | .declare permission, cell => cell.declare permission
  | .assign _ value, cell =>
      if cell.written && cell.permission.isConst then cell else cell.install value
  | .install value, cell => cell.install value
  | .reset value, cell => cell.reset value
  | .invalidate, cell => cell.invalidate

def isAssign : Act → Bool
  | .assign .. => true
  | _ => false

def isReset : Act → Bool
  | .reset _ => true
  | _ => false

end Act

/-- What the declaration of a cell fixed is the same later, and what is struck out stays so. -/
structure Stands (before after : Cell) : Prop where
  declared : after.declared = true
  tier : after.permission.tier = before.permission.tier
  const : after.permission.isConst = before.permission.isConst
  static : after.permission.contains .static = before.permission.contains .static
  invalid : before.isInvalid = true → after.isInvalid = true

variable {cell before middle after : Cell}

namespace Stands

private theorem of_permission (declared : after.declared = true)
    (same : after.permission = before.permission) : Stands before after where
  declared := declared
  tier := congrArg _ same
  const := congrArg _ same
  static := congrArg (·.contains .static) same
  invalid := (congrArg Permission.isInvalid same).trans

theorem trans (first : Stands before middle) (second : Stands middle after) :
    Stands before after where
  declared := second.declared
  tier := second.tier.trans first.tier
  const := second.const.trans first.const
  static := second.static.trans first.static
  invalid := second.invalid ∘ first.invalid

private theorem invalidate (declared : cell.declared = true) : Stands cell cell.invalidate where
  declared := declared
  tier := Permission.inter_union_invalid rfl cell.permission
  const := Permission.contains_union_invalid rfl cell.permission
  static := Permission.contains_union_invalid rfl cell.permission
  invalid _ := Permission.isInvalid_union_invalid cell.permission

end Stands

namespace Act

private theorem after_assign (cell : Cell) (name : String) (value : Value) :
    (assign name value).after cell =
      if cell.written && cell.permission.isConst then cell else cell.install value := rfl

theorem stands (act : Act) (declared : cell.declared = true) : cell.Stands (act.after cell) := by
  cases act with
  | declare permission =>
      have same : (declare permission).after cell = cell := declare_of_declared declared permission
      rw [same]
      exact .of_permission declared rfl
  | assign name value =>
      rw [after_assign]
      split
      · exact .of_permission declared rfl
      · exact .of_permission declared rfl
  | install value => exact .of_permission declared rfl
  | reset value => exact .of_permission declared rfl
  | invalidate => exact .invalidate declared

private theorem declared_of_const (act : Act)
    (sane : cell.permission.isConst = true → cell.declared = true)
    (const : (act.after cell).permission.isConst = true) : (act.after cell).declared = true := by
  by_cases declared : cell.declared = true
  · exact (act.stands declared).declared
  · cases act with
    | declare permission =>
        have made : (declare permission).after cell =
            { cell with permission := permission.declared, declared := true } := if_neg declared
        rw [made]
    | assign name value =>
        rw [after_assign] at const
        split at const
        · exact absurd (sane const) declared
        · exact absurd (sane const) declared
    | install value => exact absurd (sane const) declared
    | reset value => exact absurd (sane const) declared
    | invalidate =>
        have same : cell.invalidate.permission.isConst = cell.permission.isConst :=
          Permission.contains_union_invalid rfl cell.permission
        exact absurd (sane (same.symm.trans const)) declared

private theorem spent (act : Act) (spent : cell.Spent) (kept : act.isReset = false) :
    (act.after cell).Spent := by
  have stands := act.stands spent.declared
  refine ⟨stands.declared, ?_, stands.const.trans spent.constant⟩
  cases act with
  | declare permission =>
      have same : (declare permission).after cell = cell :=
        declare_of_declared spent.declared permission
      rw [same]
      exact spent.written
  | assign name value =>
      have same : (assign name value).after cell = cell := by
        rw [after_assign, spent.written, spent.constant]
        rfl
      rw [same]
      exact spent.written
  | install value => rfl
  | reset value => cases kept
  | invalidate => exact spent.written

end Act

private theorem Making.declared_of_const (making : Making)
    (const : making.cell.permission.isConst = true) : making.cell.declared = true := by
  cases making with
  | holding value =>
      exact absurd const (by decide : ¬ Permission.publicTier.isConst = true)
  | withPermission value permission => rfl
  | constant value => rfl

end Cell

namespace Memory

open Cell

/-- What an act answers, and the memory afterwards. -/
def act (memory : Memory) (id : CellId) : Cell.Act → Except Fault Unit × Memory
  | .declare permission => (.ok (), memory.modifyCell id (·.declare permission))
  | .assign name value => memory.assign id name value
  | .install value => (.ok (), memory.modifyCell id (·.install value))
  | .reset value => (.ok (), memory.modifyCell id (·.reset value))
  | .invalidate => (.ok (), memory.modifyCell id (·.invalidate))

/-- The memory after acts on some cells or others. -/
def acts (memory : Memory) (log : List (CellId × Cell.Act)) : Memory :=
  log.foldl (fun memory entry => (memory.act entry.1 entry.2).2) memory

/-- How many assignments to the cell succeed on the way. -/
def assignments (id : CellId) : Memory → List (CellId × Cell.Act) → Nat
  | _, [] => 0
  | memory, (target, act) :: rest =>
      (if target = id ∧ act.isAssign ∧ (memory.act target act).1.isOk then 1 else 0) +
        assignments id (memory.act target act).2 rest

variable {memory : Memory} {id : CellId} {log : List (CellId × Cell.Act)}

private theorem act_assign (memory : Memory) (id : CellId) (name : String) (value : Value) :
    memory.act id (.assign name value) =
      if (memory.cell id).written && (memory.cell id).permission.isConst then
        (.error (.constReassignment name), memory)
      else (.ok (), memory.modifyCell id fun _ => (memory.cell id).install value) := by
  change Memory.assign .. = _
  unfold Memory.assign Cell.assign
  cases (memory.cell id).written && (memory.cell id).permission.isConst <;> rfl

private theorem modifyCell_congr {change other : Cell → Cell}
    (same : change (memory.cell id) = other (memory.cell id)) :
    memory.modifyCell id change = memory.modifyCell id other := by
  unfold modifyCell
  congr 1
  refine Array.ext_getElem? fun position => ?_
  rw [Array.getElem?_modify, Array.getElem?_modify]
  split
  next here =>
    subst here
    refine Option.map_congr fun cell found => ?_
    have held : memory.cell id = cell := by
      unfold Memory.cell
      rw [Array.getD_eq_getD_getElem?, found]
      rfl
    rw [← held]
    exact same
  next => rfl

private theorem modifyCell_same {change : Cell → Cell}
    (same : change (memory.cell id) = memory.cell id) :
    memory.modifyCell id change = memory := by
  have nothing : memory.modifyCell id (fun cell => cell) = memory := by
    unfold modifyCell
    congr 1
    refine Array.ext_getElem? fun position => ?_
    rw [Array.getElem?_modify, Option.map_id', ite_self]
  exact (modifyCell_congr same).trans nothing

/-- An act changes the cell that it is about, if any. -/
theorem act_eq (memory : Memory) (id : CellId) (act : Cell.Act) :
    (memory.act id act).2 = memory.modifyCell id act.after := by
  cases act with
  | assign name value =>
      have same := Cell.Act.after_assign (memory.cell id) name value
      rw [act_assign]
      split
      next refused =>
        rw [if_pos refused] at same
        exact (modifyCell_same same).symm
      next taken =>
        rw [if_neg taken] at same
        exact modifyCell_congr same.symm
  | declare permission => rfl
  | install value => rfl
  | reset value => rfl
  | invalidate => rfl

private theorem cell_act_self (old : id.index < memory.cells.size) (act : Cell.Act) :
    (memory.act id act).2.cell id = act.after (memory.cell id) := by
  rw [act_eq]
  exact cell_modifyCell_self old _

private theorem cell_act_ne {other : CellId} (apart : other ≠ id) (memory : Memory)
    (act : Cell.Act) :
    (memory.act id act).2.cell other = memory.cell other := by
  rw [act_eq]
  exact cell_modifyCell_ne apart ..

private theorem size_act (memory : Memory) (id : CellId) (act : Cell.Act) :
    (memory.act id act).2.cells.size = memory.cells.size := by
  rw [act_eq]
  exact size_modifyCell ..

private theorem size_acts (memory : Memory) (log : List (CellId × Cell.Act)) :
    (memory.acts log).cells.size = memory.cells.size := by
  induction log generalizing memory with
  | nil => rfl
  | cons entry log induction => exact (induction _).trans (size_act ..)

private theorem cell_act_keeps {Holds : Cell → Prop} {target : CellId} {act : Cell.Act}
    (old : id.index < memory.cells.size) (holds : Holds (memory.cell id))
    (step : id = target → Holds (act.after (memory.cell id))) :
    Holds ((memory.act target act).2.cell id) := by
  by_cases here : id = target
  · subst here
    rw [cell_act_self old]
    exact step rfl
  · rw [cell_act_ne here]
    exact holds

private theorem acts_keep {Holds : Cell → Prop}
    (step : ∀ {act : Cell.Act}, (id, act) ∈ log → ∀ {cell}, Holds cell → Holds (act.after cell))
    (old : id.index < memory.cells.size) (holds : Holds (memory.cell id)) :
    Holds ((memory.acts log).cell id) := by
  induction log generalizing memory with
  | nil => exact holds
  | cons entry log induction =>
      obtain ⟨target, act⟩ := entry
      refine induction (fun listed => step (.tail _ listed)) ((size_act ..).symm ▸ old) ?_
      refine cell_act_keeps old holds fun here => ?_
      subst here
      exact step (.head _) holds

/-- Nothing in the log starts the cell afresh. -/
def Unreset (id : CellId) (log : List (CellId × Cell.Act)) : Prop :=
  ∀ act, (id, act) ∈ log → act.isReset = false

private theorem Unreset.rest {target : CellId} {act : Cell.Act}
    (unreset : Unreset id ((target, act) :: log)) :
    Unreset id log := fun act listed => unreset act (.tail _ listed)

private theorem assignments_eq_zero (old : id.index < memory.cells.size) (unreset : Unreset id log)
    (spent : (memory.cell id).Spent) : memory.assignments id log = 0 := by
  induction log generalizing memory with
  | nil => rfl
  | cons entry log induction =>
      obtain ⟨target, act⟩ := entry
      have later : ((memory.act target act).2.cell id).Spent := by
        refine cell_act_keeps old spent fun here => ?_
        subst here
        exact act.spent spent (unreset act (.head _))
      have refused : ¬ (target = id ∧ act.isAssign ∧ (memory.act target act).1.isOk) := by
        rintro ⟨rfl, assigns, taken⟩
        cases act with
        | assign name value =>
            rw [act_assign, spent.written, spent.constant] at taken
            cases taken
        | _ => cases assigns
      rw [assignments, if_neg refused, induction ((size_act ..).symm ▸ old) unreset.rest later]

private theorem assignments_le_one (old : id.index < memory.cells.size) (unreset : Unreset id log)
    (declared : (memory.cell id).declared = true)
    (constant : (memory.cell id).permission.isConst = true) : memory.assignments id log ≤ 1 := by
  induction log generalizing memory with
  | nil => exact Nat.zero_le 1
  | cons entry log induction =>
      obtain ⟨target, act⟩ := entry
      have old' : id.index < (memory.act target act).2.cells.size := (size_act ..).symm ▸ old
      have stands : (memory.cell id).Stands ((memory.act target act).2.cell id) :=
        cell_act_keeps old (.of_permission declared rfl) fun _ => act.stands declared
      have constant' := stands.const.trans constant
      rw [assignments]
      split
      next taken =>
        obtain ⟨rfl, assigns, taken⟩ := taken
        have spent : ((memory.act target act).2.cell target).Spent := by
          refine ⟨stands.declared, ?_, constant'⟩
          cases act with
          | assign name value =>
              rw [act_assign] at taken ⊢
              split at taken
              next => cases taken
              next free =>
                rw [if_neg free, cell_modifyCell_self old]
                rfl
          | _ => cases assigns
        exact Nat.le_of_eq (congrArg (1 + ·) (assignments_eq_zero old' unreset.rest spent))
      next =>
        rw [Nat.zero_add]
        exact induction old' unreset.rest stands.declared constant'

/-- Whatever has been done to a cell since it was made, a declaration stands for good: the first one
if the cell was made without. Once a constant has had its write it refuses assignments and stays as
it is until the host starts it afresh; a cell that is struck out stays so. -/
theorem declaration_stands {memory : Memory} {id : CellId} {making : Cell.Making}
    (old : id.index < memory.cells.size) (made : memory.cell id = making.cell)
    (past future : List (CellId × Cell.Act)) :
    let now := memory.acts past
    let later := now.acts future
    ((now.cell id).declared = false → ∀ permission,
      (now.act id (.declare permission)).2.cell id =
        { now.cell id with permission := permission.declared, declared := true }) ∧
    ((now.cell id).declared = true →
      (now.cell id).Stands (later.cell id) ∧
      (((now.act id .invalidate).2.acts future).cell id).isInvalid = true) ∧
    ((now.cell id).permission.isConst = true → Unreset id future →
      now.assignments id future ≤ 1 ∧
      ((now.cell id).written = true → now.assignments id future = 0 ∧
        ∀ name value, later.act id (.assign name value) =
          (.error (.constReassignment name), later))) := by
  intro now later
  have old : id.index < now.cells.size := (size_acts ..).symm ▸ old
  have sane : (now.cell id).permission.isConst = true → (now.cell id).declared = true := by
    refine @acts_keep memory id past
      (fun cell => cell.permission.isConst = true → cell.declared = true)
      (fun {act} _ _ => act.declared_of_const) ‹_› ?_
    rw [made]
    exact making.declared_of_const
  have stands (log : List (CellId × Cell.Act)) {memory : Memory}
    (old : id.index < memory.cells.size)
      (declared : (memory.cell id).declared = true) :
      (memory.cell id).Stands ((memory.acts log).cell id) :=
    acts_keep (fun {act} _ _ stands => stands.trans (act.stands stands.declared)) old
      (.of_permission declared rfl)
  refine ⟨fun undeclared permission => ?_, fun declared => ⟨stands future old declared, ?_⟩,
    fun constant unreset => ⟨?_, fun written => ?_⟩⟩
  · rw [cell_act_self old]
    exact if_neg (Bool.eq_false_iff.mp undeclared)
  · have struck := cell_act_self old .invalidate
    have old' : id.index < (now.act id .invalidate).2.cells.size := (size_act ..).symm ▸ old
    refine (stands future old' ?_).invalid ?_
    · rw [struck]
      exact declared
    · rw [struck]
      exact Permission.isInvalid_union_invalid _
  · exact assignments_le_one old unreset (sane constant) constant
  · have spent : (now.cell id).Spent := ⟨sane constant, written, constant⟩
    refine ⟨assignments_eq_zero old unreset spent, fun name value => ?_⟩
    have later : (later.cell id).Spent :=
      acts_keep (fun listed _ spent => Cell.Act.spent _ spent (unreset _ listed)) old spent
    rw [act_assign, later.written, later.constant]
    rfl

theorem declaration_stands_promised :
    let id : CellId := ⟨0⟩
    let now := ((ofCapacity 0).new .blank).2.acts [(id, .declare .const)]
    let future : List (CellId × Cell.Act) :=
      [(id, .assign "x" (.bool true)), (id, .declare .privateTier), (id, .assign "x" .null)]
    (now.cell id).Stands ((now.acts future).cell id) ∧ now.assignments id future = 1 := by
  intro id now future
  have old : id.index < ((ofCapacity 0).new .blank).2.cells.size := by decide
  obtain ⟨-, stands, constant⟩ := declaration_stands old
    (cell_new_self _ (Cell.Making.cell (.holding .null)))
    [(id, .declare .const)] future
  have unreset : Unreset id future := by
    simp [Unreset, future, Cell.Act.isReset]
  refine ⟨(stands (by decide)).1, Nat.le_antisymm (constant (by decide) unreset).1 ?_⟩
  decide

end Memory

end ScopeMachine
