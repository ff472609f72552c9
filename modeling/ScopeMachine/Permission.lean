namespace ScopeMachine

/-- Access tag of a member cell. Unknown bits are kept as they are. -/
structure Permission where
  bits : UInt16
  deriving DecidableEq, Repr, Inhabited

namespace Permission

def none : Permission := ⟨0⟩
def publicTier : Permission := ⟨1⟩
def protectedTier : Permission := ⟨2⟩
def privateTier : Permission := ⟨4⟩
def const : Permission := ⟨16⟩
def static : Permission := ⟨32⟩
def invalid : Permission := ⟨256⟩
def tiers : Permission := ⟨7⟩

def union (left right : Permission) : Permission := ⟨left.bits ||| right.bits⟩
def inter (left right : Permission) : Permission := ⟨left.bits &&& right.bits⟩
def diff (left right : Permission) : Permission := ⟨left.bits &&& ~~~right.bits⟩
def contains (whole part : Permission) : Bool := whole.bits &&& part.bits == part.bits

def tier (permission : Permission) : Permission := permission.inter tiers
def isPrivate (permission : Permission) : Bool := permission.contains privateTier
def isConst (permission : Permission) : Bool := permission.contains const
def isInvalid (permission : Permission) : Bool := permission.contains invalid

def declaredTier (permission : Permission) : Permission :=
  if permission.contains privateTier then privateTier
  else if permission.contains protectedTier then protectedTier
  else publicTier

/-- A declared permission has exactly one tier and keeps every other bit. -/
def declared (permission : Permission) : Permission :=
  (permission.diff tiers).union permission.declaredTier

@[simp] theorem declared_bits (permission : Permission) :
    permission.declared.bits =
      (permission.bits &&& ~~~(7 : UInt16)) ||| permission.declaredTier.bits :=
  rfl

theorem inter_union (left right part : Permission) :
    (left.union right).inter part = (left.inter part).union (right.inter part) := by
  refine congrArg mk (UInt16.eq_of_toBitVec_eq ?_)
  change (left.bits.toBitVec ||| right.bits.toBitVec) &&& part.bits.toBitVec = _
  rw [BitVec.and_comm, BitVec.and_or_distrib_left, BitVec.and_comm,
    BitVec.and_comm part.bits.toBitVec]
  rfl

theorem inter_assoc (whole part smaller : Permission) :
    (whole.inter part).inter smaller = whole.inter (part.inter smaller) :=
  congrArg mk (UInt16.and_assoc ..)

theorem none_union (permission : Permission) : none.union permission = permission :=
  congrArg mk UInt16.zero_or

theorem union_none (permission : Permission) : permission.union none = permission :=
  congrArg mk UInt16.or_zero

theorem inter_none (permission : Permission) : permission.inter none = none :=
  congrArg mk UInt16.and_zero

theorem declaredTier_mem (permission : Permission) :
    permission.declaredTier ∈ [privateTier, protectedTier, publicTier] := by
  unfold declaredTier
  split
  · exact .head _
  · split
    · exact .tail _ (.head _)
    · exact .tail _ (.tail _ (.head _))

theorem tier_of_mem {tier : Permission} (listed : tier ∈ [privateTier, protectedTier, publicTier]) :
    tier.inter tiers = tier ∧ tier.diff tiers = none ∧ tier.declaredTier = tier := by
  revert tier
  decide

theorem tier_declared (permission : Permission) :
    permission.declared.tier = permission.declaredTier := by
  have modifiers : (permission.diff tiers).inter tiers = none :=
    (inter_assoc permission ⟨~~~tiers.bits⟩ tiers).trans (inter_none permission)
  unfold tier declared
  rw [inter_union, modifiers, (tier_of_mem permission.declaredTier_mem).1, none_union]

theorem contains_tier (permission : Permission) {part : Permission}
    (within : tiers.inter part = part) :
    permission.tier.contains part = permission.contains part := by
  have same : permission.tier.inter part = permission.inter part := by
    unfold tier
    rw [inter_assoc, within]
  exact congrArg (fun shared => shared.bits == part.bits) same

theorem declaredTier_tier (permission : Permission) :
    permission.tier.declaredTier = permission.declaredTier := by
  unfold declaredTier
  rw [contains_tier permission rfl, contains_tier permission rfl]

@[simp] theorem declared_declared (permission : Permission) :
    permission.declared.declared = permission.declared := by
  have tier : permission.declared.declaredTier = permission.declaredTier := by
    rw [← declaredTier_tier, tier_declared, (tier_of_mem permission.declaredTier_mem).2.2]
  have modifiers : permission.declared.diff tiers = permission.diff tiers := by
    have cleared := inter_union (permission.diff tiers) permission.declaredTier ⟨~~~tiers.bits⟩
    have twice := inter_assoc permission ⟨~~~tiers.bits⟩ ⟨~~~tiers.bits⟩
    have gone : permission.declaredTier.inter ⟨~~~tiers.bits⟩ = none :=
      (tier_of_mem permission.declaredTier_mem).2.1
    rw [gone, union_none] at cleared
    exact cleared.trans twice
  change (permission.declared.diff tiers).union permission.declared.declaredTier = _
  rw [modifiers, tier]
  rfl

theorem isPrivate_declared (permission : Permission) :
    permission.declared.isPrivate = permission.isPrivate := by
  have named : permission.declared.isPrivate = permission.declaredTier.contains privateTier := by
    rw [← tier_declared]
    exact (contains_tier permission.declared rfl).symm
  rw [named]
  unfold isPrivate declaredTier
  split
  next asked => exact asked.symm
  next other =>
    rw [Bool.eq_false_iff.mpr other]
    split <;> rfl

def named : List (Permission × String) :=
  [(publicTier, "PUBLIC"), (protectedTier, "PROTECTED"), (privateTier, "PRIVATE"),
    (const, "CONST"), (static, "STATIC"), (invalid, "INVALID")]

def known : Permission := ⟨0x137⟩

def hexadecimal (bits : UInt16) : String :=
  "0x" ++ String.ofList (Nat.toDigits 16 bits.toNat)

def text (permission : Permission) : String :=
  let names := (named.filter fun row => permission.contains row.1).map (·.2)
  let unknown := permission.diff known
  let parts := if unknown = none then names else names ++ [hexadecimal unknown.bits]
  let body := if parts.isEmpty then hexadecimal 0 else " | ".intercalate parts
  "Permission(" ++ body ++ ")"

end Permission

inductive View where
  | all
  | publicProtected
  | privateOnly
  deriving DecidableEq, Repr

def View.admits : View → Permission → Bool
  | .all, _ => true
  | .publicProtected, permission => !permission.isPrivate
  | .privateOnly, permission => permission.isPrivate

theorem View.admits_declared (view : View) (permission : Permission) :
    view.admits permission.declared = view.admits permission := by
  cases view with
  | all => rfl
  | publicProtected => exact congrArg not permission.isPrivate_declared
  | privateOnly => exact permission.isPrivate_declared

end ScopeMachine
