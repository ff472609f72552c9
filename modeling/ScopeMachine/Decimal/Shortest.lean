namespace ScopeMachine.Decimal

structure Scientific where
  coefficient : Nat
  exponent : Int
  deriving DecidableEq, Repr, Inhabited

structure Binary where
  mantissa : Nat
  exponent : Int
  closeBelow : Bool
  deriving DecidableEq, Repr, Inhabited

def leadingBit : Nat := 0x10000000000000

namespace Binary

def ofBits (bits : UInt64) : Binary :=
  let field : Nat := (bits.toNat / leadingBit) % 0x800
  let fraction : Nat := bits.toNat % leadingBit
  if field = 0 then ⟨fraction, -1074, false⟩
  else ⟨leadingBit + fraction, (field : Int) - 1075, fraction == 0 && field != 1⟩

def scaledDecimal (number : Binary) (place : Int) (digits : Nat) : Nat :=
  4 * digits * Nat.pow 10 place.toNat * Nat.pow 2 (-number.exponent).toNat

def scaledQuarters (number : Binary) (place : Int) (quarters : Nat) : Nat :=
  quarters * Nat.pow 2 number.exponent.toNat * Nat.pow 10 (-place).toNat

def lower (number : Binary) : Nat :=
  if number.closeBelow then 4 * number.mantissa - 1 else 4 * number.mantissa - 2

def upper (number : Binary) : Nat := 4 * number.mantissa + 2

def readsBack (number : Binary) (place : Int) (digits : Nat) : Bool :=
  let candidate := number.scaledDecimal place digits
  let low := number.scaledQuarters place number.lower
  let high := number.scaledQuarters place number.upper
  if number.mantissa % 2 = 0 then low ≤ candidate && candidate ≤ high
  else low < candidate && candidate < high

def atLeastPower (number : Binary) (power : Int) : Bool :=
  number.scaledDecimal power 1 ≤ number.scaledQuarters power (4 * number.mantissa)

def leadingPower (number : Binary) : Int :=
  let estimate := ((number.mantissa.log2 : Int) + number.exponent) * 30103 / 100000
  if number.atLeastPower (estimate + 1) then estimate + 1
  else if number.atLeastPower estimate then estimate
  else estimate - 1

def nearest? (number : Binary) (place : Int) : Option Scientific :=
  let exact := number.scaledQuarters place (4 * number.mantissa)
  let below := exact / number.scaledDecimal place 1
  let above := below + 1
  let belowFits := number.readsBack place below
  let aboveFits := number.readsBack place above
  let nearer :=
    if number.scaledDecimal place above - exact ≤ exact - number.scaledDecimal place below
    then above else below
  if belowFits && aboveFits then some ⟨nearer, place⟩
  else if belowFits then some ⟨below, place⟩
  else if aboveFits then some ⟨above, place⟩
  else none

def shortest (number : Binary) : Scientific :=
  let power := number.leadingPower
  ((List.range 17).findSome? fun more => number.nearest? (power - (more : Nat))).getD
    ⟨number.mantissa, number.exponent⟩

end Binary

end ScopeMachine.Decimal
