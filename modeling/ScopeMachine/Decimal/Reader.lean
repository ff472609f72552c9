import ScopeMachine.Decimal.Shortest

namespace ScopeMachine.Decimal

def isDigit (char : Char) : Bool := '0' ≤ char && char ≤ '9'

def digitsValue (digits : List Char) : Nat :=
  digits.foldl (fun value digit => 10 * value + (digit.toNat - '0'.toNat)) 0

def takeSign : List Char → Bool × List Char
  | '-' :: rest => (true, rest)
  | '+' :: rest => (false, rest)
  | rest => (false, rest)

def readExact? (text : List Char) : Option Int64 :=
  let (negative, digits) := takeSign text
  if digits.isEmpty || !digits.all isDigit then none
  else
    let magnitude : Int := digitsValue digits
    let value := if negative then -magnitude else magnitude
    if -0x8000000000000000 ≤ value && value < 0x8000000000000000 then some (.ofInt value) else none

def roundQuotient (numerator denominator : Nat) : Nat :=
  let quotient := numerator / denominator
  let twice := 2 * (numerator % denominator)
  if twice < denominator || (twice = denominator && quotient % 2 = 0) then quotient
  else quotient + 1

def quotientBits (numerator denominator : Nat) : UInt64 :=
  let estimate : Int := (numerator.log2 : Int) - denominator.log2 - 53
  let top := numerator * Nat.pow 2 (-estimate).toNat
  let bottom := denominator * Nat.pow 2 estimate.toNat
  let wanted := if top / bottom < 2 * leadingBit then estimate else estimate + 1
  let exponent := max wanted (-1074)
  let mantissa := roundQuotient (numerator * Nat.pow 2 (-exponent).toNat)
    (denominator * Nat.pow 2 exponent.toNat)
  let bits :=
    if mantissa < leadingBit then mantissa
    else (exponent + 1075).toNat * leadingBit + (mantissa - leadingBit)
  (min bits 0x7FF0000000000000).toUInt64

def Scientific.powerBelow (number : Scientific) : Int :=
  (number.coefficient.log2 : Int) * 30102 / 100000 + number.exponent

def Scientific.powerAbove (number : Scientific) : Int :=
  ((number.coefficient.log2 : Int) + 1) * 30103 / 100000 + 1 + number.exponent

def Scientific.bits (number : Scientific) : UInt64 :=
  if number.coefficient = 0 || number.powerAbove < -330 then 0
  else if 310 < number.powerBelow then 0x7FF0000000000000
  else
    quotientBits (number.coefficient * Nat.pow 10 number.exponent.toNat)
      (Nat.pow 10 (-number.exponent).toNat)

def exponentCeiling : Nat := 0x10000

def exponentValue (digits : List Char) : Nat :=
  digits.foldl
    (fun value digit =>
      if value < exponentCeiling then 10 * value + (digit.toNat - '0'.toNat) else value) 0

def readExponent? : List Char → Option Int
  | [] => some 0
  | mark :: rest =>
      if mark == 'e' || mark == 'E' then
        let (negative, digits) := takeSign rest
        if digits.isEmpty || !digits.all isDigit then none
        else
          let magnitude : Int := exponentValue digits
          some (if negative then -magnitude else magnitude)
      else none

def Scientific.ofDigits (digits : List Char) (places : Nat) (exponent : Int) : Scientific :=
  let zeros := (digits.reverse.takeWhile (· == '0')).length
  ⟨digitsValue (digits.take (digits.length - zeros)), exponent - places + zeros⟩

def readScientific? (text : List Char) : Option Scientific :=
  let whole := text.takeWhile isDigit
  let afterWhole := text.dropWhile isDigit
  let (fraction, rest) := match afterWhole with
    | '.' :: tail => (tail.takeWhile isDigit, tail.dropWhile isDigit)
    | tail => ([], tail)
  if whole.isEmpty && fraction.isEmpty then none
  else
    (readExponent? rest).map (.ofDigits (whole ++ fraction) fraction.length)

def signed (negative : Bool) (magnitude : UInt64) : Float :=
  Float.ofBits (if negative then magnitude + 0x8000000000000000 else magnitude)

def readInexact? (text : List Char) : Option Float :=
  let (negative, rest) := takeSign text
  let word := String.ofList (rest.map Char.toLower)
  if word == "inf" || word == "infinity" then
    some (signed negative 0x7FF0000000000000)
  else if word == "nan" then some (signed negative 0x7FF8000000000000)
  else (readScientific? rest).map fun number => signed negative number.bits

end ScopeMachine.Decimal
