import ScopeMachine.Decimal.Shortest

namespace ScopeMachine.Decimal

structure Style where
  /-- A whole number keeps `.0`. -/
  keepFraction : Bool
  /-- Powers of ten of the leading digit that are written without an exponent. -/
  positional : Int → Bool

namespace Style

def plain : Style := ⟨false, fun _ => true⟩

def inspected : Style := ⟨true, fun power => -4 ≤ power && power < 16⟩

end Style

def zeros (count : Nat) : String := String.ofList (List.replicate count '0')

def digitsText (coefficient : Nat) : List Char := Nat.toDigits 10 coefficient

def Scientific.digits (number : Scientific) : List Char × Int :=
  let written := digitsText number.coefficient
  let kept := (written.reverse.dropWhile (· == '0')).reverse
  (kept, number.exponent + (written.length - kept.length : Nat))

def positionalText (style : Style) (digits : List Char) (exponent : Int) : String :=
  let whole := (digits.length : Int) + exponent
  if 0 ≤ exponent then
    String.ofList digits ++ zeros exponent.toNat ++ (if style.keepFraction then ".0" else "")
  else if 0 < whole then
    String.ofList (digits.take whole.toNat) ++ "." ++ String.ofList (digits.drop whole.toNat)
  else
    "0." ++ zeros (-whole).toNat ++ String.ofList digits

def exponentText (digits : List Char) (power : Int) : String :=
  let fraction := digits.drop 1
  String.ofList (digits.take 1) ++
    (if fraction.isEmpty then "" else "." ++ String.ofList fraction) ++ "e" ++ toString power

def Scientific.text (style : Style) (number : Scientific) : String :=
  let (digits, exponent) := number.digits
  let power := (digits.length : Int) + exponent - 1
  if style.positional power then positionalText style digits exponent
  else exponentText digits power

def floatText (style : Style) (number : Float) : String :=
  if number.isNaN then "NaN"
  else
    let bits := number.toBits
    let sign := if bits >>> 63 == 1 then "-" else ""
    if number.isInf then sign ++ "inf"
    else if number == 0 then sign ++ (if style.keepFraction then "0.0" else "0")
    else sign ++ (Binary.ofBits bits).shortest.text style

end ScopeMachine.Decimal
