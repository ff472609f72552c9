import ScopeMachine.Decimal.Reader
import ScopeMachine.Interner

namespace ScopeMachine.Text

def mentionOpening : List Char := "Symbol(".toList

def mentioned? (digits : List Char) : Option Symbol :=
  let id := Decimal.digitsValue digits
  if digits.isEmpty || UInt32.size ≤ id then none else some ⟨id.toUInt32⟩

def nameLeading (interner : Interner) (text : List Char) : List Char :=
  match mentioned? (text.takeWhile Decimal.isDigit) with
  | some symbol => (interner.lookup symbol).toList ++ text.dropWhile Decimal.isDigit
  | none => text

def nameMentions (interner : Interner) : List Char → List Char
  | [] => []
  | char :: rest =>
      let text := char :: nameMentions interner rest
      if mentionOpening.isPrefixOf text then
        mentionOpening ++ nameLeading interner (text.drop mentionOpening.length)
      else text

end ScopeMachine.Text
