import ScopeMachine.Text.Unprintable

namespace ScopeMachine.Text

def escaped (char : Char) : List Char :=
  if char == '\t' then ['\\', 't']
  else if char == '\r' then ['\\', 'r']
  else if char == '\n' then ['\\', 'n']
  else if char == '"' then ['\\', '"']
  else if char == '\\' then ['\\', '\\']
  else if char.toNat == 0 then ['\\', '0']
  else if isUnprintable char then
    ['\\', 'u', '\x7b'] ++ Nat.toDigits 16 char.toNat ++ ['\x7d']
  else [char]

def quoted (text : String) : String :=
  "\"" ++ String.ofList (text.toList.flatMap escaped) ++ "\""

end ScopeMachine.Text
