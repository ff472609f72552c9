namespace ScopeMachine.Text

def truth (value : Bool) : String := if value then "true" else "false"

def list (items : List String) : String := "[" ++ ", ".intercalate items ++ "]"

def option : Option String → String
  | none => "None"
  | some content => "Some(" ++ content ++ ")"

def fields (shown : List (String × String)) : List String :=
  shown.map fun (name, content) => name ++ ": " ++ content

def record (name : String) (shown : List (String × String)) : String :=
  name ++ " \x7b " ++ ", ".intercalate (fields shown) ++ " \x7d"

def partialRecord (name : String) (shown : List (String × String)) : String :=
  name ++ " \x7b " ++ ", ".intercalate (fields shown ++ [".."]) ++ " \x7d"

end ScopeMachine.Text
