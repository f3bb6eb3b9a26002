namespace Intcode.Text

def commaSeparated (items : List String) : String := ", ".intercalate items

def bracketed (items : List String) : String := "[" ++ commaSeparated items ++ "]"

/-- The text moved to the right end of a column. -/
def alignRight (column : Nat) (s : String) : String :=
  String.ofList (List.replicate (column - s.length) ' ') ++ s

end Intcode.Text
