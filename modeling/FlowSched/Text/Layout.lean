/-!
# Columns and lists

Padding to a width and the text of lists of numbers.
-/

namespace FlowSched.Text

/-- Fills with blanks on the right up to a width. -/
def padRight (width : Nat) (s : String) : String :=
  s ++ String.ofList (List.replicate (width - s.length) ' ')

/-- Fills with blanks on the left up to a width. -/
def padLeft (width : Nat) (s : String) : String :=
  String.ofList (List.replicate (width - s.length) ' ') ++ s

/-- Joins texts with a comma and a blank. -/
def commas (parts : List String) : String := ", ".intercalate parts

/-- A list in square brackets. -/
def bracketed (parts : List String) : String := "[" ++ commas parts ++ "]"

/-- A list of whole numbers in square brackets. -/
def ids (ns : List Int) : String := bracketed (ns.map toString)

/-- A list of pairs of whole numbers. -/
def pairs (ps : List (Int × Int)) : String :=
  bracketed (ps.map fun (a, b) => "(" ++ toString a ++ ", " ++ toString b ++ ")")

end FlowSched.Text
