import SoapBinding.Text.Quoted

/-!
# Descriptions of structured values

A structured value is described by its name and, between braces, its fields with their texts; two
points in the last place tell that some fields are left out. Lists stand between brackets, and a part
that may be absent is `None` or `Some` of its text.
-/

namespace SoapBinding.Text

/-- A name with an argument between parentheses. -/
def applied (name argument : String) : String := name ++ "(" ++ argument ++ ")"

/-- Texts between brackets. -/
def listing (items : List String) : String := "[" ++ String.intercalate ", " items ++ "]"

/-- A part that may be absent. -/
def optional : Option String → String
  | none => "None"
  | some s => applied "Some" s

/-- A name with fields between braces. -/
def record (name : String) (fields : List (String × String)) : String :=
  name ++ " \x7b " ++ String.intercalate ", " (fields.map fun (f, t) => f ++ ": " ++ t) ++ " \x7d"

/-- A name with some of its fields between braces, and the sign that others are left out. -/
def openRecord (name : String) (fields : List (String × String)) : String :=
  name ++ " \x7b " ++ String.join (fields.map fun (f, t) => f ++ ": " ++ t ++ ", ") ++ ".. \x7d"

/-- The word for a truth value. -/
def truth (b : Bool) : String := if b then "true" else "false"

end SoapBinding.Text
