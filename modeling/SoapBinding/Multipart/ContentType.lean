import SoapBinding.Text.Blank
import SoapBinding.Text.Split

/-!
# Content types

A content type is a media type followed by parameters, separated by semicolons. A semicolon between
double quotes separates nothing. Only `multipart/related` with a boundary that is not empty announces
a body in parts.
-/

namespace SoapBinding.Multipart

/-- The first piece of a header and the pieces behind it; `isQuoted` tells whether the header begins
between quotes. -/
def piecesFrom (isQuoted : Bool) : List Char → List Char × List (List Char)
  | [] => ([], [])
  | c :: cs =>
    if c = ';' ∧ isQuoted = false then
      let (first, others) := piecesFrom false cs
      ([], first :: others)
    else
      let (first, others) := piecesFrom (isQuoted != (c == '"')) cs
      (c :: first, others)

/-- Without one pair of double quotes around. -/
def unquoted (value : List Char) : List Char :=
  match value with
  | '"' :: rest => if rest.getLast? = some '"' then rest.dropLast else value
  | _ => value

/-- The boundary that a parameter gives, if it is one named so and its value is not empty. -/
def boundaryOf? (parameter : List Char) : Option String :=
  match Text.splitFirst? '=' parameter with
  | none => none
  | some (name, value) =>
    if Text.sameUpToCase (String.ofList (Text.trimChars name)) "boundary" then
      let boundary := unquoted (Text.trimChars value)
      if boundary.isEmpty then none else some (String.ofList boundary)
    else none

/-- The boundary that a content type announces. -/
def relatedBoundary? (contentType : String) : Option String :=
  let (mediaType, parameters) := piecesFrom false contentType.toList
  if Text.sameUpToCase (String.ofList (Text.trimChars mediaType)) "multipart/related" then
    parameters.findSome? boundaryOf?
  else none

example :
    relatedBoundary? "Multipart/Related; type=\"x; boundary=y\"; Boundary=\"a;b\"" = some "a;b" := by
  decide +kernel

end SoapBinding.Multipart
