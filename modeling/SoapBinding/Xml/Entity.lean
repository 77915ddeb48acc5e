import SoapBinding.Text.Integer

/-!
# Entities

In text and in attribute values, the five characters that markup uses are written as named entities.
Reading replaces the five names and character references by number. Every `&` has to begin one of
these, up to the next `;`; other names and other numbers are refused.
-/

namespace SoapBinding.Xml

/-- A character as it is written in text and attribute values. -/
def escapedChar : Char → List Char
  | '<' => "&lt;".toList
  | '>' => "&gt;".toList
  | '&' => "&amp;".toList
  | '\'' => "&apos;".toList
  | '"' => "&quot;".toList
  | c => [c]

/-- A text as it is written. -/
def escape (s : String) : String := String.ofList (s.toList.flatMap escapedChar)

/-- The value of a hexadecimal digit in either case. -/
def hexDigit? (c : Char) : Option Nat :=
  let n := c.toNat
  if 48 ≤ n && n ≤ 57 then some (n - 48)
  else if 65 ≤ n && n ≤ 70 then some (n - 55)
  else if 97 ≤ n && n ≤ 102 then some (n - 87)
  else none

/-- The number that hexadecimal digits write. -/
def hexValue? (cs : List Char) : Option Nat :=
  cs.foldlM (fun n c => (hexDigit? c).map (n * 16 + ·)) 0

/-- The character of a code point, unless it is zero, a surrogate or past the last one. -/
def charAt? (n : Nat) : Option Char := if n ≠ 0 ∧ n.isValidChar then some (Char.ofNat n) else none

/-- The character that an entity stands for; its name is given without `&` and `;`. -/
def entity? (name : List Char) : Option Char :=
  match name with
  | '#' :: 'x' :: digits => if digits.isEmpty then none else (hexValue? digits).bind charAt?
  | '#' :: digits =>
    if digits.isEmpty || !digits.all Char.isDigit then none else charAt? (Text.digitsValue digits)
  | _ =>
    match String.ofList name with
    | "lt" => some '<'
    | "gt" => some '>'
    | "amp" => some '&'
    | "apos" => some '\''
    | "quot" => some '"'
    | _ => none

/-- Whether a character belongs to the name of an entity that has begun. -/
def inEntity (c : Char) : Bool := c != ';' && c != '&'

theorem length_behind_entity {cs rest : List Char} {c : Char}
    (h : cs.dropWhile inEntity = c :: rest) : rest.length < cs.length + 1 := by
  have hle : ∀ l : List Char, (l.dropWhile inEntity).length ≤ l.length := by
    intro l
    induction l with
    | nil => simp
    | cons a l ih =>
      rw [List.dropWhile_cons]
      split
      · exact Nat.le_succ_of_le ih
      · simp
  have := hle cs
  rw [h] at this
  simp only [List.length_cons] at this
  omega

/-- The text behind its written form. -/
def unescape? : List Char → Option (List Char)
  | [] => some []
  | c :: cs =>
    if c = '&' then
      match h : cs.dropWhile inEntity with
      | ';' :: rest => do
        let d ← entity? (cs.takeWhile inEntity)
        (unescape? rest).map (d :: ·)
      | _ => none
    else (unescape? cs).map (c :: ·)
termination_by cs => cs.length
decreasing_by
  · exact length_behind_entity h
  · simp

end SoapBinding.Xml
