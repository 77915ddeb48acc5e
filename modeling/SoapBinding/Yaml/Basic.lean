/-!
# YAML nodes

What a document of settings holds: scalars, sequences and mappings. A scalar keeps whether it was
written plainly, because only a plain one can stand for a number or for nothing.
-/

namespace SoapBinding.Yaml

/-- A part of a document. -/
inductive Node where
  /-- A text. -/
  | scalar (text : String) (isPlain : Bool)
  /-- Nodes in order. -/
  | sequence (items : List Node)
  /-- Keys with values, in order. -/
  | mapping (entries : List (Node × Node))

namespace Node

/-- What stands where nothing is written. -/
def empty : Node := .scalar "" true

/-- The text of a scalar. -/
def text? : Node → Option String
  | .scalar text _ => some text
  | _ => none

/-- The entries of a mapping whose keys are texts. Where nothing is written, there are none. -/
def entries? : Node → Option (List (String × Node))
  | .mapping entries => entries.mapM fun (key, value) => key.text?.map (·, value)
  | .scalar text isPlain => if text.isEmpty && isPlain then some [] else none
  | .sequence _ => none

end Node

/-! ### Numbers -/

/-- The value of a digit, of which there are thirty-six. -/
def digit? (c : Char) : Option Nat :=
  if c.isDigit then some (c.toNat - 48)
  else if 'a' ≤ c ∧ c ≤ 'z' then some (c.toNat - 87)
  else if 'A' ≤ c ∧ c ≤ 'Z' then some (c.toNat - 55)
  else none

/-- The value of one or more digits of a base. -/
def digits? (base : Nat) (cs : List Char) : Option Nat :=
  if cs.isEmpty then none
  else cs.foldlM (fun n c => do
    let d ← digit? c
    if d < base then some (n * base + d) else none) 0

/-- The value of digits with the mark of their base in front. Decimal digits have no mark, and do not
begin with a needless zero. -/
def magnitude? (cs : List Char) : Option Nat :=
  match cs with
  | '0' :: 'x' :: rest => digits? 16 rest
  | '0' :: 'o' :: rest => digits? 8 rest
  | '0' :: 'b' :: rest => digits? 2 rest
  | '0' :: _ :: _ => none
  | _ => digits? 10 cs

/-- The numbers that can be written lie below this one, `2 ^ 64`. -/
def numberBound : Nat := 18446744073709551616

/-- The number that a plain scalar writes. It may have a plus sign in front, and never a minus sign. -/
def unsigned? (text : String) : Option Nat := do
  let n ← match text.toList with
    | '+' :: rest => magnitude? rest
    | cs => magnitude? cs
  if n < numberBound then some n else none

/-- The number that a node writes. -/
def Node.number? : Node → Option Nat
  | .scalar text true => unsigned? text
  | _ => none

end SoapBinding.Yaml
