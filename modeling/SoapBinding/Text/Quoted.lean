import SoapBinding.Text.Concealed

/-!
# Quoted text

A text between double quotes, as the description of a value shows it. The quote, the backslash and
the usual controls are written with a backslash and a letter; every other character that would not
be seen is written as its code point in small hexadecimal digits between braces. The single quote
stays as it is.
-/

namespace SoapBinding.Text

/-- A code point between braces, in small hexadecimal digits. -/
def escapedByNumber (c : Char) : List Char :=
  ['\\', 'u', '\x7b'] ++ Nat.toDigits 16 c.toNat ++ ['\x7d']

/-- A character inside quotes. -/
def quotedChar (c : Char) : List Char :=
  match c with
  | '\x00' => ['\\', '0']
  | '\t' => ['\\', 't']
  | '\r' => ['\\', 'r']
  | '\n' => ['\\', 'n']
  | '\\' => ['\\', '\\']
  | '"' => ['\\', '"']
  | c =>
    if c.toNat < 0x20 then escapedByNumber c
    else if c.toNat < 0x7F then [c]
    else if isConcealed c then escapedByNumber c
    else [c]

/-- The text between double quotes. -/
def quoted (s : String) : String := String.ofList ('"' :: s.toList.flatMap quotedChar ++ ['"'])

example : quoted "a\"b'\u0001" = "\"a\\\"b'\\u\x7b1\x7d\"" := by decide +kernel

end SoapBinding.Text
