/-!
# Blank characters and trimming

`isBlank` is the Unicode property `White_Space`: twenty-five characters, among them the no-break
space and the ideographic space, but not the zero-width space. Text is *blank* when it holds no
other character; `trim` removes the blank characters at both ends.

The ASCII blank characters are a smaller set of their own (`isAsciiBlank`): base64 text may be broken
by them anywhere.
-/

namespace SoapBinding.Text

/-- The Unicode property `White_Space`. -/
def isBlank (c : Char) : Bool :=
  let n := c.toNat
  (0x09 ≤ n && n ≤ 0x0D) || n == 0x20 || n == 0x85 || n == 0xA0 || n == 0x1680 ||
    (0x2000 ≤ n && n ≤ 0x200A) || n == 0x2028 || n == 0x2029 || n == 0x202F || n == 0x205F ||
    n == 0x3000

/-- Tab, line feed, form feed, carriage return and space. -/
def isAsciiBlank (c : Char) : Bool :=
  c == '\t' || c == '\n' || c == '\x0c' || c == '\r' || c == ' '

/-- Without the blank characters in front. -/
def trimLeft (cs : List Char) : List Char := cs.dropWhile isBlank

/-- Without the blank characters at the end. -/
def trimRight (cs : List Char) : List Char := (cs.reverse.dropWhile isBlank).reverse

/-- Without the blank characters at both ends. -/
def trimChars (cs : List Char) : List Char := trimRight (trimLeft cs)

/-- Without the blank characters at both ends. -/
def trim (s : String) : String := String.ofList (trimChars s.toList)

/-- Whether the text holds blank characters only. -/
def allBlank (s : String) : Bool := s.toList.all isBlank

/-- ASCII capital letters made small; every other character stays. -/
def lowerAscii (s : String) : String := String.ofList (s.toList.map Char.toLower)

/-- ASCII small letters made capital; every other character stays. -/
def upperAscii (s : String) : String := String.ofList (s.toList.map Char.toUpper)

/-- Equality up to the case of ASCII letters. -/
def sameUpToCase (a b : String) : Bool := lowerAscii a == lowerAscii b

/-! ### Small laws -/

theorem isBlank_of_isAsciiBlank {c : Char} (h : isAsciiBlank c = true) : isBlank c = true := by
  simp only [isAsciiBlank, Bool.or_eq_true, beq_iff_eq] at h
  rcases h with (((rfl | rfl) | rfl) | rfl) | rfl <;> decide

/-- Every character that core counts as whitespace is blank. -/
theorem isBlank_of_isWhitespace {c : Char} (h : c.isWhitespace = true) : isBlank c = true := by
  simp only [Char.isWhitespace, Bool.or_eq_true, decide_eq_true_eq] at h
  rcases h with ((rfl | rfl) | rfl) | rfl <;> decide

example : trim "\u00a0 a b\u3000\n" = "a b" := by decide +kernel
example : trim "\u200ba" = "\u200ba" := by decide +kernel

end SoapBinding.Text
