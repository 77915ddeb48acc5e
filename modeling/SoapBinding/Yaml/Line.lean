/-!
# Lines of a YAML text

Where characters stand in a text, which of them end a line, and what the line breaks between two words
of a scalar amount to.

A line ends at a line feed, at a carriage return, at both together and at the next-line character:
these are one and the same break, and a line feed stands for it from here on. It also ends at a line
separator and at a paragraph separator, which stay what they are.
-/

namespace SoapBinding.Yaml

/-- Whether a character may stand in a text. -/
def isPrintable (c : Char) : Bool :=
  let n := c.toNat
  c == '\t' || c == '\n' || c == '\x0d' || (0x20 ≤ n && n ≤ 0x7E) || n == 0x85 ||
    (0xA0 ≤ n && n ≤ 0xFFFD) || 0x10000 ≤ n

/-- The characters of a text with a line feed for each break that is no separator. -/
def withLineFeeds : List Char → List Char
  | '\x0d' :: '\n' :: cs => '\n' :: withLineFeeds cs
  | c :: cs => (if c = '\x0d' ∨ c = '\u0085' then '\n' else c) :: withLineFeeds cs
  | [] => []

/-- Space or tab. -/
def isGap (c : Char) : Bool := c == ' ' || c == '\t'

/-- Whether a character ends a line. -/
def isBreak (c : Char) : Bool := c == '\n' || c == '\u2028' || c == '\u2029'

/-! ### Places -/

/-- Where a character stands: in which line and column, and behind how many bytes. -/
structure Place where
  /-- The lines before it. -/
  line : Nat
  /-- The characters before it in its line. -/
  column : Nat
  /-- The bytes before it, a line break being taken for the one that stands for it. -/
  offset : Nat

/-- The place behind a character. -/
def Place.behind (p : Place) (c : Char) : Place :=
  if isBreak c then ⟨p.line + 1, 0, p.offset + c.utf8Size⟩
  else ⟨p.line, p.column + 1, p.offset + c.utf8Size⟩

/-- Characters with their places. -/
abbrev Input := List (Place × Char)

/-- Characters with their places; the first one stands in the place given. -/
def Input.ofChars (p : Place) : List Char → Input
  | [] => []
  | c :: cs => (p, c) :: ofChars (p.behind c) cs

/-- Whether a word is over here: at a gap, at the end of a line or of the text. -/
def endsWord : Input → Bool
  | [] => true
  | (_, c) :: _ => isGap c || isBreak c

/-- Whether one of some characters stands here. -/
def beginsWith (input : Input) (cs : List Char) : Bool := input.head?.any fun p => cs.contains p.2

/-- Whether a line separates documents: it begins with three times the sign given, as a word. -/
def isMarker (input : Input) (sign : Char) : Bool :=
  match input with
  | (p, a) :: (_, b) :: (_, c) :: rest =>
    p.column == 0 && [a, b, c].all (· == sign) && endsWord rest
  | _ => false

/-- Whether a document begins or ends here. -/
def separatesDocuments (input : Input) : Bool := isMarker input '-' || isMarker input '.'

/-! ### Between words -/

/-- What the line breaks between two words of a scalar amount to. The first one is a space if it stands
alone and nothing beside others, unless it is a separator; all others stay. -/
def folded : List Char → List Char
  | [] => []
  | '\n' :: others => if others.isEmpty then [' '] else others
  | breaks => breaks

/-- Reads the gaps behind a word, the line breaks behind those, and what follows. The gaps at the
beginning of a line are dropped, once `isBroken` tells that the line of the word is over; a tab among
them stands in the column `least` or further to the right. -/
def between (least : Nat) (isBroken : Bool) : Input → Option (List Char × List Char × Input)
  | [] => some ([], [], [])
  | (p, c) :: rest =>
    if isBreak c then do
      let (_, breaks, rest) ← between least true rest
      some ([], c :: breaks, rest)
    else if !isGap c then some ([], [], (p, c) :: rest)
    else if !isBroken then do
      let (gaps, breaks, rest) ← between least false rest
      some (c :: gaps, breaks, rest)
    else if c == '\t' && p.column < least then none
    else between least true rest

/-- What stands between two words for what is written there: the gaps, or else the line breaks. -/
def joined (gaps breaks : List Char) : List Char :=
  if breaks.isEmpty then gaps else folded breaks

end SoapBinding.Yaml
