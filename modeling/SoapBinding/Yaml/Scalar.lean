import SoapBinding.Yaml.Basic
import SoapBinding.Yaml.Line

/-!
# YAML scalars in text

A scalar is plain, or stands between single or double quotes. In a flow collection a plain scalar
also ends at the signs of collections. A scalar may go on over several lines: a line break in it is a
space, and each empty line is a line break.
-/

namespace SoapBinding.Yaml

/-! ### Plain scalars -/

/-- Whether a character is a sign of a flow collection. -/
def isFlowSign (c : Char) : Bool := [',', '[', ']', '\x7b', '\x7d'].contains c

/-- Signs with which no plain scalar begins. -/
def reservedSigns : List Char :=
  ['-', '?', ':', '#', '&', '*', '!', '|', '>', '\x27', '"', '%', '@', '\x60']

/-- Whether a plain scalar begins here. A hyphen may begin one if no gap is behind it, and outside flow
collections a question mark or a colon if it does not stand alone. -/
def beginsPlain (isFlow : Bool) : Input → Bool
  | [] => false
  | (_, c) :: rest =>
    (!isGap c && !isBreak c && !isFlowSign c && !reservedSigns.contains c) ||
      (c == '-' && !beginsWith rest [' ', '\t']) ||
      (!isFlow && (c == '?' || c == ':') && !endsWord rest)

/-- The word of a plain scalar that stands here, perhaps an empty one, and what follows. It ends at a
colon that ends a word and, in a flow collection, at its signs; there a colon may not touch them. -/
def plainWord (isFlow : Bool) : Input → Option (List Char × Input)
  | [] => some ([], [])
  | (p, c) :: rest =>
    if isGap c || isBreak c then some ([], (p, c) :: rest)
    else if isFlow && c == ':' && beginsWith rest [',', '?', '[', ']', '\x7b', '\x7d'] then none
    else if (c == ':' && endsWord rest) || (isFlow && isFlowSign c) then some ([], (p, c) :: rest)
    else do
      let (others, rest) ← plainWord isFlow rest
      some (c :: others, rest)

/-- The words of a plain scalar, at most `count`, as one text; whether its last line is over; and what
follows. Outside a flow collection its lines stand in the column `least` or further to the right. -/
def plainWords (isFlow : Bool) (least : Nat) : Nat → Input → Option (List Char × Bool × Input)
  | 0, input => some ([], false, input)
  | count + 1, input =>
    if separatesDocuments input || beginsWith input ['#'] then some ([], false, input)
    else do
      let (word, rest) ← plainWord isFlow input
      let (gaps, breaks, next) ← between least false rest
      let isOver := (gaps.isEmpty && breaks.isEmpty) ||
        (!isFlow && next.head?.any fun p => p.1.column < least)
      let (others, isLineOver, rest) ←
        if isOver then some ([], false, next) else plainWords isFlow least count next
      if others.isEmpty then some (word, !breaks.isEmpty, rest)
      else some (word ++ joined gaps breaks ++ others, isLineOver, rest)

/-! ### Quoted scalars -/

/-- The character of a number, if there is one. -/
def charOf? (n : Nat) : Option Char :=
  if h : n.isValidChar then some (Char.ofNatAux n h) else none

/-- The character that a number of hexadecimal digits stand for, and what follows. -/
def hexEscape (count : Nat) (input : Input) : Option (Char × Input) := do
  let front := (input.take count).map (·.2)
  if front.length < count then none
  else
    let n ← digits? 16 front
    let c ← charOf? n
    some (c, input.drop count)

/-- The character that a single letter behind a backslash stands for. -/
def letterEscape? : Char → Option Char
  | '0' => some '\x00'
  | 'a' => some '\x07'
  | 'b' => some '\x08'
  | 't' => some '\t'
  | '\t' => some '\t'
  | 'n' => some '\n'
  | 'v' => some '\x0b'
  | 'f' => some '\x0c'
  | 'r' => some '\x0d'
  | 'e' => some '\x1b'
  | ' ' => some ' '
  | '"' => some '"'
  | '/' => some '/'
  | '\\' => some '\\'
  | 'N' => some '\u0085'
  | '_' => some '\u00a0'
  | 'L' => some '\u2028'
  | 'P' => some '\u2029'
  | _ => none

/-- The character that an escape stands for, and what follows. -/
def escape? : Input → Option (Char × Input)
  | [] => none
  | (_, 'x') :: rest => hexEscape 2 rest
  | (_, 'u') :: rest => hexEscape 4 rest
  | (_, 'U') :: rest => hexEscape 8 rest
  | (_, c) :: rest => (letterEscape? c).map (·, rest)

/-- The rest of a scalar between quotes, in at most `steps` steps; `read` is what it holds so far, the
last character first. A line break behind a backslash is nothing, and the breaks behind that one are
kept. -/
def quotedRest (quote : Char) (read : List Char) : Nat → Input → Option (List Char × Input)
  | 0, _ => none
  | _, [] => none
  | steps + 1, (p, c) :: rest =>
    if separatesDocuments ((p, c) :: rest) then none
    else if isGap c || isBreak c then do
      let (gaps, breaks, rest) ← between 0 false ((p, c) :: rest)
      quotedRest quote ((joined gaps breaks).reverse ++ read) steps rest
    else if c = quote then
      match quote, rest with
      | '\x27', (_, '\x27') :: rest => quotedRest quote ('\x27' :: read) steps rest
      | _, _ => some (read.reverse, rest)
    else if c = '\\' ∧ quote = '"' then
      if rest.head?.any fun p => isBreak p.2 then do
        let (_, breaks, rest) ← between 0 true (rest.drop 1)
        quotedRest quote (breaks.reverse ++ read) steps rest
      else do
        let (c, rest) ← escape? rest
        quotedRest quote (c :: read) steps rest
    else quotedRest quote (c :: read) steps rest

end SoapBinding.Yaml
