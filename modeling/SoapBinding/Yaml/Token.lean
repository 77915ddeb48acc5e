import SoapBinding.Yaml.Scalar

/-!
# YAML tokens

A text is read into tokens: scalars, signs, and what indentation tells. In the block style a
collection begins where its first key or hyphen stands further to the right than those around it, and
ends before the first token that stands further to the left.

That a scalar or a flow collection is a key shows only at the colon behind it. So the last place where
a key may have begun is kept as a candidate, one outside all flow collections and one in each of them.
The colon follows on the line where the candidate stands, within 1024 bytes.
-/

namespace SoapBinding.Yaml

/-- What a text consists of. -/
inductive Token where
  /-- Three hyphens: a document begins. -/
  | documentStart
  /-- Three points: a document ends. -/
  | documentEnd
  /-- A block sequence begins. -/
  | blockSequence
  /-- A block mapping begins. -/
  | blockMapping
  /-- A block collection ends. -/
  | blockEnd
  /-- An opening bracket. -/
  | sequenceStart
  /-- A closing bracket. -/
  | sequenceEnd
  /-- An opening brace. -/
  | mappingStart
  /-- A closing brace. -/
  | mappingEnd
  /-- A comma. -/
  | separator
  /-- A hyphen: an item follows. -/
  | item
  /-- A key follows. -/
  | key
  /-- A colon: a value follows. -/
  | value
  /-- A text. -/
  | scalar (text : String) (isPlain : Bool)
deriving DecidableEq

/-- Where a key may have begun. -/
structure Candidate where
  /-- Where its first character stands. -/
  place : Place
  /-- Whether it is a key for certain, because it stands in the column of the keys of a block mapping. -/
  isRequired : Bool
  /-- The tokens before it. -/
  before : Nat

/-- Whether a colon at a place comes too late for the candidate. -/
def Candidate.isStale (c : Candidate) (p : Place) : Bool :=
  c.place.line < p.line || c.place.offset + 1024 < p.offset

/-- The tokens read so far, and what matters for those to come. -/
structure Layout where
  /-- The tokens. -/
  tokens : Array Token
  /-- The columns of the block collections that have begun, the innermost one first. -/
  columns : List Nat
  /-- Where the next colon may find its key. -/
  candidate : Option Candidate
  /-- The candidates around the flow collections that are open, the innermost one first. -/
  outer : List (Option Candidate)
  /-- Whether a key may begin at the next token. -/
  admitsKey : Bool

namespace Layout

/-- The beginning of a text. -/
def start : Layout := ⟨#[], [], none, [], true⟩

/-- Whether a flow collection is open. -/
def isFlow (l : Layout) : Bool := !l.outer.isEmpty

/-- The column from which on a plain scalar may go on. -/
def least (l : Layout) : Nat := l.columns.head?.elim 0 (· + 1)

/-- With another token. -/
def push (l : Layout) (token : Token) : Layout := { l with tokens := l.tokens.push token }

/-- Telling whether a key may begin at the next token. -/
def admitting (l : Layout) (admitsKey : Bool) : Layout := { l with admitsKey := admitsKey }

/-! ### Indentation -/

/-- Lets a block collection begin in a column, unless one has begun there or further to the right; the
token for it comes behind the first `before` ones. -/
def indent (l : Layout) (column before : Nat) (token : Token) : Layout :=
  if l.isFlow || column < l.least then l
  else { l with tokens := l.tokens.insertIdxIfInBounds before token, columns := column :: l.columns }

/-- Ends the block collections that have begun in columns for which `isOver` holds, up to the first
one for which it does not. -/
def dedent (l : Layout) (isOver : Nat → Bool) : Layout :=
  if l.isFlow then l
  else
    let ended := (l.columns.takeWhile isOver).length
    { l with tokens := l.tokens ++ Array.replicate ended .blockEnd, columns := l.columns.drop ended }

/-! ### Candidates -/

/-- Without the candidate, which must not be a key for certain. -/
def withoutCandidate (l : Layout) : Option Layout :=
  if l.candidate.any (·.isRequired) then none else some { l with candidate := none }

/-- With a candidate at a place where a key may begin. -/
def withCandidate (l : Layout) (p : Place) : Option Layout := do
  if l.admitsKey then
    let l ← l.withoutCandidate
    let isRequired := !l.isFlow && l.columns.head? == some p.column
    some { l with candidate := some ⟨p, isRequired, l.tokens.size⟩ }
  else some l

/-- Without the candidates for which a colon at a place comes too late. None of them may be a key for
certain. -/
def settled (l : Layout) (p : Place) : Option Layout :=
  let isStale (c : Option Candidate) : Bool := c.any (·.isStale p)
  let isMissed (c : Option Candidate) : Bool := isStale c && c.any (·.isRequired)
  let kept (c : Option Candidate) : Option Candidate := c.filter fun c => !c.isStale p
  if isMissed l.candidate || l.outer.any isMissed then none
  else some { l with candidate := kept l.candidate, outer := l.outer.map kept }

/-! ### Signs -/

/-- Reads the mark that separates documents. -/
def separateDocuments (l : Layout) (token : Token) : Option Layout := do
  let l ← (l.dedent fun _ => true).withoutCandidate
  some ((l.admitting false).push token)

/-- Opens a flow collection, which may itself be a key. -/
def openFlow (l : Layout) (p : Place) (token : Token) : Option Layout := do
  let l ← l.withCandidate p
  some { (l.admitting true).push token with candidate := none, outer := l.candidate :: l.outer }

/-- Closes a flow collection, if one is open. -/
def closeFlow (l : Layout) (token : Token) : Option Layout := do
  let l ← l.withoutCandidate
  let candidate := l.outer.head?.getD l.candidate
  some { (l.admitting false).push token with candidate := candidate, outer := l.outer.drop 1 }

/-- Reads a comma. -/
def separate (l : Layout) : Option Layout := do
  let l ← l.withoutCandidate
  some ((l.admitting true).push .separator)

/-- Reads the hyphen in front of an item. -/
def beginItem (l : Layout) (p : Place) : Option Layout := do
  if !l.isFlow && !l.admitsKey then none
  else
    let l ← (l.indent p.column l.tokens.size .blockSequence).withoutCandidate
    some ((l.admitting true).push .item)

/-- Reads the question mark in front of a key. -/
def beginKey (l : Layout) (p : Place) : Option Layout := do
  if !l.isFlow && !l.admitsKey then none
  else
    let l ← (l.indent p.column l.tokens.size .blockMapping).withoutCandidate
    some ((l.admitting (!l.isFlow)).push .key)

/-- Reads the colon in front of a value, which makes the candidate a key. -/
def beginValue (l : Layout) (p : Place) : Option Layout :=
  match l.candidate with
  | some c =>
    let tokens := l.tokens.insertIdxIfInBounds c.before .key
    let l := { l with tokens := tokens, candidate := none, admitsKey := false }
    some ((l.indent c.place.column c.before .blockMapping).push .value)
  | none =>
    if !l.isFlow && !l.admitsKey then none
    else
      let l := l.indent p.column l.tokens.size .blockMapping
      some ((l.admitting (!l.isFlow)).push .value)

/-! ### Tokens of a text -/

/-- Skips gaps, line ends and comments, and tells whether a key may begin behind them: outside flow
collections it may on each new line. Where it may, no tab stands outside flow collections. A byte
order mark may stand at the beginning of a line. -/
def skipFiller (isFlow isComment admitsKey : Bool) : Input → Bool × Input
  | [] => (admitsKey, [])
  | (p, c) :: rest =>
    if isBreak c then skipFiller isFlow false (admitsKey || !isFlow) rest
    else if isComment || c == '#' then skipFiller isFlow true admitsKey rest
    else if c == ' ' || (c == '\t' && (isFlow || !admitsKey)) || (c == '\ufeff' && p.column == 0) then
      skipFiller isFlow false admitsKey rest
    else (admitsKey, (p, c) :: rest)

/-- Reads the token at a place, a scalar in at most `steps` steps. -/
def readToken (l : Layout) (steps : Nat) (p : Place) (c : Char) (rest : Input) :
    Option (Layout × Input) :=
  let input := (p, c) :: rest
  let isAlone := l.isFlow || endsWord rest
  if isMarker input '-' then l.separateDocuments .documentStart |>.map (·, rest.drop 2)
  else if isMarker input '.' then l.separateDocuments .documentEnd |>.map (·, rest.drop 2)
  else if c == '[' then l.openFlow p .sequenceStart |>.map (·, rest)
  else if c == '\x7b' then l.openFlow p .mappingStart |>.map (·, rest)
  else if c == ']' then l.closeFlow .sequenceEnd |>.map (·, rest)
  else if c == '\x7d' then l.closeFlow .mappingEnd |>.map (·, rest)
  else if c == ',' then l.separate |>.map (·, rest)
  else if c == '-' && endsWord rest then l.beginItem p |>.map (·, rest)
  else if c == '?' && isAlone then l.beginKey p |>.map (·, rest)
  else if c == ':' && isAlone then l.beginValue p |>.map (·, rest)
  else if c == '\x27' || c == '"' then do
    let l ← l.withCandidate p
    let (text, rest) ← quotedRest c [] steps rest
    some ((l.admitting false).push (.scalar (String.ofList text) false), rest)
  else if beginsPlain l.isFlow input then do
    let l ← l.withCandidate p
    let (text, isLineOver, rest) ← plainWords l.isFlow l.least steps input
    some ((l.admitting isLineOver).push (.scalar (String.ofList text) true), rest)
  else none

/-- Reads the rest of a text in at most `steps` steps. Every token takes a character, and every step of
a scalar does, so a step for each character is enough. -/
def readTokens : Nat → Layout → Input → Option Layout
  | 0, _, _ => none
  | steps + 1, l, input =>
    match skipFiller l.isFlow false l.admitsKey input with
    | (_, []) => (l.dedent fun _ => true).withoutCandidate
    | (admitsKey, (p, c) :: rest) => do
      let l ← (l.admitting admitsKey).settled p
      let (l, rest) ← (l.dedent (p.column < ·)).readToken steps p c rest
      readTokens steps l rest

end Layout

/-- The tokens of a text. -/
def Token.ofText? (text : String) : Option (List Token) :=
  let cs := text.toList
  if cs.all isPrintable then do
    let input := Input.ofChars ⟨0, 0, 0⟩ (withLineFeeds cs)
    let l ← Layout.start.readTokens (input.length + 1) input
    some l.tokens.toList
  else none

end SoapBinding.Yaml
