import SoapBinding.DateTime.Basic
import SoapBinding.Text.Blank
import SoapBinding.Text.Integer

/-!
# DateTimes in text

A dateTime is written as RFC 3339 asks: date, `T`, time, a fraction of three, six or nine digits
where there is one, and the offset, which is `Z` for zero and otherwise rounded to whole minutes. A
year outside the four-digit ones carries a sign, and a leap second is written as the second after the
one it is counted with.

Two forms are read. The first is RFC 3339 (`zoned?`), whose numbers have all their digits. The second
(`floating?`) carries no offset and is taken as UTC; its numbers may be shorter, blanks may stand in
front of them and its year may carry a sign.
-/

namespace SoapBinding.DateTime

/-! ### Writing -/

/-- A number with zeros in front up to a width. -/
def padded (width n : Nat) : List Char :=
  let digits := Nat.toDigits 10 n
  List.replicate (width - digits.length) '0' ++ digits

/-- A year: four digits, or a sign and at least four digits. -/
def renderYear (year : Int) : List Char :=
  if 0 ≤ year && year ≤ 9999 then padded 4 year.toNat
  else (if year < 0 then '-' else '+') :: padded 4 year.natAbs

/-- The fraction of a second, in as few groups of three digits as show it. -/
def renderFraction (nanos : Nat) : List Char :=
  if nanos = 0 then []
  else if nanos % 1000000 = 0 then '.' :: padded 3 (nanos / 1000000)
  else if nanos % 1000 = 0 then '.' :: padded 6 (nanos / 1000)
  else '.' :: padded 9 nanos

/-- An offset, rounded to minutes with a half away from zero. -/
def renderOffset (offset : Int) : List Char :=
  if offset = 0 then ['Z']
  else
    let minutes := (offset.natAbs + 30) / 60
    (if offset < 0 then '-' else '+') :: padded 2 (minutes / 60) ++ ':' :: padded 2 (minutes % 60)

/-- The text of a dateTime, as characters. -/
def renderChars (t : DateTime) : List Char :=
  let date := t.date
  let time := t.timeOfDay.toNat
  let leap := nanosPerSecond ≤ t.nanos
  let second := time % 60 + (if leap then 1 else 0)
  let nanos := if leap then t.nanos - nanosPerSecond else t.nanos
  renderYear date.year ++ '-' :: padded 2 date.month.toNat ++ '-' :: padded 2 date.day.toNat ++
    'T' :: padded 2 (time / 3600) ++ ':' :: padded 2 (time / 60 % 60) ++ ':' :: padded 2 second ++
    renderFraction nanos ++ renderOffset t.offset

/-- The text of a dateTime. -/
def render (t : DateTime) : String := String.ofList (renderChars t)

/-! ### Reading -/

/-- A number of `least` to `most` digits, as many as there are, with what stands behind it. -/
def number? (least most : Nat) (cs : List Char) : Option (Int × List Char) :=
  let digits := (cs.take most).takeWhile Char.isDigit
  if digits.length < least then none
  else some (Text.digitsValue digits, cs.drop digits.length)

/-- What stands behind a character. -/
def after? (c : Char) : List Char → Option (List Char)
  | [] => none
  | d :: cs => if d == c then some cs else none

/-- A fraction of a second in nanoseconds, or zero where no point stands. Nine digits count: zeros are
added behind fewer, and digits past the ninth are dropped. -/
def fraction? : List Char → Option (Nat × List Char)
  | '.' :: cs =>
    let digits := cs.takeWhile Char.isDigit
    if digits.isEmpty then none
    else
      let nine := (digits ++ List.replicate 9 '0').take 9
      some (Text.digitsValue nine, cs.dropWhile Char.isDigit)
  | cs => some (0, cs)

/-- An offset in seconds. -/
def offset? : List Char → Option (Int × List Char)
  | [] => none
  | c :: cs =>
    if c == 'Z' || c == 'z' then some (0, cs)
    else do
      let sign : Int ←
        if c == '+' then some 1 else if c == '-' || c == '\u2212' then some (-1) else none
      let (hours, cs) ← number? 2 2 cs
      let (minutes, cs) ← number? 2 2 (← after? ':' cs)
      if 24 ≤ hours || 60 ≤ minutes then none
      else some (sign * (hours * 3600 + minutes * 60), cs)

/-- A date and a time of day put together, if both exist. Second sixty is a leap second, in any
minute. -/
def assemble? (date : Civil.Date) (hour minute second : Int) (nanos : Nat) (offset : Int) :
    Option DateTime :=
  if !date.isValid || 24 ≤ hour || 60 ≤ minute || 61 ≤ second then none
  else
    let leap := second == 60
    let time := hour * 3600 + minute * 60 + (if leap then 59 else second)
    some (ofLocal date time (if leap then nanos + nanosPerSecond else nanos) offset)

/-- Reads RFC 3339. -/
def zoned? (cs : List Char) : Option DateTime := do
  let (year, cs) ← number? 4 4 cs
  let (month, cs) ← number? 2 2 (← after? '-' cs)
  let (day, cs) ← number? 2 2 (← after? '-' cs)
  let cs ← match cs with
    | c :: cs => if c == 'T' || c == 't' || c == ' ' then some cs else none
    | [] => none
  let (hour, cs) ← number? 2 2 cs
  let (minute, cs) ← number? 2 2 (← after? ':' cs)
  let (second, cs) ← number? 2 2 (← after? ':' cs)
  let (nanos, cs) ← fraction? cs
  let (offset, cs) ← offset? cs
  if cs.isEmpty then assemble? ⟨year, month, day⟩ hour minute second nanos offset else none

/-- A year that may carry a sign; with one, it may have any number of digits. -/
def signedYear? (cs : List Char) : Option (Int × List Char) :=
  match Text.trimLeft cs with
  | '-' :: cs => (number? 1 cs.length cs).map fun (year, cs) => (-year, cs)
  | '+' :: cs => number? 1 cs.length cs
  | cs => number? 1 4 cs

/-- A number of one or two digits, with blanks in front of it. -/
def loose? (cs : List Char) : Option (Int × List Char) := number? 1 2 (Text.trimLeft cs)

/-- Reads a dateTime without an offset, as UTC. -/
def floating? (cs : List Char) : Option DateTime := do
  let (year, cs) ← signedYear? cs
  let (month, cs) ← loose? (← after? '-' cs)
  let (day, cs) ← loose? (← after? '-' cs)
  let (hour, cs) ← loose? (← after? 'T' cs)
  let (minute, cs) ← loose? (← after? ':' cs)
  let (second, cs) ← loose? (← after? ':' cs)
  let (nanos, cs) ← fraction? cs
  if cs.isEmpty && -262143 ≤ year && year ≤ 262142 then
    assemble? ⟨year, month, day⟩ hour minute second nanos 0
  else none

/-- Reads a dateTime in either form. -/
def read? (cs : List Char) : Option DateTime := zoned? cs <|> floating? cs

example : (read? "2024-05-01T12:00:00.25+02:00".toList).map render =
    some "2024-05-01T12:00:00.250+02:00" := by cbv
example : (read? "2016-12-31T23:59:60".toList).map render = some "2016-12-31T23:59:60Z" := by cbv

end SoapBinding.DateTime
