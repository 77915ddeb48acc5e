import SoapBinding.Double.Basic

/-!
# The shortest decimal that reads back

Among the decimals that round to a given double, `shortest` finds one with the fewest digits, and of
those with the fewest digits the one nearest to the double; of two at the same distance the larger.

A double is `m · 2 ^ q`. The numbers that round to it form an interval around it, whose ends belong
to it exactly when `m` is even. For one digit, two digits and so on, the two neighbours of the double
on the grid of decimals with that many digits are tried. The arithmetic is exact: both sides of each
comparison are scaled to natural numbers.
-/

namespace SoapBinding.Double

/-- `10 ^ n`, one for a negative `n`. -/
def tenTo (n : Int) : Nat := Nat.pow 10 n.toNat

/-- How many decimal digits a number has; none for zero. -/
def digitCount (n : Nat) : Nat := if n = 0 then 0 else (Nat.toDigits 10 n).length

/-- The `p` with `10 ^ (p - 1) ≤ m · 2 ^ q < 10 ^ p`, for a positive `m`. -/
def decimalExponent (m : Nat) (q : Int) : Int :=
  let num := m * twoTo q
  let den := twoTo (-q)
  if den ≤ num then digitCount (num / den)
  else
    -- multiply until the number reaches one
    let rec climb : Nat → Nat → Int → Int
      | 0, _, p => p
      | fuel + 1, num, p => if den ≤ num then p else climb fuel (num * 10) (p - 1)
    climb 400 num 1

/-- The neighbour of `m · 2 ^ q` on the grid of multiples of `10 ^ t` that rounds to it, if one does:
of two the nearer, of two at one distance the upper. -/
def hit? (m : Nat) (q t : Int) : Option Nat :=
  let unit := tenTo t * twoTo (2 - q)
  let scale := tenTo (-t) * twoTo (q - 2)
  let value := 4 * m * scale
  -- a power of two has its lower neighbour at half the distance
  let low := (if m = leadingBit && -1074 < q then 4 * m - 1 else 4 * m - 2) * scale
  let high := (4 * m + 2) * scale
  let inside (n : Nat) : Bool :=
    if m % 2 = 0 then low ≤ n * unit && n * unit ≤ high else low < n * unit && n * unit < high
  let floor := value / unit
  match inside floor, inside (floor + 1) with
  | true, true =>
    if value - floor * unit < (floor + 1) * unit - value then some floor else some (floor + 1)
  | true, false => some floor
  | false, true => some (floor + 1)
  | false, false => none

/-- A number without its trailing zeros, which raise the exponent. -/
def dropZeros : Nat → Nat → Int → Nat × Int
  | 0, n, t => (n, t)
  | fuel + 1, n, t => if n % 10 = 0 && n != 0 then dropZeros fuel (n / 10) (t + 1) else (n, t)

/-- The shortest decimal `n · 10 ^ t` that rounds to `m · 2 ^ q`, for a positive `m`. -/
def shortest (m : Nat) (q : Int) : Nat × Int :=
  let p := decimalExponent m q
  let found := (List.range 17).findSome? fun (k : Nat) =>
    (hit? m q (p - (k + 1))).map (·, p - (k + 1))
  let (n, t) := found.getD (0, 0)
  dropZeros 20 n t

end SoapBinding.Double
