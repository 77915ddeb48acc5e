/-!
# Binary64 numbers

A `Double` is its sixty-four bits in the binary interchange format: a sign, eleven bits of exponent
and fifty-two of significand. Comparison is by value: no NaN equals anything, and the two zeros are
equal.

`nearest` rounds an exact ratio of natural numbers to the nearest double, a tie to the even
neighbour, in exact arithmetic. Its result is the index of a double among the non-negative ones in
ascending order, which is also its bit pattern, so carries into the exponent and the step from
subnormal to normal numbers need no case of their own.
-/

namespace SoapBinding

/-- A binary64 number. -/
structure Double where
  /-- Sign, exponent and significand, from the highest bit down. -/
  bits : UInt64
  deriving DecidableEq, Repr

namespace Double

/-- The weight of the sign bit, `2 ^ 63`. -/
def signBit : Nat := 0x8000000000000000

/-- The weight of the leading bit of a significand, `2 ^ 52`. -/
def leadingBit : Nat := 0x10000000000000

/-- Whether the sign bit is set. -/
def isNegative (d : Double) : Bool := signBit ≤ d.bits.toNat

/-- The bits behind the sign. -/
def magnitude (d : Double) : Nat := d.bits.toNat % signBit

/-- The bit pattern of positive infinity; every NaN lies above it. -/
def infinityBits : Nat := 2047 * leadingBit

/-- Whether the bits stand for no number. -/
def isNaN (d : Double) : Bool := infinityBits < d.magnitude

/-- Whether the bits stand for one of the infinities. -/
def isInfinite (d : Double) : Bool := d.magnitude == infinityBits

/-- For a finite number without its sign: the significand `m` and the exponent `q` of `m · 2 ^ q`. -/
def parts (d : Double) : Nat × Int :=
  let biased : Nat := d.magnitude / leadingBit
  let low : Nat := d.magnitude % leadingBit
  if biased = 0 then (low, -1074) else (low + leadingBit, (biased : Int) - 1075)

/-- The double with a sign and the bits behind it. -/
def ofMagnitude (negative : Bool) (magnitude : Nat) : Double :=
  ⟨UInt64.ofNat (if negative then magnitude + signBit else magnitude)⟩

/-- A quiet NaN. -/
def nan : Double := ofMagnitude false (infinityBits + leadingBit / 2)

/-- The infinity of a sign. -/
def infinity (negative : Bool) : Double := ofMagnitude negative infinityBits

/-- Comparison by value. -/
def same (a b : Double) : Bool :=
  !a.isNaN && !b.isNaN && (a.bits == b.bits || (a.magnitude == 0 && b.magnitude == 0))

instance : BEq Double := ⟨same⟩

/-! ### Rounding a ratio -/

/-- `2 ^ n`, one for a negative `n`. -/
def twoTo (n : Int) : Nat := Nat.pow 2 n.toNat

/-- Rounds `num / den` to a natural number, a half to the even neighbour. -/
def roundHalfEven (num den : Nat) : Nat :=
  let floor := num / den
  let twice := 2 * (num % den)
  if twice < den then floor
  else if den < twice then floor + 1
  else floor + floor % 2

/-- The bits, without a sign, of the double nearest to `num / den`; both are positive. -/
def nearest (num den : Nat) : Nat :=
  let start := max ((Nat.log2 num : Int) - Nat.log2 den - 52) (-1074)
  let scaled (q : Int) : Nat × Nat := (num * twoTo (-q), den * twoTo q)
  let (n, d) := scaled start
  let q := if n < d * leadingBit && -1074 < start then start - 1 else start
  let (n, d) := scaled q
  let index := (q + 1074).toNat * leadingBit + roundHalfEven n d
  min index infinityBits

end Double
end SoapBinding
