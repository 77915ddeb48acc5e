import SoapBinding.DateTime.Civil

/-!
# Instants with an offset

A `DateTime` is an instant together with the offset from UTC at which it is shown. The instant is a
number of seconds since 1970 and of nanoseconds after that second; a billion nanoseconds or more
stand inside a leap second, which is counted with the second before it. Two dateTimes are the same
when their instants are.
-/

namespace SoapBinding

/-- An instant and the offset at which it is shown. -/
structure DateTime where
  /-- Seconds since 1970-01-01T00:00:00Z, without leap seconds. -/
  seconds : Int
  /-- Nanoseconds after the second; from a billion on, inside a leap second. -/
  nanos : Nat
  /-- Seconds by which the local time is ahead of UTC. -/
  offset : Int
  deriving Repr, DecidableEq

namespace DateTime

/-- The seconds of a day. -/
def secondsPerDay : Int := 86400

/-- The nanoseconds of a second. -/
def nanosPerSecond : Nat := 1000000000

/-- The seconds of the local clock since its 1970. -/
def localSeconds (t : DateTime) : Int := t.seconds + t.offset

/-- The local calendar date. -/
def date (t : DateTime) : Civil.Date := Civil.ofDays (t.localSeconds / secondsPerDay)

/-- The seconds since local midnight. -/
def timeOfDay (t : DateTime) : Int := t.localSeconds % secondsPerDay

/-- Comparison of the instants. -/
def same (a b : DateTime) : Bool := a.seconds == b.seconds && a.nanos == b.nanos

instance : BEq DateTime := ⟨same⟩

/-- The dateTime at a local date and time, shown at an offset. -/
def ofLocal (date : Civil.Date) (timeOfDay : Int) (nanos : Nat) (offset : Int) : DateTime :=
  ⟨Civil.toDays date * secondsPerDay + timeOfDay - offset, nanos, offset⟩

end DateTime
end SoapBinding
