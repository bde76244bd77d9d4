/-! Spans of time and readings of a monotonic clock, both as seconds and nanoseconds. The clock keeps
its seconds in a signed 64-bit integer, so not every span after a reading has an end. -/

namespace ClauseSearch

/-- A span of time; the nanoseconds are fewer than a second. -/
structure Duration where
  seconds : Nat := 0
  nanoseconds : Nat := 0
  deriving DecidableEq, Repr

namespace Duration

def perSecond : Nat := 1000000000

def zero : Duration := {}

/-- The longest span: the seconds fill 64 bits. -/
def greatest : Duration := ⟨18446744073709551615, 999999999⟩

instance : LE Duration :=
  ⟨fun a b => a.seconds < b.seconds ∨ a.seconds = b.seconds ∧ a.nanoseconds ≤ b.nanoseconds⟩

instance (a b : Duration) : Decidable (a ≤ b) :=
  inferInstanceAs (Decidable (a.seconds < b.seconds ∨ _))

def isZero (d : Duration) : Bool := d == zero

def toNanoseconds (d : Duration) : Nat := d.seconds * perSecond + d.nanoseconds

def ofNanoseconds (n : Nat) : Duration := ⟨n / perSecond, n % perSecond⟩

def add (a b : Duration) : Duration := ofNanoseconds (a.toNanoseconds + b.toNanoseconds)

theorem toNanoseconds_ofNanoseconds (n : Nat) : (ofNanoseconds n).toNanoseconds = n := by
  simp only [toNanoseconds, ofNanoseconds]
  exact Nat.div_add_mod' n perSecond

end Duration

structure Instant where
  sinceStart : Duration
  deriving DecidableEq, Repr

namespace Instant

/-- The last second the clock can hold. -/
def lastSecond : Nat := 9223372036854775807

/-- The reading a span later: none where the clock cannot hold it. -/
def after? (t : Instant) (d : Duration) : Option Instant :=
  let sum := t.sinceStart.add d
  if sum.seconds ≤ lastSecond then some ⟨sum⟩ else none

instance : LE Instant := ⟨fun a b => a.sinceStart ≤ b.sinceStart⟩

instance (a b : Instant) : Decidable (a ≤ b) :=
  inferInstanceAs (Decidable (a.sinceStart ≤ b.sinceStart))

end Instant

end ClauseSearch
