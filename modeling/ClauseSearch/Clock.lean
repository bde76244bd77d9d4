import ClauseSearch.Duration

/-! The readings of a monotonic clock that a solve makes. It reads the clock when it begins and at each
check of each of its tasks, so a clock is given by what these readings are. -/

namespace ClauseSearch

structure Clock where
  start : Instant
  reading : (task check : Nat) → Instant

namespace Clock

/-- The clock stands still for a number of checks of each task and is past every deadline afterwards. -/
def standing (start : Instant) (checks : Nat) : Clock where
  start
  reading _ check := if check ≤ checks then start else ⟨⟨Instant.lastSecond + 1, 0⟩⟩

/-- Whether a check finds the deadline passed. -/
def expired (clock : Clock) (deadline : Option Instant) (task check : Nat) : Bool :=
  deadline.any fun deadline => decide (deadline ≤ clock.reading task check)

end Clock

end ClauseSearch
