/-! The models a search has found: the first one in full, the ones kept as cubes, and how many there
are. The count stops at the greatest 128-bit number. -/

namespace ClauseSearch

structure Solutions where
  /-- The first model, with a value for every variable. -/
  model : Option (List Int) := none
  /-- Models kept in the order found; a variable that may take either value is left out. -/
  cubes : Array (List Int) := #[]
  count : Nat := 0
  deriving DecidableEq, Repr

namespace Solutions

def countLimit : Nat := (1 <<< 128) - 1

/-- How many assignments to `free` variables there are, up to the limit. -/
def assignments (free : Nat) : Nat := if free < 128 then 1 <<< free else countLimit

def addCounts (a b : Nat) : Nat := min (a + b) countLimit

/-- The solutions of two searches, the first search before the second. -/
def absorb (a b : Solutions) : Solutions where
  model := a.model.or b.model
  cubes := a.cubes ++ b.cubes
  count := addCounts a.count b.count

theorem assignments_eq (free : Nat) : assignments free = min (1 <<< free) countLimit := by
  simp only [assignments, countLimit, Nat.one_shiftLeft]
  split
  · rename_i h
    have : 2 ^ free ≤ 2 ^ 127 := Nat.pow_le_pow_right (by decide) (by omega)
    omega
  · rename_i h
    have : 2 ^ 128 ≤ 2 ^ free := Nat.pow_le_pow_right (by decide) (by omega)
    omega

theorem addCounts_assoc (a b c : Nat) :
    addCounts (addCounts a b) c = addCounts a (addCounts b c) := by
  simp only [addCounts]
  omega

end Solutions

end ClauseSearch
