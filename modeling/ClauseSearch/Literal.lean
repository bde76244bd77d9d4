/-! Variables are counted from 1, and a literal is a variable with a polarity. A literal is written
as the nonzero integer whose magnitude is the variable and whose sign is the polarity; a literal read
from an integer is written as that integer. -/

namespace ClauseSearch

/-- The greatest variable, so that a literal and its negation both fit a signed 32-bit integer. -/
def greatestVariable : Nat := 2147483647

/-- A variable with a polarity. -/
structure Literal where
  var : Nat
  polarity : Bool
  deriving DecidableEq, Repr

namespace Literal

/-- The literal an integer stands for: none for zero and for magnitudes above `greatestVariable`. -/
def ofInt? (n : Int) : Option Literal :=
  if n = 0 ∨ greatestVariable < n.natAbs then none else some ⟨n.natAbs, decide (0 < n)⟩

def toInt (l : Literal) : Int := if l.polarity then l.var else -l.var

def negate (l : Literal) : Literal := { l with polarity := !l.polarity }

instance : Neg Literal := ⟨negate⟩

def satisfiedBy (l : Literal) (value : Bool) : Bool := l.polarity == value

def sorted (ls : List Literal) : List Literal :=
  ls.mergeSort fun a b => decide (a.toInt ≤ b.toInt)

/-! ### Reading and writing -/

theorem toInt_of_ofInt? {n : Int} {l : Literal} (h : ofInt? n = some l) : l.toInt = n := by
  unfold ofInt? at h
  split at h
  · exact absurd h (by simp)
  · cases h
    by_cases hn : 0 < n
    · simp only [toInt, hn, decide_true, if_true]
      omega
    · simp only [toInt, hn, decide_false, Bool.false_eq_true, if_false]
      omega

theorem var_of_ofInt? {n : Int} {l : Literal} (h : ofInt? n = some l) :
    l.var = n.natAbs ∧ 0 < l.var ∧ l.var ≤ greatestVariable := by
  unfold ofInt? at h
  split at h
  · exact absurd h (by simp)
  · cases h
    exact ⟨rfl, by simp; omega, by simp; omega⟩

theorem ofInt?_eq_none {n : Int} : ofInt? n = none ↔ n = 0 ∨ greatestVariable < n.natAbs := by
  unfold ofInt?
  split <;> simp_all

end Literal

end ClauseSearch
