import ClauseSearch.Duration
import ClauseSearch.Fault
import ClauseSearch.Tally

/-! A tally together with the time it took. It is kept in words: each count fits 64 bits, and so do the
seconds of the time. Adding two of them has a result exactly if all the sums fit. -/

namespace ClauseSearch

structure TimedTally where
  tally : Tally := {}
  time : Duration := .zero
  deriving DecidableEq, Repr

namespace TimedTally

/-- The greatest count. -/
def countLimit : Nat := 18446744073709551615

/-- Whether each count and the time fit their words. -/
def Fits (t : TimedTally) : Prop := (∀ n ∈ t.tally.counts, n ≤ countLimit) ∧ t.time ≤ .greatest

instance (t : TimedTally) : Decidable t.Fits := inferInstanceAs (Decidable (_ ∧ _))

/-- The sums without regard to the words. -/
def sum (a b : TimedTally) : TimedTally := ⟨a.tally + b.tally, a.time.add b.time⟩

def add (a b : TimedTally) : Except Fault TimedTally :=
  if (a.sum b).Fits then .ok (a.sum b) else .error .overflow

theorem add_eq_ok {a b t : TimedTally} : a.add b = .ok t ↔ t = a.sum b ∧ t.Fits := by
  unfold add
  split
  · rename_i h
    exact ⟨fun ht => Except.ok.inj ht ▸ ⟨rfl, h⟩, fun ht => by rw [ht.1]⟩
  · rename_i h
    exact ⟨fun ht => absurd ht (by simp), fun ht => absurd (ht.1 ▸ ht.2) h⟩

end TimedTally

end ClauseSearch
