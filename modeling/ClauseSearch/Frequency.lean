import ClauseSearch.Literal

/-! How often a variable occurs with each polarity, and tables of such counts. A table is indexed by
variable; index 0 belongs to no variable. It may be shorter than the variables in use and grows to
each literal counted. -/

namespace ClauseSearch

structure Frequency where
  positive : Nat := 0
  negative : Nat := 0
  deriving DecidableEq, Repr

namespace Frequency

def total (f : Frequency) : Nat := f.positive + f.negative

/-- One polarity does not occur; so it is with a variable that does not occur at all. -/
def isPure (f : Frequency) : Bool := f.positive == 0 || f.negative == 0

/-- The polarity that occurs more often, true if they occur equally often. -/
def preferred (f : Frequency) : Bool := decide (f.negative ≤ f.positive)

def count (f : Frequency) (polarity : Bool) : Frequency :=
  if polarity then { f with positive := f.positive + 1 } else { f with negative := f.negative + 1 }

end Frequency

abbrev FrequencyTable := Array Frequency

namespace FrequencyTable

/-- The table with empty entries added up to the size. -/
def grow (size : Nat) (t : FrequencyTable) : FrequencyTable :=
  t ++ Array.replicate (size - t.size) ({} : Frequency)

/-- The table with one more literal counted. -/
def record (t : FrequencyTable) (l : Literal) : FrequencyTable :=
  (grow (l.var + 1) t).modify l.var (·.count l.polarity)

/-- The frequency of a variable, zero outside the table. -/
def get (t : FrequencyTable) (x : Nat) : Frequency := t.getD x {}

def total (t : FrequencyTable) : Nat := t.foldl (fun n f => n + f.total) 0

end FrequencyTable

end ClauseSearch
