import ClauseSearch.Fault
import ClauseSearch.Frequency

/-! A ranking puts the variables in the order in which a search takes them up: the variable at rank
1 first. It also holds the polarity each variable is tried with first and whether the variable is
pure. Ranks count from 1 as variables do, and both tables keep index 0 for no variable. -/

namespace ClauseSearch

/-- What stands at a rank. -/
structure Place where
  var : Nat
  preferred : Bool
  isPure : Bool
  deriving DecidableEq, Repr

/-- The ranks of the variables, and the places by rank. -/
structure Ranking where
  ranks : Array Nat
  places : Array Place
  deriving Repr

namespace Ranking

/-- The place at index 0. -/
def top : Place := ⟨0, true, false⟩

/-- Every variable at its own index, tried with true first. -/
def identity (n : Nat) : Ranking where
  ranks := Array.range (n + 1)
  places := (Array.range (n + 1)).map fun x => ⟨x, true, false⟩

/-- Pure variables come first, then greater totals. -/
def precedes (a b : Frequency) : Bool :=
  a.isPure || (!b.isPure && decide (b.total ≤ a.total))

/-- The variables of a table as `precedes` sorts them; ties keep the smaller variable first. -/
def order (t : FrequencyTable) : List Nat :=
  (List.range' 1 (t.size - 1)).mergeSort fun x y => precedes (t.get x) (t.get y)

/-- The position of each variable in a list that names each of `1..n` once. -/
def positions (n : Nat) (order : List Nat) : Array Nat :=
  (order.zipIdx 1).foldl (fun ranks (x, rank) => ranks.setIfInBounds x rank)
    (Array.replicate (n + 1) 0)

/-- Ranks by descending frequency, each variable with its own preferred polarity. -/
def byFrequency (t : FrequencyTable) : Ranking where
  ranks := positions (t.size - 1) (order t)
  places := (top :: (order t).map fun x => ⟨x, (t.get x).preferred, (t.get x).isPure⟩).toArray

def variableCount (r : Ranking) : Nat := r.ranks.size - 1

def rank (r : Ranking) (x : Nat) : Except Fault Nat := Fault.lookup r.ranks x

def place (r : Ranking) (rank : Nat) : Except Fault Place := Fault.lookup r.places rank

/-- The ranks of pure variables, in ascending order. -/
def pureRanks (r : Ranking) : List Nat :=
  (r.places.toList.zipIdx.filter fun (place, _) => place.isPure).map (·.2)

def pureCount (r : Ranking) : Nat := r.places.countP (·.isPure)

/-- A literal on a variable as the literal on its rank. -/
def toRanked (r : Ranking) (l : Literal) : Except Fault Literal := do
  return { l with var := ← r.rank l.var }

/-- A literal on a rank as the literal on the variable placed there. -/
def ofRanked (r : Ranking) (l : Literal) : Except Fault Literal := do
  return { l with var := (← r.place l.var).var }

end Ranking

end ClauseSearch
