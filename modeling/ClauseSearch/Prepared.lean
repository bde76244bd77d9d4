import ClauseSearch.Occurrences

/-! A formula ready to be searched: its clauses on ranks, the ranking that leads back to the
variables as they were given, and the occurrences of each rank. A search reads it and never changes
it. Integers in models and cubes are on the variables as given. -/

namespace ClauseSearch

structure Prepared where
  /-- The formula on ranks. -/
  formula : Formula
  ranking : Ranking
  occurrences : Occurrences
  deriving Repr

namespace Prepared

/-- Ranks the variables by frequency, or leaves them as they are, and collects the occurrences. -/
def ofFormula (f : Formula) (byFrequency : Bool) : Except Fault (Except TableError Prepared) := do
  let settled := f.settle
  let ranking :=
    if byFrequency then Ranking.byFrequency settled.frequencies
    else Ranking.identity settled.variableCount
  let formula ← if byFrequency then settled.toRanks ranking else pure settled
  return (Occurrences.ofFormula formula).map fun occurrences => ⟨formula, ranking, occurrences⟩

def variableCount (p : Prepared) : Nat := p.formula.variableCount

def clauseCount (p : Prepared) : Nat := p.formula.clauseCount

/-- The integer of a variable with a value. -/
def signed (x : Nat) (value : Bool) : Int := Literal.toInt ⟨x, value⟩

/-- A value for every variable in ascending order: the one held, else the preferred polarity. -/
def model (p : Prepared) (v : Valuation) : Except Fault (List Int) :=
  (List.range' 1 p.variableCount).mapM fun x => do
    let rank ← p.ranking.rank x
    let place ← p.ranking.place rank
    return signed x ((v.value? rank).getD place.preferred)

/-- The values held, in ascending order of variable; variables that may take either are left out. -/
def cube (p : Prepared) (v : Valuation) : Except Fault (List Int) := do
  let entries ← (List.range' 1 p.variableCount).mapM fun x => do
    let rank ← p.ranking.rank x
    return (v.value? rank).map (signed x)
  return entries.filterMap id

/-- Whether integers satisfy every clause, by reading all clauses anew. -/
def verify (p : Prepared) (ints : List Int) : Except Fault Bool :=
  p.formula.verify p.ranking.rank ints

end Prepared

end ClauseSearch
