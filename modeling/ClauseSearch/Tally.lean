/-! What a search counts while it runs. Tallies of separate searches are combined by adding each
count. -/

namespace ClauseSearch

structure Tally where
  /-- Variables taken from the propagation queue. -/
  iterations : Nat := 0
  /-- Variables given a value by a unit clause. -/
  unitPropagations : Nat := 0
  conflicts : Nat := 0
  /-- The depths at which conflicts were met, summed. -/
  conflictDepths : Nat := 0
  /-- Clauses read for their status. -/
  clauseTests : Nat := 0
  /-- Nodes of the search tree entered. -/
  searches : Nat := 0
  decisions : Nat := 0
  /-- Nodes at which every clause was satisfied. -/
  solvedSubtrees : Nat := 0
  pureVariables : Nat := 0
  partitions : Nat := 0
  deriving DecidableEq, Repr

namespace Tally

def add (a b : Tally) : Tally where
  iterations := a.iterations + b.iterations
  unitPropagations := a.unitPropagations + b.unitPropagations
  conflicts := a.conflicts + b.conflicts
  conflictDepths := a.conflictDepths + b.conflictDepths
  clauseTests := a.clauseTests + b.clauseTests
  searches := a.searches + b.searches
  decisions := a.decisions + b.decisions
  solvedSubtrees := a.solvedSubtrees + b.solvedSubtrees
  pureVariables := a.pureVariables + b.pureVariables
  partitions := a.partitions + b.partitions

instance : Add Tally := ⟨add⟩

def counts (t : Tally) : List Nat :=
  [t.iterations, t.unitPropagations, t.conflicts, t.conflictDepths, t.clauseTests, t.searches,
   t.decisions, t.solvedSubtrees, t.pureVariables, t.partitions]

/-- The mean depth of a conflict in double precision, none without conflicts. -/
def meanConflictDepth? (t : Tally) : Option Float :=
  if t.conflicts = 0 then none
  else some (t.conflictDepths.toUInt64.toFloat / t.conflicts.toUInt64.toFloat)

end Tally

end ClauseSearch
