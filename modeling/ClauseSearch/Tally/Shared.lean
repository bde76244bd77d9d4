import ClauseSearch.Tally.Timed

/-! A tally that searches running side by side add to. Each count is a word of 64 bits that wraps, and
a timed tally is absorbed by one addition to each word, so additions of different searches may mix in
any order. Pure variables and partitions are not kept here. -/

namespace ClauseSearch

/-- The counts that are shared. -/
inductive SharedCount where
  | iterations
  | unitPropagations
  | conflicts
  | conflictDepths
  | clauseTests
  | searches
  | decisions
  | solvedSubtrees
  | nanoseconds
  deriving DecidableEq, Repr

structure SharedTally where
  iterations : UInt64 := 0
  unitPropagations : UInt64 := 0
  conflicts : UInt64 := 0
  conflictDepths : UInt64 := 0
  clauseTests : UInt64 := 0
  searches : UInt64 := 0
  decisions : UInt64 := 0
  solvedSubtrees : UInt64 := 0
  nanoseconds : UInt64 := 0
  deriving DecidableEq, Repr

namespace SharedTally

def get (s : SharedTally) : SharedCount → UInt64
  | .iterations => s.iterations
  | .unitPropagations => s.unitPropagations
  | .conflicts => s.conflicts
  | .conflictDepths => s.conflictDepths
  | .clauseTests => s.clauseTests
  | .searches => s.searches
  | .decisions => s.decisions
  | .solvedSubtrees => s.solvedSubtrees
  | .nanoseconds => s.nanoseconds

def bump (s : SharedTally) (addition : SharedCount × UInt64) : SharedTally :=
  match addition with
  | (.iterations, n) => { s with iterations := s.iterations + n }
  | (.unitPropagations, n) => { s with unitPropagations := s.unitPropagations + n }
  | (.conflicts, n) => { s with conflicts := s.conflicts + n }
  | (.conflictDepths, n) => { s with conflictDepths := s.conflictDepths + n }
  | (.clauseTests, n) => { s with clauseTests := s.clauseTests + n }
  | (.searches, n) => { s with searches := s.searches + n }
  | (.decisions, n) => { s with decisions := s.decisions + n }
  | (.solvedSubtrees, n) => { s with solvedSubtrees := s.solvedSubtrees + n }
  | (.nanoseconds, n) => { s with nanoseconds := s.nanoseconds + n }

/-- The additions a timed tally is absorbed by, each amount cut to 64 bits. -/
def additions (t : TimedTally) : List (SharedCount × UInt64) :=
  [(.iterations, t.tally.iterations.toUInt64),
   (.unitPropagations, t.tally.unitPropagations.toUInt64),
   (.conflicts, t.tally.conflicts.toUInt64),
   (.conflictDepths, t.tally.conflictDepths.toUInt64),
   (.clauseTests, t.tally.clauseTests.toUInt64),
   (.searches, t.tally.searches.toUInt64),
   (.decisions, t.tally.decisions.toUInt64),
   (.solvedSubtrees, t.tally.solvedSubtrees.toUInt64),
   (.nanoseconds, t.time.toNanoseconds.toUInt64)]

def absorb (s : SharedTally) (t : TimedTally) : SharedTally := (additions t).foldl bump s

def snapshot (s : SharedTally) : TimedTally where
  tally :=
    { iterations := s.iterations.toNat
      unitPropagations := s.unitPropagations.toNat
      conflicts := s.conflicts.toNat
      conflictDepths := s.conflictDepths.toNat
      clauseTests := s.clauseTests.toNat
      searches := s.searches.toNat
      decisions := s.decisions.toNat
      solvedSubtrees := s.solvedSubtrees.toNat }
  time := .ofNanoseconds s.nanoseconds.toNat

end SharedTally

end ClauseSearch
