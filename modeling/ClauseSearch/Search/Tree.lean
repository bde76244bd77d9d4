import ClauseSearch.Search.Propagation

/-! The search tree. A node propagates; if no clause is falsified and some clause is not flagged yet, it
decides the lowest rank without a value, the preferred polarity first. Each decision is undone when
the search below it has ended, in whatever way it ended, so a solution is copied out where it is found.

A decision lies above the cursor that its node began with, and the cursor of the nodes below is the
rank decided; so the ranks above the cursor bound the depth of the tree. -/

namespace ClauseSearch

/-- Why a search is told to stop. -/
inductive Interruption where
  /-- Another search has found a model. -/
  | stopped
  | timeLimit
  deriving DecidableEq, Repr

/-- A search without a verdict. A worker that cannot be started, which is one more error of a solve, is left out:
the workers of a solve are taken to be there. -/
inductive SearchError where
  | interrupted (reason : Interruption)
  /-- Every rank has a value and some clauses are not flagged. -/
  | variablesExhausted (depth unsatisfied : Nat)
  /-- A literal was assumed whose rank has the other value. -/
  | assumptionConflict (literal : Literal)
  deriving DecidableEq, Repr

/-- How a search ends. -/
inductive Found where
  /-- A model was found, and the search stopped at it. -/
  | satisfiable
  /-- Every extension of the valuation was examined. -/
  | exhausted
  deriving DecidableEq, Repr

abbrev Ending := Except SearchError Found

/-- What the checks of a search find: the entry for `n` is found by the check at its `n`-th node. The
entry for 0 belongs to a check before the search begins. -/
abbrev Watch := Nat → Option Interruption

namespace Search

/-- Copies the valuation out as a solution, which stands for every way to fill its free ranks. -/
def recordSolution (p : Prepared) (o : Options) (s : Search) : Except Fault Search := do
  if s.valuation.variableCount < s.valuedCount then
    throw .underflow
  let free := s.valuation.variableCount - s.valuedCount
  let model ← match s.solutions.model with
    | some model => pure model
    | none => p.model s.valuation
  let cubes ←
    if o.enumerate && o.keepModels then s.solutions.cubes.push <$> p.cube s.valuation
    else pure s.solutions.cubes
  return { s with solutions := {
    model := some model
    cubes
    count := Solutions.addCounts s.solutions.count (Solutions.assignments free) } }

def traceDecision (p : Prepared) (o : Options) (s : Search) (depth rank : Nat) :
    Except Fault Search := do
  if o.traceDepth = some depth then
    let place ← p.ranking.place rank
    return { s with trace := s.trace.push ⟨depth, place.var⟩ }
  else
    return s

def countNode (s : Search) : Search :=
  { s with tally.searches := s.tally.searches + 1 }

def countConflict (s : Search) (depth : Nat) : Search :=
  { s with tally.conflicts := s.tally.conflicts + 1,
           tally.conflictDepths := s.tally.conflictDepths + depth }

def countSolved (s : Search) : Search :=
  { s with tally.solvedSubtrees := s.tally.solvedSubtrees + 1 }

mutual

/-- Searches every extension of the valuation. Below a decision, `decided` is its rank and only that
rank is propagated; with no decision every clause is read. -/
def explore (p : Prepared) (o : Options) (watch : Watch) (depth : Nat) (decided : Option Nat)
    (s : Search) : Except Fault (Ending × Search) := do
  let (s, conflict) ← match decided with
    | some _ => propagate p s.countNode
    | none => propagateAll p s.countNode
  if conflict.isSome then
    return (.ok .exhausted, s.countConflict depth)
  if s.allSatisfied then
    let s ← recordSolution p o s.countSolved
    return (.ok (if o.enumerate then .exhausted else .satisfiable), s)
  if let some reason := watch s.tally.searches then
    return (.error (.interrupted reason), s)
  match _ : s.nextUnvalued? p.variableCount (decided.getD 0) with
  | none => return (.error (.variablesExhausted depth s.unsatisfiedCount), s)
  | some rank => branch p o watch depth rank (← traceDecision p o s depth rank)
termination_by 3 * (p.variableCount - decided.getD 0)
decreasing_by
  have := nextUnvalued?_bounds ‹s.nextUnvalued? _ _ = _›
  omega

/-- Decides a rank: its preferred polarity, and the other one if that is exhausted. -/
def branch (p : Prepared) (o : Options) (watch : Watch) (depth rank : Nat) (s : Search) :
    Except Fault (Ending × Search) := do
  let place ← p.ranking.place rank
  match ← attempt p o watch depth rank place.preferred s with
  | (.ok .exhausted, s) => attempt p o watch depth rank (!place.preferred) s
  | ended => return ended
termination_by 3 * (p.variableCount - rank) + 2

/-- Searches below one decision and undoes it. -/
def attempt (p : Prepared) (o : Options) (watch : Watch) (depth rank : Nat) (value : Bool)
    (s : Search) : Except Fault (Ending × Search) := do
  let (ending, s) ← explore p o watch (depth + 1) (some rank) (← s.enter rank value)
  return (ending, ← s.backtrack)
termination_by 3 * (p.variableCount - rank) + 1

end

end Search

end ClauseSearch
