import ClauseSearch.Search.Tree

/-! The tasks that a search is split into. A root search has propagated, and the first ranks without a
value are split on: each way to value them is one task, which goes on from the root's state. In the
number of a task, bit `i` is 0 where the rank split on at level `i` has its preferred polarity, so task
0 goes where a search that is not split would go first.

A task that finds a model while one model is enough stops the others, and what their checks find of it
depends on when they run. A `Watch` for each task says what they find, so a statement about every
schedule is a statement about every family of watches; `inTurn` is the schedule of one worker. -/

namespace ClauseSearch

/-- What a task leaves behind. -/
structure TaskReport where
  ending : Except SearchError (Found × Solutions)
  tally : Tally := {}
  trace : Array TracedDecision := #[]

namespace TaskReport

def stopsOthers (r : TaskReport) : Bool :=
  match r.ending with
  | .ok (.satisfiable, _) => true
  | _ => false

def hasModel (r : TaskReport) : Bool :=
  match r.ending with
  | .ok (found, solutions) => found == .satisfiable || decide (0 < solutions.count)
  | .error _ => false

def timedOut (r : TaskReport) : Bool :=
  match r.ending with
  | .error (.interrupted .timeLimit) => true
  | _ => false

/-- The solutions of a task that has ended; one that ended in an error hands none over. -/
def solutions (r : TaskReport) : Solutions :=
  match r.ending with
  | .ok (_, solutions) => solutions
  | .error _ => {}

/-- An error that is no interruption. -/
def failure? (r : TaskReport) : Option SearchError :=
  match r.ending with
  | .ok _ => none
  | .error (.interrupted _) => none
  | .error e => some e

end TaskReport

/-- A search split into tasks. -/
structure Partition where
  problem : Prepared
  options : Options
  /-- The state every task goes on from. -/
  root : Search
  /-- The ranks split on. -/
  ranks : List Nat

namespace Partition

/-- The first ranks above the cursor without a value, at most `count` of them. -/
def chooseRanks (s : Search) (last : Nat) : (count cursor : Nat) → List Nat
  | 0, _ => []
  | count + 1, cursor =>
    match s.nextUnvalued? last cursor with
    | none => []
    | some rank => rank :: chooseRanks s last count rank

/-- Splits on the first ranks of the root without a value, at most `depth` of them. -/
def ofRoot (p : Prepared) (o : Options) (root : Search) (depth : Nat) : Partition where
  problem := p
  options := o
  root
  ranks := chooseRanks root p.variableCount depth 0

def taskCount (part : Partition) : Nat := 1 <<< part.ranks.length

/-- The literals a task assumes. -/
def literals (part : Partition) (task : Nat) : Except Fault (List Literal) :=
  part.ranks.zipIdx.mapM fun (rank, level) => do
    let place ← part.problem.ranking.place rank
    return ⟨rank, if task.testBit level then !place.preferred else place.preferred⟩

/-- Assumes literals in turn, up to one that contradicts a value held. -/
def assumeAll : List Literal → Search → Except Fault (Except Literal Search)
  | [], s => .ok (.ok s)
  | l :: rest, s => do
    match ← s.assume? l with
    | none => return .error l
    | some s => assumeAll rest s

def run (part : Partition) (task : Nat) (watch : Watch) : Except Fault TaskReport := do
  if let some reason := watch 0 then
    return { ending := .error (.interrupted reason) }
  match ← assumeAll (← part.literals task) part.root.fork with
  | .error l => return { ending := .error (.assumptionConflict l) }
  | .ok s =>
    let (ending, s) ← s.explore part.problem part.options watch part.ranks.length none
    return { ending := ending.map (·, s.solutions), tally := s.tally, trace := s.trace }

/-- What a check finds: the stop first, then the time limit. -/
def watch (stopped : Bool) (expired : (check : Nat) → Bool) : Watch := fun check =>
  if stopped then some .stopped
  else if expired check then some .timeLimit
  else none

/-- Runs every task, each under its own watch. -/
def runAll (watches : Nat → Watch) (part : Partition) : Except Fault (List TaskReport) :=
  (List.range part.taskCount).mapM fun task => part.run task (watches task)

/-- Runs the tasks one after another; once one stops the others, none that follows begins. -/
def inTurn (expired : (task check : Nat) → Bool) (part : Partition) :
    Except Fault (List TaskReport) := do
  let (reports, _) ← (List.range part.taskCount).foldlM
    (fun ((reports, stopped) : Array TaskReport × Bool) task => do
      let report ← part.run task (watch stopped (expired task))
      return (reports.push report, stopped || report.stopsOthers)) (#[], false)
  return reports.toList

end Partition

end ClauseSearch
