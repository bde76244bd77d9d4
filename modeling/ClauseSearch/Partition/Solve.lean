import ClauseSearch.Clock
import ClauseSearch.Partition.Task
import ClauseSearch.Settings
import ClauseSearch.Tally.Shared
import ClauseSearch.Verdict

/-! A solve: the root search propagates once, and if that leaves the formula undecided, tasks search on
and their reports are combined in the order of the task numbers. How the tasks are run is a parameter;
`solve` runs them one after another and `solveUnder` each under a watch of its own. What a solve comes
to where a worker cannot be started is left out, and so is the time that it takes. -/

namespace ClauseSearch

structure Outcome where
  verdict : Verdict
  tally : Tally
  solutions : Solutions := {}
  trace : Array TracedDecision := #[]
  /-- Whether some task was ended by the time limit. -/
  timedOut : Bool := false
  deriving Repr

namespace Partition

/-! ### Reports combined -/

/-- A model decides, and without one the time limit leaves the verdict open. -/
def verdict (reports : List TaskReport) : Verdict :=
  if reports.any (·.hasModel) then .satisfiable
  else if reports.any (·.timedOut) then .unknown
  else .unsatisfiable

def solutions (reports : List TaskReport) : Solutions :=
  reports.foldl (fun found report => found.absorb report.solutions) {}

/-- The counts of the tasks, each absorbed when its task ends. -/
def sharedTally (reports : List TaskReport) : SharedTally :=
  reports.foldl (fun shared report => shared.absorb { tally := report.tally }) {}

/-- The decisions that splitting makes at the depth that is traced. -/
def splitting (part : Partition) : Except Fault (List TracedDecision) :=
  (part.ranks.zipIdx.filter fun (_, level) => part.options.traceDepth == some level).mapM
    fun (rank, level) => do return ⟨level, (← part.problem.ranking.place rank).var⟩

/-- The outcome of a search split into tasks, with what was counted before. The first error that is no
interruption takes its place. -/
def outcome (part : Partition) (before : Tally) (splitting : List TracedDecision)
    (reports : List TaskReport) : Except SearchError Outcome :=
  match reports.findSome? (·.failure?) with
  | some e => .error e
  | none => .ok
    { verdict := verdict reports
      tally := { before + part.root.tally + (sharedTally reports).snapshot.tally with
        partitions := part.taskCount }
      solutions := solutions reports
      trace := reports.foldl (fun trace report => trace ++ report.trace) splitting.toArray
      timedOut := reports.any (·.timedOut) }

end Partition

/-! ### Solving -/

def Options.ofSettings (settings : Settings) : Options where
  enumerate := settings.enumerate
  keepModels := settings.keepModels
  traceDepth := settings.traceDepth

/-- The root search: pure ranks are valued where the settings say so, and all is propagated. Comes with
the clause found falsified, if there is one. -/
def Search.atRoot (p : Prepared) (settings : Settings) : Except Fault (Search × Option Nat) := do
  let s := Search.fresh p
  let s ← if settings.preassignsPure then s.assumePure p else pure s
  s.propagateAll p

def Settings.deadline (settings : Settings) (start : Instant) : Except Fault (Option Instant) :=
  match settings.limit? with
  | none => .ok none
  | some limit => some <$> Fault.deadline.orElse (start.after? limit)

namespace Prepared

/-- Solves a prepared formula with a way to run the tasks. -/
def solveWith (runTasks : Partition → Except Fault (List TaskReport)) (p : Prepared)
    (settings : Settings) : Except Fault (Except SearchError Outcome) := do
  let before : Tally := { pureVariables := p.ranking.pureCount }
  let (s, conflict) ← Search.atRoot p settings
  if conflict.isSome then
    return .ok { verdict := .unsatisfiable
                 tally := before + { s.tally with conflicts := s.tally.conflicts + 1 } }
  if s.allSatisfied then
    let s ← s.countSolved.recordSolution p (.ofSettings settings)
    return .ok { verdict := .satisfiable, tally := before + s.tally, solutions := s.solutions }
  let part := Partition.ofRoot p (.ofSettings settings) s settings.partitionDepth
  return part.outcome before (← part.splitting) (← runTasks part)

/-- Solves a prepared formula with the tasks one after another. -/
def solve (p : Prepared) (settings : Settings) (clock : Clock) :
    Except Fault (Except SearchError Outcome) := do
  let deadline ← settings.deadline clock.start
  solveWith (Partition.inTurn (clock.expired deadline)) p settings

/-- Solves a prepared formula where the checks of each task find what its watch says. -/
def solveUnder (watches : Nat → Watch) (p : Prepared) (settings : Settings) :
    Except Fault (Except SearchError Outcome) :=
  solveWith (Partition.runAll watches) p settings

end Prepared

end ClauseSearch
