import ClauseSearch.Dimacs.Reader
import ClauseSearch.Partition.Solve

/-! A session takes clauses, solves them once and answers questions about the result. Clauses can be
added, or a formula read into an empty session, until the solve. Afterwards the session holds the
prepared formula in place of the formula as given, and a further solve repeats the verdict. -/

namespace ClauseSearch

inductive Phase where
  | configuration
  /-- Some clauses were taken. -/
  | input
  | solving
  | satisfiable
  | unsatisfiable
  /-- The solve ended without a verdict. -/
  | unknown
  deriving DecidableEq, Repr

namespace Phase

def name : Phase → String
  | configuration => "Configuration"
  | input => "Input"
  | solving => "Solving"
  | satisfiable => "Satisfiable"
  | unsatisfiable => "Unsatisfiable"
  | unknown => "Unknown"

def verdict : Phase → Verdict
  | configuration | input | solving | unknown => .unknown
  | satisfiable => .satisfiable
  | unsatisfiable => .unsatisfiable

def ofVerdict : Verdict → Phase
  | .satisfiable => satisfiable
  | .unsatisfiable => unsatisfiable
  | .unknown => unknown

/-- Whether clauses can still be added and the formula can be solved. -/
def isOpen : Phase → Bool
  | configuration | input => true
  | _ => false

end Phase

/-- Why a session refuses a request or a solve ends early. -/
inductive SessionError where
  | add (reason : AddError)
  | table (reason : TableError)
  | read (reason : Dimacs.ReadError)
  | search (reason : SearchError)
  /-- A formula was read where there are clauses, or a solve has been begun. -/
  | formulaPresent
  /-- A solve has been begun. -/
  | solveComplete
  deriving DecidableEq, Repr

structure Session where
  settings : Settings := {}
  phase : Phase := .configuration
  /-- The formula as given, until the solve. -/
  formula : Formula := {}
  /-- The prepared formula, after the solve. -/
  problem : Option Prepared := none
  /-- The counts of the solve, without the time that it took. -/
  tally : Tally := {}
  solutions : Solutions := {}
  /-- The decisions reported by the latest call to solve. -/
  trace : Array TracedDecision := #[]
  /-- Whether the time limit ended some part of the solve. -/
  timedOut : Bool := false
  deriving Repr

namespace Session

/-- Changes a setting: none if the value is out of bounds. -/
def set? (s : Session) (setting : Setting) : Option Session :=
  (s.settings.set? setting).map fun settings => { s with settings }

def add (s : Session) (ints : List Int) : Except SessionError (Nat × Session) :=
  if s.phase.isOpen then
    match s.formula.add ints with
    | .ok (id, formula) => .ok (id, { s with formula, phase := .input })
    | .error reason => .error (.add reason)
  else .error .solveComplete

/-- Takes the formula that bytes hold. -/
def read (s : Session) (bytes : List UInt8) : Except SessionError Session :=
  if s.phase = .configuration ∧ s.formula.clauseCount = 0 then
    match Dimacs.read bytes with
    | .ok formula => .ok { s with formula, phase := .input }
    | .error reason => .error (.read reason)
  else .error .formulaPresent

/-- Solves the formula with a way to solve it once prepared, or repeats the verdict of a solve that has
ended. -/
def solveWith (solver : Prepared → Settings → Except Fault (Except SearchError Outcome))
    (s : Session) : Except Fault (Except SessionError Verdict × Session) :=
  match s.phase with
  | .solving => .ok (.error .solveComplete, { s with trace := #[] })
  | .satisfiable | .unsatisfiable | .unknown => .ok (.ok s.phase.verdict, { s with trace := #[] })
  | .configuration | .input => do
    let given := { s with formula := {}, trace := #[] }
    match ← Prepared.ofFormula s.formula s.settings.heuristic with
    | .error reason => return (.error (.table reason), { given with phase := .unknown })
    | .ok problem =>
      match ← solver problem s.settings with
      | .error reason =>
        return (.error (.search reason), { given with phase := .unknown, problem := some problem })
      | .ok outcome =>
        return (.ok outcome.verdict,
          { given with
            phase := .ofVerdict outcome.verdict
            problem := some problem
            tally := outcome.tally
            solutions := outcome.solutions
            trace := outcome.trace
            timedOut := outcome.timedOut })

/-- Solves the formula with the tasks of the solve one after another. -/
def solve (s : Session) (clock : Clock) : Except Fault (Except SessionError Verdict × Session) :=
  s.solveWith fun problem settings => problem.solve settings clock

/-! ### Questions -/

def verdict (s : Session) : Verdict := s.phase.verdict

/-- The formula as given until the solve, and on ranks afterwards. -/
def currentFormula (s : Session) : Formula :=
  match s.problem with
  | some problem => problem.formula
  | none => s.formula

def variableCount (s : Session) : Nat := s.currentFormula.variableCount

/-- The value of a variable in the first model. -/
def value? (s : Session) (x : Nat) : Option Bool := do
  let model ← s.solutions.model
  if x = 0 then none else (model[x - 1]?).map fun n => decide (0 < n)

/-- The integers of the first model with one space between them. -/
def modelText? (s : Session) : Option String :=
  s.solutions.model.map fun model => String.ofList (Blank.unwords (model.map Numeral.ofInt))

/-- Whether integers satisfy every clause. -/
def verify (s : Session) (ints : List Int) : Except Fault Bool :=
  match s.problem with
  | some problem => problem.verify ints
  | none => s.formula.verify .ok ints

end Session

end ClauseSearch
