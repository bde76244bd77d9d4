/-! What is known about a formula. -/

namespace ClauseSearch

inductive Verdict where
  | satisfiable
  | unsatisfiable
  /-- Nothing is known yet, or the time ran out. -/
  | unknown
  deriving DecidableEq, Repr

def Verdict.name : Verdict → String
  | satisfiable => "Satisfiable"
  | unsatisfiable => "Unsatisfiable"
  | unknown => "Unknown"

end ClauseSearch
