import ClauseSearch.Session
import ClauseSearch.Text.Quoted

/-! How the command writes errors: the name of the error inside the name of its kind, with what it
holds in parentheses, or in braces where the parts have names. -/

namespace ClauseSearch

/-- A name with one part. -/
def ErrorText.wrap (name part : String) : String := name ++ "(" ++ part ++ ")"

/-- A name with named parts. -/
def ErrorText.record (name : String) (parts : List (String × String)) : String :=
  name ++ " \x7b " ++ ", ".intercalate (parts.map fun (key, value) => key ++ ": " ++ value) ++ " \x7d"

def ErrorText.number (n : Nat) : String := Numeral.text n

open ErrorText

def AddError.text : AddError → String
  | zeroLiteral => "ZeroLiteral"
  | undeclaredVariable var declared =>
    record "UndeclaredVariable" [("variable", number var), ("declared", number declared)]
  | variablesExhausted => "VariablesExhausted"
  | clausesExhausted => "ClausesExhausted"

def TableError.text : TableError → String
  | frequencyMismatch expected found =>
    record "FrequencyMismatch" [("expected", number expected), ("found", number found)]
  | slotOverflow var => record "SlotOverflow" [("variable", number var)]
  | slotUnderfill var missing =>
    record "SlotUnderfill" [("variable", number var), ("missing", number missing)]

def Interruption.text : Interruption → String
  | stopped => "Stopped"
  | timeLimit => "TimeLimit"

def SearchError.text : SearchError → String
  | interrupted reason => wrap "Interrupted" reason.text
  | variablesExhausted depth unsatisfied =>
    record "VariablesExhausted" [("depth", number depth), ("unsatisfied", number unsatisfied)]
  | assumptionConflict literal =>
    wrap "AssumptionConflict" (wrap "Literal" (Numeral.text literal.toInt))

/-- The error of reading a formula; a clause refused without a line is an error of its own kind. -/
def Dimacs.ReadError.text : Dimacs.ReadError → String
  | noFile => wrap "Parse" "NoFile"
  | missingProblem => wrap "Parse" "MissingProblem"
  | problemSpecification line => wrap "Parse" (wrap "ProblemSpecification" (number line))
  | misplacedProblem line => wrap "Parse" (wrap "MisplacedProblem" (number line))
  | unreadable line => wrap "Parse" (wrap "Line" (number line))
  | notInteger line word =>
    wrap "Parse" (record "Literal" [("line", number line), ("token", Quoted.encode word)])
  | undeclaredVariable line var declared =>
    wrap "Parse" (record "UndeclaredVariable"
      [("line", number line), ("variable", number var), ("declared", number declared)])
  | clauseCount expected found =>
    wrap "Parse" (record "ClauseCount" [("expected", number expected), ("found", number found)])
  | refused reason => wrap "Build" reason.text

def SessionError.text : SessionError → String
  | add reason => wrap "Build" reason.text
  | table reason => wrap "Index" reason.text
  | read reason => reason.text
  | search reason => wrap "Search" reason.text
  | formulaPresent => wrap "State" "FormulaPresent"
  | solveComplete => wrap "State" "SolveComplete"

end ClauseSearch
