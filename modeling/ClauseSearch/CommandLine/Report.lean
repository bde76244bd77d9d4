import ClauseSearch.CommandLine.ErrorText
import ClauseSearch.Text.Fixed

/-! The lines the command prints. Comments begin with `c`, the status with `s` and models with `v`, and
each model ends in a zero. -/

namespace ClauseSearch.CommandLine

/-- A model or a cube. -/
def modelLine (ints : List Int) : String :=
  String.ofList (Blank.unwords (['v'] :: ints.map Numeral.ofInt ++ [Numeral.digits 0]))

/-- What was announced and what was read. -/
def formulaLines (f : Formula) : List String :=
  let counts := Dimacs.summary f
  ["c Expected " ++ ErrorText.number counts.expectedVariables ++ " variables.",
   "c Expected " ++ ErrorText.number counts.expectedClauses ++ " clauses.",
   "c Added    " ++ ErrorText.number counts.addedClauses ++ " clauses.",
   "c Added    " ++ ErrorText.number counts.addedLiterals ++ " literals."]

/-- The counts of a solve; the mean has two places, and a dash stands for none. The line below them with
the time that the solve took is left out: it is the clock's alone, and a session does not keep it. -/
def tallyLines (t : Tally) : List String :=
  let mean := match t.meanConflictDepth? with
    | some depth => Fixed.ofFloat 2 depth
    | none => "-"
  ["c Iterations:          " ++ ErrorText.number t.iterations,
   "c Unit propagations:   " ++ ErrorText.number t.unitPropagations,
   "c Conflicts:           " ++ ErrorText.number t.conflicts,
   "c Mean conflict depth: " ++ mean,
   "c Clause tests:        " ++ ErrorText.number t.clauseTests,
   "c Solved subtrees:     " ++ ErrorText.number t.solvedSubtrees,
   "c Searches:            " ++ ErrorText.number t.searches,
   "c Decisions:           " ++ ErrorText.number t.decisions,
   "c Pure variables:      " ++ ErrorText.number t.pureVariables,
   "c Partitions:          " ++ ErrorText.number t.partitions]

/-- The number of models, where the search goes on past each. -/
def countLine (count : Nat) : String := "c Models: " ++ ErrorText.number count

/-- The status of a satisfiable formula, and the models where they are shown. -/
def satisfiableLines (s : Session) (showModels : Bool) : List String :=
  let shown :=
    if s.settings.enumerate then
      countLine s.solutions.count ::
        if showModels then s.solutions.cubes.toList.map modelLine else []
    else if showModels then s.solutions.model.toList.map modelLine
    else []
  "s SATISFIABLE" :: shown

def unsatisfiableLines (s : Session) : List String :=
  "s UNSATISFIABLE" :: if s.settings.enumerate then [countLine 0] else []

end ClauseSearch.CommandLine
