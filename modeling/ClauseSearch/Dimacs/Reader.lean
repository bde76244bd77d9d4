import ClauseSearch.Formula
import ClauseSearch.Text.Blank
import ClauseSearch.Text.Utf8

/-! The DIMACS form of a formula. Some line announces the counts after the characters `p cnf`; what
stands before it is skipped, as are comments, which begin with `c`. After it integers are separated by
white space, each zero ends a clause, and a line that begins with `%` ends the formula. The zero of
the last clause may be missing.

The lines up to the announcement are bytes, with the white space of ASCII; the lines after it are text,
with the white space of Unicode. Lines count from 1. -/

namespace ClauseSearch.Dimacs

/-- Why bytes are not a formula, with the number of the line where that shows. -/
inductive ReadError where
  /-- There is no file. -/
  | noFile
  /-- No line announces the counts. -/
  | missingProblem
  /-- The counts announced are not two numbers within range. -/
  | problemSpecification (line : Nat)
  /-- The counts are announced again. -/
  | misplacedProblem (line : Nat)
  /-- The line cannot be read as text. -/
  | unreadable (line : Nat)
  /-- A word that is not an integer. -/
  | notInteger (line : Nat) (word : List Char)
  | undeclaredVariable (line var declared : Nat)
  /-- Not as many clauses as announced. -/
  | clauseCount (expected found : Nat)
  /-- A clause refused for a reason that names no line. -/
  | refused (reason : AddError)
  deriving DecidableEq, Repr

/-! ### Lines -/

/-- Puts a byte before the lines that follow it; a line feed ends a line of its own. -/
def consLine (b : UInt8) : List (List UInt8) → List (List UInt8)
  | [] => if b = 10 then [[]] else [[b]]
  | line :: rest => if b = 10 then [] :: line :: rest else (b :: line) :: rest

/-- The lines without their line feeds; nothing after the last line feed is no line. -/
def lines (bytes : List UInt8) : List (List UInt8) := bytes.foldr consLine []

/-! ### The announcement -/

/-- The bytes `p cnf`. -/
def problemMark : List UInt8 := [112, 32, 99, 110, 102]

/-- What follows the first place where the mark stands. -/
def afterMark? : List UInt8 → Option (List UInt8)
  | [] => none
  | b :: rest =>
    if problemMark.isPrefixOf (b :: rest) then some ((b :: rest).drop problemMark.length)
    else afterMark? rest

/-- What a line announces: none for blank lines, comments and lines without the mark. -/
def announcement? (line : List UInt8) : Option (List UInt8) :=
  match line.find? fun b => !Blank.isBlankByte b with
  | none => none
  | some b => if b = 99 then none else afterMark? line

/-- The greatest number of clauses that can be announced. -/
def greatestCount : Nat := 18446744073709551615

def declaration? (details : List UInt8) : Option Declaration :=
  match Blank.words (Utf8.lossy details) with
  | first :: second :: _ => do
    return ⟨← Numeral.nat? greatestVariable first, ← Numeral.nat? greatestCount second⟩
  | _ => none

/-- The announcement, the number of its line, and the lines after it; `read` lines come before. -/
def findProblem (read : Nat) :
    List (List UInt8) → Except ReadError (Declaration × Nat × List (List UInt8))
  | [] => .error .missingProblem
  | line :: rest =>
    match announcement? line with
    | none => findProblem (read + 1) rest
    | some details =>
      match declaration? details with
      | none => .error (.problemSpecification (read + 1))
      | some d => .ok (d, read + 1, rest)

/-! ### Clauses -/

/-- The clauses read so far and the integers since the last zero, the latest first. -/
structure Progress where
  formula : Formula
  pending : List Int := []

/-- Ends the clause that is pending. -/
def Progress.close (state : Progress) (line : Nat) : Except ReadError Progress :=
  match state.formula.add state.pending.reverse with
  | .ok (_, formula) => .ok { formula }
  | .error (.undeclaredVariable var declared) => .error (.undeclaredVariable line var declared)
  | .error reason => .error (.refused reason)

/-- The least and the greatest integer that can be read. -/
def integer? (word : List Char) : Option Int :=
  Numeral.int? (-9223372036854775808) 9223372036854775807 word

def readWords (line : Nat) : List (List Char) → Progress → Except ReadError Progress
  | [], state => .ok state
  | word :: rest, state =>
    match integer? word with
    | none => .error (.notInteger line word)
    | some n =>
      if n = 0 then
        match state.close line with
        | .ok state => readWords line rest state
        | .error e => .error e
      else readWords line rest { state with pending := n :: state.pending }

/-- Reads lines up to the end of the formula; `read` lines come before. Returns also how many lines have
been read in the end. -/
def readBody (read : Nat) : List (List UInt8) → Progress → Except ReadError (Progress × Nat)
  | [], state => .ok (state, read)
  | line :: rest, state =>
    match Utf8.strict? line with
    | none => .error (.unreadable (read + 1))
    | some cs =>
      match (Blank.trimStart cs).head? with
      | some '%' => .ok (state, read + 1)
      | some 'c' => readBody (read + 1) rest state
      | some 'p' => .error (.misplacedProblem (read + 1))
      | _ =>
        match readWords (read + 1) (Blank.words cs) state with
        | .ok state => readBody (read + 1) rest state
        | .error e => .error e

def read (bytes : List UInt8) : Except ReadError Formula := do
  let (declaration, number, rest) ← findProblem 0 (lines bytes)
  let (state, last) ← readBody number rest { formula := .ofDeclaration declaration }
  let state ← if state.pending.isEmpty then pure state else state.close last
  if state.formula.clauseCount = declaration.clauses then
    return state.formula
  else
    throw (.clauseCount declaration.clauses state.formula.clauseCount)

/-- The counts announced and the counts of what was read. -/
structure Summary where
  expectedVariables : Nat
  expectedClauses : Nat
  addedClauses : Nat
  addedLiterals : Nat
  deriving DecidableEq, Repr

def summary (f : Formula) : Summary where
  expectedVariables := (f.declared.getD ⟨0, 0⟩).variables
  expectedClauses := (f.declared.getD ⟨0, 0⟩).clauses
  addedClauses := f.clauseCount
  addedLiterals := f.literalCount

end ClauseSearch.Dimacs
