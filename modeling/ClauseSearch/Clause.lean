import ClauseSearch.Fault
import ClauseSearch.Literal
import ClauseSearch.Text.Blank
import ClauseSearch.Text.Numeral
import ClauseSearch.Valuation

/-! A clause is a list of literals read as their disjunction; literals may repeat, and the empty
clause is never true. On a valuation a clause is satisfied, falsified, one literal short of falsified
or open. -/

namespace ClauseSearch

abbrev Clause := List Literal

/-- What a valuation says about a clause. -/
inductive ClauseStatus where
  /-- Some literal is true. -/
  | satisfied
  /-- This one occurrence has no value, and every other literal is false. -/
  | unit (literal : Literal)
  /-- Every literal is false. -/
  | falsified
  /-- No literal is true, and two occurrences or more have no value. -/
  | undecided
  deriving DecidableEq, Repr

namespace Clause

/-- The integers of the literals as words, and a closing zero where asked. -/
def words (closed : Bool) (c : Clause) : List (List Char) :=
  c.map (Numeral.ofInt ·.toInt) ++ if closed then [Numeral.digits 0] else []

/-- The words of a clause with one space between them. -/
def dimacs (closed : Bool) (c : Clause) : String := String.ofList (Blank.unwords (c.words closed))

def trueOn (v : Valuation) (l : Literal) : Bool :=
  match v.value? l.var with
  | some b => l.satisfiedBy b
  | none => false

def satisfiedOn (v : Valuation) (c : Clause) : Bool := c.any (trueOn v)

/-- The first literal whose variable has no value. -/
def unvaluedLiteral? (v : Valuation) (c : Clause) : Option Literal :=
  c.find? fun l => (v.value? l.var).isNone

/-- Reads the clause from left to right and stops at the first true literal. -/
def status (v : Valuation) : Clause → Except Fault ClauseStatus
  | [] => .ok .falsified
  | l :: c =>
    match v.slots[l.var]? with
    | none => .error (.outOfRange l.var)
    | some (some b) => if l.satisfiedBy b then .ok .satisfied else status v c
    | some none =>
      match status v c with
      | .ok .satisfied => .ok .satisfied
      | .ok .falsified => .ok (.unit l)
      | .ok _ => .ok .undecided
      | .error fault => .error fault

end Clause

end ClauseSearch
