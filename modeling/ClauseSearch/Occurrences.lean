import ClauseSearch.BoundedStack
import ClauseSearch.Formula

/-! For each variable, the occurrences of its literals in order of clause. Each variable has a row
with as many places as its frequency says, and the clauses are read once; the rows agree with the
clauses exactly if every row comes out full. -/

namespace ClauseSearch

/-- A literal of a variable: the clause it stands in and its polarity. -/
structure Occurrence where
  clause : Nat
  polarity : Bool
  deriving DecidableEq, Repr

structure Occurrences where
  rows : Array (List Occurrence) := #[]
  deriving Repr

/-- How a frequency table disagrees with the clauses. -/
inductive TableError where
  /-- The frequencies do not sum to the number of literals. -/
  | frequencyMismatch (expected found : Nat)
  /-- More literals on the variable than its frequency says. -/
  | slotOverflow (var : Nat)
  /-- Fewer literals on the variable than its frequency says. -/
  | slotUnderfill (var missing : Nat)
  deriving DecidableEq, Repr

namespace Occurrences

abbrev Rows := Array (BoundedStack Occurrence)

/-- An empty row for each variable. -/
def reserve (t : FrequencyTable) : Rows := t.map fun f => BoundedStack.empty f.total

/-- Puts a literal into the row of its variable. -/
def place (rows : Rows) (entry : Nat × Literal) : Except TableError Rows :=
  let (id, l) := entry
  match (rows[l.var]?).bind (·.push? ⟨id, l.polarity⟩) with
  | none => .error (.slotOverflow l.var)
  | some row => .ok (rows.setIfInBounds l.var row)

/-- The rows, if every place is taken. -/
def finish (rows : Rows) : Except TableError Occurrences :=
  match rows.toList.zipIdx.find? fun (row, _) => row.room != 0 with
  | some (row, x) => .error (.slotUnderfill x row.room)
  | none => .ok ⟨rows.map (·.toList)⟩

def ofFormula (f : Formula) : Except TableError Occurrences := do
  let found := f.frequencies.total
  if found ≠ f.literalCount then
    throw (.frequencyMismatch f.literalCount found)
  finish (← f.numbered.foldlM place (reserve f.frequencies))

/-- The occurrences of a variable, none outside the table. -/
def row (o : Occurrences) (x : Nat) : List Occurrence := o.rows.getD x []

def size (o : Occurrences) : Nat := o.rows.foldl (fun n row => n + row.length) 0

def isEmpty (o : Occurrences) : Bool := o.size == 0

end Occurrences

end ClauseSearch
