import ClauseSearch.Clause
import ClauseSearch.Ranking

/-! A formula is a list of clauses under an optional declaration of how many variables and clauses to
expect. A clause is identified by its position, counted from 0. Beside the clauses stands the table of
frequencies, which every stored literal is counted in. -/

namespace ClauseSearch

/-- The counts announced before the clauses. -/
structure Declaration where
  «variables» : Nat
  clauses : Nat
  deriving DecidableEq, Repr

structure Formula where
  declared : Option Declaration := none
  variableCount : Nat := 0
  clauses : Array Clause := #[]
  frequencies : FrequencyTable := #[{}]
  deriving Repr

inductive AddError where
  /-- A zero among the literals. -/
  | zeroLiteral
  /-- A variable above the declared count. -/
  | undeclaredVariable (var declared : Nat)
  /-- A magnitude above the greatest variable. -/
  | variablesExhausted
  /-- No clause number is left. -/
  | clausesExhausted
  deriving DecidableEq, Repr

namespace Formula

/-- The most slots that a declaration alone opens in the frequency table, index 0 not counted. -/
def declaredSlots : Nat := 1048576

/-- Clause numbers lie below this. -/
def clauseLimit : Nat := 4294967295

def ofDeclaration (d : Declaration) : Formula where
  declared := some d
  variableCount := d.variables
  frequencies := Array.replicate (min d.variables declaredSlots + 1) {}

/-- The literal an integer stands for, where the declaration allows it. -/
def literal (declared : Option Declaration) (n : Int) : Except AddError Literal :=
  match Literal.ofInt? n with
  | none => .error (if n = 0 then .zeroLiteral else .variablesExhausted)
  | some l =>
    match declared with
    | none => .ok l
    | some d => if d.variables < l.var then .error (.undeclaredVariable l.var d.variables) else .ok l

/-- Stores a clause whose literals were admitted. -/
def store (f : Formula) (c : Clause) : Formula where
  declared := f.declared
  variableCount := c.foldl (fun count l => max count l.var) f.variableCount
  clauses := f.clauses.push c
  frequencies := c.foldl FrequencyTable.record f.frequencies

/-- Adds a clause given as integers and returns its number. The first integer in order that is not
admissible decides the error. -/
def add (f : Formula) (ints : List Int) : Except AddError (Nat × Formula) := do
  let c ← ints.mapM (literal f.declared)
  if f.clauses.size < clauseLimit then
    return (f.clauses.size, f.store c)
  else
    throw .clausesExhausted

def clauseCount (f : Formula) : Nat := f.clauses.size

def literals (f : Formula) : List Literal := f.clauses.toList.flatten

/-- The greatest variable that occurs, zero where none does; variables may be declared beyond it. -/
def greatestVar (f : Formula) : Nat := (f.literals.map Literal.var).max?.getD 0

def literalCount (f : Formula) : Nat := f.clauses.foldl (fun n c => n + c.length) 0

/-- Running totals of a list, from `n` on. -/
def totalsFrom (n : Nat) : List Nat → List Nat
  | [] => [n]
  | k :: ks => n :: totalsFrom (n + k) ks

/-- Where each clause begins in `literals`, and last the number of literals. -/
def offsets (f : Formula) : List Nat := totalsFrom 0 (f.clauses.toList.map List.length)

/-- Every literal with the number of its clause, in order. -/
def numbered (f : Formula) : List (Nat × Literal) :=
  f.clauses.toList.zipIdx.flatMap fun (c, id) => c.map fun l => (id, l)

def clause? (f : Formula) (id : Nat) : Option Clause := f.clauses[id]?

/-- The formula with a frequency for every variable, of which some may not occur. -/
def settle (f : Formula) : Formula :=
  { f with frequencies := f.frequencies.grow (f.variableCount + 1) }

def rankTable (r : Ranking) (t : FrequencyTable) : Except Fault FrequencyTable :=
  (List.range' 1 (t.size - 1)).foldlM (fun (ranked : FrequencyTable) x => do
    let rank ← r.rank x
    if rank < ranked.size then
      return ranked.setIfInBounds rank (t.get x)
    else
      throw (.outOfRange rank))
    (Array.replicate t.size {})

/-- The formula on ranks: each literal keeps its polarity and each frequency its variable. -/
def toRanks (f : Formula) (r : Ranking) : Except Fault Formula := do
  let clauses ← f.clauses.mapM fun c => c.mapM r.toRanked
  let frequencies ← rankTable r f.frequencies
  return { f with clauses, frequencies }

def unsatisfiedClause? (f : Formula) (v : Valuation) : Option Nat :=
  f.clauses.findIdx? fun c => !c.satisfiedOn v

def satisfiedOn (f : Formula) (v : Valuation) : Bool := (f.unsatisfiedClause? v).isNone

/-- Whether every clause has a true literal where the variables are as the integers say: each integer
gives the variable of its magnitude its sign, and the last one on a variable counts. Integers that are
zero or beyond the variables make the answer false. The valuation is indexed by `slot` and reaches as
far as variables occur, since the others decide nothing. -/
def verify (f : Formula) (slot : Nat → Except Fault Nat) (ints : List Int) : Except Fault Bool :=
  if ints.all fun n => n ≠ 0 && n.natAbs ≤ f.variableCount then do
    let values ← ints.mapM fun n => do
      let x ← slot n.natAbs
      return (x, decide (0 < n))
    return f.satisfiedOn (.ofValues f.greatestVar values)
  else
    .ok false

/-- A valuation that reaches as far as `greatestVar` has a slot for every literal. -/
theorem var_le_greatestVar {f : Formula} {l : Literal} (h : l ∈ f.literals) :
    l.var ≤ f.greatestVar :=
  List.le_max?_getD_of_mem (List.mem_map_of_mem h)

end Formula

end ClauseSearch
