import ClauseSearch.Prepared
import ClauseSearch.Solutions
import ClauseSearch.Tally

/-! The state of one search: the valuation of the ranks, a flag for each clause seen to be satisfied,
the ranks waiting to be propagated, and two logs from which a decision is undone. The first log holds
every rank given a value, the second every clause flagged and a marker where a decision began. The
capacities are the worst case: a rank waits and is logged at most once while it has a value, and a
clause at most once while it is flagged.

Values that are assumed are in no log, so nothing takes them back. -/

namespace ClauseSearch

/-- A rank that got its value in the search. -/
inductive Assigned where
  | decided (rank : Nat)
  | forced (rank : Nat)
  deriving DecidableEq, Repr

namespace Assigned

def rank : Assigned → Nat
  | decided r => r
  | forced r => r

def isDecision : Assigned → Bool
  | decided _ => true
  | forced _ => false

end Assigned

/-- A clause flagged satisfied, or the beginning of a decision. -/
inductive Mark where
  | level
  | clause (id : Nat)
  deriving DecidableEq, Repr

namespace Mark

def isLevel : Mark → Bool
  | level => true
  | clause _ => false

def clause? : Mark → Option Nat
  | level => none
  | clause id => some id

end Mark

/-- How a search reports and when it goes on. -/
structure Options where
  /-- Go on past each model found. -/
  enumerate : Bool := false
  /-- Keep each model when going on. -/
  keepModels : Bool := false
  /-- Report the decisions made at this depth. -/
  traceDepth : Option Nat := none
  deriving DecidableEq, Repr

/-- A decision as it is reported, on the variable as given. -/
structure TracedDecision where
  depth : Nat
  var : Nat
  deriving DecidableEq, Repr

def TracedDecision.line (d : TracedDecision) : String :=
  "Depth " ++ Numeral.text d.depth ++ " decision on variable " ++ Numeral.text d.var

structure Search where
  valuation : Valuation
  valuedCount : Nat := 0
  flags : Array Bool
  flaggedCount : Nat := 0
  /-- Ranks whose consequences are not examined yet. -/
  queue : BoundedStack Nat
  assigned : BoundedStack Assigned
  marks : BoundedStack Mark
  tally : Tally := {}
  solutions : Solutions := {}
  /-- The decisions reported, in order. -/
  trace : Array TracedDecision := #[]
  deriving Repr

namespace Search

/-- No rank has a value and no clause is flagged. -/
def fresh (p : Prepared) : Search where
  valuation := .fresh p.variableCount
  flags := Array.replicate p.clauseCount false
  queue := .empty p.variableCount
  assigned := .empty p.variableCount
  marks := .empty (p.clauseCount + p.variableCount)

/-- A search that begins with the values and flags held here, and with nothing to undo. -/
def fork (s : Search) : Search where
  valuation := s.valuation
  valuedCount := s.valuedCount
  flags := s.flags
  flaggedCount := s.flaggedCount
  queue := .empty s.valuation.variableCount
  assigned := .empty s.valuation.variableCount
  marks := .empty (s.flags.size + s.valuation.variableCount)

def allSatisfied (s : Search) : Bool := s.flaggedCount == s.flags.size

def unsatisfiedCount (s : Search) : Nat := s.flags.size - s.flaggedCount

/-! ### Steps -/

/-- Gives a value to a rank that has none. -/
def assign (s : Search) (rank : Nat) (value : Bool) : Except Fault Search := do
  match ← Fault.lookup s.valuation.slots rank with
  | some _ => throw (.occupied rank)
  | none =>
    let valuation ← (Fault.outOfRange rank).orElse (s.valuation.write? rank (some value))
    return { s with valuation, valuedCount := s.valuedCount + 1 }

def unassign (s : Search) (rank : Nat) : Except Fault Search := do
  let valuation ← (Fault.outOfRange rank).orElse (s.valuation.write? rank none)
  return { s with valuation, valuedCount := ← Fault.decrement s.valuedCount }

def flag (s : Search) (clause : Nat) : Except Fault Search := do
  let _ ← Fault.lookup s.flags clause
  return { s with
    flags := s.flags.setIfInBounds clause true
    flaggedCount := s.flaggedCount + 1
    marks := ← s.marks.push (.clause clause) }

def unflag (s : Search) (clause : Nat) : Except Fault Search := do
  let _ ← Fault.lookup s.flags clause
  return { s with
    flags := s.flags.setIfInBounds clause false
    flaggedCount := ← Fault.decrement s.flaggedCount }

/-- Gives a literal's rank the value that makes the literal true, with no record of it. None where the
rank has the other value. -/
def assume? (s : Search) (l : Literal) : Except Fault (Option Search) :=
  match s.valuation.value? l.var with
  | none => some <$> s.assign l.var l.polarity
  | some value => .ok (if l.satisfiedBy value then some s else none)

/-- Gives each pure rank without a value its preferred polarity. -/
def assumePure (p : Prepared) (s : Search) : Except Fault Search :=
  p.ranking.pureRanks.foldlM (fun s rank => do
    match s.valuation.value? rank with
    | some _ => return s
    | none => s.assign rank (← p.ranking.place rank).preferred) s

/-- Begins a decision: the rank gets the value and waits to be propagated. -/
def enter (s : Search) (rank : Nat) (value : Bool) : Except Fault Search := do
  let marks ← s.marks.push .level
  let s ← { s with marks }.assign rank value
  let assigned ← s.assigned.push (.decided rank)
  let queue ← s.queue.push rank
  return { s with assigned, queue, tally.decisions := s.tally.decisions + 1 }

/-- Undoes the latest decision and all that followed from it; without a decision, everything logged. -/
def backtrack (s : Search) : Except Fault Search := do
  let (entries, assigned) := s.assigned.popThrough (·.isDecision)
  let s ← entries.foldlM (fun s entry => s.unassign entry.rank) { s with assigned }
  let (marked, marks) := s.marks.popThrough (·.isLevel)
  let s ← (marked.filterMap (·.clause?)).foldlM unflag { s with marks }
  return { s with queue := s.queue.clear }

/-- The first rank without a value among `count` ranks from `start` on. -/
def firstUnvalued? (v : Valuation) (start : Nat) : Nat → Option Nat
  | 0 => none
  | count + 1 =>
    if (v.value? start).isNone then some start else firstUnvalued? v (start + 1) count

/-- The lowest rank above the cursor and up to `last` without a value. -/
def nextUnvalued? (s : Search) (last cursor : Nat) : Option Nat :=
  firstUnvalued? s.valuation (cursor + 1) (last - cursor)

/-! ### What the steps change -/

theorem assign_eq_ok {s t : Search} {rank : Nat} {value : Bool} (h : s.assign rank value = .ok t) :
    s.valuation.slots[rank]? = some none ∧ ∃ w, s.valuation.write? rank (some value) = some w ∧
      t = { s with valuation := w, valuedCount := s.valuedCount + 1 } := by
  obtain ⟨slot, hslot, h⟩ := Fault.bind_eq_ok.1 h
  cases slot with
  | some b => exact absurd h (by simp [throw, throwThe, MonadExceptOf.throw])
  | none =>
    obtain ⟨w, hw, h⟩ := Fault.bind_eq_ok.1 h
    exact ⟨Fault.lookup_eq_ok.1 hslot, w, Fault.orElse_eq_ok.1 hw, (Fault.pure_eq_ok.1 h).symm⟩

theorem flag_eq_ok {s t : Search} {clause : Nat} (h : s.flag clause = .ok t) :
    ∃ marks, s.marks.push (.clause clause) = .ok marks ∧
      t = { s with flags := s.flags.setIfInBounds clause true, flaggedCount := s.flaggedCount + 1,
                   marks } := by
  obtain ⟨_, _, h⟩ := Fault.bind_eq_ok.1 h
  obtain ⟨marks, hmarks, h⟩ := Fault.bind_eq_ok.1 h
  exact ⟨marks, hmarks, (Fault.pure_eq_ok.1 h).symm⟩

theorem firstUnvalued?_bounds {v : Valuation} {start count rank : Nat}
    (h : firstUnvalued? v start count = some rank) : start ≤ rank ∧ rank < start + count := by
  induction count generalizing start with
  | zero => simp [firstUnvalued?] at h
  | succ count ih =>
    unfold firstUnvalued? at h
    split at h
    · cases h
      omega
    · have := ih h
      omega

/-- The rank found lies above the cursor and not beyond the last one. -/
theorem nextUnvalued?_bounds {s : Search} {last cursor rank : Nat}
    (h : s.nextUnvalued? last cursor = some rank) : cursor < rank ∧ rank ≤ last := by
  have := firstUnvalued?_bounds h
  omega

end Search

end ClauseSearch
