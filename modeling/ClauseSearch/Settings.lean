import ClauseSearch.Duration

/-! The settings of a solve. Each has bounds under a name, and a value outside its bounds is not
taken. -/

namespace ClauseSearch

/-- A name with the least and the greatest value allowed under it. -/
structure Bounds (α : Type) where
  name : String
  least : α
  greatest : α
  deriving Repr

namespace Bounds

variable {α : Type} [LE α] [DecidableRel (LE.le : α → α → Prop)]

def admits (b : Bounds α) (value : α) : Bool :=
  decide (b.least ≤ value) && decide (value ≤ b.greatest)

def check? (b : Bounds α) (value : α) : Option α := if b.admits value then some value else none

end Bounds

structure Settings where
  /-- Rank variables by frequency and try the more frequent polarity first. -/
  heuristic : Bool := true
  /-- Give pure variables their value before a search for one model. -/
  pureLiterals : Bool := true
  /-- Go on past each model found. -/
  enumerate : Bool := false
  /-- Keep each model when going on. -/
  keepModels : Bool := false
  /-- How many variables the search tree is split on. -/
  partitionDepth : Nat := 3
  /-- How many workers share the tasks. -/
  threads : Nat := 1
  /-- The stack of a worker in bytes. -/
  stackSize : Nat := 268435456
  /-- How long a solve may take; zero is no limit. -/
  timeLimit : Duration := .zero
  /-- Report the decisions made at this depth. -/
  traceDepth : Option Nat := none
  deriving DecidableEq, Repr

inductive Setting where
  | heuristic (on : Bool)
  | pureLiterals (on : Bool)
  | enumerate (on : Bool)
  | keepModels (on : Bool)
  | partitionDepth (depth : Nat)
  | threads (count : Nat)
  | stackSize (bytes : Nat)
  | timeLimit (limit : Duration)
  | traceDepth (depth : Option Nat)
  deriving DecidableEq, Repr

namespace Settings

def heuristicBounds : Bounds Bool := ⟨"heuristic", false, true⟩

def pureLiteralsBounds : Bounds Bool := ⟨"pure_literals", false, true⟩

def enumerateBounds : Bounds Bool := ⟨"enumerate", false, true⟩

def keepModelsBounds : Bounds Bool := ⟨"keep_models", false, true⟩

def partitionDepthBounds : Bounds Nat := ⟨"partition_depth", 0, 16⟩

def threadsBounds : Bounds Nat := ⟨"threads", 1, 1024⟩

def stackSizeBounds : Bounds Nat := ⟨"stack_size", 65536, 18446744073709551615⟩

def timeLimitBounds : Bounds Duration := ⟨"time_limit", .zero, .greatest⟩

/-- The settings with one of them changed: none if the value is out of bounds. -/
def set? (s : Settings) : Setting → Option Settings
  | .heuristic on => (heuristicBounds.check? on).map fun on => { s with heuristic := on }
  | .pureLiterals on => (pureLiteralsBounds.check? on).map fun on => { s with pureLiterals := on }
  | .enumerate on => (enumerateBounds.check? on).map fun on => { s with enumerate := on }
  | .keepModels on => (keepModelsBounds.check? on).map fun on => { s with keepModels := on }
  | .partitionDepth depth =>
    (partitionDepthBounds.check? depth).map fun depth => { s with partitionDepth := depth }
  | .threads count => (threadsBounds.check? count).map fun count => { s with threads := count }
  | .stackSize bytes => (stackSizeBounds.check? bytes).map fun bytes => { s with stackSize := bytes }
  | .timeLimit limit => (timeLimitBounds.check? limit).map fun limit => { s with timeLimit := limit }
  | .traceDepth depth => some { s with traceDepth := depth }

/-- The settings with those changes of a list that are within bounds. -/
def ofList (s : Settings) (changes : List Setting) : Settings :=
  changes.foldl (fun s change => (s.set? change).getD s) s

/-- Whether pure variables get their value before the search. -/
def preassignsPure (s : Settings) : Bool := s.heuristic && s.pureLiterals && !s.enumerate

/-- The time limit, where there is one. -/
def limit? (s : Settings) : Option Duration := if s.timeLimit.isZero then none else some s.timeLimit

end Settings

end ClauseSearch
