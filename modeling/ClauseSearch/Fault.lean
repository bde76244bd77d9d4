import ClauseSearch.Text.Numeral

/-! A fault is a broken promise between two parts of the library: an index outside its table, a push
on a full stack, a count that would fall below zero or outgrow its word, a table that no memory holds. A
fault is not an answer about a formula; an operation that meets one has no result. -/

namespace ClauseSearch

inductive Fault where
  /-- An index with no place in its table. -/
  | outOfRange (index : Nat)
  /-- A push on a stack that holds `capacity` items already. -/
  | full (capacity : Nat)
  /-- More places than one block of memory can hold. -/
  | unaddressable (places : Nat)
  /-- A value for a variable that has one. -/
  | occupied (var : Nat)
  /-- A variable waits to be propagated and has no value. -/
  | unvalued (var : Nat)
  /-- A count taken below zero. -/
  | underflow
  /-- A count or a time that does not fit its word. -/
  | overflow
  /-- The end of a time limit lies beyond the last instant of the clock. -/
  | deadline
  deriving DecidableEq, Repr

namespace Fault

/-- What is said about a fault, where there is something to say. -/
def message? : Fault → Option String
  | full capacity =>
    some ("push beyond the capacity of a bounded stack (" ++ Numeral.text capacity ++ ")")
  | _ => none

def orElse {α : Type} (fault : Fault) : Option α → Except Fault α
  | some a => .ok a
  | none => .error fault

def lookup {α : Type} (table : Array α) (index : Nat) : Except Fault α :=
  (outOfRange index).orElse table[index]?

/-- One less, where there is something to take from. -/
def decrement : Nat → Except Fault Nat
  | 0 => .error underflow
  | n + 1 => .ok n

/-! ### When steps succeed -/

variable {ε α β : Type}

theorem orElse_eq_ok {fault : Fault} {o : Option α} {a : α} :
    fault.orElse o = .ok a ↔ o = some a := by
  cases o <;> simp [orElse]

theorem lookup_eq_ok {table : Array α} {index : Nat} {a : α} :
    lookup table index = .ok a ↔ table[index]? = some a := orElse_eq_ok

/-- One step after another succeeds exactly if both do. -/
theorem bind_eq_ok {step : Except ε α} {next : α → Except ε β} {b : β} :
    step >>= next = .ok b ↔ ∃ a, step = .ok a ∧ next a = .ok b := by
  cases step <;> simp [bind, Except.bind]

/-- One step after another fails where one of them does. -/
theorem bind_eq_error {step : Except ε α} {next : α → Except ε β} {e : ε} :
    step >>= next = .error e ↔ step = .error e ∨ ∃ a, step = .ok a ∧ next a = .error e := by
  cases step <;> simp [bind, Except.bind]

theorem map_eq_ok {step : Except ε α} {f : α → β} {b : β} :
    step.map f = .ok b ↔ ∃ a, step = .ok a ∧ f a = b := by
  cases step <;> simp [Except.map]

theorem toOption_eq_some {step : Except ε α} {a : α} : step.toOption = some a ↔ step = .ok a := by
  cases step <;> simp [Except.toOption]

theorem pure_eq_ok {a b : α} : (pure a : Except ε α) = .ok b ↔ a = b := by
  simp [pure, Except.pure]

end Fault

end ClauseSearch
