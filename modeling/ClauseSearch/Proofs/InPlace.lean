import ClauseSearch.Session

/-! Clauses taken in place. A formula that is changed step by step, and a session that holds it, are in the end
what they are where each operation makes a new one; and where an operation fails, nothing was changed, since
everything that can fail comes before the first change. -/

namespace ClauseSearch

/-- A computation that changes a state as it goes, also where it fails later on. -/
abbrev Changing (σ ε α : Type) := ExceptT ε (StateM σ) α

namespace Changing

variable {σ ε α β : Type} {x : Changing σ ε α} {k : α → Changing σ ε β} {s t : σ} {a : α} {e : ε}

/-- What a computation comes to, and the state it leaves. -/
def on (x : Changing σ ε α) (s : σ) : Except ε α × σ := x.run.run s

theorem on_bind_ok (h : x.on s = (.ok a, t)) : (x >>= k).on s = (k a).on t := by
  change (ExceptT.bindCont k (x.on s).1).run (x.on s).2 = _
  rw [h]
  rfl

theorem on_bind_error (h : x.on s = (.error e, t)) : (x >>= k).on s = (.error e, t) := by
  change (ExceptT.bindCont k (x.on s).1).run (x.on s).2 = _
  rw [h]
  rfl

theorem on_get_bind {k : σ → Changing σ ε β} : (get >>= k).on s = (k s).on s := rfl

theorem on_modify_bind {g : σ → σ} {k : Unit → Changing σ ε β} :
    (modify g >>= k).on s = (k ()).on (g s) := rfl

theorem on_pure : (pure a : Changing σ ε α).on s = (.ok a, s) := rfl

theorem on_forM_modify {ι : Type} (g : ι → σ → σ) (items : List ι) (s : σ) :
    (items.forM fun item => modify (g item) : Changing σ ε Unit).on s =
      (.ok (), items.foldl (fun s item => g item s) s) := by
  induction items generalizing s with
  | nil => rfl
  | cons item items ih => exact (on_bind_ok rfl).trans (ih (g item s))

end Changing

namespace Formula

def countLiteral (f : Formula) (l : Literal) : Formula :=
  { f with variableCount := max f.variableCount l.var, frequencies := f.frequencies.record l }

def literalsInPlace (ints : List Int) : Changing Formula AddError Clause :=
  ints.mapM fun n => do
    ofExcept (literal (← get).declared n)

/-- Adds a clause in place: reads the integers, and then changes the formula literal by literal. -/
def addInPlace (ints : List Int) : Changing Formula AddError Nat := do
  let c ← literalsInPlace ints
  let id := (← get).clauses.size
  if id < clauseLimit then
    c.forM fun l => modify (·.countLiteral l)
    modify fun f => { f with clauses := f.clauses.push c }
    return id
  else
    throw .clausesExhausted

theorem on_literalsInPlace (f : Formula) (ints : List Int) :
    (literalsInPlace ints).on f = (ints.mapM (literal f.declared), f) := by
  induction ints with
  | nil => rfl
  | cons n ints ih =>
    rw [literalsInPlace] at ih ⊢
    have hfirst : (do ofExcept (literal (← get).declared n) : Changing Formula AddError Literal).on f =
        (literal f.declared n, f) := by
      change (ofExcept (literal f.declared n) : Changing Formula AddError Literal).on f = _
      cases literal f.declared n <;> rfl
    rw [List.mapM_cons, List.mapM_cons]
    cases hl : literal f.declared n with
    | error e =>
      rw [hl] at hfirst
      exact Changing.on_bind_error hfirst
    | ok l =>
      rw [hl] at hfirst
      rw [Changing.on_bind_ok hfirst]
      cases hc : ints.mapM (literal f.declared) with
      | error e =>
        rw [hc] at ih
        exact Changing.on_bind_error ih
      | ok c =>
        rw [hc] at ih
        rw [Changing.on_bind_ok ih]
        rfl

theorem foldl_countLiteral (f : Formula) (c : Clause) : c.foldl countLiteral f =
    { f with variableCount := c.foldl (fun count l => max count l.var) f.variableCount,
             frequencies := c.foldl FrequencyTable.record f.frequencies } := by
  induction c generalizing f with
  | nil => rfl
  | cons l c ih => rw [List.foldl_cons, ih]; rfl

/-- An addition in place answers what an addition answers, and leaves the formula with the clause, or as it
was where the clause is refused. -/
theorem on_addInPlace (f : Formula) (ints : List Int) : (addInPlace ints).on f =
    ((f.add ints).map Prod.fst, ((f.add ints).map Prod.snd).toOption.getD f) := by
  have hread := on_literalsInPlace f ints
  unfold addInPlace add
  cases hc : ints.mapM (literal f.declared) with
  | error reason =>
    rw [hc] at hread
    exact Changing.on_bind_error hread
  | ok c =>
    rw [hc] at hread
    rw [Changing.on_bind_ok hread, Changing.on_get_bind]
    by_cases hlimit : f.clauses.size < clauseLimit
    · simp only [hlimit, if_true]
      rw [Changing.on_bind_ok (Changing.on_forM_modify _ c f), Changing.on_modify_bind, Changing.on_pure,
        foldl_countLiteral]
      simp only [bind, Except.bind]
      rfl
    · simp only [bind, Except.bind, hlimit, if_false]
      rfl

end Formula

namespace Session

variable {s t : Session} {ints : List Int} {bytes : List UInt8}

/-- A change of the formula that a session holds. -/
def changingFormula {α : Type} (change : Changing Formula AddError α) : Changing Session SessionError α :=
  fun s => ((change.on s.formula).1.mapError .add, { s with formula := (change.on s.formula).2 })

/-- Adds a clause in place. -/
def addInPlace (ints : List Int) : Changing Session SessionError Nat := do
  if (← get).phase.isOpen then
    let id ← changingFormula (Formula.addInPlace ints)
    modify fun s => { s with phase := .input }
    return id
  else
    throw .solveComplete

/-- Reads a formula in place of an empty one. -/
def readInPlace (bytes : List UInt8) : Changing Session SessionError Dimacs.Summary := do
  let s ← get
  if s.phase = .configuration ∧ s.formula.clauseCount = 0 then
    let formula ← ofExcept ((Dimacs.read bytes).mapError .read)
    modify fun s => { s with formula }
    modify fun s => { s with phase := .input }
    return Dimacs.summary formula
  else
    throw .formulaPresent

theorem on_addInPlace (s : Session) (ints : List Int) : (addInPlace ints).on s =
    ((s.add ints).map Prod.fst, ((s.add ints).map Prod.snd).toOption.getD s) := by
  unfold addInPlace add
  rw [Changing.on_get_bind]
  by_cases hopen : s.phase.isOpen = true
  · rw [if_pos hopen, if_pos hopen]
    have hchange : (changingFormula (Formula.addInPlace ints)).on s =
        (((s.formula.add ints).map Prod.fst).mapError SessionError.add,
          { s with formula := ((s.formula.add ints).map Prod.snd).toOption.getD s.formula }) := by
      change (((Formula.addInPlace ints).on s.formula).1.mapError SessionError.add,
        { s with formula := ((Formula.addInPlace ints).on s.formula).2 }) = _
      rw [Formula.on_addInPlace]
    cases hadd : s.formula.add ints with
    | error reason =>
      rw [hadd] at hchange
      exact Changing.on_bind_error hchange
    | ok added =>
      rw [hadd] at hchange
      exact Changing.on_bind_ok hchange
  · rw [if_neg hopen, if_neg hopen]
    rfl

theorem on_readInPlace (s : Session) (bytes : List UInt8) : (readInPlace bytes).on s =
    ((s.read bytes).map fun t => Dimacs.summary t.formula, (s.read bytes).toOption.getD s) := by
  unfold readInPlace read
  rw [Changing.on_get_bind]
  by_cases hempty : s.phase = .configuration ∧ s.formula.clauseCount = 0
  · rw [if_pos hempty, if_pos hempty]
    cases hread : Dimacs.read bytes with
    | error reason => rfl
    | ok formula => rfl
  · rw [if_neg hempty, if_neg hempty]
    rfl

/-- An addition that succeeds makes the session it should, and one that fails changes nothing. -/
theorem on_addInPlace_eq {answer : Except SessionError Nat}
    (h : (addInPlace ints).on s = (answer, t)) :
    (∃ id, answer = .ok id ∧ s.add ints = .ok (id, t)) ∨
      ∃ reason, answer = .error reason ∧ s.add ints = .error reason ∧ t = s := by
  rw [on_addInPlace] at h
  cases hadd : s.add ints with
  | ok added =>
    rw [hadd] at h
    cases h
    exact .inl ⟨added.1, rfl, rfl⟩
  | error reason =>
    rw [hadd] at h
    cases h
    exact .inr ⟨reason, rfl, rfl, rfl⟩

theorem on_readInPlace_eq {answer : Except SessionError Dimacs.Summary}
    (h : (readInPlace bytes).on s = (answer, t)) :
    (answer = .ok (Dimacs.summary t.formula) ∧ s.read bytes = .ok t) ∨
      ∃ reason, answer = .error reason ∧ s.read bytes = .error reason ∧ t = s := by
  rw [on_readInPlace] at h
  cases hread : s.read bytes with
  | ok u =>
    rw [hread] at h
    cases h
    exact .inl ⟨rfl, rfl⟩
  | error reason =>
    rw [hread] at h
    cases h
    exact .inr ⟨reason, rfl, rfl, rfl⟩

end Session

end ClauseSearch
