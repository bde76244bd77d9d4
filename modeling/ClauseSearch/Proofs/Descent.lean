import ClauseSearch.Proofs.Prepared
import ClauseSearch.Proofs.UnitPropagation

/-! The rule of the search, apart from how a search keeps its state. From a valuation it propagates units. A
conflict is no leaf, a valuation that satisfies every clause is one, and otherwise the lowest rank without
a value is decided, the preferred polarity first. In whatever order units are picked, the rule leads from a
valuation to one list of leaves. -/

namespace ClauseSearch.Search

open Relation

variable {p : Prepared} {v w : Valuation} {rank : Nat} {enumerate : Bool}
  {leaves leaves' : List Valuation}

def Solved (p : Prepared) (w : Valuation) : Prop :=
  ∀ c ∈ p.formula.clauses, Clause.satisfiedOn w c = true

theorem Solved.holds (h : Solved p w) (hp : p.Proper) {a : Assignment} (ha : w.admits a = true) :
    p.formula.holds a = true :=
  Formula.holds_eq_true_iff.2 fun c hc => Clause.holds_of_satisfiedOn (hp.ranged c hc) ha (h c hc)

theorem Solved.satisfiable (h : Solved p w) (hp : p.Proper) : p.formula.Satisfiable :=
  ⟨w.completion, h.holds hp Valuation.admits_completion⟩

/-- Where every clause is satisfied, there is nothing to derive. -/
theorem Solved.settled (h : Solved p w) : p.formula.Settled w := by
  have htrue : ∀ c ∈ p.formula.clauses, ∃ l ∈ c, w.value? l.var = some l.polarity := fun c hc =>
    Clause.satisfiedOn_iff.1 (h c hc)
  constructor
  · rintro ⟨c, hc, hfalse⟩
    obtain ⟨l, hl, hvalue⟩ := htrue c hc
    simp [hfalse l hl] at hvalue
  · intro c hc k hunit
    obtain ⟨l, hl, hvalue⟩ := htrue c hc
    rcases hunit.others hl with rfl | hfalse
    · simp [hunit.value?_eq_none] at hvalue
    · simp [hfalse] at hvalue

structure Lowest (v : Valuation) (rank : Nat) : Prop where
  pos : 0 < rank
  unvalued : v.value? rank = none
  valued : ∀ r, 0 < r → r < rank → v.value? r ≠ none

theorem Lowest.unique {rank' : Nat} (h : Lowest v rank) (h' : Lowest v rank') : rank' = rank := by
  rcases Nat.lt_trichotomy rank rank' with hless | heq | hmore
  · exact absurd h.unvalued (h'.valued rank h.pos hless)
  · exact heq.symm
  · exact absurd h'.unvalued (h.valued rank' h'.pos hmore)

/-- The leaves that the rule of the search leads to from a valuation. Unless all are asked for, it ends at
the first. -/
inductive Descends (p : Prepared) (enumerate : Bool) : Valuation → List Valuation → Prop
  | conflict {v : Valuation} (h : p.formula.UnitRun v none) : Descends p enumerate v []
  | leaf {v w : Valuation} (h : p.formula.UnitRun v (some w)) (hsolved : Solved p w) :
      Descends p enumerate v [w]
  | first {v w : Valuation} {rank : Nat} {leaves : List Valuation} (h : p.formula.UnitRun v (some w))
      (hopen : ¬ Solved p w) (hlowest : Lowest w rank)
      (hfirst : Descends p enumerate (w.put rank (some (p.ranking.placeAt rank).preferred)) leaves)
      (hends : enumerate = false ∧ leaves ≠ []) : Descends p enumerate v leaves
  | both {v w : Valuation} {rank : Nat} {leaves leaves' : List Valuation}
      (h : p.formula.UnitRun v (some w)) (hopen : ¬ Solved p w) (hlowest : Lowest w rank)
      (hfirst : Descends p enumerate (w.put rank (some (p.ranking.placeAt rank).preferred)) leaves)
      (hends : ¬ (enumerate = false ∧ leaves ≠ []))
      (hsecond : Descends p enumerate (w.put rank (some !(p.ranking.placeAt rank).preferred)) leaves') :
      Descends p enumerate v (leaves ++ leaves')

/-- What the rule leads to from what units derive is what it leads to from the start. -/
theorem Descends.before (h : Descends p enumerate w leaves)
    (hsteps : ReflTransGen p.formula.UnitStep v w) : Descends p enumerate v leaves := by
  cases h with
  | conflict h => exact .conflict (h.before hsteps)
  | leaf h hsolved => exact .leaf (h.before hsteps) hsolved
  | first h hopen hlowest hfirst hends => exact .first (h.before hsteps) hopen hlowest hfirst hends
  | both h hopen hlowest hfirst hends hsecond =>
    exact .both (h.before hsteps) hopen hlowest hfirst hends hsecond

theorem Descends.unique (h : Descends p enumerate v leaves) (h' : Descends p enumerate v leaves') :
    leaves' = leaves := by
  induction h generalizing leaves' with
  | conflict h =>
    cases h' with
    | conflict => rfl
    | leaf h' | first h' | both h' => cases h.unique h'
  | leaf h hsolved =>
    cases h' with
    | conflict h' => cases h.unique h'
    | leaf h' =>
      cases h.unique h'
      rfl
    | first h' hopen | both h' hopen =>
      cases h.unique h'
      exact absurd hsolved hopen
  | first h hopen hlowest _ hends ih =>
    cases h' with
    | conflict h' => cases h.unique h'
    | leaf h' hsolved =>
      cases h.unique h'
      exact absurd hsolved hopen
    | first h' _ hlowest' hfirst' =>
      cases h.unique h'
      cases hlowest.unique hlowest'
      exact ih hfirst'
    | both h' _ hlowest' hfirst' hends' =>
      cases h.unique h'
      cases hlowest.unique hlowest'
      cases ih hfirst'
      exact absurd hends hends'
  | both h hopen hlowest _ hends _ ih ih' =>
    cases h' with
    | conflict h' => cases h.unique h'
    | leaf h' hsolved =>
      cases h.unique h'
      exact absurd hsolved hopen
    | first h' _ hlowest' hfirst' hends' =>
      cases h.unique h'
      cases hlowest.unique hlowest'
      cases ih hfirst'
      exact absurd hends' hends
    | both h' _ hlowest' hfirst' _ hsecond' =>
      cases h.unique h'
      cases hlowest.unique hlowest'
      rw [ih hfirst', ih' hsecond']

end ClauseSearch.Search
