import ClauseSearch.Proofs.Assumptions
import ClauseSearch.Proofs.Renaming

/-! Variables that occur with one polarity alone. A fresh search gives them that polarity before it begins. Every
clause with one of them is then satisfied and no clause has become false, and a formula that has a model has one
with these values: a model stays one where its pure variables are turned to their polarity. A variable that does
not occur is pure as well. -/

namespace ClauseSearch

variable {f : Formula} {p : Prepared} {v : Valuation} {c : Clause} {x : Nat}

/-- Wherever the variable occurs, it has the polarity. -/
def Formula.PureWith (f : Formula) (x : Nat) (b : Bool) : Prop :=
  ∀ l ∈ f.literals, l.var = x → l.polarity = b

/-- The variable occurs with one polarity alone, or not at all. -/
def Formula.Pure (f : Formula) (x : Nat) : Prop := ∃ b, f.PureWith x b

instance (f : Formula) (x : Nat) (b : Bool) : Decidable (f.PureWith x b) :=
  inferInstanceAs (Decidable (∀ l ∈ f.literals, l.var = x → l.polarity = b))

instance (f : Formula) (x : Nat) : Decidable (f.Pure x) :=
  inferInstanceAs (Decidable (∃ b, f.PureWith x b))

/-- What the values held once the pure variables are assumed do to a formula. -/
structure Prepared.Harmless (p : Prepared) (f : Formula) (v : Valuation) : Prop where
  /-- A pure variable has the polarity that it occurs with. -/
  pure : ∀ x, 0 < x → x ≤ f.variableCount → f.Pure x → ∃ k b, p.ranking.rank x = .ok k ∧
    k ∈ p.ranking.pureRanks ∧ v.value? k = some b ∧ f.PureWith x b
  impure : ∀ x, 0 < x → x ≤ f.variableCount → ¬ f.Pure x → ∃ k, p.ranking.rank x = .ok k ∧
    k ∉ p.ranking.pureRanks ∧ v.value? k = none
  /-- A variable that does not occur is among the pure ones, and true. -/
  unused : ∀ x, 0 < x → x ≤ f.variableCount → (∀ l ∈ f.literals, l.var ≠ x) →
    ∃ k, p.ranking.rank x = .ok k ∧ k ∈ p.ranking.pureRanks ∧ v.value? k = some true
  satisfied : ∀ i c, f.clause? i = some c → (∃ l ∈ c, f.Pure l.var) →
    ∃ d, p.formula.clause? i = some d ∧ Clause.satisfiedOn v d = true
  unfalsified : ∀ d ∈ p.formula.clauses, d ≠ [] → ¬ Clause.FalsifiedOn v d
  /-- Where there is a model, there is one with the values held. -/
  satisfiable : f.Satisfiable ↔ ∃ a : Assignment, f.holds a = true ∧
    ∀ x k b, 0 < x → x ≤ f.variableCount → p.ranking.rank x = .ok k → v.value? k = some b → a x = b

/-! ### Pure variables -/

theorem Formula.pureWith_iff {b : Bool} : f.PureWith x b ↔ f.literals.count ⟨x, !b⟩ = 0 := by
  rw [List.count_eq_zero]
  constructor
  · intro h hl
    exact absurd (h _ hl rfl) (by simp)
  · intro habsent l hl hlx
    by_contra hne
    have hother : l = ⟨x, !b⟩ := by rw [← hlx, ← Bool.eq_not_of_ne hne]
    exact habsent (hother ▸ hl)

theorem FrequencyTable.Counts.isPure_iff {t : FrequencyTable} (h : t.Counts f.literals) :
    (t.get x).isPure = true ↔ f.Pure x := by
  rw [Formula.Pure, Bool.exists_bool, Formula.pureWith_iff, Formula.pureWith_iff, h x,
    Frequency.isPure, Bool.or_eq_true, beq_iff_eq, beq_iff_eq]
  rfl

namespace Formula

theorem mem_pureRanks_iff (h : f.Stored) (hx : 0 < x) (hxn : x ≤ f.variableCount) :
    (Ranking.byFrequency f.settle.frequencies).rankOf x ∈
      (Ranking.byFrequency f.settle.frequencies).pureRanks ↔ f.Pure x := by
  have hinverse := Ranking.inverse_byFrequency h.size_settle
  rw [Ranking.mem_pureRanks hinverse, and_iff_right (hinverse.rankOf_mem x hx hxn),
    Ranking.place_rankOf_byFrequency h.size_settle hx hxn]
  exact h.counts_settle.isPure_iff

theorem pureWith_preferred (h : f.Stored) (hx : 0 < x) (hxn : x ≤ f.variableCount) (hpure : f.Pure x) :
    f.PureWith x ((Ranking.byFrequency f.settle.frequencies).placeAt
      ((Ranking.byFrequency f.settle.frequencies).rankOf x)).preferred := by
  intro l hl hlx
  subst hlx
  rw [Ranking.place_rankOf_byFrequency h.size_settle hx hxn]
  exact Prepared.polarity_of_pure h.counts_settle hl (h.counts_settle.isPure_iff.2 hpure)

theorem preferred_of_unused (h : f.Stored) (hx : 0 < x) (hxn : x ≤ f.variableCount)
    (hunused : ∀ l ∈ f.literals, l.var ≠ x) :
    ((Ranking.byFrequency f.settle.frequencies).placeAt
      ((Ranking.byFrequency f.settle.frequencies).rankOf x)).preferred = true := by
  have hzero : ∀ b, f.literals.count ⟨x, b⟩ = 0 := fun b =>
    List.count_eq_zero.2 fun hl => hunused _ hl rfl
  rw [Ranking.place_rankOf_byFrequency h.size_settle hx hxn]
  show (f.settle.frequencies.get x).preferred = true
  rw [h.counts_settle x, hzero, hzero]
  rfl

end Formula

/-! ### The values assumed -/

namespace Prepared

theorem Proper.satisfiedOn_of_pure (hp : p.Proper) (hc : c ∈ p.formula.clauses)
    (hv : ∀ k, 0 < k → v.value? k = Search.pureValue p p.ranking.pureRanks k)
    (hpure : ∃ l ∈ c, l.var ∈ p.ranking.pureRanks) : Clause.satisfiedOn v c = true := by
  obtain ⟨l, hl, hk⟩ := hpure
  rw [Clause.satisfiedOn_iff]
  refine ⟨l, hl, ?_⟩
  rw [hv l.var (hp.ranged c hc l hl).1, Search.pureValue, if_pos hk,
    hp.pure l.var hk l (Formula.mem_literals.2 ⟨c, hc, hl⟩) rfl]

/-- Where a literal has a value, its variable is pure and its clause satisfied. -/
theorem Proper.not_falsifiedOn_of_pure (hp : p.Proper) (hc : c ∈ p.formula.clauses)
    (hv : ∀ k, 0 < k → v.value? k = Search.pureValue p p.ranking.pureRanks k) (hne : c ≠ []) :
    ¬ Clause.FalsifiedOn v c := by
  intro hfalse
  obtain ⟨l, hl⟩ := List.exists_mem_of_ne_nil c hne
  have hvalue := hfalse l hl
  rw [hv l.var (hp.ranged c hc l hl).1, Search.pureValue] at hvalue
  split at hvalue
  · rename_i hk
    rw [← hp.pure l.var hk l (Formula.mem_literals.2 ⟨c, hc, hl⟩) rfl] at hvalue
    exact absurd (Option.some.inj hvalue) (by simp)
  · exact absurd hvalue (by simp)

/-- A model of a formula can be turned into one with the values of its pure ranks. -/
theorem exists_holds_of_pure (hp : p.Proper) (hrenames : p.Renames f) (hf : f.Ranged)
    (hv : ∀ k, v.value? k =
      ((Valuation.fresh p.variableCount).value? k).or (Search.pureValue p p.ranking.pureRanks k))
    (hsatisfiable : f.Satisfiable) :
    ∃ a : Assignment, f.holds a = true ∧ ∀ x b, 0 < x → x ≤ p.variableCount →
      v.value? (p.ranking.rankOf x) = some b → a x = b := by
  obtain ⟨a, ha⟩ := (satisfiable_iff hp hrenames hf).2 hsatisfiable
  obtain ⟨a', hadmits, hholds⟩ :=
    Search.exists_admitted_of_pure hp (Valuation.admits_fresh _ a) ha hv
  refine ⟨p.onVariables a', (holds_onVariables hrenames a').trans hholds, ?_⟩
  intro x b hx hxn hvalue
  exact Valuation.admits_iff.1 hadmits _ b (hp.inverse.rankOf_mem x hx hxn).1 hvalue

/-- Values of the pure ranks alone are harmless. -/
theorem harmless_of_pure (h : f.Stored) (hp : p.Proper) (hrenames : p.Renames f)
    (hranking : p.ranking = .byFrequency f.settle.frequencies)
    (hv : ∀ k, v.value? k =
      ((Valuation.fresh p.variableCount).value? k).or (Search.pureValue p p.ranking.pureRanks k)) :
    p.Harmless f v := by
  have hcount : p.variableCount = f.variableCount := hrenames.variableCount
  -- a fresh search holds no value at a rank, so what is held there was assumed
  have hvalue : ∀ k, 0 < k → v.value? k = Search.pureValue p p.ranking.pureRanks k := by
    intro k hk
    rw [hv k, Valuation.value?_fresh hk, Option.none_or]
  have hrank : ∀ x, x ≤ f.variableCount → p.ranking.rank x = .ok (p.ranking.rankOf x) := by
    intro x hxn
    exact hp.inverse.rank_eq_ok (by omega)
  have hpos : ∀ x, 0 < x → x ≤ f.variableCount → 0 < p.ranking.rankOf x := by
    intro x hx hxn
    exact (hp.inverse.rankOf_mem x hx (by omega)).1
  have hmem : ∀ x, 0 < x → x ≤ f.variableCount →
      (p.ranking.rankOf x ∈ p.ranking.pureRanks ↔ f.Pure x) := by
    intro x hx hxn
    rw [hranking]
    exact Formula.mem_pureRanks_iff h hx hxn
  exact
    { pure := fun x hx hxn hpure => by
        have hk := (hmem x hx hxn).2 hpure
        refine ⟨_, _, hrank x hxn, hk, (hvalue _ (hpos x hx hxn)).trans (if_pos hk), ?_⟩
        rw [hranking]
        exact Formula.pureWith_preferred h hx hxn hpure
      impure := fun x hx hxn himpure => by
        have hk := mt (hmem x hx hxn).1 himpure
        exact ⟨_, hrank x hxn, hk, (hvalue _ (hpos x hx hxn)).trans (if_neg hk)⟩
      unused := fun x hx hxn hunused => by
        have hk := (hmem x hx hxn).2 ⟨true, fun l hl hlx => absurd hlx (hunused l hl)⟩
        refine ⟨_, hrank x hxn, hk, ?_⟩
        rw [hvalue _ (hpos x hx hxn), Search.pureValue, if_pos hk, hranking,
          Formula.preferred_of_unused h hx hxn hunused]
      satisfied := fun i c hc hpure => by
        obtain ⟨l, hl, hpure⟩ := hpure
        have hclause : p.formula.clauses[i]? = some (c.map p.ranking.renamed) := by
          rw [hrenames.clauses, Array.getElem?_map]
          exact congrArg _ hc
        have hwithin := h.ranged c (Array.mem_of_getElem? hc) l hl
        refine ⟨_, hclause, hp.satisfiedOn_of_pure (Array.mem_of_getElem? hclause) hvalue ?_⟩
        exact ⟨_, List.mem_map_of_mem hl, (hmem l.var hwithin.1 hwithin.2).2 hpure⟩
      unfalsified := fun d hd => hp.not_falsifiedOn_of_pure hd hvalue
      satisfiable := by
        constructor
        · intro hsatisfiable
          obtain ⟨a, ha, hheld⟩ := exists_holds_of_pure hp hrenames h.ranged hv hsatisfiable
          refine ⟨a, ha, fun x k b hx hxn hk hb => ?_⟩
          obtain rfl : p.ranking.rankOf x = k := Except.ok.inj ((hrank x hxn).symm.trans hk)
          exact hheld x b hx (by omega) hb
        · rintro ⟨a, ha, -⟩
          exact ⟨a, ha⟩ }

end Prepared

/-- A formula that additions lead to can be prepared by frequency, and its pure ranks can be assumed on a fresh
search. The values held are then harmless. -/
theorem Search.harmless_assumePure (hf : f.Built) :
    ∃ p s, Prepared.ofFormula f true = .ok (.ok p) ∧ (fresh p).assumePure p = .ok s ∧
      p.Harmless f s.valuation := by
  have hstored := hf.stored
  obtain ⟨g, hg, -⟩ := Formula.exists_onRanks (f := f.settle)
    (Ranking.inverse_byFrequency hstored.size_settle) hstored.ranged hstored.size_settle
    hstored.counts_settle
  obtain ⟨occurrences, hofFormula⟩ := Formula.exists_prepared hstored hg
  obtain ⟨hp, hrenames⟩ := Prepared.proper_of_ofFormula hstored hofFormula
  obtain ⟨v, hassume, -, -, hread⟩ := assumePure_eq_ok hp (sound_fresh _).toCoherent
  exact ⟨_, _, hofFormula, hassume, Prepared.harmless_of_pure hstored hp hrenames rfl hread⟩

/-- Variable 1 is pure, variable 3 does not occur, and variable 2 occurs with both polarities. -/
theorem Search.harmless_two_pure : ∃ f p s,
    f.clauses = #[[⟨1, false⟩, ⟨2, true⟩], [⟨2, false⟩, ⟨1, false⟩], []] ∧ f.Built ∧
      f.Pure 1 ∧ ¬ f.Pure 2 ∧ Prepared.ofFormula f true = .ok (.ok p) ∧
      (fresh p).assumePure p = .ok s ∧ p.Harmless f s.valuation := by
  have hdeclared : Formula.Built (.ofDeclaration ⟨3, 3⟩) := .declared (by decide)
  have hfirst : Formula.Built _ := @Formula.Built.add _ _ [-1, 2] _ hdeclared rfl
  have hsecond : Formula.Built _ := @Formula.Built.add _ _ [-2, -1] _ hfirst rfl
  have hbuilt : Formula.Built _ := @Formula.Built.add _ _ [] _ hsecond rfl
  obtain ⟨p, s, hofFormula, hassume, hharmless⟩ := harmless_assumePure hbuilt
  exact ⟨_, p, s, rfl, hbuilt, by decide, by decide, hofFormula, hassume, hharmless⟩

end ClauseSearch
