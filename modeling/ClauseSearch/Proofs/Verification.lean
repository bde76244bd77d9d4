import ClauseSearch.Proofs.FormulaStore
import ClauseSearch.Proofs.Leaves

/-! Verification of integers. Integers give a variable the sign of the last one on it, and they are accepted
if they are on variables of the formula and make a literal of each clause true. The formula as given and
the prepared one accept the same integers, whatever the ranking. -/

namespace ClauseSearch

open Search

/-- The sign that integers give a variable. -/
def lastSign (ints : List Int) (x : Nat) : Option Bool :=
  (ints.reverse.find? fun n => n.natAbs == x).map fun n => decide (0 < n)

/-- Integers are on variables of the formula, and the signs they give make a literal of each clause true. -/
def Formula.Accepts (f : Formula) (ints : List Int) : Prop :=
  (∀ n ∈ ints, n ≠ 0 ∧ n.natAbs ≤ f.variableCount) ∧
    ∀ c ∈ f.clauses, ∃ l ∈ c, lastSign ints l.var = some l.polarity

variable {f g : Formula} {r : Ranking} {p : Prepared} {v w : Valuation} {ints : List Int} {x n : Nat}
  {slot : Nat → Except Fault Nat}

/-! ### Signs -/

/-- Integers that are listed in ascending order of their variables give the signs listed. -/
theorem lastSign_filterMap (signs : Nat → Option Bool) (n x : Nat) :
    lastSign ((List.range' 1 n).filterMap fun y => (signs y).map (Prepared.signed y)) x =
      if 0 < x ∧ x ≤ n then signs x else none := by
  induction n with
  | zero =>
    rw [if_neg (by omega)]
    rfl
  | succ n ih =>
    unfold lastSign at ih ⊢
    rw [List.range'_1_concat, List.filterMap_append, List.reverse_append, Nat.add_comm 1 n]
    cases hsign : signs (n + 1) with
    | none =>
      have hlast : (if 0 < x ∧ x ≤ n + 1 then signs x else none) =
          if 0 < x ∧ x ≤ n then signs x else none := by
        by_cases hx : x = n + 1
        · simp [hx, hsign]
        · simp [show x ≤ n + 1 ↔ x ≤ n by omega]
      rw [hlast, ← ih]
      simp [hsign]
    | some b =>
      by_cases hx : x = n + 1
      · simp [hx, hsign, Prepared.natAbs_signed, Prepared.signed_pos]
      · simp [hsign, Prepared.natAbs_signed, Ne.symm hx, show x ≤ n + 1 ↔ x ≤ n by omega, ← ih]

theorem lookup_ranked (hr : r.Inverse n) (hints : ∀ m ∈ ints, m ≠ 0 ∧ m.natAbs ≤ n) (hx : 0 < x)
    (hxn : x ≤ n) :
    ((ints.map fun m => (r.rankOf m.natAbs, decide (0 < m))).reverse.lookup (r.rankOf x)) =
      lastSign ints x := by
  unfold lastSign
  rw [← List.map_reverse]
  have hints' : ∀ m ∈ ints.reverse, m ≠ 0 ∧ m.natAbs ≤ n := fun m hm => hints m (List.mem_reverse.1 hm)
  generalize ints.reverse = ms at hints'
  induction ms with
  | nil => rfl
  | cons m ms ih =>
    obtain ⟨⟨hm, hmn⟩, hms⟩ := List.forall_mem_cons.1 hints'
    rw [List.map_cons, List.lookup_cons, List.find?_cons, ih hms]
    by_cases heq : m.natAbs = x
    · subst heq
      rw [beq_self_eq_true, beq_self_eq_true]
      rfl
    · have hne : r.rankOf x ≠ r.rankOf m.natAbs := fun hrank =>
        heq (hr.rankOf_inj hx hxn (by omega) hmn hrank).symm
      rw [beq_false_of_ne hne, beq_false_of_ne heq]

/-! ### Formulas -/

theorem Formula.satisfiedOn_iff :
    f.satisfiedOn v = true ↔ ∀ c ∈ f.clauses, Clause.satisfiedOn v c = true := by
  rw [satisfiedOn, Option.isNone_iff_eq_none, unsatisfiedClause?, Array.findIdx?_eq_none_iff]
  simp

/-- Verification on ranks reads the sign of each variable at its rank. -/
theorem Formula.verify_spec (hr : r.Inverse g.variableCount) (hg : g.Ranged)
    (hslot : ∀ x ≤ g.variableCount, slot x = .ok (r.rankOf x)) (ints : List Int) :
    ∃ accepted, g.verify slot ints = .ok accepted ∧
      (accepted = true ↔ (∀ m ∈ ints, m ≠ 0 ∧ m.natAbs ≤ g.variableCount) ∧
        ∀ c ∈ g.clauses, ∃ l ∈ c, lastSign ints (r.varAt l.var) = some l.polarity) := by
  unfold verify
  by_cases hall : ∀ m ∈ ints, m ≠ 0 ∧ m.natAbs ≤ g.variableCount
  · rw [if_pos (by simpa using hall)]
    have hvalues : (ints.mapM fun m => do
        let x ← slot m.natAbs
        return (x, decide (0 < m))) =
          .ok (ints.map fun m => (r.rankOf m.natAbs, decide (0 < m))) := by
      refine Sequence.mapM_eq_ok fun m hm => ?_
      rw [hslot _ (hall m hm).2]
      rfl
    rw [hvalues]
    refine ⟨_, rfl, ?_⟩
    rw [satisfiedOn_iff, and_iff_right hall]
    refine forall₂_congr fun c hc => ?_
    rw [Clause.satisfiedOn_iff]
    refine exists_congr fun l => and_congr_right fun hl => ?_
    obtain ⟨hpos, hle⟩ := hg c hc l hl
    obtain ⟨hvar, hvarn⟩ := hr.varAt_mem l.var hpos hle
    have hgreatest : l.var ≤ g.greatestVar := var_le_greatestVar (mem_literals.2 ⟨c, hc, hl⟩)
    rw [Valuation.value?_ofValues hpos hgreatest, ← lookup_ranked hr hall hvar hvarn,
      hr.rankOf_varAt l.var hpos hle]
  · rw [if_neg (by simpa using hall)]
    exact ⟨false, rfl, by simp [hall]⟩

/-- The formula as given accepts integers as it says. -/
theorem Formula.verify_iff (hf : f.Ranged) (ints : List Int) :
    ∃ accepted, f.verify .ok ints = .ok accepted ∧ (accepted = true ↔ f.Accepts ints) := by
  have hr := Ranking.inverse_identity f.variableCount
  have hrank : ∀ x ≤ f.variableCount, (Ranking.identity f.variableCount).rankOf x = x := fun x hx => by
    simp [Ranking.rankOf, Ranking.identity, Nat.lt_succ_of_le hx]
  obtain ⟨accepted, hverify, hiff⟩ :=
    @verify_spec f (.identity f.variableCount) .ok hr hf (fun x hx => by rw [hrank x hx]) ints
  refine ⟨accepted, hverify, hiff.trans (and_congr_right fun _ => forall₂_congr fun c hc => ?_)⟩
  refine exists_congr fun l => and_congr_right fun hl => ?_
  obtain ⟨hpos, hle⟩ := hf c hc l hl
  have hvar := hr.varAt_rankOf l.var hpos hle
  rw [hrank _ hle] at hvar
  rw [hvar]

theorem Prepared.verify_iff (hp : p.Proper) (hrenames : p.Renames f) (hf : f.Ranged) (ints : List Int) :
    ∃ accepted, p.verify ints = .ok accepted ∧ (accepted = true ↔ f.Accepts ints) := by
  obtain ⟨accepted, hverify, hiff⟩ := Formula.verify_spec hp.inverse hp.ranged
    (fun x hx => hp.inverse.rank_eq_ok hx) ints
  refine ⟨accepted, hverify, hiff.trans ?_⟩
  have hcount : p.formula.variableCount = f.variableCount := hrenames.variableCount
  rw [hcount, Formula.Accepts, hrenames.clauses]
  refine and_congr_right fun _ => ?_
  simp only [Array.mem_map, forall_exists_index, and_imp, forall_apply_eq_imp_iff₂, List.mem_map,
    exists_exists_and_eq_and]
  refine forall₂_congr fun c hc => exists_congr fun l => and_congr_right fun hl => ?_
  obtain ⟨hpos, hle⟩ := hf c hc l hl
  show lastSign ints (p.ranking.varAt (p.ranking.rankOf l.var)) = some l.polarity ↔ _
  rw [hp.inverse.varAt_rankOf l.var hpos (hrenames.variableCount ▸ hle)]

/-! ### What is recorded at a leaf -/

/-- Integers with a sign for each value of a solved valuation are accepted. -/
theorem accepts_of_solved (signs : Nat → Option Bool) (hrenames : p.Renames f) (hf : f.Ranged)
    (hw : Solved p w) (hsigns : ∀ x b, w.value? (p.ranking.rankOf x) = some b → signs x = some b) :
    f.Accepts ((List.range' 1 f.variableCount).filterMap fun x => (signs x).map (Prepared.signed x)) := by
  constructor
  · intro m hm
    obtain ⟨x, hx, hsign⟩ := List.mem_filterMap.1 hm
    obtain ⟨b, -, rfl⟩ := Option.map_eq_some_iff.1 hsign
    rw [List.mem_range'_1] at hx
    have habs := Prepared.natAbs_signed x b
    omega
  · intro c hc
    have hranked : c.map p.ranking.renamed ∈ p.formula.clauses := by
      rw [hrenames.clauses]
      exact Array.mem_map_of_mem hc
    obtain ⟨_, hmem, hvalue⟩ := Clause.satisfiedOn_iff.1 (hw _ hranked)
    obtain ⟨l, hl, rfl⟩ := List.mem_map.1 hmem
    obtain ⟨hpos, hle⟩ := hf c hc l hl
    refine ⟨l, hl, ?_⟩
    rw [lastSign_filterMap, if_pos ⟨hpos, hle⟩]
    exact hsigns _ _ hvalue

theorem accepts_cubeOf (hrenames : p.Renames f) (hf : f.Ranged) (hw : Solved p w) :
    f.Accepts (p.cubeOf w) := by
  rw [Prepared.cubeOf, hrenames.variableCount]
  exact accepts_of_solved _ hrenames hf hw fun _ _ h => h

theorem accepts_modelOf (hrenames : p.Renames f) (hf : f.Ranged) (hw : Solved p w) :
    f.Accepts (p.modelOf w) := by
  rw [Prepared.modelOf, hrenames.variableCount, ← List.filterMap_eq_map]
  exact accepts_of_solved (fun x => some _) hrenames hf hw fun x b h => by rw [h]; rfl

end ClauseSearch
