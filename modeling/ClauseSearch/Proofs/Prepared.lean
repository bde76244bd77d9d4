import ClauseSearch.Prepared
import ClauseSearch.Proofs.Occurrences
import ClauseSearch.Proofs.Ranking

/-! Preparing a stored formula succeeds, and what comes out is the formula with its variables renamed to
ranks: an assignment satisfies the one exactly if the renamed assignment satisfies the other. Models and
cubes are read off a valuation of the ranks in the numbering as given. -/

namespace ClauseSearch

/-- Whether an assignment gives the variable of each integer the integer's sign. -/
def Assignment.agrees (a : Assignment) (ints : List Int) : Bool :=
  ints.all fun n => a n.natAbs == decide (0 < n)

namespace Prepared

variable {p : Prepared} {f : Formula} {v : Valuation} {a : Assignment} {k x n : Nat} {b : Bool}

/-- The parts of a prepared formula agree: the tables of the ranking are inverse, the literals are within
the variables, the rows list them, and each pure rank occurs with its preferred polarity alone. -/
structure Proper (p : Prepared) : Prop where
  inverse : p.ranking.Inverse p.variableCount
  ranged : p.formula.Ranged
  rows : ∀ x, p.occurrences.row x = Occurrences.rowOf p.formula.numbered x
  pure : ∀ k ∈ p.ranking.pureRanks, ∀ l ∈ p.formula.literals, l.var = k →
    l.polarity = (p.ranking.placeAt k).preferred

/-- The prepared formula is the formula as given with its variables renamed. -/
structure Renames (p : Prepared) (f : Formula) : Prop where
  variableCount : p.variableCount = f.variableCount
  clauses : p.formula.clauses = f.clauses.map (List.map p.ranking.renamed)

/-! ### Preparing -/

theorem ranged_of_renamed {g : Formula} {r : Ranking} (h : r.Inverse f.variableCount)
    (hf : f.Ranged) (hcount : g.variableCount = f.variableCount)
    (hclauses : g.clauses = f.clauses.map (List.map r.renamed)) : g.Ranged := by
  intro c hc
  rw [hclauses] at hc
  obtain ⟨d, hd, rfl⟩ := Array.mem_map.1 hc
  intro l hl
  obtain ⟨k, hk, rfl⟩ := List.mem_map.1 hl
  rw [hcount]
  exact h.rankOf_mem _ (hf d hd k hk).1 (hf d hd k hk).2

theorem renamed_identity (hf : f.Ranged) :
    f.clauses.map (List.map (Ranking.identity f.variableCount).renamed) = f.clauses := by
  have hclause : ∀ c ∈ f.clauses, c.map (Ranking.identity f.variableCount).renamed = c := by
    intro c hc
    rw [List.map_congr_left (g := id) fun l hl => ?_, List.map_id]
    have := (hf c hc l hl).2
    simp [Ranking.renamed, Ranking.rankOf, Ranking.identity, Nat.lt_succ_of_le this]
  rw [Array.map_congr_left (g := id) hclause, Array.map_id]

/-- A pure variable occurs with its preferred polarity alone. -/
theorem polarity_of_pure {t : FrequencyTable} {ls : List Literal} (h : t.Counts ls) {l : Literal}
    (hl : l ∈ ls) (hpure : (t.get l.var).isPure = true) :
    l.polarity = (t.get l.var).preferred := by
  have hpos := List.count_pos_iff.2 hl
  obtain ⟨x, b⟩ := l
  simp only [h x, Frequency.isPure, Frequency.preferred, Bool.or_eq_true, beq_iff_eq] at hpure ⊢
  cases b with
  | true =>
    symm
    rw [decide_eq_true_eq]
    omega
  | false =>
    symm
    rw [decide_eq_false_iff_not]
    omega

/-- A literal whose rank is pure in the order by frequency has the preferred polarity of that rank. -/
theorem polarity_of_pure_rank (h : f.Stored) {l : Literal} (hl : l ∈ f.literals)
    (hpure : ((Ranking.byFrequency f.settle.frequencies).placeAt
      ((Ranking.byFrequency f.settle.frequencies).rankOf l.var)).isPure = true) :
    l.polarity = ((Ranking.byFrequency f.settle.frequencies).placeAt
      ((Ranking.byFrequency f.settle.frequencies).rankOf l.var)).preferred := by
  have hinverse := Ranking.inverse_byFrequency h.size_settle
  obtain ⟨hpos, hle⟩ := h.ranged.literal hl
  obtain ⟨hk, hkn⟩ := hinverse.rankOf_mem l.var hpos hle
  rw [Ranking.placeAt_byFrequency_eq h.size_settle hk hkn, hinverse.varAt_rankOf l.var hpos hle]
    at hpure ⊢
  exact polarity_of_pure h.counts_settle hl hpure

/-- Preparing a stored formula gives a proper one that renames it. -/
theorem ofFormula_eq_ok (h : f.Stored) (byFrequency : Bool) :
    ∃ p, ofFormula f byFrequency = .ok (.ok p) ∧ p.Proper ∧ p.Renames f := by
  have hsize := h.size_settle
  have hcounts : f.settle.frequencies.Counts f.settle.literals := h.counts_settle
  cases byFrequency with
  | false =>
    obtain ⟨o, ho, hrows⟩ := Occurrences.ofFormula_eq_ok hcounts
    refine ⟨⟨f.settle, .identity f.variableCount, o⟩, ?_, ?_, ⟨rfl, ?_⟩⟩
    · change (Except.ok ((Occurrences.ofFormula f.settle).map _) : Except Fault _) = _
      rw [ho]
      rfl
    · refine ⟨Ranking.inverse_identity _, h.ranged, hrows, fun k hk => ?_⟩
      obtain ⟨⟨-, hle⟩, hpure⟩ :=
        (Ranking.mem_pureRanks (Ranking.inverse_identity f.variableCount)).1 hk
      simp [Ranking.placeAt, Ranking.identity, Nat.lt_succ_of_le hle] at hpure
    · exact (renamed_identity h.ranged).symm
  | true =>
    set r := Ranking.byFrequency f.settle.frequencies
    have hinverse : r.Inverse f.variableCount := Ranking.inverse_byFrequency hsize
    obtain ⟨g, hg, hcount, -, hclauses, -, hgcounts⟩ :=
      Formula.toRanks_eq_ok (f := f.settle) hinverse (fun _ => h.ranged.literal) hsize hcounts
    obtain ⟨o, ho, hrows⟩ := Occurrences.ofFormula_eq_ok hgcounts
    refine ⟨⟨g, r, o⟩, ?_, ?_, ⟨hcount, hclauses⟩⟩
    · change (f.settle.toRanks r >>= fun g => Except.ok ((Occurrences.ofFormula g).map _)) = _
      rw [hg]
      change (Except.ok ((Occurrences.ofFormula g).map _) : Except Fault _) = _
      rw [ho]
      rfl
    · refine ⟨?_, ranged_of_renamed hinverse h.ranged hcount hclauses, hrows, ?_⟩
      · change r.Inverse g.variableCount
        rw [hcount]
        exact hinverse
      · intro k hk l hl hlk
        obtain ⟨-, hpure⟩ := (Ranking.mem_pureRanks hinverse).1 hk
        change l ∈ g.literals at hl
        rw [Formula.literals_map hclauses] at hl
        obtain ⟨l', hl', rfl⟩ := List.mem_map.1 hl
        rw [← hlk] at hpure ⊢
        exact polarity_of_pure_rank h hl' hpure

theorem proper_of_ofFormula {byFrequency : Bool} (h : f.Stored)
    (hp : ofFormula f byFrequency = .ok (.ok p)) : p.Proper ∧ p.Renames f := by
  obtain ⟨p', hp', hproper, hrenames⟩ := ofFormula_eq_ok h byFrequency
  obtain rfl : p' = p := by simpa [hp] using hp'.symm
  exact ⟨hproper, hrenames⟩

/-! ### What follows for a proper one -/

theorem Proper.row_mem (h : p.Proper) {o : Occurrence} :
    o ∈ p.occurrences.row x ↔
      ∃ c, p.formula.clauses[o.clause]? = some c ∧ (⟨x, o.polarity⟩ : Literal) ∈ c := by
  rw [h.rows, Occurrences.mem_rowOf, Formula.mem_numbered]

theorem Proper.place_eq_ok (h : p.Proper) (hk : k ≤ p.variableCount) :
    p.ranking.place k = .ok (p.ranking.placeAt k) := h.inverse.place_eq_ok hk

theorem Proper.within (h : p.Proper) {id : Nat} {c : Clause}
    (hc : p.formula.clauses[id]? = some c) : c.Within p.variableCount :=
  h.ranged c (Array.mem_of_getElem? hc)

/-! ### Assignments -/

def onRanks (p : Prepared) (a : Assignment) : Assignment := fun k => a (p.ranking.varAt k)

def onVariables (p : Prepared) (a : Assignment) : Assignment := fun x => a (p.ranking.rankOf x)

theorem holds_onVariables (h : p.Renames f) (a : Assignment) :
    f.holds (p.onVariables a) = p.formula.holds a := by
  rw [Bool.eq_iff_iff, Formula.holds_eq_true_iff, Formula.holds_eq_true_iff, h.clauses]
  simp only [Array.mem_map, forall_exists_index, and_imp, forall_apply_eq_imp_iff₂]
  refine forall₂_congr fun c _ => ?_
  simp only [Clause.holds_iff, List.mem_map, exists_exists_and_eq_and]
  rfl

theorem onVariables_onRanks (h : p.Proper) (hx : 0 < x) (hn : x ≤ p.variableCount) :
    p.onVariables (p.onRanks a) x = a x := by
  rw [onVariables, onRanks, h.inverse.varAt_rankOf x hx hn]

theorem onRanks_onVariables (h : p.Proper) (hk : 0 < k) (hn : k ≤ p.variableCount) :
    p.onRanks (p.onVariables a) k = a k := by
  rw [onRanks, onVariables, h.inverse.rankOf_varAt k hk hn]

theorem holds_onRanks (hp : p.Proper) (h : p.Renames f) (hf : f.Ranged) (a : Assignment) :
    p.formula.holds (p.onRanks a) = f.holds a := by
  rw [← holds_onVariables h, Bool.eq_iff_iff, Formula.holds_eq_true_iff, Formula.holds_eq_true_iff]
  refine forall₂_congr fun c hc => ?_
  rw [Clause.holds_iff, Clause.holds_iff]
  refine exists_congr fun l => and_congr_right fun hl => ?_
  rw [onVariables_onRanks hp (hf c hc l hl).1 (h.variableCount ▸ (hf c hc l hl).2)]

/-- The formula on ranks is satisfiable exactly if the formula as given is. -/
theorem satisfiable_iff (hp : p.Proper) (h : p.Renames f) (hf : f.Ranged) :
    p.formula.Satisfiable ↔ f.Satisfiable := by
  constructor
  · rintro ⟨a, ha⟩
    exact ⟨p.onVariables a, by rw [holds_onVariables h, ha]⟩
  · rintro ⟨a, ha⟩
    exact ⟨p.onRanks a, by rw [holds_onRanks hp h hf, ha]⟩

/-! ### Models and cubes -/

/-- The model that a valuation of the ranks stands for. -/
def modelOf (p : Prepared) (v : Valuation) : List Int :=
  (List.range' 1 p.variableCount).map fun x =>
    signed x ((v.value? (p.ranking.rankOf x)).getD (p.ranking.placeAt (p.ranking.rankOf x)).preferred)

/-- The integers of the values that a valuation of the ranks holds. -/
def cubeOf (p : Prepared) (v : Valuation) : List Int :=
  (List.range' 1 p.variableCount).filterMap fun x =>
    (v.value? (p.ranking.rankOf x)).map (signed x)

theorem model_eq_ok (h : p.Proper) (v : Valuation) : p.model v = .ok (p.modelOf v) := by
  refine Sequence.mapM_eq_ok fun x hx => ?_
  rw [List.mem_range'_1] at hx
  have hx' : x ≤ p.variableCount := by omega
  rw [h.inverse.rank_eq_ok hx']
  change (p.ranking.place (p.ranking.rankOf x) >>= fun place => _) = _
  rw [h.place_eq_ok (h.inverse.rankOf_mem x (by omega) hx').2]
  rfl

theorem cube_eq_ok (h : p.Proper) (v : Valuation) : p.cube v = .ok (p.cubeOf v) := by
  have hentries : ((List.range' 1 p.variableCount).mapM fun x => do
      let rank ← p.ranking.rank x
      return (v.value? rank).map (signed x)) =
        .ok ((List.range' 1 p.variableCount).map fun x =>
          (v.value? (p.ranking.rankOf x)).map (signed x)) := by
    refine Sequence.mapM_eq_ok fun x hx => ?_
    rw [List.mem_range'_1] at hx
    rw [h.inverse.rank_eq_ok (by omega)]
    rfl
  rw [cube, hentries]
  change Except.ok _ = _
  rw [cubeOf, List.filterMap_map]
  rfl

theorem natAbs_signed (x : Nat) (b : Bool) : (signed x b).natAbs = x := by
  cases b <;> simp [signed, Literal.toInt]

theorem signed_pos (hx : 0 < x) (b : Bool) : decide (0 < signed x b) = b := by
  cases b with
  | true => simpa [signed, Literal.toInt] using hx
  | false =>
    simp only [signed, Literal.toInt, Bool.false_eq_true, if_false, decide_eq_false_iff_not]
    omega

/-- An assignment has the integers of a cube exactly if the valuation admits it. -/
theorem agrees_cubeOf (h : p.Proper) (hv : v.variableCount = p.variableCount) (a : Assignment) :
    a.agrees (p.cubeOf v) = v.admits (p.onRanks a) := by
  rw [Bool.eq_iff_iff, Valuation.admits_iff]
  simp only [Assignment.agrees, List.all_eq_true, beq_iff_eq, cubeOf, List.mem_filterMap,
    List.mem_range'_1, Option.map_eq_some_iff]
  constructor
  · intro hall k b hk hb
    have hkn : k ≤ p.variableCount := hv ▸ Valuation.le_variableCount_of_value? hb
    obtain ⟨hvar, hvarn⟩ := h.inverse.varAt_mem k hk hkn
    have := hall (signed (p.ranking.varAt k) b)
      ⟨p.ranking.varAt k, by omega, b, by rwa [h.inverse.rankOf_varAt k hk hkn], rfl⟩
    rwa [natAbs_signed, signed_pos hvar] at this
  · rintro hall _ ⟨x, hx, b, hb, rfl⟩
    rw [natAbs_signed, signed_pos (by omega)]
    have := hall (p.ranking.rankOf x) b (h.inverse.rankOf_mem x (by omega) (by omega)).1 hb
    rwa [onRanks, h.inverse.varAt_rankOf x (by omega) (by omega)] at this

end Prepared

end ClauseSearch
