import ClauseSearch.Proofs.Ranking

/-! The order in which a ranking by frequency puts the variables. Of two variables the pure one comes first,
then the one that occurs more often, and of two that are alike in this the smaller one; a variable that does
not occur is pure. The sort keeps equals in place, so the order is total. The pure ranks are then the first
ranks, and a place holds what its variable's frequency says. -/

namespace ClauseSearch.Ranking

variable {t : FrequencyTable} {a b c : Frequency} {j k n : Nat}

/-- Why one variable comes before another. -/
inductive Ahead (t : FrequencyTable) (x y : Nat) : Prop
  /-- Only the first one is pure. -/
  | pure (hx : (t.get x).isPure = true) (hy : (t.get y).isPure = false)
  /-- Neither is pure, and the first one occurs more often. -/
  | frequent (hx : (t.get x).isPure = false) (hy : (t.get y).isPure = false)
      (h : (t.get y).total < (t.get x).total)
  /-- Both are pure. -/
  | bothPure (hx : (t.get x).isPure = true) (hy : (t.get y).isPure = true) (h : x < y)
  /-- Neither is pure, and both occur equally often. -/
  | tied (hx : (t.get x).isPure = false) (hy : (t.get y).isPure = false)
      (heq : (t.get x).total = (t.get y).total) (h : x < y)

/-! ### The comparison -/

theorem precedes_iff :
    precedes a b = true ↔ a.isPure = true ∨ b.isPure = false ∧ b.total ≤ a.total := by
  simp [precedes]

theorem precedes_trans (hab : precedes a b = true) (hbc : precedes b c = true) :
    precedes a c = true := by
  rw [precedes_iff] at hab hbc ⊢
  rcases hab with hpure | ⟨hb, hle⟩
  · exact .inl hpure
  · rcases hbc with hpure | ⟨hc, hle'⟩
    · exact absurd hpure (by simp [hb])
    · exact .inr ⟨hc, Nat.le_trans hle' hle⟩

theorem precedes_total (a b : Frequency) : (precedes a b || precedes b a) = true := by
  rw [Bool.or_eq_true, precedes_iff, precedes_iff]
  cases ha : a.isPure with
  | true => exact .inl (.inl rfl)
  | false =>
    cases hb : b.isPure with
    | true => exact .inr (.inl rfl)
    | false =>
      rcases Nat.le_total b.total a.total with hle | hle
      · exact .inl (.inr ⟨rfl, hle⟩)
      · exact .inr (.inr ⟨rfl, hle⟩)

/-- Where the comparison does not tell two variables apart, the smaller one is ahead. -/
theorem ahead_of_precedes {x y : Nat} (h : precedes (t.get x) (t.get y) = true)
    (htie : precedes (t.get y) (t.get x) = true → x < y) : Ahead t x y := by
  rw [precedes_iff] at h htie
  cases hy : (t.get y).isPure with
  | true =>
    have hx : (t.get x).isPure = true := by simpa [hy] using h
    exact .bothPure hx hy (htie (.inl hy))
  | false =>
    cases hx : (t.get x).isPure with
    | true => exact .pure hx hy
    | false =>
      have hle : (t.get y).total ≤ (t.get x).total := by simpa [hx, hy] using h
      rcases Nat.lt_or_eq_of_le hle with hlt | heq
      · exact .frequent hx hy hlt
      · exact .tied hx hy heq.symm (htie (.inr ⟨hx, Nat.le_of_eq heq.symm⟩))

/-! ### The sorted variables -/

theorem pairwise_order : (order t).Pairwise (Ahead t) := by
  let le (x y : Nat) : Bool := precedes (t.get x) (t.get y)
  -- the sort is followed on the variables with their positions, which say how equals are kept
  let numbered := (List.range' 1 (t.size - 1)).zipIdx.mergeSort (List.zipIdxLE le)
  have horder : numbered.map (·.1) = order t := List.mergeSort_zipIdx
  have hsorted : numbered.Pairwise fun p q => List.zipIdxLE le p q = true :=
    List.pairwise_mergeSort (@List.zipIdxLE_trans _ le fun _ _ _ => precedes_trans)
      (@List.zipIdxLE_total _ le fun _ _ => precedes_total _ _) _
  have hdistinct : numbered.Pairwise fun p q => p.1 ≠ q.1 := by
    rw [← List.pairwise_map, horder]
    exact nodup_order
  have hposition : ∀ p ∈ numbered, p.1 = 1 + p.2 := by
    intro p hp
    have := List.mem_zipIdx (List.mem_mergeSort.1 hp)
    simpa using this.2.2
  rw [← horder, List.pairwise_map]
  apply (hsorted.and hdistinct).imp_of_mem
  intro p q hp hq ⟨hle, hne⟩
  have hp' := hposition p hp
  have hq' := hposition q hq
  simp only [List.zipIdxLE] at hle
  split at hle
  · rename_i hxy
    apply ahead_of_precedes hxy
    intro hyx
    rw [if_pos hyx, decide_eq_true_eq] at hle
    omega
  · exact absurd hle (by simp)

/-- After a variable that is not pure no pure one comes. -/
theorem pairwise_isPure :
    (order t).Pairwise fun x y => (t.get y).isPure = true → (t.get x).isPure = true := by
  apply pairwise_order.imp
  intro x y h hy
  cases h with
  | pure hx => exact hx
  | bothPure hx => exact hx
  | frequent _ hy' => exact absurd hy (by simp [hy'])
  | tied _ hy' => exact absurd hy (by simp [hy'])

/-- The lower of two ranks belongs to the variable that is ahead. -/
theorem ahead_varAt (hn : t.size = n + 1) (hj : 0 < j) (hjk : j < k) (hk : k ≤ n) :
    Ahead t ((byFrequency t).varAt j) ((byFrequency t).varAt k) := by
  obtain ⟨i, rfl⟩ : ∃ i, j = i + 1 := ⟨j - 1, by omega⟩
  obtain ⟨m, rfl⟩ : ∃ m, k = m + 1 := ⟨k - 1, by omega⟩
  have hm : m < (order t).length := by
    rw [length_order]
    omega
  have hi : i < (order t).length := by omega
  rw [varAt, varAt, placeAt_byFrequency hi, placeAt_byFrequency hm]
  exact List.pairwise_iff_getElem.1 pairwise_order i m hi hm (by omega)

/-! ### The pure ranks -/

theorem positions_of_pure {places : List Place} (start : Nat)
    (h : places.Pairwise fun p q => q.isPure = true → p.isPure = true) :
    ((places.zipIdx start).filter fun (place, _) => place.isPure).map (·.2) =
      List.range' start (places.countP (·.isPure)) := by
  induction places generalizing start with
  | nil => rfl
  | cons p places ih =>
    rw [List.pairwise_cons] at h
    rw [List.zipIdx_cons]
    cases hp : p.isPure with
    | true =>
      rw [List.filter_cons_of_pos (by exact hp), List.map_cons, ih (start + 1) h.2, List.countP_cons_of_pos hp,
        List.range'_succ]
    | false =>
      have hnone : places.countP (·.isPure) = 0 := by
        rw [List.countP_eq_zero]
        intro q hq hpure
        exact absurd (h.1 q hq hpure) (by simp [hp])
      rw [List.filter_cons_of_neg (by simp [hp]), ih (start + 1) h.2,
        List.countP_cons_of_neg (by simp [hp]), hnone]
      rfl

/-- The pure ranks are the first ones, in ascending order. -/
theorem pureRanks_byFrequency (t : FrequencyTable) :
    (byFrequency t).pureRanks = List.range' 1 (byFrequency t).pureCount := by
  rw [pureRanks, pureCount, ← Array.countP_toList]
  show ((((top :: _ : List Place).zipIdx).filter fun (place, _) => place.isPure).map (·.2)) =
    List.range' 1 ((top :: _ : List Place).countP (·.isPure))
  rw [List.zipIdx_cons, List.filter_cons_of_neg (by simp [top]), List.countP_cons_of_neg (by simp [top])]
  apply positions_of_pure
  rw [List.pairwise_map]
  exact pairwise_isPure

theorem pureCount_byFrequency (t : FrequencyTable) : (byFrequency t).pureCount =
    (List.range' 1 (t.size - 1)).countP fun x => (t.get x).isPure := by
  rw [pureCount, ← Array.countP_toList]
  show (top :: (order t).map _ : List Place).countP (·.isPure) = _
  rw [List.countP_cons_of_neg (by simp [top]), List.countP_map]
  exact order_perm.countP_eq _

/-! ### The tables -/

theorem place_rankOf_byFrequency (hn : t.size = n + 1) {x : Nat} (hx : 0 < x) (hxn : x ≤ n) :
    (byFrequency t).placeAt ((byFrequency t).rankOf x) =
      ⟨x, (t.get x).preferred, (t.get x).isPure⟩ := by
  have hinverse := inverse_byFrequency hn
  have hk := hinverse.rankOf_mem x hx hxn
  rw [placeAt_byFrequency_eq hn hk.1 hk.2, hinverse.varAt_rankOf x hx hxn]

theorem ofRanked_eq_ok {r : Ranking} (h : r.Inverse n) {l : Literal} (hl : l.var ≤ n) :
    r.ofRanked l = .ok { l with var := r.varAt l.var } := by
  rw [ofRanked, h.place_eq_ok hl]
  rfl

/-- A literal put on ranks can be read back, and so can one read off ranks be put there again. -/
theorem Inverse.literal {r : Ranking} (h : r.Inverse n) {l : Literal} (hpos : 0 < l.var)
    (hle : l.var ≤ n) :
    (∃ m, r.toRanked l = .ok m ∧ r.ofRanked m = .ok l) ∧
      ∃ m, r.ofRanked l = .ok m ∧ r.toRanked m = .ok l := by
  obtain ⟨x, b⟩ := l
  constructor
  · have hk := (h.rankOf_mem x hpos hle).2
    exact ⟨_, toRanked_eq_ok h hle, by rw [ofRanked_eq_ok h hk, renamed, h.varAt_rankOf x hpos hle]⟩
  · have hx := (h.varAt_mem x hpos hle).2
    exact ⟨_, ofRanked_eq_ok h hle, by rw [toRanked_eq_ok h hx, renamed, h.rankOf_varAt x hpos hle]⟩

/-- The ranking by frequency of a table on the variables `1..n`. Ranks and variables are inverse to each
other; a lower rank is that of a variable ahead; each place has the polarity that occurs at least as often and
says whether one polarity does not occur; the pure ranks are the first ones in ascending order, as many as there
are pure variables; and to put a literal on ranks and to read it back undo each other. -/
theorem ranked_byFrequency (hn : t.size = n + 1) :
    (byFrequency t).variableCount = n ∧
    (∀ x, 0 < x → x ≤ n → ∃ k place, (byFrequency t).rank x = .ok k ∧ 0 < k ∧ k ≤ n ∧
      (byFrequency t).place k = .ok place ∧ place.var = x ∧
      (place.preferred = true ↔ (t.get x).negative ≤ (t.get x).positive) ∧
      (place.isPure = true ↔ (t.get x).positive = 0 ∨ (t.get x).negative = 0)) ∧
    (∀ k, 0 < k → k ≤ n → ∃ place, (byFrequency t).place k = .ok place ∧
      0 < place.var ∧ place.var ≤ n ∧ (byFrequency t).rank place.var = .ok k) ∧
    (∀ j k p q, 0 < j → j < k → (byFrequency t).place j = .ok p → (byFrequency t).place k = .ok q →
      Ahead t p.var q.var) ∧
    (byFrequency t).pureRanks = List.range' 1 (byFrequency t).pureCount ∧
    (byFrequency t).pureCount = (List.range' 1 n).countP (fun x => (t.get x).isPure) ∧
    ∀ l : Literal, 0 < l.var → l.var ≤ n →
      (∃ m, (byFrequency t).toRanked l = .ok m ∧ (byFrequency t).ofRanked m = .ok l) ∧
      ∃ m, (byFrequency t).ofRanked l = .ok m ∧ (byFrequency t).toRanked m = .ok l := by
  have hinverse := inverse_byFrequency hn
  have hsize := hinverse.size_places
  refine ⟨?_, ?_, ?_, ?_, pureRanks_byFrequency t, ?_, fun l => hinverse.literal⟩
  · rw [variableCount, hinverse.size_ranks, Nat.add_sub_cancel]
  · intro x hx hxn
    have hk := hinverse.rankOf_mem x hx hxn
    refine ⟨_, _, hinverse.rank_eq_ok hxn, hk.1, hk.2, hinverse.place_eq_ok hk.2, ?_⟩
    rw [place_rankOf_byFrequency hn hx hxn]
    simp [Frequency.preferred, Frequency.isPure]
  · intro k hk hkn
    have hx := hinverse.varAt_mem k hk hkn
    refine ⟨_, hinverse.place_eq_ok hkn, hx.1, hx.2, ?_⟩
    show (byFrequency t).rank ((byFrequency t).varAt k) = .ok k
    rw [hinverse.rank_eq_ok hx.2, hinverse.rankOf_varAt k hk hkn]
  · intro j k p q hj hjk hp hq
    have hk : k < (byFrequency t).places.size :=
      (Array.getElem?_eq_some_iff.1 (Fault.lookup_eq_ok.1 hq)).1
    rw [hinverse.place_eq_ok (by omega), Except.ok.injEq] at hp hq
    subst hp hq
    exact ahead_varAt hn hj hjk (by omega)
  · rw [pureCount_byFrequency, hn, Nat.add_sub_cancel]

/-- Variables 2 and 4 are pure, the latter since it does not occur, and 1 and 3 occur equally often. -/
theorem ranked_byFrequency_ties : ∃ t : FrequencyTable,
    t = #[⟨7, 7⟩, ⟨3, 2⟩, ⟨2, 0⟩, ⟨2, 3⟩, ⟨0, 0⟩, ⟨1, 1⟩] ∧ t.size = 5 + 1 ∧
      (byFrequency t).pureRanks = [1, 2] ∧
      ∀ j k p q, 0 < j → j < k → (byFrequency t).place j = .ok p →
        (byFrequency t).place k = .ok q → Ahead t p.var q.var := by
  have hn : (#[⟨7, 7⟩, ⟨3, 2⟩, ⟨2, 0⟩, ⟨2, 3⟩, ⟨0, 0⟩, ⟨1, 1⟩] : FrequencyTable).size = 5 + 1 := rfl
  obtain ⟨-, -, -, hahead, hpure, hcount, -⟩ := ranked_byFrequency hn
  refine ⟨_, rfl, hn, ?_, hahead⟩
  rw [hpure, hcount]
  rfl

end ClauseSearch.Ranking
