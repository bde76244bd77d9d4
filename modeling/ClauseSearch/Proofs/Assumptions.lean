import ClauseSearch.Proofs.Propagation

/-! Values held before a search begins: none at first, those of another search in a fork, and those assumed
on top. Assuming a literal fails on a contradiction alone, and assuming the pure ranks takes no model from
a formula that has one. -/

namespace ClauseSearch.Search

variable {p : Prepared} {s t : Search} {v w : Valuation} {l : Literal} {rank : Nat} {ranks : List Nat}

/-! ### Beginning -/

theorem sound_fresh (p : Prepared) : (fresh p).Sound p where
  slots := Valuation.size_fresh _
  top := Valuation.value?_fresh_zero _
  valuedCount := (Valuation.valuedCount_fresh _).symm
  flags := Array.size_replicate
  flaggedCount := by
    symm
    simp only [flagCount, fresh, List.countP_eq_zero, Array.size_replicate, List.mem_range]
    intro c hc
    simp [hc]
  logged_nodup := List.nodup_nil
  logged_valued := by simp [fresh, BoundedStack.empty, ranksOf]
  marked_nodup := List.nodup_nil
  marked_flagged := by simp [fresh, BoundedStack.empty, clausesOf]
  levels := rfl
  queue_nodup := List.nodup_nil
  queue_valued := by simp [fresh, BoundedStack.empty]
  queue_capacity := BoundedStack.capacity_empty _
  assigned_capacity := BoundedStack.capacity_empty _
  marks_capacity := BoundedStack.capacity_empty _
  satisfied id c _ hflag := by
    simp only [fresh, Array.getElem?_replicate] at hflag
    split at hflag <;> simp at hflag

theorem Coherent.fork (hs : s.Coherent p) : s.fork.Coherent p :=
  { hs with
    logged_nodup := List.nodup_nil
    logged_valued := by simp [Search.fork, BoundedStack.empty, ranksOf]
    marked_nodup := List.nodup_nil
    marked_flagged := by simp [Search.fork, BoundedStack.empty, clausesOf]
    levels := rfl
    queue_nodup := List.nodup_nil
    queue_valued := by simp [Search.fork, BoundedStack.empty]
    queue_capacity := by rw [← hs.variableCount_eq]; exact BoundedStack.capacity_empty _
    assigned_capacity := by rw [← hs.variableCount_eq]; exact BoundedStack.capacity_empty _
    marks_capacity := by
      rw [← hs.variableCount_eq, ← hs.flags]
      exact BoundedStack.capacity_empty _ }

theorem Sound.fork (hs : s.Sound p) : s.fork.Sound p where
  toCoherent := hs.toCoherent.fork
  satisfied := hs.satisfied

/-! ### Assuming -/

@[simp] theorem holding_holding : (s.holding v).holding w = s.holding w := rfl

theorem Coherent.holding_self (h : s.Coherent p) : s.holding s.valuation = s := by
  rw [Search.holding, ← h.valuedCount]

theorem Sound.holding (hs : s.Sound p) (hsize : v.slots.size = s.valuation.slots.size)
    (hext : v.Extends s.valuation) : (s.holding v).Sound p where
  toCoherent := hs.toCoherent.holding hsize hext
  satisfied := hs.satisfied_of_extends rfl hext

/-- Assuming a literal that is not false makes it true and changes nothing else. -/
theorem assume?_eq_some (hs : s.Coherent p) (hr : 0 < l.var) (hn : l.var ≤ p.variableCount)
    (hl : s.valuation.value? l.var ≠ some (!l.polarity)) :
    ∃ v : Valuation, s.assume? l = .ok (some (s.holding v)) ∧
      v.slots.size = s.valuation.slots.size ∧ v.Extends s.valuation ∧
      ∀ x, v.value? x = if x = l.var then some l.polarity else s.valuation.value? x := by
  rcases Clause.value?_literal s.valuation l with hv | hv | hv
  · refine ⟨s.valuation.put l.var (some l.polarity), ?_, Valuation.size_put,
      Valuation.extends_put hv, fun x => Valuation.value?_put (hs.lt_slots hn)⟩
    simp only [assume?, hv]
    rw [assign_eq_ok_of_none (hs.lt_slots hn) hv, hs.valued_eq hr hn hv]
    rfl
  · refine ⟨s.valuation, ?_, rfl, .refl _, fun x => ?_⟩
    · simp only [assume?, hv, Literal.satisfiedBy, beq_self_eq_true, if_true]
      rw [hs.holding_self]
    · by_cases hx : x = l.var
      · rw [if_pos hx, hx, hv]
      · rw [if_neg hx]
  · exact absurd hv hl

theorem assume?_eq_none (hl : s.valuation.value? l.var = some (!l.polarity)) :
    s.assume? l = .ok none := by
  simp [assume?, hl, Literal.satisfiedBy]

theorem exists_holding_of_assume (hs : s.Coherent p) (hr : 0 < l.var) (hn : l.var ≤ p.variableCount)
    (h : s.assume? l = .ok (some t)) :
    ∃ v : Valuation, t = s.holding v ∧ v.slots.size = s.valuation.slots.size ∧
      v.Extends s.valuation := by
  have hl : s.valuation.value? l.var ≠ some (!l.polarity) := fun hl => by
    simp [assume?_eq_none hl] at h
  obtain ⟨v, hassume, hsize, hext, -⟩ := assume?_eq_some hs hr hn hl
  rw [h] at hassume
  cases hassume
  exact ⟨v, rfl, hsize, hext⟩

/-- The assignments admitted after a literal was assumed are those that make it true. -/
theorem admits_assumed {a : Assignment} (hr : 0 < l.var) (hext : w.Extends v)
    (hread : ∀ x, w.value? x = if x = l.var then some l.polarity else v.value? x) :
    w.admits a = true ↔ v.admits a = true ∧ a l.var = l.polarity := by
  constructor
  · intro h
    exact ⟨Valuation.admits_of_extends hext h,
      Valuation.admits_iff.1 h _ _ hr (by rw [hread, if_pos rfl])⟩
  · rintro ⟨h, hal⟩
    refine Valuation.admits_iff.2 fun x b hx hv => ?_
    rw [hread] at hv
    split at hv
    · rename_i heq
      rw [heq, hal]
      exact Option.some.inj hv
    · exact Valuation.admits_iff.1 h x b hx hv

/-! ### Pure ranks -/

/-- The value a rank gets from assuming pure ranks: its preferred polarity, if it is one of them. -/
def pureValue (p : Prepared) (ranks : List Nat) (x : Nat) : Option Bool :=
  if x ∈ ranks then some (p.ranking.placeAt x).preferred else none

theorem foldlM_assumePure (hp : p.Proper) (hs : s.Coherent p)
    (hranks : ∀ k ∈ ranks, 0 < k ∧ k ≤ p.variableCount) :
    ∃ v : Valuation, ranks.foldlM (fun (s : Search) rank => do
          match s.valuation.value? rank with
          | some _ => return s
          | none => s.assign rank (← p.ranking.place rank).preferred) s = .ok (s.holding v) ∧
      v.slots.size = s.valuation.slots.size ∧ v.Extends s.valuation ∧
      ∀ x, v.value? x = (s.valuation.value? x).or (pureValue p ranks x) := by
  induction ranks generalizing s with
  | nil =>
    refine ⟨s.valuation, ?_, rfl, .refl _, fun x => by simp [pureValue]⟩
    rw [hs.holding_self]
    rfl
  | cons k ranks ih =>
    obtain ⟨hk, hn⟩ := hranks k List.mem_cons_self
    have hrest := fun k' h => hranks k' (List.mem_cons_of_mem k h)
    cases hv : s.valuation.value? k with
    | some b =>
      obtain ⟨v, hfold, hsize, hext, hread⟩ := ih hs hrest
      refine ⟨v, ?_, hsize, hext, fun x => ?_⟩
      · rw [Sequence.foldlM_cons_ok (t := s) (by simp only [hv]; rfl), hfold]
      · rw [hread]
        by_cases hx : x = k
        · simp [hx, hv]
        · simp [pureValue, hx]
    | none =>
      let w := s.valuation.put k (some (p.ranking.placeAt k).preferred)
      have hw : w.Extends s.valuation := Valuation.extends_put hv
      have hstep : s.assign k (p.ranking.placeAt k).preferred = .ok (s.holding w) := by
        rw [assign_eq_ok_of_none (hs.lt_slots hn) hv, hs.valued_eq hk hn hv]
      obtain ⟨v, hfold, hsize, hext, hread⟩ := ih (hs.holding Valuation.size_put hw) hrest
      refine ⟨v, ?_, hsize.trans Valuation.size_put, hext.trans hw, fun x => ?_⟩
      · rw [Sequence.foldlM_cons_ok (t := s.holding w) ?_, hfold, holding_holding]
        simp only [hv]
        rw [hp.place_eq_ok hn]
        exact hstep
      · change ∀ x, v.value? x = (w.value? x).or _ at hread
        rw [hread, Valuation.value?_put (hs.lt_slots hn)]
        by_cases hx : x = k
        · simp [hx, hv, pureValue]
        · simp [pureValue, hx]

/-- Assuming pure ranks gives those without a value their preferred polarity. -/
theorem assumePure_eq_ok (hp : p.Proper) (hs : s.Coherent p) :
    ∃ v : Valuation, s.assumePure p = .ok (s.holding v) ∧
      v.slots.size = s.valuation.slots.size ∧ v.Extends s.valuation ∧
      ∀ x, v.value? x = (s.valuation.value? x).or (pureValue p p.ranking.pureRanks x) :=
  foldlM_assumePure hp hs fun _ hk => ((Ranking.mem_pureRanks hp.inverse).1 hk).1

theorem exists_holding_of_assumePure (hp : p.Proper) (hs : s.Coherent p) (h : s.assumePure p = .ok t) :
    ∃ v : Valuation, t = s.holding v ∧ v.slots.size = s.valuation.slots.size ∧
      v.Extends s.valuation := by
  obtain ⟨v, hassume, hsize, hext, -⟩ := assumePure_eq_ok hp hs
  rw [h] at hassume
  cases hassume
  exact ⟨v, rfl, hsize, hext⟩

/-- Giving pure ranks their preferred polarity keeps every clause satisfied. -/
theorem exists_admitted_of_pure (hp : p.Proper) {a : Assignment} (hv : v.admits a = true)
    (ha : p.formula.holds a = true)
    (hw : ∀ x, w.value? x = (v.value? x).or (pureValue p p.ranking.pureRanks x)) :
    ∃ a', w.admits a' = true ∧ p.formula.holds a' = true := by
  refine ⟨fun x => (w.value? x).getD (a x), Valuation.admits_iff.2 fun x b _ hx => by simp [hx], ?_⟩
  rw [Formula.holds_eq_true_iff] at ha ⊢
  intro c hc
  obtain ⟨l, hl, hal⟩ := Clause.holds_iff.1 (ha c hc)
  refine Clause.holds_iff.2 ⟨l, hl, ?_⟩
  have hpos := (hp.ranged c hc l hl).1
  cases hx : v.value? l.var with
  | some b => simp [hw, hx, ← Valuation.admits_iff.1 hv _ _ hpos hx, hal]
  | none =>
    by_cases hk : l.var ∈ p.ranking.pureRanks
    · have hmem : l ∈ p.formula.literals := Formula.mem_literals.2 ⟨c, hc, hl⟩
      simp [hw, hx, pureValue, hk, hp.pure _ hk l hmem rfl]
    · simp [hw, hx, pureValue, hk, hal]

end ClauseSearch.Search
