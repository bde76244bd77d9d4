import ClauseSearch.Proofs.Leaves
import Mathlib.Algebra.BigOperators.Fin
import Mathlib.Data.Fintype.BigOperators

/-! Counting models. A valuation admits one assignment for each way to fill its empty slots, leaves that are
apart count without overlap, and renaming the variables does not change how many models there are. So the
count that leaves record is the number of models, up to the limit, and each model is in one kept cube. -/

namespace ClauseSearch

open Search

/-- The assignment with the values given for the variables `1..n`, and false elsewhere. -/
def Assignment.ofFin {n : Nat} (b : Fin n → Bool) : Assignment := fun x =>
  if h : 0 < x ∧ x ≤ n then b ⟨x - 1, by omega⟩ else false

/-- How many ways to value the variables `1..n` have a property. -/
def countAssignments (n : Nat) (q : Assignment → Bool) : Nat :=
  (Finset.univ.filter fun b : Fin n → Bool => q (.ofFin b) = true).card

variable {p : Prepared} {f : Formula} {o : Options} {v : Valuation} {leaves : List Valuation} {n x : Nat}
  {q q' : Assignment → Bool} {a a' : Assignment} {found : Solutions}

theorem Assignment.ofFin_apply (b : Fin n → Bool) (hx : 0 < x) (hn : x ≤ n) :
    Assignment.ofFin b x = b ⟨x - 1, by omega⟩ := dif_pos ⟨hx, hn⟩

theorem Assignment.ofFin_succ (b : Fin n → Bool) (i : Fin n) : Assignment.ofFin b (i + 1) = b i :=
  ofFin_apply b (Nat.succ_pos _) i.isLt

theorem Assignment.ofFin_restrict (a : Assignment) (hx : 0 < x) (hn : x ≤ n) :
    Assignment.ofFin (fun i : Fin n => a (i + 1)) x = a x := by
  rw [ofFin_apply _ hx hn, Nat.sub_add_cancel hx]

theorem countAssignments_congr (h : ∀ a, q a = q' a) : countAssignments n q = countAssignments n q' := by
  rw [funext h]

/-! ### One valuation -/

def Valuation.allowed (v : Valuation) (x : Nat) : Finset Bool :=
  match v.value? x with
  | some b => {b}
  | none => Finset.univ

theorem Valuation.prod_card_allowed (v : Valuation) (n : Nat) :
    ∏ i ∈ Finset.range n, (v.allowed (i + 1)).card =
      2 ^ (List.range' 1 n).countP fun x => !(v.value? x).isSome := by
  induction n with
  | zero => rfl
  | succ n ih =>
    rw [Finset.prod_range_succ, ih, List.range'_1_concat, List.countP_append, Nat.pow_add,
      Nat.add_comm 1 n]
    congr 1
    unfold allowed
    cases hv : v.value? (n + 1) <;> simp [hv]

theorem Valuation.filter_admits_eq (hv : v.variableCount = n) :
    (Finset.univ.filter fun b : Fin n → Bool => v.admits (.ofFin b) = true) =
      Fintype.piFinset fun i : Fin n => v.allowed (i + 1) := by
  ext b
  simp only [Finset.mem_filter, Finset.mem_univ, true_and, admits_iff, Fintype.mem_piFinset]
  constructor
  · intro h i
    unfold allowed
    split
    · rename_i c hc
      rw [← h _ c (Nat.succ_pos _) hc, Assignment.ofFin_succ, Finset.mem_singleton]
    · exact Finset.mem_univ _
  · intro h x c hx hc
    have hle := le_variableCount_of_value? hc
    have hmem := h ⟨x - 1, by omega⟩
    simp only [Nat.sub_add_cancel hx, allowed, hc, Finset.mem_singleton] at hmem
    rw [Assignment.ofFin_apply b hx (by omega), hmem]

theorem Valuation.free_eq_countP (v : Valuation) : v.variableCount - v.valuedCount =
    (List.range' 1 v.variableCount).countP fun x => !(v.value? x).isSome := by
  have hsplit := List.length_eq_countP_add_countP (fun x => (v.value? x).isSome)
    (l := List.range' 1 v.variableCount)
  have hnot : (fun x => decide ¬ (v.value? x).isSome = true) = fun x => !(v.value? x).isSome := by
    funext x
    cases v.value? x <;> rfl
  rw [List.length_range', hnot] at hsplit
  simp only [valuedCount]
  omega

/-- A valuation admits one assignment for each way to fill its empty slots. -/
theorem countAssignments_admits (hv : v.slots.size = n + 1) :
    countAssignments n v.admits = 2 ^ (v.variableCount - v.valuedCount) := by
  have hcount : v.variableCount = n := by simp [Valuation.variableCount, hv]
  rw [countAssignments, Valuation.filter_admits_eq hcount, Fintype.card_piFinset, v.free_eq_countP,
    hcount, ← Valuation.prod_card_allowed,
    Fin.prod_univ_eq_prod_range fun i => (v.allowed (i + 1)).card]

/-! ### Leaves -/

/-- Leaves that are apart admit the sum of what each admits. -/
theorem countAssignments_any (hsize : ∀ w ∈ leaves, w.slots.size = n + 1)
    (hapart : leaves.Pairwise Valuation.Apart) :
    countAssignments n (fun a => leaves.any (·.admits a)) =
      (leaves.map fun w => 2 ^ (w.variableCount - w.valuedCount)).sum := by
  induction leaves with
  | nil => simp [countAssignments]
  | cons w leaves ih =>
    obtain ⟨hw, hrest⟩ := List.forall_mem_cons.1 hsize
    obtain ⟨hfirst, hapart⟩ := List.pairwise_cons.1 hapart
    have hdisjoint : Disjoint
        (Finset.univ.filter fun b : Fin n → Bool => w.admits (.ofFin b) = true)
        (Finset.univ.filter fun b : Fin n → Bool => leaves.any (·.admits (.ofFin b)) = true) := by
      refine Finset.disjoint_filter.2 fun b _ hb hany => ?_
      obtain ⟨w', hw', hb'⟩ := List.any_eq_true.1 hany
      simp [hfirst w' hw' _ hb] at hb'
    rw [List.map_cons, List.sum_cons, ← ih hrest hapart, ← countAssignments_admits hw]
    simp only [countAssignments, List.any_cons, Bool.or_eq_true, Finset.filter_or]
    exact Finset.card_union_of_disjoint hdisjoint

/-- What leaves count, up to the limit. -/
theorem count_foldl_record (h : found.count ≤ Solutions.countLimit) :
    (leaves.foldl (record p o) found).count =
      min (found.count + (leaves.map fun w => 2 ^ (w.variableCount - w.valuedCount)).sum)
        Solutions.countLimit := by
  induction leaves generalizing found with
  | nil => exact (Nat.min_eq_left h).symm
  | cons w leaves ih =>
    rw [List.foldl_cons, ih count_record_le, List.map_cons, List.sum_cons]
    simp only [record, Solutions.addCounts, Solutions.assignments_eq, Nat.one_shiftLeft]
    omega

/-- Where models are kept, each leaf leaves its cube. -/
theorem cubes_foldl_record (he : o.enumerate = true) (hk : o.keepModels = true) :
    (leaves.foldl (record p o) found).cubes.toList = found.cubes.toList ++ leaves.map p.cubeOf := by
  induction leaves generalizing found with
  | nil => simp
  | cons w leaves ih =>
    rw [List.foldl_cons, ih]
    simp [record, he, hk]

theorem cubes_foldl_record_of_not (h : (o.enumerate && o.keepModels) = false) :
    (leaves.foldl (record p o) found).cubes = found.cubes := by
  induction leaves generalizing found with
  | nil => rfl
  | cons w leaves ih =>
    rw [List.foldl_cons, ih]
    simp [record, h]

/-- Of valuations that are apart, one admits an assignment that some admits. -/
theorem countP_admits_eq_one (hapart : leaves.Pairwise Valuation.Apart)
    (h : ∃ w ∈ leaves, w.admits a = true) : (leaves.countP fun w => w.admits a) = 1 := by
  induction leaves with
  | nil => simp at h
  | cons w leaves ih =>
    obtain ⟨hfirst, hapart⟩ := List.pairwise_cons.1 hapart
    rw [List.countP_cons]
    by_cases hw : w.admits a = true
    · have hrest : (leaves.countP fun w => w.admits a) = 0 :=
        List.countP_eq_zero.2 fun w' hw' => by simp [hfirst w' hw' a hw]
      rw [hrest, if_pos hw]
    · obtain ⟨w', hmem, hw'⟩ := h
      rw [ih hapart ⟨w', (List.mem_cons.1 hmem).resolve_left fun heq => hw (heq ▸ hw'), hw'⟩,
        if_neg hw]

theorem Search.Cover.any_admits (h : Cover p leaves) (hp : p.Proper) (a : Assignment) :
    leaves.any (·.admits a) = p.formula.holds a := by
  rw [Bool.eq_iff_iff, List.any_eq_true]
  exact ⟨fun ⟨w, hw, ha⟩ => (h.solved w hw).holds hp ha, h.complete a⟩

/-! ### Renaming -/

theorem Formula.holds_congr (hf : f.Ranged) (h : ∀ x, 0 < x → x ≤ f.variableCount → a x = a' x) :
    f.holds a = f.holds a' := by
  rw [Bool.eq_iff_iff, holds_eq_true_iff, holds_eq_true_iff]
  refine forall₂_congr fun c hc => ?_
  rw [Clause.holds_iff, Clause.holds_iff]
  refine exists_congr fun l => and_congr_right fun hl => ?_
  rw [h l.var (hf c hc l hl).1 (hf c hc l hl).2]

/-- A formula and its prepared form have as many models. -/
theorem Prepared.countAssignments_eq (hp : p.Proper) (h : p.Renames f) (hf : f.Ranged) :
    countAssignments p.variableCount p.formula.holds = countAssignments f.variableCount f.holds := by
  rw [← h.variableCount]
  refine Finset.card_nbij' (fun b i => p.onVariables (.ofFin b) (i + 1))
    (fun b i => p.onRanks (.ofFin b) (i + 1)) ?_ ?_ ?_ ?_
  · intro b hb
    simp only [Finset.coe_filter_univ, Set.mem_ofPred_eq] at hb ⊢
    rw [← hb, ← holds_onVariables h]
    refine Formula.holds_congr hf fun x hx hn => ?_
    rw [← h.variableCount] at hn
    exact Assignment.ofFin_restrict _ hx hn
  · intro b hb
    simp only [Finset.coe_filter_univ, Set.mem_ofPred_eq] at hb ⊢
    rw [← hb, ← holds_onRanks hp h hf]
    exact Formula.holds_congr hp.ranged fun x hx hn => Assignment.ofFin_restrict _ hx hn
  · intro b _
    funext i
    obtain ⟨hpos, hle⟩ := hp.inverse.varAt_mem (i + 1) (Nat.succ_pos _) i.isLt
    calc p.onRanks (.ofFin fun j : Fin p.variableCount => p.onVariables (.ofFin b) (j + 1)) (i + 1)
        = p.onRanks (p.onVariables (.ofFin b)) (i + 1) := Assignment.ofFin_restrict _ hpos hle
      _ = Assignment.ofFin b (i + 1) := onRanks_onVariables hp (Nat.succ_pos _) i.isLt
      _ = b i := Assignment.ofFin_succ b i
  · intro b _
    funext i
    obtain ⟨hpos, hle⟩ := hp.inverse.rankOf_mem (i + 1) (Nat.succ_pos _) i.isLt
    calc p.onVariables (.ofFin fun j : Fin p.variableCount => p.onRanks (.ofFin b) (j + 1)) (i + 1)
        = p.onVariables (p.onRanks (.ofFin b)) (i + 1) := Assignment.ofFin_restrict _ hpos hle
      _ = Assignment.ofFin b (i + 1) := onVariables_onRanks hp (Nat.succ_pos _) i.isLt
      _ = b i := Assignment.ofFin_succ b i

/-- An assignment has the integers of the cube of a leaf exactly if the leaf admits it. -/
theorem Prepared.agrees_cubeOf_of_size (hp : p.Proper) (hv : v.slots.size = p.variableCount + 1)
    (a : Assignment) : a.agrees (p.cubeOf v) = v.admits (p.onRanks a) :=
  agrees_cubeOf hp (by simp [Valuation.variableCount, hv]) a

/-- The cubes of leaves that are apart divide the assignments that the leaves admit. -/
theorem Prepared.countP_agrees_cubeOf (hp : p.Proper) (hsize : ∀ w ∈ leaves, w.slots.size = p.variableCount + 1)
    (hapart : leaves.Pairwise Valuation.Apart) (a : Assignment) :
    (leaves.any (·.admits (p.onRanks a)) = true → (leaves.map p.cubeOf).countP a.agrees = 1) ∧
      ∀ cube ∈ leaves.map p.cubeOf, a.agrees cube = true →
        leaves.any (·.admits (p.onRanks a)) = true := by
  have hagrees : ∀ w ∈ leaves, a.agrees (p.cubeOf w) = w.admits (p.onRanks a) := fun w hw =>
    agrees_cubeOf_of_size hp (hsize w hw) a
  constructor
  · intro hany
    rw [List.countP_map, List.countP_congr fun w hw => by rw [Function.comp_apply, hagrees w hw]]
    exact countP_admits_eq_one hapart (List.any_eq_true.1 hany)
  · intro cube hcube hcubea
    obtain ⟨w, hw, rfl⟩ := List.mem_map.1 hcube
    exact List.any_eq_true.2 ⟨w, hw, by rw [← hagrees w hw, hcubea]⟩

end ClauseSearch
