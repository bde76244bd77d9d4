import ClauseSearch.Proofs.Descent
import ClauseSearch.Proofs.Preference
import ClauseSearch.Search.Tree

/-! What a search of the extensions of a valuation comes to. It finds leaves, each a valuation that satisfies
every clause by itself, and no two leaves have an assignment in common; if the search ends because nothing
is left, every model among the extensions is at some leaf. A search that stops at a leaf stops at the one that
comes first in the order of preference, and one that no check stops finds the leaves that its rule leads to.
The account of a node is put together from the accounts of what lies below it. -/

namespace ClauseSearch.Search

open Relation

variable {p : Prepared} {o : Options} {watch : Watch} {cursor rank : Nat} {v w : Valuation}
  {ending : Ending} {leaves leaves' : List Valuation} {b : Bool} {reason : Interruption}

def record (p : Prepared) (o : Options) (found : Solutions) (w : Valuation) : Solutions where
  model := some (found.model.getD (p.modelOf w))
  cubes := if o.enumerate && o.keepModels then found.cubes.push (p.cubeOf w) else found.cubes
  count :=
    Solutions.addCounts found.count (Solutions.assignments (w.variableCount - w.valuedCount))

/-- The models are those of the leaves: each leaf has models alone, and no model is at two leaves or
missing. -/
structure Cover (p : Prepared) (leaves : List Valuation) : Prop where
  size : ∀ w ∈ leaves, w.slots.size = p.variableCount + 1
  solved : ∀ w ∈ leaves, Solved p w
  apart : leaves.Pairwise Valuation.Apart
  complete : ∀ a, p.formula.holds a = true → ∃ w ∈ leaves, w.admits a = true

/-- The account of a search of the extensions of a valuation: how it ends, and the leaves it finds. The
search decides ranks above the cursor only, and it ends with a rank missing only where that rank is not
above the cursor. -/
structure Explored (p : Prepared) (o : Options) (watch : Watch) (cursor : Nat) (v : Valuation)
    (ending : Ending) (leaves : List Valuation) : Prop where
  size : ∀ w ∈ leaves, w.slots.size = v.slots.size
  extends_start : ∀ w ∈ leaves, w.Extends v
  solved : ∀ w ∈ leaves, Solved p w
  apart : leaves.Pairwise Valuation.Apart
  complete : ending = .ok .exhausted → ∀ a, v.admits a = true → p.formula.holds a = true →
    ∃ w ∈ leaves, w.admits a = true
  satisfiable : ending = .ok .satisfiable → o.enumerate = false ∧ leaves ≠ []
  unsolved : o.enumerate = false → ending ≠ .ok .satisfiable → leaves = []
  failure : ∀ e, ending = .error e →
    (∃ k reason, watch k = some reason ∧ e = .interrupted reason) ∨
      (∃ depth count, e = .variablesExhausted depth count) ∧
        ∃ r, 0 < r ∧ r ≤ cursor ∧ v.value? r = none
  foremost : o.enumerate = false → (∀ r, 0 < r → r ≤ cursor → v.value? r ≠ none) →
    ∀ w ∈ leaves, p.Foremost v w
  descends : (∀ k, watch k = none) → (∀ r, 0 < r → r ≤ cursor → v.value? r ≠ none) →
    Descends p o.enumerate v leaves

/-! ### What leaves record -/

theorem count_record_le {found : Solutions} :
    (record p o found w).count ≤ Solutions.countLimit := Nat.min_le_right ..

theorem count_foldl_record_le {found : Solutions} (h : found.count ≤ Solutions.countLimit) :
    (leaves.foldl (record p o) found).count ≤ Solutions.countLimit := by
  induction leaves generalizing found with
  | nil => exact h
  | cons w leaves ih => exact ih count_record_le

theorem count_foldl_record_pos :
    0 < (leaves.foldl (record p o) {}).count ↔ leaves ≠ [] := by
  induction leaves using List.reverseRecOn with
  | nil => simp
  | append_singleton leaves w _ =>
    have hpos : 0 < 1 <<< (w.variableCount - w.valuedCount) := by
      rw [Nat.one_shiftLeft]
      exact Nat.two_pow_pos _
    have hlimit : 0 < Solutions.countLimit := by decide
    refine iff_of_true ?_ (by simp)
    simp only [List.foldl_append, List.foldl_cons, List.foldl_nil, record, Solutions.addCounts,
      Solutions.assignments_eq]
    omega

theorem model_foldl_record {found : Solutions} : (leaves.foldl (record p o) found).model =
    found.model.or (leaves.head?.map p.modelOf) := by
  induction leaves generalizing found with
  | nil => simp
  | cons w leaves ih =>
    rw [List.foldl_cons, ih]
    cases hmodel : found.model <;> simp [record, hmodel]

theorem absorb_foldl_record {found : Solutions} (h : found.count ≤ Solutions.countLimit) :
    found.absorb (leaves.foldl (record p o) {}) = leaves.foldl (record p o) found := by
  induction leaves using List.reverseRecOn with
  | nil =>
    obtain ⟨model, cubes, count⟩ := found
    simp only [List.foldl_nil, Solutions.absorb, Solutions.addCounts, Option.or_none]
    congr 1
    exact Nat.min_eq_left h
  | append_singleton leaves w ih =>
    rw [List.foldl_append, List.foldl_append, ← ih]
    simp only [List.foldl_cons, List.foldl_nil, record, Solutions.absorb, Solutions.addCounts_assoc]
    congr 1
    · cases found.model <;> simp
    · split
      · rw [Array.append_push]
      · rfl

/-! ### Ends -/

theorem explored_conflict (hp : p.Proper) (h : p.formula.ConflictOn v) :
    Explored p o watch cursor v (.ok .exhausted) [] where
  size := by simp
  extends_start := by simp
  solved := by simp
  apart := .nil
  complete _ a hv ha := by simp [h.holds_eq_false hp.ranged hv] at ha
  satisfiable h := by simp at h
  unsolved _ _ := rfl
  failure e h := by simp at h
  foremost := by simp
  descends _ _ := .conflict ((Formula.unitRun_iff_of_conflict .refl h).2 rfl)

/-- Where every clause is satisfied, the valuation is the leaf. -/
theorem explored_leaf (h : Solved p v) :
    Explored p o watch cursor v (.ok (if o.enumerate then .exhausted else .satisfiable)) [v] where
  size := by simp
  extends_start := by simp [Valuation.Extends.refl]
  solved := by simpa using h
  apart := List.pairwise_singleton ..
  complete _ a hv _ := ⟨v, by simp, hv⟩
  satisfiable h := by
    cases he : o.enumerate with
    | true => simp [he] at h
    | false => simp
  unsolved he h := by simp [he] at h
  failure e h := by simp at h
  foremost _ _ := by simpa using Prepared.foremost_self
  descends _ _ := .leaf ((Formula.unitRun_iff_of_settled .refl h.settled).2 rfl) h

theorem explored_interrupted {k : Nat} (h : watch k = some reason) :
    Explored p o watch cursor v (.error (.interrupted reason)) [] where
  size := by simp
  extends_start := by simp
  solved := by simp
  apart := .nil
  complete h := by simp at h
  satisfiable h := by simp at h
  unsolved _ _ := rfl
  failure e he := by
    cases he
    exact .inl ⟨k, reason, h, rfl⟩
  foremost := by simp
  descends hquiet := by simp [hquiet k] at h

theorem explored_stuck {depth count : Nat} (h : ∃ r, 0 < r ∧ r ≤ cursor ∧ v.value? r = none) :
    Explored p o watch cursor v (.error (.variablesExhausted depth count)) [] where
  size := by simp
  extends_start := by simp
  solved := by simp
  apart := .nil
  complete h := by simp at h
  satisfiable h := by simp at h
  unsolved _ _ := rfl
  failure e he := by
    cases he
    exact .inr ⟨⟨_, _, rfl⟩, h⟩
  foremost := by simp
  descends _ hcursor := by
    obtain ⟨r, hr, hle, hnone⟩ := h
    exact absurd hnone (hcursor r hr hle)

/-! ### Steps towards the root -/

/-- A search that no check stops, and that begins with a value for every rank up to the cursor, ends with
what it has found. -/
theorem Explored.ending_eq (h : Explored p o watch cursor v ending leaves) (hquiet : ∀ k, watch k = none)
    (hcursor : ∀ r, 0 < r → r ≤ cursor → v.value? r ≠ none) :
    ending = .ok (if o.enumerate = false ∧ leaves ≠ [] then .satisfiable else .exhausted) := by
  cases ending with
  | error e =>
    rcases h.failure e rfl with ⟨k, reason, hwatch, -⟩ | ⟨-, r, hpos, hle, hnone⟩
    · simp [hquiet k] at hwatch
    · exact absurd hnone (hcursor r hpos hle)
  | ok found =>
    cases found with
    | satisfiable => rw [if_pos (h.satisfiable rfl)]
    | exhausted => rw [if_neg fun ⟨he, hne⟩ => hne (h.unsolved he (by simp))]

/-- What is found below what unit propagation derives is found below the valuation itself. -/
theorem Explored.before (h : Explored p o watch cursor w ending leaves) (hp : p.Proper)
    (hv : v.slots.size = p.variableCount + 1) (hsteps : ReflTransGen p.formula.UnitStep v w) :
    Explored p o watch cursor v ending leaves :=
  { h with
    size := fun u hu => (h.size u hu).trans (Formula.size_of_steps hsteps)
    extends_start := fun u hu => (h.extends_start u hu).trans (Formula.extends_of_steps hsteps)
    complete := fun hend a ha hholds =>
      h.complete hend a (Formula.admits_of_steps hp.ranged hv hsteps hholds ha) hholds
    failure := fun e he => (h.failure e he).imp_right fun ⟨hexhausted, r, hr, hle, hnone⟩ =>
      ⟨hexhausted, r, hr, hle, (Formula.extends_of_steps hsteps).value?_eq_none hnone⟩
    foremost := fun he hlow u hu a ha hholds =>
      h.foremost he (fun r hr hle hnone =>
          hlow r hr hle ((Formula.extends_of_steps hsteps).value?_eq_none hnone))
        u hu a (Formula.admits_of_steps hp.ranged hv hsteps hholds ha) hholds
    descends := fun hquiet hcursor => (h.descends hquiet fun r hr hle hnone =>
      hcursor r hr hle ((Formula.extends_of_steps hsteps).value?_eq_none hnone)).before hsteps }

section Branch

variable (hr : 0 < rank) (hlt : rank < v.slots.size) (hv : v.value? rank = none)
  (hlow : ∀ r, cursor < r → r < rank → v.value? r ≠ none) (hsettled : p.formula.Settled v)
  (hopen : ¬ Solved p v)

include hlt hv hlow in
/-- A rank missing below a decision was missing before, and it is not above the cursor. -/
theorem Explored.failure_before
    (h : Explored p o watch rank (v.put rank (some b)) ending leaves) (e : SearchError)
    (he : ending = .error e) :
    (∃ k reason, watch k = some reason ∧ e = .interrupted reason) ∨
      (∃ depth count, e = .variablesExhausted depth count) ∧
        ∃ r, 0 < r ∧ r ≤ cursor ∧ v.value? r = none := by
  refine (h.failure e he).imp_right fun ⟨hexhausted, r, hpos, hle, hnone⟩ => ⟨hexhausted, r, hpos, ?_⟩
  have hne : r ≠ rank := by
    rintro rfl
    rw [Valuation.value?_put_self hlt] at hnone
    exact absurd hnone (by simp)
  rw [Valuation.value?_put_ne hne] at hnone
  exact ⟨Nat.le_of_not_lt fun hcursor => hlow r hcursor (by omega) hnone, hnone⟩

include hlt hlow in
theorem valued_put (hcursor : ∀ r, 0 < r → r ≤ cursor → v.value? r ≠ none) (r : Nat) (hr : 0 < r)
    (hle : r ≤ rank) : (v.put rank (some b)).value? r ≠ none := by
  by_cases hrank : r = rank
  · rw [hrank, Valuation.value?_put_self hlt]
    simp
  · rw [Valuation.value?_put_ne hrank]
    by_cases hc : r ≤ cursor
    · exact hcursor r hr hc
    · exact hlow r (by omega) (by omega)

include hr hv hlow in
/-- Above a cursor below which every rank has a value, the rank is the lowest without one. -/
theorem lowest_of_cursor (hcursor : ∀ r, 0 < r → r ≤ cursor → v.value? r ≠ none) : Lowest v rank where
  pos := hr
  unvalued := hv
  valued r hpos hless := (Nat.lt_or_ge cursor r).elim (fun h => hlow r h hless) (hcursor r hpos)

include hr hlt hv hlow hsettled hopen in
/-- A search that does not go on past the preferred polarity accounts for the node. -/
theorem Explored.first (hb : b = (p.ranking.placeAt rank).preferred)
    (h : Explored p o watch rank (v.put rank (some b)) ending leaves)
    (hend : ending ≠ .ok .exhausted) : Explored p o watch cursor v ending leaves where
  size w hw := (h.size w hw).trans Valuation.size_put
  extends_start w hw := (h.extends_start w hw).trans (Valuation.extends_put hv)
  solved := h.solved
  apart := h.apart
  complete hexhausted := absurd hexhausted hend
  satisfiable := h.satisfiable
  unsolved := h.unsolved
  failure := h.failure_before hlt hv hlow
  foremost he hcursor w hw := by
    subst hb
    have hvalued := valued_put (b := (p.ranking.placeAt rank).preferred) hlt hlow hcursor
    refine (h.foremost he hvalued w hw).of_put hr hlt hv (fun r hr hless => ?_) (h.extends_start w hw)
    rw [← Valuation.value?_put_ne (Nat.ne_of_lt hless)]
    exact hvalued r hr (Nat.le_of_lt hless)
  descends hquiet hcursor := by
    subst hb
    have hvalued := valued_put (b := (p.ranking.placeAt rank).preferred) hlt hlow hcursor
    refine .first ((Formula.unitRun_iff_of_settled .refl hsettled).2 rfl) hopen
      (lowest_of_cursor hr hv hlow hcursor) (h.descends hquiet hvalued) ?_
    by_contra hgoes
    exact hend (by rw [h.ending_eq hquiet hvalued, if_neg hgoes])

include hr hlt hv hlow hsettled hopen in
/-- The accounts of the two polarities, of which the first is exhausted, make one of the node. -/
theorem Explored.both (hb : b = (p.ranking.placeAt rank).preferred)
    (h : Explored p o watch rank (v.put rank (some b)) (.ok .exhausted) leaves)
    (h' : Explored p o watch rank (v.put rank (some !b)) ending leaves') :
    Explored p o watch cursor v ending (leaves ++ leaves') where
  size := List.forall_mem_append.2
    ⟨fun w hw => (h.size w hw).trans Valuation.size_put,
      fun w hw => (h'.size w hw).trans Valuation.size_put⟩
  extends_start := List.forall_mem_append.2
    ⟨fun w hw => (h.extends_start w hw).trans (Valuation.extends_put hv),
      fun w hw => (h'.extends_start w hw).trans (Valuation.extends_put hv)⟩
  solved := List.forall_mem_append.2 ⟨h.solved, h'.solved⟩
  apart := List.pairwise_append.2 ⟨h.apart, h'.apart, fun w hw w' hw' =>
    (Valuation.apart_put hr hlt hv).mono (h.extends_start w hw) (h'.extends_start w' hw')⟩
  complete hend a ha hholds := by
    -- the assignment has one of the two values at the rank
    by_cases hab : a rank = b
    · obtain ⟨w, hw, hwa⟩ := h.complete rfl a ((Valuation.admits_put hr hlt hv).2 ⟨ha, hab⟩) hholds
      exact ⟨w, List.mem_append_left _ hw, hwa⟩
    · obtain ⟨w, hw, hwa⟩ := h'.complete hend a
        ((Valuation.admits_put hr hlt hv).2 ⟨ha, Bool.eq_not_of_ne hab⟩) hholds
      exact ⟨w, List.mem_append_right _ hw, hwa⟩
  satisfiable hend := by
    obtain ⟨henumerate, hne⟩ := h'.satisfiable hend
    exact ⟨henumerate, List.append_ne_nil_of_right_ne_nil _ hne⟩
  unsolved he hend := by rw [h.unsolved he (by simp), h'.unsolved he hend, List.append_nil]
  failure := h'.failure_before hlt hv hlow
  foremost he hcursor := by
    -- nothing is found below the first value, so every model has the other one
    obtain rfl := h.unsolved he (by simp)
    intro w hw a ha hholds
    have hab : a rank = !b := Bool.eq_not_of_ne fun hab => by
      obtain ⟨w, hw, -⟩ := h.complete rfl a ((Valuation.admits_put hr hlt hv).2 ⟨ha, hab⟩) hholds
      simp at hw
    exact h'.foremost he (valued_put hlt hlow hcursor) w hw a
      ((Valuation.admits_put hr hlt hv).2 ⟨ha, hab⟩) hholds
  descends hquiet hcursor := by
    subst hb
    have hfirst := h.descends hquiet (valued_put hlt hlow hcursor)
    have hsecond := h'.descends hquiet (valued_put hlt hlow hcursor)
    exact .both ((Formula.unitRun_iff_of_settled .refl hsettled).2 rfl) hopen
      (lowest_of_cursor hr hv hlow hcursor) hfirst
      (fun ⟨he, hne⟩ => hne (h.unsolved he (by simp))) hsecond

end Branch

end ClauseSearch.Search
