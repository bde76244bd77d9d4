import ClauseSearch.Proofs.Assumptions
import ClauseSearch.Proofs.Leaves

/-! The parts of a node of the search. It propagates, and goes on by what that comes to: a conflict, a leaf to
record, a check that says to stop, no rank left to decide, or a decision. None of the parts can fail. A branch
comes to its first attempt, or to its second one where the first is exhausted. -/

namespace ClauseSearch.Search

variable {p : Prepared} {o : Options} {watch : Watch} {s t : Search} {v : Valuation}
  {rank depth cursor last count start : Nat} {decided conflict : Option Nat} {covered : Nat → Prop}
  {ending : Ending} {b : Bool}

theorem recordSolution_eq_ok (hp : p.Proper) (hs : s.Coherent p) :
    s.recordSolution p o = .ok { s with solutions := record p o s.solutions s.valuation } := by
  have hle : ¬ s.valuation.variableCount < s.valuedCount := by
    rw [hs.valuedCount]
    exact Nat.not_lt.2 Valuation.valuedCount_le
  have hcube := Prepared.cube_eq_ok hp s.valuation
  have hmodel := Prepared.model_eq_ok hp s.valuation
  rw [recordSolution, if_neg hle, record, ← hs.valuedCount]
  cases s.solutions.model with
  | some model =>
    by_cases hkeep : (o.enumerate && o.keepModels) = true
    · simp only [hkeep, if_true, hcube]
      rfl
    · simp only [hkeep]
      rfl
  | none =>
    by_cases hkeep : (o.enumerate && o.keepModels) = true
    · simp only [hkeep, if_true, hmodel, hcube]
      rfl
    · simp only [hkeep, hmodel]
      rfl

theorem traceDecision_eq_ok (o : Options) (s : Search) (depth : Nat) (hp : p.Proper)
    (hn : rank ≤ p.variableCount) :
    ∃ trace, s.traceDecision p o depth rank = .ok { s with trace } := by
  unfold traceDecision
  split
  · rw [hp.place_eq_ok hn]
    exact ⟨_, rfl⟩
  · exact ⟨s.trace, rfl⟩

theorem firstUnvalued?_eq_some (h : firstUnvalued? v start count = some rank) :
    v.value? rank = none ∧ ∀ r, start ≤ r → r < rank → v.value? r ≠ none := by
  induction count generalizing start with
  | zero => simp [firstUnvalued?] at h
  | succ count ih =>
    unfold firstUnvalued? at h
    split at h
    · rename_i hnone
      cases h
      exact ⟨Option.isNone_iff_eq_none.1 hnone, fun r hle hlt => by omega⟩
    · rename_i hsome
      obtain ⟨hnone, hlow⟩ := ih h
      refine ⟨hnone, fun r hle hlt => ?_⟩
      by_cases hr : r = start
      · rw [hr]
        simpa using hsome
      · exact hlow r (by omega) hlt

theorem firstUnvalued?_eq_none (h : firstUnvalued? v start count = none) {r : Nat}
    (hle : start ≤ r) (hlt : r < start + count) : v.value? r ≠ none := by
  induction count generalizing start with
  | zero => omega
  | succ count ih =>
    unfold firstUnvalued? at h
    split at h
    · exact absurd h (by simp)
    · rename_i hsome
      by_cases hr : r = start
      · rw [hr]
        simpa using hsome
      · exact ih h (by omega) (by omega)

theorem nextUnvalued?_eq_some (h : s.nextUnvalued? last cursor = some rank) :
    cursor < rank ∧ rank ≤ last ∧ s.valuation.value? rank = none ∧
      ∀ r, cursor < r → r < rank → s.valuation.value? r ≠ none := by
  obtain ⟨hcursor, hlast⟩ := nextUnvalued?_bounds h
  obtain ⟨hnone, hlow⟩ := firstUnvalued?_eq_some h
  exact ⟨hcursor, hlast, hnone, hlow⟩

theorem nextUnvalued?_eq_none (h : s.nextUnvalued? last cursor = none) {r : Nat} (hcursor : cursor < r)
    (hlast : r ≤ last) : s.valuation.value? r ≠ none :=
  firstUnvalued?_eq_none h hcursor (by omega)

theorem solved_of_allSatisfied (hs : s.Sound p) (h : s.allSatisfied = true) :
    Solved p s.valuation := by
  intro c hc
  obtain ⟨id, hid⟩ := Array.mem_iff_getElem?.1 hc
  apply hs.satisfied id c hid
  rw [allSatisfied, beq_iff_eq, hs.flaggedCount] at h
  have hlt : id < s.flags.size := by
    rw [hs.flags]
    exact (Array.getElem?_eq_some_iff.1 hid).1
  have hall := List.countP_eq_length.1 (h.trans List.length_range.symm) id (List.mem_range.2 hlt)
  exact beq_iff_eq.1 hall

/-! ### The node -/

/-- The propagation that a node begins with: from its decision, or of everything. -/
def propagated (p : Prepared) (decided : Option Nat) (s : Search) :
    Except Fault (Search × Option Nat) :=
  match decided with
  | some _ => propagate p s.countNode
  | none => propagateAll p s.countNode

theorem propagated_spec (hp : p.Proper) (hs : s.Sound p) (hopen : decided ≠ none → s.OpenBut p covered) :
    ∃ t conflict, propagated p decided s = .ok (t, conflict) ∧ t.queue.items = [] ∧
      Advance p s covered t conflict := by
  have hcounted : s.countNode.Sound p := { hs with }
  have hderived : Derived p s s.countNode := .of_eq rfl rfl rfl rfl rfl rfl
  cases decided with
  | none =>
    obtain ⟨t, conflict, hall, hqueue, hadvance⟩ := propagateAll_spec hp hcounted
    exact ⟨t, conflict, hall, hqueue, (hadvance.mono fun _ h => h.elim).after hderived⟩
  | some r =>
    obtain ⟨t, conflict, hpropagate, hqueue, hadvance⟩ :=
      propagate_spec hp hcounted (hopen (by simp))
    exact ⟨t, conflict, hpropagate, hqueue, hadvance.after hderived⟩

/-- What a node comes to once it has propagated. -/
theorem explore_eq (h : propagated p decided s = .ok (t, conflict)) :
    explore p o watch depth decided s =
      if conflict.isSome then .ok (.ok .exhausted, t.countConflict depth)
      else if t.allSatisfied then
        (t.countSolved.recordSolution p o).map fun u =>
          (.ok (if o.enumerate then .exhausted else .satisfiable), u)
      else match watch t.tally.searches with
        | some reason => .ok (.error (.interrupted reason), t)
        | none =>
          match t.nextUnvalued? p.variableCount (decided.getD 0) with
          | none => .ok (.error (.variablesExhausted depth t.unsatisfiedCount), t)
          | some rank => t.traceDecision p o depth rank >>= branch p o watch depth rank := by
  rw [explore.eq_def]
  cases decided <;>
  · simp only [propagated] at h
    simp only [h, bind, Except.bind]
    split
    · rfl
    · split
      · cases recordSolution p o t.countSolved <;> rfl
      · cases watch t.tally.searches with
        | some reason => rfl
        | none =>
          dsimp only
          split
          · rename_i hnext
            rw [hnext]
            rfl
          · rename_i hnext
            rw [hnext]

/-! ### The attempts -/

theorem attempt_eq_ok_iff : attempt p o watch depth rank b s = .ok (ending, t) ↔
    ∃ u v, s.enter rank b = .ok u ∧ explore p o watch (depth + 1) (some rank) u = .ok (ending, v) ∧
      v.backtrack = .ok t := by
  rw [attempt]
  constructor
  · intro h
    obtain ⟨u, hu, h⟩ := Fault.bind_eq_ok.1 h
    obtain ⟨⟨ending', v⟩, hv, h⟩ := Fault.bind_eq_ok.1 h
    obtain ⟨w, hw, h⟩ := Fault.bind_eq_ok.1 h
    obtain ⟨rfl, rfl⟩ := Prod.mk.inj (Fault.pure_eq_ok.1 h)
    exact ⟨u, v, hu, hv, hw⟩
  · rintro ⟨u, v, hu, hv, hw⟩
    simp only [bind, Except.bind, hu, hv, hw]
    rfl

/-- The second attempt is made if the first is exhausted. -/
theorem branch_eq_ok_iff (hp : p.Proper) (hn : rank ≤ p.variableCount) :
    branch p o watch depth rank s = .ok (ending, t) ↔
      (attempt p o watch depth rank (p.ranking.placeAt rank).preferred s = .ok (ending, t) ∧
        ending ≠ .ok .exhausted) ∨
      ∃ u, attempt p o watch depth rank (p.ranking.placeAt rank).preferred s =
          .ok (.ok .exhausted, u) ∧
        attempt p o watch depth rank (!(p.ranking.placeAt rank).preferred) u = .ok (ending, t) := by
  rw [branch, hp.place_eq_ok hn]
  constructor
  · intro h
    obtain ⟨_, hplace, h⟩ := Fault.bind_eq_ok.1 h
    obtain rfl := Except.ok.inj hplace
    obtain ⟨⟨ending', u⟩, hfirst, h⟩ := Fault.bind_eq_ok.1 h
    split at h
    · rename_i heq
      obtain ⟨rfl, rfl⟩ := Prod.mk.inj heq
      exact .inr ⟨_, hfirst, h⟩
    · rename_i hends
      obtain ⟨rfl, rfl⟩ := Prod.mk.inj (Fault.pure_eq_ok.1 h)
      refine .inl ⟨hfirst, ?_⟩
      rintro rfl
      exact hends _ rfl
  · rintro (⟨hfirst, hends⟩ | ⟨u, hfirst, hsecond⟩)
    · simp only [bind, Except.bind, hfirst]
      split
      · rename_i heq
        exact absurd (Prod.mk.inj heq).1 hends
      · rfl
    · simp only [bind, Except.bind, hfirst, hsecond]

end ClauseSearch.Search
