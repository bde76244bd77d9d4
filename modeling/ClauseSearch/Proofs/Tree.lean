import ClauseSearch.Proofs.Frames
import ClauseSearch.Proofs.Reached

/-! The search tree. Whatever its checks find, a search of the extensions of a valuation has a result, undoes
every decision it makes, and accounts for the extensions. The induction is on the ranks above the cursor:
a node is accounted for by what its propagation derives and by the two attempts below it. -/

namespace ClauseSearch.Search

variable {p : Prepared} {o : Options} {watch : Watch} {s t u : Search} {v : Valuation}
  {rank depth cursor : Nat} {b : Bool} {decided : Option Nat} {conflict : Option Nat}
  {leaves : List Valuation} {ending : Ending}

theorem exists_undecided (hs : Stands p .settled s) (h : s.allSatisfied = false) :
    ∃ c ∈ p.formula.clauses, Clause.status s.valuation c = .ok .undecided := by
  have hcount : s.flaggedCount ≠ s.flags.size := by simpa [allSatisfied] using h
  rw [hs.sound.flaggedCount] at hcount
  obtain ⟨id, hid, hflag⟩ : ∃ id ∈ List.range s.flags.size, ¬ (s.flags[id]? == some true) = true := by
    by_contra hall
    push Not at hall
    exact hcount ((List.countP_eq_length.2 hall).trans List.length_range)
  have hlt : id < p.clauseCount := by
    rw [← hs.sound.flags]
    exact List.mem_range.1 hid
  have hclause : p.formula.clauses[id]? = some p.formula.clauses[id] := Array.getElem?_eq_getElem hlt
  have hunflagged := (hs.sound.flag_eq hlt).resolve_left fun hset => hflag (by simp [hset])
  exact ⟨_, Array.mem_of_getElem? hclause,
    hs.open_but (.inr rfl) id _ hclause hunflagged (by simp [hs.queue (by simp)]) not_false⟩

theorem exists_unvalued (hp : p.Proper) (hs : Stands p .settled s) (h : s.allSatisfied = false) :
    ∃ r, 0 < r ∧ r ≤ p.variableCount ∧ s.valuation.value? r = none := by
  obtain ⟨c, hc, hst⟩ := exists_undecided hs h
  have hwithin := hp.ranged c hc
  obtain ⟨l, hl, hnone⟩ :=
    Clause.exists_unvalued_of_undecided (hwithin.slots hs.sound.slots) hst
  exact ⟨l.var, (hwithin l hl).1, (hwithin l hl).2, hnone⟩

theorem not_solved (hp : p.Proper) (hs : Stands p .settled s) (h : s.allSatisfied = false) :
    ¬ Solved p s.valuation := by
  intro hsolved
  obtain ⟨c, hc, hst⟩ := exists_undecided hs h
  have hsat := (Clause.status_eq_satisfied_iff ((hp.ranged c hc).slots hs.sound.slots)).2 (hsolved c hc)
  simp [hst] at hsat

/-! ### The recursion -/

/-- A search has a result, which accounts for the extensions of the valuation and records the leaves. -/
def Accounts (p : Prepared) (o : Options) (watch : Watch) (cursor : Nat) (v : Valuation) (s : Search)
    (result : Except Fault (Ending × Search)) : Prop :=
  ∃ ending t leaves, result = .ok (ending, t) ∧ Explored p o watch cursor v ending leaves ∧
    t.solutions = leaves.foldl (record p o) s.solutions

/-- What is found after the propagation of a node is what the node finds. -/
theorem Explored.node {result : Except Fault (Ending × Search)}
    (h : Explored p o watch cursor t.valuation ending leaves) (hp : p.Proper) (hs : s.Sound p)
    (hderived : Derived p s t) (hresult : result = .ok (ending, u))
    (hfound : u.solutions = leaves.foldl (record p o) t.solutions) :
    Accounts p o watch cursor s.valuation s result := by
  refine ⟨ending, u, leaves, hresult, h.before hp hs.slots hderived.steps, ?_⟩
  rw [hfound, hderived.solutions]

theorem attempt_spec (depth : Nat) (b : Bool) (hp : p.Proper) (hs : Stands p .settled s) (hr : 0 < rank)
    (hn : rank ≤ p.variableCount) (hv : s.valuation.value? rank = none)
    (hexplore : ∀ {t : Search} (depth : Nat), t.Sound p → t.OpenBut p (fun _ => False) →
      Accounts p o watch rank t.valuation t (explore p o watch depth (some rank) t)) :
    ∃ ending t leaves, attempt p o watch depth rank b s = .ok (ending, s.carrying t) ∧
      Explored p o watch rank (s.valuation.put rank (some b)) ending leaves ∧
      t.solutions = leaves.foldl (record p o) s.solutions := by
  have hentered : Stands p .opened (s.entered rank b) := hs.entered hr hn hv
  obtain ⟨ending, t, leaves, hresult, hexplored, hfound⟩ :=
    hexplore (depth + 1) hentered.sound (hentered.open_but (.inl rfl))
  exact ⟨ending, t, leaves, attempt_eq_ok hs.sound (hs.queue (by simp)) hr hn hv hresult
    (.of_explore hp hentered.sound hresult), hexplored, hfound⟩

/-- The two attempts at the lowest rank above the cursor account for a settled search. -/
theorem branch_spec (depth : Nat) (hp : p.Proper) (hs : Stands p .settled s) (hr : 0 < rank)
    (hn : rank ≤ p.variableCount) (hv : s.valuation.value? rank = none)
    (hlow : ∀ r, cursor < r → r < rank → s.valuation.value? r ≠ none)
    (hopen : ¬ Solved p s.valuation)
    (hexplore : ∀ {t : Search} (depth : Nat), t.Sound p → t.OpenBut p (fun _ => False) →
      Accounts p o watch rank t.valuation t (explore p o watch depth (some rank) t)) :
    Accounts p o watch cursor s.valuation s (branch p o watch depth rank s) := by
  have hlt := hs.sound.lt_slots hn
  have hsettled := (hs.open_but (.inr rfl)).settled hp hs.sound (hs.queue (by simp))
  set b := (p.ranking.placeAt rank).preferred with hb
  obtain ⟨ending, t, leaves, hfirst, hexplored, hfound⟩ :=
    attempt_spec depth b hp hs hr hn hv hexplore
  by_cases hends : ending = .ok .exhausted
  · subst hends
    obtain ⟨ending', u, leaves', hsecond, hexplored', hfound'⟩ :=
      attempt_spec depth (!b) hp (hs.carrying t) hr hn hv hexplore
    refine ⟨ending', _, leaves ++ leaves', (branch_eq_ok_iff hp hn).2 (.inr ⟨_, hfirst, hsecond⟩),
      hexplored.both hr hlt hv hlow hsettled hopen hb hexplored', ?_⟩
    change u.solutions = _
    rw [hfound', List.foldl_append, ← hfound]
    rfl
  · exact ⟨ending, s.carrying t, leaves, (branch_eq_ok_iff hp hn).2 (.inl ⟨hfirst, hends⟩),
      hexplored.first hr hlt hv hlow hsettled hopen hb hends, hfound⟩

/-- A search has a result whatever its checks find, and accounts for all that it was begun with. -/
theorem explore_spec (o : Options) (watch : Watch) (depth : Nat) (decided : Option Nat)
    (hp : p.Proper) (hs : s.Sound p)
    (hopen : decided ≠ none → s.OpenBut p fun _ => False) :
    Accounts p o watch (decided.getD 0) s.valuation s (explore p o watch depth decided s) := by
  induction hn : p.variableCount - decided.getD 0 using Nat.strongRecOn
    generalizing s decided depth with
  | _ n ih =>
    obtain ⟨t, conflict, hpropagated, hqueue, hadvance⟩ := propagated_spec hp hs hopen
    have ht := hadvance.sound
    have hderived := hadvance.derived
    rw [explore_eq hpropagated]
    cases conflict with
    | some id =>
      exact (explored_conflict hp hadvance.conflictOn).node hp hs hderived rfl rfl
    | none =>
      have hstands : Stands p .settled t := hadvance.stands hqueue
      rw [if_neg (by simp)]
      by_cases hsolved : t.allSatisfied = true
      · have hrecord := recordSolution_eq_ok (o := o) (s := t.countSolved) hp { ht.toCoherent with }
        have hleaf : Solved p t.valuation := solved_of_allSatisfied ht hsolved
        rw [if_pos hsolved, hrecord]
        exact (explored_leaf hleaf).node hp hs hderived rfl rfl
      rw [if_neg hsolved]
      cases hwatch : watch t.tally.searches with
      | some reason =>
        exact (explored_interrupted hwatch).node hp hs hderived rfl rfl
      | none =>
        cases hnext : t.nextUnvalued? p.variableCount (decided.getD 0) with
        | none =>
          obtain ⟨r, hr, hrn, hv⟩ := exists_unvalued hp hstands (by simpa using hsolved)
          have hle : r ≤ decided.getD 0 :=
            Nat.le_of_not_lt fun hcursor => nextUnvalued?_eq_none hnext hcursor hrn hv
          exact (explored_stuck ⟨r, hr, hle, hv⟩).node hp hs hderived rfl rfl
        | some rank =>
          obtain ⟨hcursor, hle, hv, hlow⟩ := nextUnvalued?_eq_some hnext
          obtain ⟨trace, htrace⟩ := traceDecision_eq_ok o t depth hp hle
          -- the ranks above the one decided are fewer than those above the cursor
          have hless : p.variableCount - rank < n := by omega
          have hopen : ¬ Solved p t.valuation := not_solved hp hstands (by simpa using hsolved)
          have hbelow : Stands p .settled { t with trace } :=
            ⟨{ ht with }, hstands.queue, hstands.open_but⟩
          obtain ⟨ending, u, leaves, hbranch, hexplored, hfound⟩ :=
            branch_spec depth hp hbelow (by omega) hle hv hlow hopen
              fun depth' ht' hopen' => ih _ hless depth' (some rank) ht' (fun _ => hopen') rfl
          refine Explored.node (t := t) hexplored hp hs hderived ?_ hfound
          simp only [htrace]
          exact hbranch

end ClauseSearch.Search
