import ClauseSearch.Proofs.Cursor
import ClauseSearch.Proofs.Dispatch
import ClauseSearch.Proofs.Queue

/-! The recursion of the search. What a search comes to is derived in finitely many nodes, each of which comes
to what it does by itself or by the searches below its decision. What these begin with has one variable more
with a value than the node had when it decided, so the depth grows no further than there are variables without
a value to begin with. -/

namespace ClauseSearch.Search

variable {p : Prepared} {o : Options} {watch : Watch} {s t u v w : Search} {rank depth depth' : Nat} {b : Bool}
  {decided conflict : Option Nat} {ending : Ending} {f : Formula} {byFrequency : Bool}

/-! ### Derivations -/

/-- How a search comes to its ending: by a conflict, a leaf, a check that says to stop or for want of a rank to
decide; or by one attempt below its decision, or by both where the first is exhausted. -/
inductive Explores (p : Prepared) (o : Options) (watch : Watch) :
    Nat → Option Nat → Search → Ending → Search → Prop
  | conflict {depth clause : Nat} {decided : Option Nat} {s t : Search}
      (h : propagated p decided s = .ok (t, some clause)) :
      Explores p o watch depth decided s (.ok .exhausted) (t.countConflict depth)
  | leaf {depth : Nat} {decided : Option Nat} {s t u : Search} (h : propagated p decided s = .ok (t, none))
      (hsolved : t.allSatisfied = true) (hu : t.countSolved.recordSolution p o = .ok u) :
      Explores p o watch depth decided s (.ok (if o.enumerate then .exhausted else .satisfiable)) u
  | interrupted {depth : Nat} {decided : Option Nat} {s t : Search} {reason : Interruption}
      (h : propagated p decided s = .ok (t, none)) (hopen : t.allSatisfied = false)
      (hwatch : watch t.tally.searches = some reason) :
      Explores p o watch depth decided s (.error (.interrupted reason)) t
  | stuck {depth : Nat} {decided : Option Nat} {s t : Search} (h : propagated p decided s = .ok (t, none))
      (hopen : t.allSatisfied = false) (hwatch : watch t.tally.searches = none)
      (hnext : t.nextUnvalued? p.variableCount (decided.getD 0) = none) :
      Explores p o watch depth decided s (.error (.variablesExhausted depth t.unsatisfiedCount)) t
  | first {depth rank : Nat} {decided : Option Nat} {s t u v w : Search} {ending : Ending}
      (hdecides : Decides p o watch depth decided s rank t)
      (hu : t.enter rank (p.ranking.placeAt rank).preferred = .ok u)
      (hv : Explores p o watch (depth + 1) (some rank) u ending v) (hends : ending ≠ .ok .exhausted)
      (hw : v.backtrack = .ok w) : Explores p o watch depth decided s ending w
  | both {depth rank : Nat} {decided : Option Nat} {s t u v w u' v' w' : Search} {ending : Ending}
      (hdecides : Decides p o watch depth decided s rank t)
      (hu : t.enter rank (p.ranking.placeAt rank).preferred = .ok u)
      (hv : Explores p o watch (depth + 1) (some rank) u (.ok .exhausted) v) (hw : v.backtrack = .ok w)
      (hu' : w.enter rank (!(p.ranking.placeAt rank).preferred) = .ok u')
      (hv' : Explores p o watch (depth + 1) (some rank) u' ending v') (hw' : v'.backtrack = .ok w') :
      Explores p o watch depth decided s ending w'

theorem Decides.le (h : Decides p o watch depth decided s rank t) : rank ≤ p.variableCount := by
  obtain ⟨u, -, -, -, hnext, -⟩ := h
  exact (nextUnvalued?_bounds hnext).2

theorem exists_propagated (h : explore p o watch depth decided s = .ok (ending, t)) :
    ∃ u conflict, propagated p decided s = .ok (u, conflict) := by
  rw [explore.eq_def] at h
  cases decided <;>
  · obtain ⟨⟨u, conflict⟩, hpropagated, -⟩ := Fault.bind_eq_ok.1 h
    exact ⟨u, conflict, hpropagated⟩

theorem Explores.explore_eq (hp : p.Proper) (h : Explores p o watch depth decided s ending t) :
    explore p o watch depth decided s = .ok (ending, t) := by
  induction h with
  | conflict h =>
    rw [Search.explore_eq h]
    rfl
  | leaf h hsolved hu =>
    rw [Search.explore_eq h, if_neg (by simp), if_pos hsolved, hu]
    rfl
  | interrupted h hopen hwatch =>
    rw [Search.explore_eq h]
    simp [hopen, hwatch]
  | stuck h hopen hwatch hnext =>
    rw [Search.explore_eq h]
    simp [hopen, hwatch, hnext]
  | first hdecides hu _ hends hw ih =>
    rw [hdecides.explore_eq, branch_eq_ok_iff hp hdecides.le]
    exact .inl ⟨attempt_eq_ok_iff.2 ⟨_, _, hu, ih, hw⟩, hends⟩
  | both hdecides hu _ hw hu' _ hw' ih ih' =>
    rw [hdecides.explore_eq, branch_eq_ok_iff hp hdecides.le]
    exact .inr ⟨_, attempt_eq_ok_iff.2 ⟨_, _, hu, ih, hw⟩, attempt_eq_ok_iff.2 ⟨_, _, hu', ih', hw'⟩⟩

/-- A search that has a result has come to it by a derivation. -/
theorem explores_of_explore (hp : p.Proper) (h : explore p o watch depth decided s = .ok (ending, t)) :
    Explores p o watch depth decided s ending t := by
  -- on the ranks above the one decided, of which an attempt leaves fewer
  induction hn : p.variableCount - decided.getD 0 using Nat.strongRecOn
    generalizing s t decided depth ending with
  | _ n ih =>
    obtain ⟨u, conflict, hpropagated⟩ := exists_propagated h
    rw [explore_eq hpropagated] at h
    cases conflict with
    | some clause =>
      obtain ⟨rfl, rfl⟩ := Prod.mk.inj (Except.ok.inj h)
      exact .conflict hpropagated
    | none =>
      rw [if_neg (by simp)] at h
      by_cases hsolved : u.allSatisfied = true
      · rw [if_pos hsolved] at h
        obtain ⟨w, hw, heq⟩ := Fault.map_eq_ok.1 h
        obtain ⟨rfl, rfl⟩ := Prod.mk.inj heq
        exact .leaf hpropagated hsolved hw
      rw [if_neg hsolved] at h
      rw [Bool.not_eq_true] at hsolved
      cases hwatch : watch u.tally.searches with
      | some reason =>
        simp only [hwatch] at h
        obtain ⟨rfl, rfl⟩ := Prod.mk.inj (Except.ok.inj h)
        exact .interrupted hpropagated hsolved hwatch
      | none =>
        cases hnext : u.nextUnvalued? p.variableCount (decided.getD 0) with
        | none =>
          simp only [hwatch, hnext] at h
          obtain ⟨rfl, rfl⟩ := Prod.mk.inj (Except.ok.inj h)
          exact .stuck hpropagated hsolved hwatch hnext
        | some rank =>
          simp only [hwatch, hnext] at h
          obtain ⟨w, htrace, hbranch⟩ := Fault.bind_eq_ok.1 h
          obtain ⟨hcursor, hle⟩ := nextUnvalued?_bounds hnext
          have hdecides : Decides p o watch depth decided s rank w :=
            ⟨u, hpropagated, hsolved, hwatch, hnext, htrace⟩
          have hless : p.variableCount - rank < n := by omega
          rcases (branch_eq_ok_iff hp hle).1 hbranch with ⟨hfirst, hends⟩ | ⟨x, hfirst, hsecond⟩
          · obtain ⟨_, _, henter, hexplore, hback⟩ := attempt_eq_ok_iff.1 hfirst
            exact .first hdecides henter (ih _ hless hexplore rfl) hends hback
          · obtain ⟨_, _, henter, hexplore, hback⟩ := attempt_eq_ok_iff.1 hfirst
            obtain ⟨_, _, henter', hexplore', hback'⟩ := attempt_eq_ok_iff.1 hsecond
            exact .both hdecides henter (ih _ hless hexplore rfl) hback henter'
              (ih _ hless hexplore' rfl) hback'

/-! ### Decisions -/

/-- A decision on the rank can begin. -/
structure Poised (p : Prepared) (s : Search) (rank : Nat) : Prop where
  sound : s.Sound p
  queue : s.queue.items = []
  pos : 0 < rank
  le : rank ≤ p.variableCount
  unvalued : s.valuation.value? rank = none

theorem Poised.carrying (h : Poised p s rank) (t : Search) : Poised p (s.carrying t) rank :=
  { h with sound := h.sound.carrying t }

theorem Poised.eq_entered (h : Poised p s rank) (ht : s.enter rank b = .ok t) : t = s.entered rank b := by
  rw [enter_eq_ok h.sound.toCoherent h.pos h.le h.unvalued, Except.ok.injEq] at ht
  exact ht.symm

theorem Poised.enter (h : Poised p s rank) (ht : s.enter rank b = .ok t) :
    t.Sound p ∧ t.valuation.unvalued.length + 1 = s.valuation.unvalued.length := by
  rw [h.eq_entered ht]
  exact ⟨h.sound.entered h.pos h.le h.unvalued,
    Valuation.length_unvalued_put h.pos (h.sound.lt_slots h.le) h.unvalued⟩

/-- A search below a decision is undone, but for what was counted, found and reported. -/
theorem Poised.undone (h : Poised p s rank) (hp : p.Proper) (ht : s.enter rank b = .ok t)
    (hu : Explores p o watch depth (some rank) t ending u) (hv : u.backtrack = .ok v) :
    v = s.carrying u := by
  rw [h.eq_entered ht] at hu
  have hleft := LeftBy.of_explore hp (h.sound.entered h.pos h.le h.unvalued) (hu.explore_eq hp)
  rw [backtrack_of_grown h.sound h.queue h.le h.unvalued hleft.sound hleft.grown] at hv
  cases hv
  rfl

/-- A node that gets as far as a decision can begin it, and holds every value that it began with. -/
theorem Decides.poised (h : Decides p o watch depth decided s rank u) (hp : p.Proper) (hs : s.Sound p) :
    Poised p u rank ∧ u.valuation.unvalued.length ≤ s.valuation.unvalued.length := by
  obtain ⟨t, trace, -, hqueue, hadvance, hnext, rfl⟩ := h.exists_propagated hp hs
  obtain ⟨hcursor, hle, hnone, -⟩ := nextUnvalued?_eq_some hnext
  refine ⟨⟨{ hadvance.sound with }, hqueue, by omega, hle, hnone⟩, ?_⟩
  exact hadvance.derived.extends_valuation.length_unvalued_le
    (hadvance.sound.slots.trans hs.slots.symm)

/-- The searches that a decision on the rank leads to: below its preferred polarity, and below the other one
where the first attempt is exhausted. -/
inductive Calls (p : Prepared) (o : Options) (watch : Watch) (depth rank : Nat) (s : Search) : Search → Prop
  | first {t : Search} (ht : s.enter rank (p.ranking.placeAt rank).preferred = .ok t) :
      Calls p o watch depth rank s t
  | second {t u : Search} (hfirst : attempt p o watch depth rank (p.ranking.placeAt rank).preferred s =
        .ok (.ok .exhausted, t)) (hu : t.enter rank (!(p.ranking.placeAt rank).preferred) = .ok u) :
      Calls p o watch depth rank s u

theorem Poised.calls (h : Poised p s rank) (hp : p.Proper) (ht : Calls p o watch depth rank s t) :
    t.valuation.unvalued.length + 1 = s.valuation.unvalued.length := by
  cases ht with
  | first ht => exact (h.enter ht).2
  | second hfirst hu =>
    -- the first attempt has left the values as they were
    obtain ⟨w, rfl⟩ := attempt_undone hp h.sound h.queue h.pos h.le h.unvalued hfirst
    exact ((h.carrying w).enter hu).2

/-! ### Depth -/

/-- Each level of the search takes one variable from those without a value. -/
theorem Visits.depth_add_le (hp : p.Proper) (hs : s.Sound p)
    (h : Visits p o watch depth s depth' decided t) :
    depth' + t.valuation.unvalued.length ≤ depth + s.valuation.unvalued.length := by
  induction h with
  | root => exact Nat.le_refl _
  | first h hdecides hv ih =>
    obtain ⟨hpoised, hle⟩ := hdecides.poised hp (h.spec hp hs).1
    have hcalls : Calls p o watch depth _ _ _ := .first hv
    have := hpoised.calls hp hcalls
    omega
  | second h hdecides hfirst hw ih =>
    obtain ⟨hpoised, hle⟩ := hdecides.poised hp (h.spec hp hs).1
    have := hpoised.calls hp (.second hfirst hw)
    omega

end ClauseSearch.Search

namespace ClauseSearch.Partition

variable {part : Partition} {v : Valuation} {task : Nat}

/-- The ranks split on have values in a task, so its depth and the variables without a value make no more than
there are variables. -/
theorem Splits.length_ranks_add_le (h : part.Splits)
    (hsize : v.slots.size = part.problem.variableCount + 1)
    (hadmits : ∀ a, v.admits a = true → ∀ l ∈ part.literalsOf task, a l.var = l.polarity) :
    part.ranks.length + v.unvalued.length ≤ part.problem.variableCount := by
  have hvalued : ∀ r ∈ part.ranks, 0 < r ∧ v.value? r ≠ none := by
    intro r hr
    refine ⟨(h.unvalued r hr).1, ?_⟩
    rw [← part.vars_literalsOf task] at hr
    obtain ⟨l, hl, rfl⟩ := List.mem_map.1 hr
    rw [Valuation.value?_of_admits fun a ha => hadmits a ha l hl]
    simp
  have hranks := length_le_valuedCount (h.ascending.imp fun hlt => Nat.ne_of_lt hlt) hvalued
  have hsplit := Valuation.length_unvalued_add v
  rw [Valuation.variableCount, hsize] at hsplit
  omega

end ClauseSearch.Partition

namespace ClauseSearch.Search

variable {p : Prepared} {f : Formula} {byFrequency : Bool}

/-- Propagations and searches of every search in operation come to an end. In a propagation the ranks taken from
the queue are among those that waited at first and those that have joined it, all of them different, and what
has joined it had no value at first. In a search each node has a result, and each of the searches below its
decision begins with fewer variables without a value than the node had when it decided; so their depth exceeds
that of the start by no more than there were variables without a value, and in a task it never exceeds the
number of variables. -/
theorem returns_of_operated (hf : f.Built) (hp : Prepared.ofFormula f byFrequency = .ok (.ok p)) :
    (∀ moved s, Operated p moved s →
      (∃ t conflict taken pushed, s.propagate p = .ok (t, conflict) ∧ Drains p s taken pushed t conflict ∧
        (pushed ++ s.queue.items).Nodup ∧ (∀ r ∈ pushed, r ∈ s.valuation.unvalued) ∧
        taken.Subperm (pushed ++ s.queue.items) ∧
        taken.length ≤ s.queue.size + s.valuation.unvalued.length) ∧
      (∃ t conflict, s.propagateAll p = .ok (t, conflict)) ∧
      ∀ o watch depth depth' decided t, Visits p o watch depth s depth' decided t →
        (∃ ending u, explore p o watch depth' decided t = .ok (ending, u) ∧
          Explores p o watch depth' decided t ending u) ∧
        depth' + t.valuation.unvalued.length ≤ depth + s.valuation.unvalued.length ∧
        ∀ rank u, Decides p o watch depth' decided t rank u →
          (∃ ending v, branch p o watch depth' rank u = .ok (ending, v)) ∧
          ∀ v, Calls p o watch depth' rank u v →
            v.valuation.unvalued.length < u.valuation.unvalued.length) ∧
    ∀ settings part, p.rootResult settings = .ok (.inr part) → ∀ task < part.taskCount, ∀ watch,
      (∃ report, part.run task watch = .ok report) ∧
      ∃ ls s, part.literals task = .ok ls ∧ Partition.assumeAll ls part.root.fork = .ok (.ok s) ∧
        ∀ depth decided t, Visits p part.options watch part.ranks.length s depth decided t →
          depth ≤ f.variableCount := by
  obtain ⟨hproper, hrenames⟩ := Prepared.proper_of_ofFormula hf.stored hp
  refine ⟨fun moved s h => ?_, fun settings part hroot task htask watch => ?_⟩
  · obtain ⟨hs, -⟩ := h.sound hproper
    refine ⟨?_, ?_, fun o watch depth depth' decided t hvisits => ?_⟩
    · obtain ⟨t, conflict, hresult, -⟩ := propagate_spec hproper hs openBut_true
      obtain ⟨taken, pushed, hdrains⟩ := drains_of_propagate hresult
      exact ⟨t, conflict, taken, pushed, hresult, hdrains, hdrains.paid hs.toCoherent⟩
    · obtain ⟨t, conflict, hresult, -⟩ := propagateAll_spec hproper hs
      exact ⟨t, conflict, hresult⟩
    · obtain ⟨ht, -⟩ := hvisits.spec hproper hs
      obtain ⟨ending, u, hresult, -⟩ := explore_left o watch depth' decided hproper ht
      refine ⟨⟨ending, u, hresult, explores_of_explore hproper hresult⟩,
        hvisits.depth_add_le hproper hs, fun rank v hdecides => ⟨⟨ending, u, ?_⟩, fun w hcalls => ?_⟩⟩
      · rw [← hdecides.explore_eq]
        exact hresult
      · have := (hdecides.poised hproper ht).1.calls hproper hcalls
        omega
  · obtain ⟨root, hrooted, rfl⟩ := Prepared.exists_of_rootResult hproper hroot
    have hsplits := Partition.splits_ofRoot (.ofSettings settings) settings.partitionDepth hproper
      (hrooted.settled rfl)
    obtain ⟨report, hrun, -⟩ := Partition.run_spec watch hsplits htask
    obtain ⟨v, hassumed, hsize, hext, hadmits⟩ := hsplits.assumed task
    refine ⟨⟨report, hrun⟩, _, _, Partition.literals_eq_ok hsplits, hassumed,
      fun depth decided t hvisits => ?_⟩
    have hs := hrooted.sound.fork.holding (hsize.trans hrooted.sound.slots.symm) hext
    have hdepth := hvisits.depth_add_le hproper hs
    have hstart : _ + v.unvalued.length ≤ p.variableCount :=
      hsplits.length_ranks_add_le hsize fun a ha => ((hadmits a).1 ha).2
    rw [← hrenames.variableCount]
    exact Nat.le_trans (Nat.le_of_add_right_le hdepth) hstart

/-- Rank 1 is decided and waits. -/
theorem returns_of_operated_entered : ∃ f p s,
    f.clauses = #[[⟨1, true⟩, ⟨2, true⟩], [⟨1, false⟩, ⟨2, true⟩]] ∧
      Prepared.ofFormula f true = .ok (.ok p) ∧ Operated p true s ∧ s.queue.items = [1] ∧
      (∃ t conflict taken pushed, s.propagate p = .ok (t, conflict) ∧ Drains p s taken pushed t conflict ∧
        taken.Subperm (pushed ++ [1])) ∧
      ∃ ending t, Explores p {} (fun _ => none) 0 none s ending t := by
  have hf : Formula.Built _ := @Formula.Built.add _ _ [1, 2] _ .empty rfl
  have hf' : Formula.Built _ := @Formula.Built.add _ _ [-1, 2] _ hf rfl
  obtain ⟨p, hp, -, hrenames⟩ := Prepared.ofFormula_eq_ok hf'.stored true
  have hcount : p.variableCount = 2 := hrenames.variableCount
  have hle : 1 ≤ p.variableCount := by omega
  have hnone : (fresh p).valuation.value? 1 = none := Valuation.value?_fresh (by decide)
  have henter := enter_eq_ok (b := true) (sound_fresh p).toCoherent (by decide) hle hnone
  have hs : Operated p true ((fresh p).entered 1 true) := .enter .fresh (by decide) hle hnone henter
  obtain ⟨hreturns, -⟩ := returns_of_operated hf' hp
  obtain ⟨⟨t, conflict, taken, pushed, hresult, hdrains, -, -, hpaid, -⟩, -, hsearch⟩ := hreturns true _ hs
  obtain ⟨⟨ending, u, -, hexplores⟩, -, -⟩ := hsearch {} (fun _ => none) 0 0 none _ .root
  exact ⟨_, p, _, rfl, hp, hs, rfl, ⟨t, conflict, taken, pushed, hresult, hdrains, hpaid⟩, ending, u,
    hexplores⟩

end ClauseSearch.Search
