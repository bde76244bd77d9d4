import ClauseSearch.Proofs.CounterLaws
import ClauseSearch.Proofs.Sessions

/-! The decisions reported. A search reports what it decides at the depth that is traced and nothing at other
depths, and the ranks split on are decisions at the depths above the tasks. So where the depth traced is one of
those, the one line is reported when the search is split and no task adds to it; and where nothing is split, the
single task decides first what would have been split on first, since to propagate a settled root once more
derives nothing. -/

namespace ClauseSearch

namespace Search

variable {p : Prepared} {o : Options} {watch : Watch} {s t u w : Search} {v : Valuation}
  {rank depth start count cursor last : Nat} {b : Bool} {decided : Option Nat} {ending : Ending}

/-! ### Below a node -/

theorem traceDecision_eq (hp : p.Proper) (hn : rank ≤ p.variableCount) :
    s.traceDecision p o depth rank = .ok { s with
      trace := if o.traceDepth = some depth then s.trace.push ⟨depth, p.ranking.varAt rank⟩
        else s.trace } := by
  unfold traceDecision
  split
  · rw [hp.place_eq_ok hn]
    rfl
  · rfl

theorem Decides.trace_eq (h : Decides p o watch depth decided s rank u) (hp : p.Proper)
    (hs : s.Sound p) :
    u.trace = if o.traceDepth = some depth then s.trace.push ⟨depth, p.ranking.varAt rank⟩
      else s.trace := by
  obtain ⟨t, hpropagated, -, -, hnext, htrace⟩ := h
  obtain ⟨-, hadvance⟩ := advance_of_propagated hp hs hpropagated
  rw [traceDecision_eq hp (nextUnvalued?_bounds hnext).2, Except.ok.injEq] at htrace
  rw [← htrace, ← hadvance.derived.trace]

/-- A decision is no report, and undoing it takes no report back. -/
theorem Poised.trace_undone (h : Poised p s rank) (hp : p.Proper) (ht : s.enter rank b = .ok t)
    (hu : Explores p o watch depth (some rank) t ending u) (hv : u.backtrack = .ok w)
    (hkept : u.trace = t.trace) : w.trace = s.trace := by
  rw [h.eq_entered ht] at hkept
  rw [h.undone hp ht hu hv]
  exact hkept

/-- Nothing is reported in a search that begins below the depth traced. -/
theorem Explores.trace_eq (h : Explores p o watch depth decided s ending t) (hp : p.Proper)
    (hs : s.Sound p) (hbelow : ∀ d, o.traceDepth = some d → d < depth) : t.trace = s.trace := by
  -- the nodes below a decision are one level deeper, so `hbelow` holds of them as well
  induction h with
  | conflict h => exact (advance_of_propagated hp hs h).2.derived.trace
  | @leaf depth decided s t u h hsolved hu =>
    obtain ⟨-, hadvance⟩ := advance_of_propagated hp hs h
    rw [recordSolution_eq_ok (s := t.countSolved) hp { hadvance.sound.toCoherent with }] at hu
    cases hu
    exact hadvance.derived.trace
  | interrupted h => exact (advance_of_propagated hp hs h).2.derived.trace
  | stuck h => exact (advance_of_propagated hp hs h).2.derived.trace
  | first hdecides hu hv hends hw ih =>
    obtain ⟨hpoised, -⟩ := hdecides.poised hp hs
    have hfirst := ih (hpoised.enter hu).1 fun d hd => Nat.lt_succ_of_lt (hbelow d hd)
    rw [hpoised.trace_undone hp hu hv hw hfirst, hdecides.trace_eq hp hs]
    exact if_neg fun htraced => Nat.lt_irrefl _ (hbelow _ htraced)
  | @both depth rank decided s t u v w u' v' w' ending hdecides hu hv hw hu' hv' hw' ih ih' =>
    obtain ⟨hpoised, -⟩ := hdecides.poised hp hs
    have hpoised' : Poised p w rank := by
      rw [hpoised.undone hp hu hv hw]
      exact hpoised.carrying v
    have hfirst := ih (hpoised.enter hu).1 fun d hd => Nat.lt_succ_of_lt (hbelow d hd)
    have hsecond := ih' (hpoised'.enter hu').1 fun d hd => Nat.lt_succ_of_lt (hbelow d hd)
    rw [hpoised'.trace_undone hp hu' hv' hw' hsecond, hpoised.trace_undone hp hu hv hw hfirst,
      hdecides.trace_eq hp hs]
    exact if_neg fun htraced => Nat.lt_irrefl _ (hbelow _ htraced)

theorem Poised.trace_attempt (h : Poised p s rank) (hp : p.Proper)
    (ht : attempt p o watch depth rank b s = .ok (ending, t))
    (hbelow : ∀ d, o.traceDepth = some d → d ≤ depth) : t.trace = s.trace := by
  obtain ⟨u, v, hu, hv, hw⟩ := attempt_eq_ok_iff.1 ht
  have hexplores := explores_of_explore hp hv
  apply h.trace_undone hp hu hexplores hw
  exact hexplores.trace_eq hp (h.enter hu).1 fun d hd => Nat.lt_succ_of_le (hbelow d hd)

/-- A search that gets as far as a decision at the depth traced reports this decision alone. -/
theorem Decides.trace_explore (h : Decides p o watch depth decided s rank u) (hp : p.Proper)
    (hs : s.Sound p) (htraced : o.traceDepth = some depth)
    (ht : explore p o watch depth decided s = .ok (ending, t)) :
    t.trace = s.trace.push ⟨depth, p.ranking.varAt rank⟩ := by
  obtain ⟨hpoised, -⟩ := h.poised hp hs
  have hbelow : ∀ d, o.traceDepth = some d → d ≤ depth := fun d hd => by
    rw [htraced, Option.some.injEq] at hd
    exact hd.ge
  have hdecided := h.trace_eq hp hs
  rw [if_pos htraced] at hdecided
  rw [h.explore_eq, branch_eq_ok_iff hp h.le] at ht
  rcases ht with ⟨hfirst, -⟩ | ⟨v, hfirst, hsecond⟩
  · exact (hpoised.trace_attempt hp hfirst hbelow).trans hdecided
  · have hkept := hpoised.trace_attempt hp hfirst hbelow
    obtain ⟨w, rfl⟩ :=
      attempt_undone hp hpoised.sound hpoised.queue hpoised.pos hpoised.le hpoised.unvalued hfirst
    exact (((hpoised.carrying w).trace_attempt hp hsecond hbelow).trans hkept).trans hdecided

/-! ### The ranks without a value in order -/

/-- The ranks without a value among `count` ranks from `start` on. -/
def unvaluedFrom (v : Valuation) (start count : Nat) : List Nat :=
  (List.range' start count).filter fun r => (v.value? r).isNone

/-- The first of them is what the scan finds, and the others are those beyond it. -/
theorem unvaluedFrom_eq : unvaluedFrom v start count =
    match firstUnvalued? v start count with
    | none => []
    | some rank => rank :: unvaluedFrom v (rank + 1) (start + count - (rank + 1)) := by
  induction count generalizing start with
  | zero => rfl
  | succ count ih =>
    have hsplit : unvaluedFrom v start (count + 1) =
        if (v.value? start).isNone then start :: unvaluedFrom v (start + 1) count
        else unvaluedFrom v (start + 1) count := by
      rw [unvaluedFrom, List.range'_succ, List.filter_cons]
      rfl
    rw [hsplit, firstUnvalued?]
    by_cases h : (v.value? start).isNone = true
    · rw [if_pos h, if_pos h]
      show _ = start :: unvaluedFrom v (start + 1) _
      rw [show start + (count + 1) - (start + 1) = count by omega]
    · rw [if_neg h, if_neg h, ih, show start + 1 + count = start + (count + 1) by omega]

theorem unvaluedFrom_cursor : unvaluedFrom s.valuation (cursor + 1) (last - cursor) =
    match s.nextUnvalued? last cursor with
    | none => []
    | some rank => rank :: unvaluedFrom s.valuation (rank + 1) (last - rank) := by
  rw [unvaluedFrom_eq, ← nextUnvalued?]
  cases hnext : s.nextUnvalued? last cursor with
  | none => rfl
  | some rank =>
    have hbounds := nextUnvalued?_bounds hnext
    show rank :: unvaluedFrom s.valuation (rank + 1) _ = _
    rw [show cursor + 1 + (last - cursor) - (rank + 1) = last - rank by omega]

theorem chooseRanks_eq_take : Partition.chooseRanks s last count cursor =
    (unvaluedFrom s.valuation (cursor + 1) (last - cursor)).take count := by
  induction count generalizing cursor with
  | zero => rfl
  | succ count ih =>
    rw [Partition.chooseRanks, unvaluedFrom_cursor]
    cases s.nextUnvalued? last cursor with
    | none => rfl
    | some rank =>
      show rank :: _ = rank :: _
      rw [ih]

theorem Coherent.unvalued_eq (h : s.Coherent p) :
    s.valuation.unvalued = unvaluedFrom s.valuation (0 + 1) (p.variableCount - 0) := by
  rw [Valuation.unvalued, h.variableCount_eq]
  rfl

theorem Coherent.head?_unvalued (h : s.Coherent p) :
    s.valuation.unvalued.head? = s.nextUnvalued? p.variableCount 0 := by
  rw [h.unvalued_eq, unvaluedFrom_cursor]
  cases s.nextUnvalued? p.variableCount 0 <;> rfl

/-! ### A settled state once more -/

/-- To propagate a fork of a settled state derives nothing, and what is decided is the lowest of its ranks without
a value. -/
theorem Stands.decides_fork (hs : Stands p .settled s) (o : Options) (depth : Nat) (hp : p.Proper)
    (hopen : s.allSatisfied = false) (hwatch : ∀ check, watch check = none) :
    ∃ rank u, s.valuation.unvalued.head? = some rank ∧ Decides p o watch depth none s.fork rank u := by
  have hsettled : p.formula.Settled s.valuation :=
    (hs.open_but (.inr rfl)).settled hp hs.sound (hs.queue (by simp))
  obtain ⟨t, conflict, hpropagated, -, hadvance⟩ :=
    propagated_spec hp hs.sound.fork fun _ : (none : Option Nat) ≠ none => openBut_true
  have hsame : t.valuation = s.valuation := by
    rcases hadvance.derived.steps.cases_head with heq | ⟨w, hstep, -⟩
    · exact heq.symm
    · exact absurd hstep ((Formula.settled_iff.1 hsettled).2 w)
  have hnone : conflict = none := by
    cases conflict with
    | none => rfl
    | some id =>
      have hconflict := hadvance.conflictOn
      rw [hsame] at hconflict
      exact absurd hconflict hsettled.1
  subst hnone
  have hopen' : t.allSatisfied = false := by
    rw [Bool.eq_false_iff]
    intro hsolved
    apply not_solved hp hs hopen
    rw [← hsame]
    exact solved_of_allSatisfied hadvance.sound hsolved
  obtain ⟨rank, hrank⟩ : ∃ rank, s.valuation.unvalued.head? = some rank := by
    obtain ⟨r, hpos, hle, hv⟩ := exists_unvalued hp hs hopen
    have hmem : r ∈ s.valuation.unvalued :=
      Valuation.mem_unvalued.2 ⟨hpos, by rwa [hs.sound.variableCount_eq], hv⟩
    exact Option.isSome_iff_exists.1 (List.isSome_head?.2 (List.ne_nil_of_mem hmem))
  have hnext : t.nextUnvalued? p.variableCount 0 = some rank := by
    rw [← hadvance.sound.head?_unvalued, hsame, hrank]
  exact ⟨rank, _, hrank, t, hpropagated, hopen', hwatch _, hnext,
    traceDecision_eq hp (nextUnvalued?_bounds hnext).2⟩

end Search

variable {p : Prepared} {settings : Settings} {part : Partition} {s : Search} {clock : Clock} {watch : Watch}
  {watches : Nat → Watch} {report : TaskReport} {reports : Nat → TaskReport} {before : Tally}
  {decisions : List TracedDecision} {outcome : Outcome} {conflict : Option Nat} {task count t : Nat}

open Search

namespace Partition

/-! ### Splitting and tasks -/

theorem filter_zipIdx {α : Type} (l : List α) (n i : Nat) :
    (l.zipIdx n).filter (fun entry => entry.2 == n + i) = (l[i]?).toList.map fun a => (a, n + i) := by
  induction l generalizing n i with
  | nil => rfl
  | cons a rest ih =>
    rw [List.zipIdx_cons, List.filter_cons]
    cases i with
    | zero =>
      have hnone : (rest.zipIdx (n + 1)).filter (fun entry => entry.2 == n + 0) = [] := by
        rw [List.filter_eq_nil_iff]
        intro entry hentry
        have hle := List.le_snd_of_mem_zipIdx hentry
        rw [beq_iff_eq]
        omega
      rw [hnone]
      simp
    | succ i =>
      have hne : ((a, n).2 == n + (i + 1)) = false := by
        rw [beq_eq_false_iff_ne]
        show n ≠ n + (i + 1)
        omega
      rw [hne, show n + (i + 1) = n + 1 + i by omega, ih]
      rfl

theorem Splits.splitting_traced (h : part.Splits) (htraced : part.options.traceDepth = some t) :
    part.splitting =
      .ok ((part.ranks[t]?).toList.map fun rank => ⟨t, part.problem.ranking.varAt rank⟩) := by
  have hlevel : (fun entry : Nat × Nat => part.options.traceDepth == some entry.2) =
      fun entry => entry.2 == 0 + t := by
    funext entry
    rw [htraced, Nat.zero_add, Bool.eq_iff_iff, beq_iff_eq, beq_iff_eq, Option.some.injEq]
    exact eq_comm
  rw [splitting_eq h, hlevel, filter_zipIdx, List.map_map]
  simp only [Nat.zero_add]
  rfl

theorem Splits.trace_run (h : part.Splits) (hrun : part.run task watch = .ok report)
    (habove : ∀ d, part.options.traceDepth = some d → d < part.ranks.length) : report.trace = #[] := by
  rcases h.cases_of_run hrun with ⟨reason, rfl⟩ | ⟨v, ending, t, hs, -, hexplores, rfl⟩
  · rfl
  · exact hexplores.trace_eq h.proper hs habove

theorem Splits.trace_unsplit (h : part.Splits) (hranks : part.ranks = [])
    (hopen : part.root.allSatisfied = false) (htraced : part.options.traceDepth = some 0)
    (hwatch : ∀ check, watch check = none) (hrun : part.run task watch = .ok report) :
    ∃ rank, part.root.valuation.unvalued.head? = some rank ∧
      report.trace = #[⟨0, part.problem.ranking.varAt rank⟩] := by
  obtain ⟨rank, u, hrank, hdecides⟩ := h.settled.decides_fork part.options 0 h.proper hopen hwatch
  have hliterals : part.literals task = .ok [] := by
    rw [literals, hranks]
    rfl
  rw [run_eq, hwatch, hliterals, hranks] at hrun
  change explore part.problem part.options watch 0 none part.root.fork >>= _ = _ at hrun
  obtain ⟨⟨ending, t⟩, hexplore, hreport⟩ := Fault.bind_eq_ok.1 hrun
  have htrace := hdecides.trace_explore h.proper h.settled.sound.fork htraced hexplore
  refine ⟨rank, hrank, ?_⟩
  rw [← Except.ok.inj hreport]
  exact htrace

theorem foldl_trace {found : List TaskReport} {trace : Array TracedDecision}
    (h : ∀ report ∈ found, report.trace = #[]) :
    found.foldl (fun trace report => trace ++ report.trace) trace = trace := by
  induction found with
  | nil => rfl
  | cons report rest ih =>
    obtain ⟨hreport, hrest⟩ := List.forall_mem_cons.1 h
    rw [List.foldl_cons, hreport, Array.append_empty, ih hrest]

theorem trace_of_outcome {found : List TaskReport} (h : part.outcome before decisions found = .ok outcome) :
    outcome.trace = found.foldl (fun trace report => trace ++ report.trace) decisions.toArray := by
  unfold Partition.outcome at h
  split at h
  · cases h
  · rw [← Except.ok.inj h]

/-- One decision is reported at a depth that is split on, and one at depth 0 where nothing is split on: that on the
rank without a value which the depth counts to. -/
theorem Splits.trace_eq (h : part.Splits) (hopen : part.root.allSatisfied = false)
    (hranks : part.ranks = part.root.valuation.unvalued.take count)
    (htraced : part.options.traceDepth = some t)
    (hcovered : t < part.ranks.length ∨ part.ranks.length = 0 ∧ t = 0)
    (hfirst : ∀ check, watches 0 check = none) (hreports : part.Reports watches reports)
    (hsplitting : part.splitting = .ok decisions)
    (houtcome : part.outcome before decisions ((List.range part.taskCount).map reports) = .ok outcome) :
    ∃ rank, part.root.valuation.unvalued[t]? = some rank ∧
      outcome.trace = #[⟨t, part.problem.ranking.varAt rank⟩] := by
  rw [h.splitting_traced htraced, Except.ok.injEq] at hsplitting
  rw [trace_of_outcome houtcome, ← hsplitting]
  rcases hcovered with hlt | ⟨hlength, rfl⟩
  · have hrank : part.ranks[t]? = some part.ranks[t] := List.getElem?_eq_getElem hlt
    have hsilent : ∀ report ∈ (List.range part.taskCount).map reports, report.trace = #[] := by
      intro report hreport
      obtain ⟨task, htask, rfl⟩ := List.mem_map.1 hreport
      apply h.trace_run (hreports task (List.mem_range.1 htask)).1
      intro d hd
      rw [htraced, Option.some.injEq] at hd
      exact hd ▸ hlt
    refine ⟨part.ranks[t], ?_, ?_⟩
    · rw [hranks, List.length_take] at hlt
      rw [← hrank, hranks, List.getElem?_take_of_lt (by omega)]
    · rw [foldl_trace hsilent, hrank]
      rfl
  · have hnil : part.ranks = [] := List.eq_nil_of_length_eq_zero hlength
    have hone : part.taskCount = 1 := by rw [taskCount_eq, hlength, Nat.pow_zero]
    have hrun := (hreports 0 (by omega)).1
    obtain ⟨rank, hrank, htrace⟩ := h.trace_unsplit hnil hopen htraced hfirst hrun
    refine ⟨rank, ?_, ?_⟩
    · rw [← List.head?_eq_getElem?]
      exact hrank
    · rw [hone, hnil]
      show #[] ++ (reports 0).trace = _
      rw [htrace, Array.empty_append]

end Partition

namespace Prepared

/-! ### Solves -/

theorem ranks_ofRoot (hs : s.Sound p) (o : Options) (depth : Nat) :
    (Partition.ofRoot p o s depth).ranks = s.valuation.unvalued.take depth := by
  rw [hs.unvalued_eq]
  exact chooseRanks_eq_take

theorem exists_solve_traced (settings : Settings) (hp : p.Proper) (hlimit : settings.limit? = none)
    (htraced : settings.traceDepth = some t) (hroot : Search.atRoot p settings = .ok (s, conflict))
    (clock : Clock) : ∃ outcome, p.solve settings clock = .ok (.ok outcome) ∧
      (conflict.isSome = true ∨ s.allSatisfied = true → outcome.trace = #[]) ∧
      (conflict = none → s.allSatisfied = false →
        let ranks := (Partition.ofRoot p (.ofSettings settings) s settings.partitionDepth).ranks
        ranks = s.valuation.unvalued.take settings.partitionDepth ∧
        (t < ranks.length ∨ ranks.length = 0 ∧ t = 0 →
          ∃ rank, s.valuation.unvalued[t]? = some rank ∧
            outcome.trace = #[⟨t, p.ranking.varAt rank⟩])) := by
  have hsolve : p.solve settings clock =
      p.solveWith (Partition.inTurn (clock.expired none)) settings := by
    rw [solve, Settings.deadline, hlimit]
    rfl
  obtain ⟨s', conflict', hroot', hrooted, hcases⟩ := rootResult_cases hp settings
  rw [hroot, Except.ok.injEq, Prod.mk.injEq] at hroot'
  obtain ⟨rfl, rfl⟩ := hroot'
  rw [hsolve, solveWith_eq]
  rcases hcases with ⟨hconflict, hdecided⟩ | ⟨hsolved, hdecided⟩ | ⟨rfl, hopen, hsplit⟩
  · rw [hdecided]
    refine ⟨_, rfl, fun _ => rfl, fun hnone => ?_⟩
    simp [hnone] at hconflict
  · rw [hdecided]
    refine ⟨_, rfl, fun _ => rfl, fun _ hopen => ?_⟩
    simp [hsolved] at hopen
  · have hs := hrooted.settled rfl
    have hsplits := Partition.splits_ofRoot (.ofSettings settings) settings.partitionDepth hp hs
    have hranks := ranks_ofRoot (p := p) hs.sound (.ofSettings settings) settings.partitionDepth
    rw [hsplit]
    set part := Partition.ofRoot p (.ofSettings settings) s settings.partitionDepth with hpart
    -- nothing can stop the first task, and no check finds a time limit
    have hfirst : ∀ check, Partition.watchInTurn (clock.expired none) part 0 check = none := fun _ => rfl
    obtain ⟨decisions, hsplitting⟩ := Partition.splitting_eq_ok hsplits
    obtain ⟨reports, hreports, hall⟩ :=
      Partition.runAll_spec hsplits (Partition.watchInTurn (clock.expired none) part)
    obtain ⟨outcome, houtcome, -⟩ :=
      Partition.outcome_eq_ok { pureVariables := p.ranking.pureCount } decisions hreports
    refine ⟨outcome, ?_, fun hdecided => ?_, fun _ _ => ⟨hranks, fun hcovered => ?_⟩⟩
    · show (part.splitting >>= fun splitting => _) = _
      rw [hsplitting]
      show (part.inTurn (clock.expired none) >>= fun reports => _) = _
      rw [Partition.inTurn_eq_runAll, hall]
      exact congrArg Except.ok houtcome
    · simp [hopen] at hdecided
    · exact hsplits.trace_eq hopen hranks htraced hcovered hfirst hreports hsplitting houtcome

end Prepared

namespace Session

/-! ### Sessions -/

variable {s : Session} {clauses : List (List Int)}

theorem Ready.trace_of_solve {p : Prepared} {outcome : Outcome} (h : s.Ready clauses)
    (hp : Prepared.ofFormula s.formula s.settings.heuristic = .ok (.ok p))
    (hsolve : p.solve s.settings clock = .ok (.ok outcome)) :
    ∃ after, s.solve clock = .ok (.ok outcome.verdict, after) ∧ after.trace = outcome.trace := by
  refine ⟨(s.solved p (.ok outcome)).2, ?_, rfl⟩
  rw [solve, h.solveWith_eq_map hp, hsolve]
  rfl

/-- Without a time limit and with the tasks one after another, a solve reports nothing where the root decides.
Where it does not, and the depth traced is one of those split on, or is depth 0 and nothing is split on, it
reports one line: on the variable whose rank has the number of the depth among those that the root left without a
value. So at depth 0 the line is the same whatever the depth of the partition. -/
theorem trace_of_given (h : s.Given clauses) (hlimit : s.settings.limit? = none)
    (htraced : s.settings.traceDepth = some t) (clock : Clock) :
    ∃ p root conflict verdict after,
      Prepared.ofFormula s.formula s.settings.heuristic = .ok (.ok p) ∧
      Search.atRoot p s.settings = .ok (root, conflict) ∧
      s.solve clock = .ok (.ok verdict, after) ∧
      (conflict.isSome = true ∨ root.allSatisfied = true → after.trace = #[]) ∧
      (conflict = none → root.allSatisfied = false →
        let ranks := (Partition.ofRoot p (.ofSettings s.settings) root s.settings.partitionDepth).ranks
        ranks = root.valuation.unvalued.take s.settings.partitionDepth ∧
        (t < ranks.length ∨ ranks.length = 0 ∧ t = 0 →
          ∃ rank, root.valuation.unvalued[t]? = some rank ∧
            p.ranking.rank (p.ranking.varAt rank) = .ok rank ∧
            after.trace.map TracedDecision.line = #["Depth " ++ Numeral.text t ++
              " decision on variable " ++ Numeral.text (p.ranking.varAt rank)])) ∧
      (t = 0 → ∀ depth clock', ∃ verdict' after',
        Session.solve { s with settings := { s.settings with partitionDepth := depth } } clock' =
            .ok (.ok verdict', after') ∧ after'.trace = after.trace) := by
  have hready := h.ready
  obtain ⟨p, hp, hproper, -⟩ := Prepared.ofFormula_eq_ok hready.built.stored s.settings.heuristic
  obtain ⟨root, conflict, hroot, hrooted⟩ := atRoot_spec hproper s.settings
  obtain ⟨outcome, hsolve, hdecided, hundecided⟩ :=
    Prepared.exists_solve_traced s.settings hproper hlimit htraced hroot clock
  obtain ⟨after, hafter, htrace⟩ := hready.trace_of_solve hp hsolve
  refine ⟨p, root, conflict, _, after, hp, hroot, hafter, ?_, ?_, ?_⟩
  · rw [htrace]
    exact hdecided
  · intro hnone hopen
    obtain ⟨hranks, hline⟩ := hundecided hnone hopen
    refine ⟨hranks, fun hcovered => ?_⟩
    obtain ⟨rank, hrank, hreported⟩ := hline hcovered
    obtain ⟨hpos, hle, -⟩ := Valuation.mem_unvalued.1 (List.mem_of_getElem? hrank)
    rw [hrooted.sound.variableCount_eq] at hle
    refine ⟨rank, hrank, ?_, ?_⟩
    · rw [hproper.inverse.rank_eq_ok (hproper.inverse.varAt_mem rank hpos hle).2,
        hproper.inverse.rankOf_varAt rank hpos hle]
    · rw [htrace, hreported, List.map_toArray]
      rfl
  · rintro rfl depth clock'
    let split : Session := { s with settings := { s.settings with partitionDepth := depth } }
    have hsplit : split.Ready clauses := { hready with }
    obtain ⟨outcome', hsolve', hdecided', hundecided'⟩ :=
      Prepared.exists_solve_traced split.settings hproper hlimit htraced hroot clock'
    obtain ⟨after', hafter', htrace'⟩ := hsplit.trace_of_solve hp hsolve'
    refine ⟨_, after', hafter', ?_⟩
    rw [htrace, htrace']
    by_cases hends : conflict.isSome = true ∨ root.allSatisfied = true
    · rw [hdecided hends, hdecided' hends]
    · rw [not_or, Bool.not_eq_true, Bool.not_eq_true, Option.isSome_eq_false_iff,
        Option.isNone_iff_eq_none] at hends
      obtain ⟨rank, hrank, hreported⟩ := (hundecided hends.1 hends.2).2 (by omega)
      obtain ⟨rank', hrank', hreported'⟩ := (hundecided' hends.1 hends.2).2 (by omega)
      obtain rfl : rank = rank' := Option.some.inj (hrank.symm.trans hrank')
      rw [hreported, hreported']

/-- Rank 1 has a value from the root on, so variable 2 is decided first, however the search is split. -/
theorem trace_of_given_derived_unit : ∃ (s : Session) (verdict : Verdict) (after : Session),
    s.Given [[1], [2, 3], [-2, -3]] ∧
      s.settings.limit? = none ∧ s.settings.traceDepth = some 0 ∧
      s.solve (.standing ⟨.zero⟩ 0) = .ok (.ok verdict, after) ∧
      after.trace.map TracedDecision.line = #["Depth 0 decision on variable 2"] ∧
      ∀ depth clock, ∃ verdict' after',
        ({ s with settings := { s.settings with partitionDepth := depth } } : Session).solve clock =
          .ok (.ok verdict', after') ∧ after'.trace = after.trace := by
  let f := ((({} : Formula).store [⟨1, true⟩]).store [⟨2, true⟩, ⟨3, true⟩]).store
    [⟨2, false⟩, ⟨3, false⟩]
  let settings : Settings := { heuristic := false, traceDepth := some 0 }
  have h : Given { settings, formula := f, phase := .input } [[1], [2, 3], [-2, -3]] :=
    .add (.add (.add (.new settings) rfl) rfl) rfl
  have heval : ((Prepared.ofFormula f false).toOption.any fun prepared => prepared.toOption.any fun p =>
      (Search.atRoot p settings).toOption.any fun start =>
        decide (start.2 = none ∧ start.1.allSatisfied = false ∧
          start.1.valuation.unvalued = [2, 3] ∧ p.ranking.varAt 2 = 2)) = true := by
    decide +kernel
  simp only [Option.any_eq_true, Fault.toOption_eq_some] at heval
  obtain ⟨_, hprepared, p, rfl, ⟨root, conflict⟩, hroot, hdecided⟩ := heval
  obtain ⟨rfl, hopen, hunvalued, hvar⟩ := of_decide_eq_true hdecided
  obtain ⟨p', root', conflict', verdict, after, hprepared', hroot', hsolve, -, hundecided, hsame⟩ :=
    trace_of_given h rfl rfl (.standing ⟨.zero⟩ 0)
  obtain rfl : p' = p := Except.ok.inj (Except.ok.inj (hprepared'.symm.trans hprepared))
  obtain ⟨rfl, rfl⟩ := Prod.mk.inj (Except.ok.inj (hroot'.symm.trans hroot))
  obtain ⟨hranks, hline⟩ := hundecided rfl hopen
  obtain ⟨rank, hrank, -, htrace⟩ := hline (by rw [hranks, hunvalued]; decide)
  obtain rfl : 2 = rank := by simpa [hunvalued] using hrank
  refine ⟨_, verdict, after, h, rfl, rfl, hsolve, ?_, hsame rfl⟩
  rw [htrace, hvar]
  decide +kernel

end Session

end ClauseSearch
