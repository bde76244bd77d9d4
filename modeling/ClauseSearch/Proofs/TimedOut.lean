import ClauseSearch.Proofs.Exhaustive

/-! Solutions and the time limit. A check that ends a task early ends it in an error, and the task hands
nothing over then, whatever its search has recorded by that time; its counts join the shared tally all the
same. So an enumerating solve that runs out of time accounts for the tasks that have ended in time, and
where only the others have found models it reports none. -/

namespace ClauseSearch

open Search

variable {p : Prepared} {part : Partition} {settings : Settings} {o : Options} {task : Nat}
  {watch : Watch} {report : TaskReport} {found : Solutions} {leaves : List Valuation}
  {verdict : Verdict} {expired : Nat → Nat → Bool} {start : Instant} {workers : Nat}
  {ended : List TaskReport}

/-! ### Counts -/

/-- A sum that stops at the limit is the sum up to the limit. -/
theorem Solutions.foldl_addCounts {counts : List Nat} {n : Nat} (h : n ≤ countLimit) :
    counts.foldl addCounts n = min (n + counts.sum) countLimit := by
  induction counts generalizing n with
  | nil => simp [Nat.min_eq_left h]
  | cons count counts ih =>
    have hle : addCounts n count ≤ countLimit := Nat.min_le_right ..
    rw [List.foldl_cons, ih hle, addCounts, List.sum_cons]
    omega

theorem Partition.count_solutions (reports : List TaskReport) : (solutions reports).count =
    (reports.map fun report => report.solutions.count).foldl Solutions.addCounts 0 := by
  rw [List.foldl_map]
  exact (List.foldl_hom Solutions.count fun _ _ => rfl).symm

theorem Grounded.verdict_iff_count (h : Grounded p o leaves verdict found) :
    verdict = .satisfiable ↔ 0 < found.count := by
  rw [h.verdict, h.found, count_foldl_record_pos]

theorem Grounded.model_isSome (h : Grounded p o leaves verdict found) (hcount : 0 < found.count) :
    found.model.isSome = true := by
  obtain ⟨w, hw⟩ := List.exists_mem_of_ne_nil leaves (h.verdict.1 (h.verdict_iff_count.2 hcount))
  rw [h.model, Option.isSome_map, List.isSome_head?]
  simpa using List.ne_nil_of_mem hw

namespace Partition

/-! ### What a task has recorded -/

/-- What the search of a task has recorded by its end, however it ends. -/
def recorded (part : Partition) (task : Nat) (watch : Watch) : Except Fault Solutions := do
  if (watch 0).isSome then
    return {}
  match ← assumeAll (← part.literals task) part.root.fork with
  | .error _ => return {}
  | .ok s =>
    let (_, s) ← s.explore part.problem part.options watch part.ranks.length none
    return s.solutions

theorem recorded_of_run (h : part.run task watch = .ok report) :
    ∃ found, part.recorded task watch = .ok found ∧
      ∀ ended handed, report.ending = .ok (ended, handed) → handed = found := by
  unfold run at h
  unfold recorded
  cases hwatch : watch 0 with
  | some reason =>
    rw [hwatch] at h
    obtain rfl : { ending := .error (.interrupted reason) } = report := Except.ok.inj h
    exact ⟨{}, rfl, by simp⟩
  | none =>
    rw [hwatch] at h
    obtain ⟨ls, hls, h⟩ := Fault.bind_eq_ok.1 h
    obtain ⟨assumed, hassumed, h⟩ := Fault.bind_eq_ok.1 h
    cases assumed with
    | error l =>
      obtain rfl : { ending := .error (.assumptionConflict l) } = report := Except.ok.inj h
      refine ⟨{}, ?_, by simp⟩
      exact Fault.bind_eq_ok.2 ⟨ls, hls, Fault.bind_eq_ok.2 ⟨_, hassumed, rfl⟩⟩
    | ok s =>
      obtain ⟨⟨ending, t⟩, hexplore, h⟩ := Fault.bind_eq_ok.1 h
      obtain rfl : TaskReport.mk _ _ _ = report := Except.ok.inj h
      refine ⟨t.solutions, ?_, ?_⟩
      · exact Fault.bind_eq_ok.2 ⟨ls, hls, Fault.bind_eq_ok.2 ⟨_, hassumed,
          Fault.bind_eq_ok.2 ⟨_, hexplore, rfl⟩⟩⟩
      · intro ended handed hending
        cases ending with
        | error e => simp [Except.map] at hending
        | ok found => simp_all [Except.map]

/-- The checks of every task find the time limit where the deadline has passed, and nothing otherwise. -/
def expiring (expired : Nat → Nat → Bool) (task : Nat) : Watch :=
  Partition.watch false (expired task)

theorem expiring_ne_stopped (check : Nat) : expiring expired task check ≠ some .stopped := by
  unfold expiring Partition.watch
  split
  · contradiction
  · split <;> simp

/-- A task that runs out of time hands nothing over, and any other one what it has recorded. -/
theorem Reported.solutions_eq (h : part.Reported task (expiring expired task) report)
    (hfound : ∀ ended handed, report.ending = .ok (ended, handed) → handed = found) :
    report.solutions = if report.timedOut then {} else found := by
  unfold TaskReport.solutions TaskReport.timedOut
  cases hending : report.ending with
  | ok result => simp [hfound result.1 result.2 hending]
  | error e =>
    obtain ⟨check, reason, hwatch, rfl⟩ := h.interrupted hending
    cases reason with
    | stopped => exact absurd hwatch (expiring_ne_stopped check)
    | timeLimit => rfl

end Partition

/-! ### Outcomes -/

/-- Where anything was recorded, the outcome reports a model and counts all that was recorded. -/
def Outcome.Keeps (outcome : Outcome) (recorded : List Solutions) : Prop :=
  (∃ found ∈ recorded, 0 < found.count) →
    outcome.verdict = .satisfiable ∧ outcome.solutions.model.isSome = true ∧
      outcome.solutions.count = (recorded.map (·.count)).foldl Solutions.addCounts 0

section Keeps

variable {reports : Nat → TaskReport} {recorded : Nat → Solutions} {n : Nat} {outcome : Outcome}

/-- What was recorded is counted where the tasks that ran out of time had recorded nothing, or where the
count is at its limit without them. -/
theorem Grounded.keeps_iff
    (h : Grounded p o leaves outcome.verdict outcome.solutions)
    (hsolutions : outcome.solutions = Partition.solutions ((List.range n).map reports))
    (hreports : ∀ task < n,
      (reports task).solutions = if (reports task).timedOut then {} else recorded task) :
    outcome.Keeps ((List.range n).map recorded) ↔
      (∀ task < n, (reports task).timedOut = true → (recorded task).count = 0) ∨
        outcome.solutions.count = Solutions.countLimit := by
  -- what is counted, what was recorded by tasks that ran out of time, and the sum of the two
  obtain ⟨kept, hkept⟩ : ∃ kept, kept =
    ((List.range n).map fun task => (reports task).solutions.count).sum := ⟨_, rfl⟩
  obtain ⟨lost, hlost⟩ : ∃ lost, lost = ((List.range n).map fun task =>
    if (reports task).timedOut then (recorded task).count else 0).sum := ⟨_, rfl⟩
  have htotal : ((List.range n).map fun task => (recorded task).count).sum = kept + lost := by
    rw [hkept, hlost, ← List.sum_map_add]
    refine congrArg List.sum (List.map_congr_left fun task htask => ?_)
    rw [hreports task (List.mem_range.1 htask)]
    split <;> simp
  have hcount : outcome.solutions.count = min kept Solutions.countLimit := by
    rw [hsolutions, Partition.count_solutions, Solutions.foldl_addCounts (Nat.zero_le _),
      List.map_map, Nat.zero_add, hkept]
    rfl
  have hnone : lost = 0 ↔
      ∀ task < n, (reports task).timedOut = true → (recorded task).count = 0 := by
    rw [hlost, List.sum_eq_zero_iff_forall_eq_nat]
    simp
  have hany : (∃ found ∈ (List.range n).map recorded, 0 < found.count) ↔ 0 < kept + lost := by
    rw [← htotal, List.sum_pos_iff_exists_pos_nat]
    simp
  have hsum : (((List.range n).map recorded).map (·.count)).foldl Solutions.addCounts 0 =
      min (kept + lost) Solutions.countLimit := by
    rw [Solutions.foldl_addCounts (Nat.zero_le _), List.map_map, Nat.zero_add, ← htotal]
    rfl
  have hlimit : 0 < Solutions.countLimit := by decide
  rw [Outcome.Keeps, hany, hsum, ← hnone, hcount]
  clear hkept hlost htotal hnone hany hsum
  constructor
  · intro hkeeps
    by_cases hzero : lost = 0
    · exact .inl hzero
    · have := (hkeeps (by omega)).2.2
      omega
  · intro hcases hpos
    have hsome : 0 < outcome.solutions.count := by omega
    exact ⟨h.verdict_iff_count.2 hsome, h.model_isSome hsome, by omega⟩

/-- A model is reported exactly if a task that did not run out of time has recorded one. -/
theorem Grounded.verdict_iff_recorded
    (h : Grounded p o leaves outcome.verdict outcome.solutions)
    (hsolutions : outcome.solutions = Partition.solutions ((List.range n).map reports))
    (hreports : ∀ task < n,
      (reports task).solutions = if (reports task).timedOut then {} else recorded task) :
    outcome.verdict = .satisfiable ↔
      ∃ task < n, (reports task).timedOut = false ∧ 0 < (recorded task).count := by
  have hlimit : 0 < Solutions.countLimit := by decide
  have hcount : 0 < outcome.solutions.count ↔ ∃ task < n, 0 < (reports task).solutions.count := by
    rw [hsolutions, Partition.count_solutions, Solutions.foldl_addCounts (Nat.zero_le _), Nat.zero_add,
      Nat.lt_min, and_iff_left hlimit, List.sum_pos_iff_exists_pos_nat]
    simp
  rw [h.verdict_iff_count, hcount]
  refine exists_congr fun task => and_congr_right fun htask => ?_
  rw [hreports task htask]
  cases (reports task).timedOut <;> simp

end Keeps

/-- Where every task enumerates, a check finds the time limit or nothing. -/
theorem Partition.Follows.expiring {deadline : Option Instant} {watches : Nat → Watch}
    {reports : Nat → TaskReport} (h : part.Follows deadline watches reports) (hsplits : part.Splits)
    (henumerate : part.options.enumerate = true) : ∃ expired, ∀ task < part.taskCount,
      part.Reported task (Partition.expiring expired task) (reports task) ∧
        part.run task (Partition.expiring expired task) = .ok (reports task) := by
  refine ⟨fun task check => (watches task check).isSome, fun task htask => ?_⟩
  have hwatch : Partition.expiring (fun task check => (watches task check).isSome) task =
      watches task := by
    funext check
    cases hfound : watches task check with
    | none => simp [Partition.expiring, watch, hfound]
    | some reason =>
      cases reason with
      | timeLimit => simp [Partition.expiring, watch, hfound]
      | stopped =>
        obtain ⟨other, hother, hstops⟩ := h.stopped task htask check hfound
        have hone := ((h.reported hsplits other hother).2.stopsOthers hsplits.proper hstops).1
        simp [henumerate] at hone
  rw [hwatch]
  exact ⟨(h.reported hsplits task htask).2, h.run task htask⟩

namespace Prepared

/-- An enumerating solve reports a model exactly if a task that did not run out of time has recorded one,
whatever the workers do and whenever the time runs out. It keeps all that the tasks have recorded exactly
if those that ran out of time had recorded nothing, or if the count is at its limit without them. -/
theorem keeps_recorded_iff {f : Formula} (hf : f.Built)
    (hp : ofFormula f settings.heuristic = .ok (.ok p)) (henumerate : settings.enumerate = true)
    (hroot : p.rootResult settings = .ok (.inr part)) {outcome : Outcome}
    (h : p.Dispatches settings start workers ended (.ok outcome)) :
    ∃ expired reports recorded, ended = (List.range part.taskCount).map reports ∧
      (∀ task < part.taskCount,
        part.run task (Partition.expiring expired task) = .ok (reports task) ∧
        part.recorded task (Partition.expiring expired task) = .ok (recorded task)) ∧
      (outcome.verdict = .satisfiable ↔
        ∃ task < part.taskCount, (reports task).timedOut = false ∧ 0 < (recorded task).count) ∧
      (outcome.Keeps ((List.range part.taskCount).map recorded) ↔
        (∀ task < part.taskCount, (reports task).timedOut = true → (recorded task).count = 0) ∨
          outcome.solutions.count = Solutions.countLimit) := by
  obtain ⟨p', hp', hproper, -⟩ := ofFormula_eq_ok hf.stored settings.heuristic
  rw [hp] at hp'
  cases hp'
  obtain ⟨outcome', leaves, hresult, hgrounded, -⟩ := h.sound hproper
  obtain rfl : outcome = outcome' := Except.ok.inj hresult
  have hsolutions := h.solutions_eq hproper hroot
  rcases h.cases hproper with ⟨_, hroot', -⟩ | ⟨s, deadline, watches, reports, _, hroot', hrooted, -,
    hfollows, rfl, -⟩
  · simp [hroot] at hroot'
  rw [hroot, Except.ok.injEq, Sum.inr.injEq] at hroot'
  subst hroot'
  have hsplits := Partition.splits_ofRoot (.ofSettings settings) settings.partitionDepth hproper
    (hrooted.settled rfl)
  obtain ⟨expired, hruns⟩ := hfollows.expiring hsplits henumerate
  have : Nonempty Solutions := ⟨{}⟩
  choose! recorded hrecorded hhanded using
    fun task htask => Partition.recorded_of_run (hruns task htask).2
  have hreports := fun task htask => (hruns task htask).1.solutions_eq (hhanded task htask)
  exact ⟨expired, reports, recorded, rfl,
    fun task htask => ⟨(hruns task htask).2, hrecorded task htask⟩,
    hgrounded.verdict_iff_recorded hsolutions hreports, hgrounded.keeps_iff hsolutions hreports⟩

/-- Models are enumerated by one task, for at most a second. -/
def forOneSecond : Settings where
  heuristic := false
  enumerate := true
  partitionDepth := 0
  timeLimit := ⟨1, 0⟩

/-- One clause of three literals is enumerated by one task, and the time is up after the first leaf: the task
has recorded four models, and the outcome is as if it had recorded none. -/
theorem three_literals_timed_out : ∃ f p part outcome found, f.Built ∧
    f.clauses = #[[⟨1, true⟩, ⟨2, true⟩, ⟨3, true⟩]] ∧ ofFormula f false = .ok (.ok p) ∧
      p.rootResult forOneSecond = .ok (.inr part) ∧ part.taskCount = 1 ∧
      p.solve forOneSecond (.standing ⟨.zero⟩ 2) = .ok (.ok outcome) ∧
      part.recorded 0 (Partition.expiring ((Clock.standing ⟨.zero⟩ 2).expired (some ⟨⟨1, 0⟩⟩)) 0) =
        .ok found ∧
      found.count = 4 ∧ outcome.verdict = .unknown ∧ outcome.solutions = {} := by
  let clock := Clock.standing ⟨.zero⟩ 2
  let f := ({} : Formula).store [⟨1, true⟩, ⟨2, true⟩, ⟨3, true⟩]
  have hf : f.Built := @Formula.Built.add {} f [1, 2, 3] 0 .empty rfl
  have heval : ((ofFormula f false).toOption.any fun prepared => prepared.toOption.any fun p =>
      (p.rootResult forOneSecond).toOption.any fun root => root.getRight?.any fun part =>
        (p.solve forOneSecond clock).toOption.any fun solved => solved.toOption.any fun outcome =>
          (part.recorded 0 (Partition.expiring (clock.expired (some ⟨⟨1, 0⟩⟩)) 0)).toOption.any fun found =>
            decide (part.taskCount = 1 ∧ found.count = 4 ∧ outcome.verdict = .unknown ∧
              outcome.solutions = {})) = true := by decide +kernel
  simp only [Option.any_eq_true, Fault.toOption_eq_some, Sum.getRight?_eq_some_iff] at heval
  obtain ⟨_, hp, p, rfl, _, hroot, part, rfl, _, hsolve, outcome, rfl, found, hfound, hdecided⟩ := heval
  obtain ⟨hone, hcount, hverdict, hsolutions⟩ := of_decide_eq_true hdecided
  exact ⟨f, p, part, outcome, found, hf, rfl, hp, hroot, hone, hsolve, hfound, hcount, hverdict,
    hsolutions⟩

/-- What a task recorded before the time ran out is not kept. -/
theorem recorded_not_kept : ∃ f p part outcome found, f.Built ∧ ofFormula f false = .ok (.ok p) ∧
    p.rootResult forOneSecond = .ok (.inr part) ∧ part.taskCount = 1 ∧
    p.solve forOneSecond (.standing ⟨.zero⟩ 2) = .ok (.ok outcome) ∧
    part.recorded 0 (Partition.expiring ((Clock.standing ⟨.zero⟩ 2).expired (some ⟨⟨1, 0⟩⟩)) 0) =
      .ok found ∧
    ¬ outcome.Keeps [found] := by
  obtain ⟨f, p, part, outcome, found, hf, -, hp, hroot, hone, hsolve, hfound, hcount, hverdict, -⟩ :=
    three_literals_timed_out
  refine ⟨f, p, part, outcome, found, hf, hp, hroot, hone, hsolve, hfound, fun hkeeps => ?_⟩
  have hsat := (hkeeps ⟨found, by simp, by omega⟩).1
  simp [hverdict] at hsat

theorem keeps_recorded_iff_three_literals : ∃ f p part ended outcome, f.Built ∧
    ofFormula f false = .ok (.ok p) ∧ p.rootResult forOneSecond = .ok (.inr part) ∧
    p.Dispatches forOneSecond ⟨.zero⟩ 2 ended (.ok outcome) ∧
    ∃ expired recorded, part.recorded 0 (Partition.expiring expired 0) = .ok (recorded 0) ∧
      (outcome.Keeps ((List.range part.taskCount).map recorded) → (recorded 0).count = 0) := by
  obtain ⟨f, p, part, outcome, -, hf, -, hp, hroot, hone, hsolve, -, -, hverdict, hsolutions⟩ :=
    three_literals_timed_out
  obtain ⟨p', hp', hproper, -⟩ := ofFormula_eq_ok hf.stored false
  obtain rfl : p' = p := by simpa [hp] using hp'.symm
  obtain ⟨ended, h⟩ := dispatches_of_solve hproper (by decide : 0 < 2) hsolve
  obtain ⟨expired, reports, recorded, -, hruns, hsat, hkeeps⟩ :=
    keeps_recorded_iff hf hp rfl hroot h
  refine ⟨f, p', part, ended, outcome, hf, hp, hroot, h, expired, recorded, (hruns 0 (by omega)).2,
    fun hkept => ?_⟩
  cases htimed : (reports 0).timedOut with
  | false =>
    by_contra hcount
    have := hsat.2 ⟨0, by omega, htimed, Nat.pos_of_ne_zero hcount⟩
    simp [hverdict] at this
  | true =>
    rcases hkeeps.1 hkept with hnone | hlimit
    · exact hnone 0 (by omega) htimed
    · simp [hsolutions, Solutions.countLimit] at hlimit

end Prepared

end ClauseSearch
