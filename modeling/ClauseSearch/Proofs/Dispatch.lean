import ClauseSearch.Proofs.InTurn
import ClauseSearch.Proofs.Solving

/-! Solves whose tasks run on a pool of workers. The root search decides, or the tasks it leaves are run
and the outcome is read off the finished pool; one task after another is a special case. Whatever the
workers do and whenever the time runs out, a model reported is one of the formula, a report that there is
none is right, and nothing is left open unless some task ran out of time. -/

namespace ClauseSearch

open Search

variable {p : Prepared} {part : Partition} {settings : Settings} {o : Options}
  {watches : Nat → Watch} {reports : Nat → TaskReport} {task workers : Nat} {watch : Watch}
  {report : TaskReport} {leaves : List Valuation} {verdict : Verdict} {found : Solutions}
  {deadline : Option Instant} {pool : Pool} {before : Tally} {trace : Array TracedDecision}
  {start : Instant} {ended : List TaskReport} {result : Except SearchError Outcome}

/-! ### What is recorded -/

/-- What was found is recorded from leaves, and a model is reported where there is one. -/
structure Grounded (p : Prepared) (o : Options) (leaves : List Valuation) (verdict : Verdict)
    (found : Solutions) : Prop where
  size : ∀ w ∈ leaves, w.slots.size = p.variableCount + 1
  solved : ∀ w ∈ leaves, Solved p w
  found : found = leaves.foldl (record p o) {}
  verdict : verdict = .satisfiable ↔ leaves ≠ []

theorem Grounded.satisfiable (h : Grounded p o leaves verdict found) (hp : p.Proper)
    (hverdict : verdict = .satisfiable) : p.formula.Satisfiable := by
  obtain ⟨w, hw⟩ := List.exists_mem_of_ne_nil leaves (h.verdict.1 hverdict)
  exact (h.solved w hw).satisfiable hp

theorem grounded_nil (h : verdict ≠ .satisfiable) : Grounded p o [] verdict {} where
  size := by simp
  solved := by simp
  found := rfl
  verdict := by simp [h]

namespace Partition

theorem Reported.recorded (h : part.Reported task watch report) :
    ∃ leaves : List Valuation, (∀ w ∈ leaves, w.slots.size = part.problem.variableCount + 1) ∧
      (∀ w ∈ leaves, Solved part.problem w) ∧
      report.solutions = leaves.foldl (record part.problem part.options) {} ∧
      (report.hasModel = true ↔ leaves ≠ []) := by
  obtain ⟨v, ending, leaves, hsize, -, hexplored, hending⟩ := h
  cases ending with
  | error e =>
    refine ⟨[], by simp, by simp, ?_, ?_⟩
    · rw [TaskReport.solutions, hending]
      rfl
    · simp [TaskReport.hasModel, hending, Except.map]
  | ok ended =>
    refine ⟨leaves, fun w hw => (hexplored.size w hw).trans hsize, hexplored.solved, ?_, ?_⟩
    · rw [TaskReport.solutions, hending]
      rfl
    · rw [← count_foldl_record_pos (p := part.problem) (o := part.options)]
      simp only [TaskReport.hasModel, hending, Except.map, Bool.or_eq_true, beq_iff_eq,
        decide_eq_true_eq, or_iff_right_iff_imp]
      rintro rfl
      exact count_foldl_record_pos.2 (hexplored.satisfiable rfl).2

theorem timedOut_iff : report.timedOut = true ↔ report.ending = .error (.interrupted .timeLimit) := by
  unfold TaskReport.timedOut
  split <;> simp_all

theorem verdict_eq_satisfiable_iff :
    Partition.verdict ended = .satisfiable ↔ ∃ report ∈ ended, report.hasModel = true := by
  rw [← List.any_eq_true, Partition.verdict]
  split
  · simp [*]
  · split <;> simp [*]

theorem verdict_eq_unsatisfiable_iff :
    Partition.verdict ended = .unsatisfiable ↔ (∀ report ∈ ended, ¬ report.hasModel = true) ∧
      ∀ report ∈ ended, report.ending ≠ .error (.interrupted .timeLimit) := by
  rw [Partition.verdict]
  split
  · rename_i hmodel
    obtain ⟨report, hreport, hfound⟩ := List.any_eq_true.1 hmodel
    exact iff_of_false (by simp) fun h => h.1 report hreport hfound
  · rename_i hmodel
    split
    · rename_i htimed
      obtain ⟨report, hreport, hending⟩ := List.any_eq_true.1 htimed
      exact iff_of_false (by simp) fun h => h.2 report hreport (timedOut_iff.1 hending)
    · rename_i htimed
      refine iff_of_true rfl ⟨fun report hreport hfound => ?_, fun report hreport hending => ?_⟩
      · exact hmodel (List.any_eq_true.2 ⟨report, hreport, hfound⟩)
      · exact htimed (List.any_eq_true.2 ⟨report, hreport, timedOut_iff.2 hending⟩)

theorem exists_timeLimit_of_unknown (h : Partition.verdict ended = .unknown) :
    ∃ report ∈ ended, report.ending = .error (.interrupted .timeLimit) := by
  simp only [← timedOut_iff]
  rw [← List.any_eq_true]
  unfold Partition.verdict at h
  split at h
  · simp at h
  · split at h
    · assumption
    · simp at h

/-- The tasks together record leaves, and report a model where there is one. -/
theorem Reports.grounded (h : part.Reports watches reports) : ∃ leaves,
    Grounded part.problem part.options leaves
      (Partition.verdict ((List.range part.taskCount).map reports))
      (solutions ((List.range part.taskCount).map reports)) := by
  have : Nonempty (List Valuation) := ⟨[]⟩
  choose! leaves hsize hsolved hfound hmodel using
    fun task (htask : task < part.taskCount) => (h task htask).2.recorded
  refine ⟨(List.range part.taskCount).flatMap leaves, ⟨?_, ?_, solutions_eq_foldl_record hfound, ?_⟩⟩
  · intro w hw
    obtain ⟨task, htask, hleaf⟩ := List.mem_flatMap.1 hw
    exact hsize task (List.mem_range.1 htask) w hleaf
  · intro w hw
    obtain ⟨task, htask, hleaf⟩ := List.mem_flatMap.1 hw
    exact hsolved task (List.mem_range.1 htask) w hleaf
  · rw [verdict_eq_satisfiable_iff, Ne, List.flatMap_eq_nil_iff]
    simp only [List.mem_map, List.mem_range, exists_exists_and_eq_and, not_forall, exists_prop]
    exact exists_congr fun task => and_congr_right fun htask => hmodel task htask

section Follows

variable (h : part.Follows deadline watches reports) (hsplits : part.Splits)

include h hsplits in
theorem Follows.reported : part.Reports watches reports := by
  intro task htask
  obtain ⟨report, hrun, hreported⟩ := run_spec (watches task) hsplits htask
  rw [h.run task htask, Except.ok.injEq] at hrun
  exact ⟨h.run task htask, hrun ▸ hreported⟩

include h hsplits in
/-- A task that was stopped owes it to one that has found a model. -/
theorem Follows.hasModel_of_stopped (htask : task < part.taskCount)
    (hstopped : (reports task).ending = .error (.interrupted .stopped)) :
    ∃ other < part.taskCount, (reports other).hasModel = true := by
  obtain ⟨check, reason, hwatch, hreason⟩ := (h.reported hsplits task htask).2.interrupted hstopped
  cases hreason
  obtain ⟨other, hother, hstops⟩ := h.stopped task htask check hwatch
  exact ⟨other, hother, hasModel_of_stopsOthers hstops⟩

include h hsplits in
/-- A model that the root keeps is found unless a task runs out of time. -/
theorem Follows.hasModel_or_timeLimit {a : Assignment} (hroot : part.root.valuation.admits a = true)
    (ha : part.problem.formula.holds a = true) :
    (∃ other < part.taskCount, (reports other).hasModel = true) ∨
      ∃ task < part.taskCount, (reports task).ending = .error (.interrupted .timeLimit) := by
  have htask := part.taskOf_lt (a := a)
  rcases (h.reported hsplits _ htask).2.hasModel hroot ha rfl with hmodel | ⟨_, reason, -, hending⟩
  · exact .inl ⟨_, htask, hmodel⟩
  · cases reason with
    | stopped => exact .inl (h.hasModel_of_stopped hsplits htask hending)
    | timeLimit => exact .inr ⟨_, htask, hending⟩

end Follows

end Partition

/-! ### The root -/

namespace Prepared

/-- The outcome where the root search decides, and the tasks it leaves otherwise. -/
def rootResult (p : Prepared) (settings : Settings) : Except Fault (Outcome ⊕ Partition) := do
  let before : Tally := { pureVariables := p.ranking.pureCount }
  let (s, conflict) ← Search.atRoot p settings
  if conflict.isSome then
    return .inl { verdict := .unsatisfiable
                  tally := before + { s.tally with conflicts := s.tally.conflicts + 1 } }
  if s.allSatisfied then
    let s ← s.countSolved.recordSolution p (.ofSettings settings)
    return .inl { verdict := .satisfiable, tally := before + s.tally, solutions := s.solutions }
  return .inr (Partition.ofRoot p (.ofSettings settings) s settings.partitionDepth)

theorem solveWith_eq (runTasks : Partition → Except Fault (List TaskReport)) (p : Prepared)
    (settings : Settings) : p.solveWith runTasks settings =
      p.rootResult settings >>= fun root =>
        match root with
        | .inl outcome => .ok (.ok outcome)
        | .inr part => part.splitting >>= fun splitting => runTasks part >>= fun reports =>
            .ok (part.outcome { pureVariables := p.ranking.pureCount } splitting reports) := by
  unfold solveWith rootResult
  cases Search.atRoot p settings with
  | error fault => rfl
  | ok root =>
    obtain ⟨s, conflict⟩ := root
    cases conflict with
    | some id => rfl
    | none =>
      by_cases hsolved : s.allSatisfied = true
      · simp only [bind, Except.bind, Option.isSome_none, Bool.false_eq_true, if_false, hsolved, if_true]
        cases s.countSolved.recordSolution p (.ofSettings settings) <;> rfl
      · simp only [bind, Except.bind, Option.isSome_none, Bool.false_eq_true, if_false, hsolved]
        rfl

/-- The root search ends in a conflict, at a leaf, or with a search to split. -/
theorem rootResult_cases (hp : p.Proper) (settings : Settings) :
    ∃ s conflict, Search.atRoot p settings = .ok (s, conflict) ∧ Rooted p settings s conflict ∧
      ((conflict.isSome = true ∧ p.rootResult settings = .ok (.inl
          { verdict := .unsatisfiable
            tally := ({ pureVariables := p.ranking.pureCount } : Tally) + (s.countConflict 0).tally })) ∨
        (s.allSatisfied = true ∧ p.rootResult settings = .ok (.inl
          { verdict := .satisfiable
            tally := ({ pureVariables := p.ranking.pureCount } : Tally) + s.countSolved.tally
            solutions := record p (.ofSettings settings) {} s.valuation })) ∨
        (conflict = none ∧ s.allSatisfied = false ∧ p.rootResult settings =
          .ok (.inr (.ofRoot p (.ofSettings settings) s settings.partitionDepth)))) := by
  obtain ⟨s, conflict, hroot, hrooted⟩ := atRoot_spec hp settings
  refine ⟨s, conflict, hroot, hrooted, ?_⟩
  unfold rootResult
  rw [hroot]
  cases conflict with
  | some clause => exact .inl ⟨rfl, rfl⟩
  | none =>
    by_cases hsolved : s.allSatisfied = true
    · have hrecord := recordSolution_eq_ok (o := .ofSettings settings) (s := s.countSolved) hp
        { hrooted.sound.toCoherent with }
      have hfound : s.countSolved.solutions = {} := hrooted.solutions
      rw [hfound] at hrecord
      simp only [bind, Except.bind, Option.isSome_none, Bool.false_eq_true, if_false, hsolved, if_true,
        hrecord]
      exact .inr (.inl ⟨trivial, rfl⟩)
    · simp only [bind, Except.bind, Option.isSome_none, Bool.false_eq_true, if_false, hsolved]
      exact .inr (.inr ⟨trivial, trivial, rfl⟩)

theorem rootResult_spec (hp : p.Proper) (settings : Settings) :
    (∃ outcome leaves, p.rootResult settings = .ok (.inl outcome) ∧
      Grounded p (.ofSettings settings) leaves outcome.verdict outcome.solutions ∧
      outcome.verdict ≠ .unknown ∧
      (outcome.verdict = .unsatisfiable → ¬ p.formula.Satisfiable)) ∨
    ∃ s, Rooted p settings s none ∧ p.rootResult settings =
      .ok (.inr (.ofRoot p (.ofSettings settings) s settings.partitionDepth)) := by
  obtain ⟨s, conflict, -, hrooted, ⟨hconflict, hroot⟩ | ⟨hsolved, hroot⟩ | ⟨rfl, -, hroot⟩⟩ :=
    rootResult_cases hp settings
  · refine .inl ⟨_, [], hroot, grounded_nil (by simp), by simp, fun _ hsat => ?_⟩
    obtain ⟨a, hadmits, ha⟩ := hrooted.keeps_some hsat
    simp [(hrooted.conflicts hconflict).holds_eq_false hp.ranged hadmits] at ha
  · have hleaf : Solved p s.valuation := solved_of_allSatisfied hrooted.sound hsolved
    refine .inl ⟨_, [s.valuation], hroot, ⟨?_, ?_, rfl, by simp⟩, by simp, by simp⟩
    · simpa using hrooted.sound.slots
    · simpa using hleaf
  · exact .inr ⟨s, hrooted, hroot⟩

theorem exists_of_rootResult (hp : p.Proper) (h : p.rootResult settings = .ok (.inr part)) :
    ∃ s, Rooted p settings s none ∧
      part = .ofRoot p (.ofSettings settings) s settings.partitionDepth := by
  rcases rootResult_spec hp settings with ⟨_, _, hroot, -⟩ | ⟨s, hrooted, hroot⟩
  · simp [h] at hroot
  · rw [h, Except.ok.injEq, Sum.inr.injEq] at hroot
    exact ⟨s, hrooted, hroot⟩

end Prepared

/-! ### The pool -/

/-- The reports in the order of the task numbers; a place without one is passed over. -/
def Pool.inOrder (pool : Pool) : List TaskReport := pool.results.filterMap id

theorem Pool.inOrder_eq (h : pool.results = ended.map some) : pool.inOrder = ended := by
  simp [Pool.inOrder, h]

/-- The outcome read off a pool. The lines that workers write mix, so the trace may be any. -/
def Pool.outcome (part : Partition) (before : Tally) (trace : Array TracedDecision) (pool : Pool) :
    Except SearchError Outcome :=
  match pool.inOrder.findSome? (·.failure?) with
  | some e => .error e
  | none => .ok
    { verdict := Partition.verdict pool.inOrder
      tally := { before + part.root.tally + pool.board.tally.snapshot.tally with
        partitions := part.taskCount }
      solutions := Partition.solutions pool.inOrder
      trace
      timedOut := pool.inOrder.any (·.timedOut) }

theorem Pool.outcome_eq (hreports : pool.inOrder = ended)
    (htally : pool.board.tally = Partition.sharedTally ended) (decisions : List TracedDecision) :
    pool.outcome part before trace =
      (part.outcome before decisions ended).map fun outcome => { outcome with trace } := by
  unfold Pool.outcome Partition.outcome
  rw [hreports, htally]
  cases ended.findSome? (·.failure?) <;> rfl

namespace Prepared

/-- The results of a solve that begins at an instant and runs its tasks on some number of workers, with
the reports of the tasks in the order of their numbers. -/
inductive Dispatches (p : Prepared) (settings : Settings) (start : Instant) (workers : Nat) :
    List TaskReport → Except SearchError Outcome → Prop
  | atRoot {deadline : Option Instant} {outcome : Outcome}
      (hdeadline : settings.deadline start = .ok deadline)
      (hroot : p.rootResult settings = .ok (.inl outcome)) :
      Dispatches p settings start workers [] (.ok outcome)
  | onPool {deadline : Option Instant} {part : Partition} {pool : Pool}
      (hdeadline : settings.deadline start = .ok deadline)
      (hroot : p.rootResult settings = .ok (.inr part))
      (hreached : Pool.Reached part deadline workers pool) (hfinished : pool.Finished)
      (trace : Array TracedDecision) :
      Dispatches p settings start workers pool.inOrder
        (pool.outcome part { pureVariables := p.ranking.pureCount } trace)

/-- What a pool comes to is what the tasks come to under watches of their own, but for the trace. -/
theorem Dispatches.cases (hp : p.Proper) (h : p.Dispatches settings start workers ended result) :
    (∃ outcome, p.rootResult settings = .ok (.inl outcome) ∧ ended = [] ∧ result = .ok outcome) ∨
    ∃ s deadline watches reports trace,
      let part := Partition.ofRoot p (.ofSettings settings) s settings.partitionDepth
      p.rootResult settings = .ok (.inr part) ∧ Rooted p settings s none ∧
      settings.deadline start = .ok deadline ∧ part.Follows deadline watches reports ∧
      ended = (List.range part.taskCount).map reports ∧
      ∀ decisions, result = (part.outcome { pureVariables := p.ranking.pureCount } decisions ended).map
        fun outcome => { outcome with trace } := by
  cases h with
  | atRoot hdeadline hroot => exact .inl ⟨_, hroot, rfl, rfl⟩
  | onPool hdeadline hroot hreached hfinished trace =>
    obtain ⟨s, hrooted, rfl⟩ := exists_of_rootResult hp hroot
    obtain ⟨watches, reports, hfollows, hresults, htally⟩ := hreached.accounted.delivered hfinished
    have hended := Pool.inOrder_eq hresults
    refine .inr ⟨s, _, watches, reports, trace, hroot, hrooted, hdeadline, hfollows, hended, ?_⟩
    rw [hended]
    exact Pool.outcome_eq hended htally

/-- What is reported is so, whatever the workers do and whenever the time runs out. -/
theorem Dispatches.sound (hp : p.Proper) (h : p.Dispatches settings start workers ended result) :
    ∃ outcome leaves, result = .ok outcome ∧
      Grounded p (.ofSettings settings) leaves outcome.verdict outcome.solutions ∧
      (outcome.verdict = .unsatisfiable → ¬ p.formula.Satisfiable) ∧
      (outcome.verdict = .unknown →
        ∃ report ∈ ended, report.ending = .error (.interrupted .timeLimit)) ∧
      ((∃ report ∈ ended, report.ending = .error (.interrupted .stopped)) →
        outcome.verdict = .satisfiable) := by
  rcases h.cases hp with ⟨outcome, hroot, rfl, rfl⟩ |
    ⟨s, deadline, watches, reports, trace, hroot, hrooted, -, hfollows, rfl, hresult⟩
  · rcases rootResult_spec hp settings with ⟨_, leaves, hroot', hgrounded, hknown, hunsat⟩ | ⟨_, -, hroot'⟩
    · rw [hroot, Except.ok.injEq, Sum.inl.injEq] at hroot'
      subst hroot'
      exact ⟨outcome, leaves, rfl, hgrounded, hunsat, fun hunknown => absurd hunknown hknown, by simp⟩
    · simp [hroot] at hroot'
  · have hsplits := Partition.splits_ofRoot (.ofSettings settings) settings.partitionDepth hp
      (hrooted.settled rfl)
    have hreports := hfollows.reported hsplits
    obtain ⟨leaves, hgrounded⟩ := hreports.grounded
    obtain ⟨outcome, houtcome, hverdict, hsolutions⟩ :=
      Partition.outcome_eq_ok { pureVariables := p.ranking.pureCount } [] hreports
    rw [← hverdict, ← hsolutions] at hgrounded
    refine ⟨{ outcome with trace }, leaves, ?_, hgrounded, ?_⟩
    · rw [hresult [], houtcome]
      rfl
    show (outcome.verdict = _ → _) ∧ (outcome.verdict = _ → _) ∧ (_ → outcome.verdict = _)
    rw [hverdict]
    refine ⟨?_, ?_, ?_⟩
    · rintro hunsat ⟨a, ha⟩
      obtain ⟨a, hadmits, ha⟩ := hrooted.keeps_some ⟨a, ha⟩
      obtain ⟨hmodel, htimed⟩ := Partition.verdict_eq_unsatisfiable_iff.1 hunsat
      rcases hfollows.hasModel_or_timeLimit hsplits hadmits ha with ⟨task, htask, hfound⟩ |
        ⟨task, htask, hending⟩
      · exact hmodel _ (List.mem_map_of_mem (List.mem_range.2 htask)) hfound
      · exact htimed _ (List.mem_map_of_mem (List.mem_range.2 htask)) hending
    · exact Partition.exists_timeLimit_of_unknown
    · rintro ⟨_, hreport, hstopped⟩
      obtain ⟨task, htask, rfl⟩ := List.mem_map.1 hreport
      obtain ⟨other, hother, hmodel⟩ :=
        hfollows.hasModel_of_stopped hsplits (List.mem_range.1 htask) hstopped
      exact Partition.verdict_eq_satisfiable_iff.2
        ⟨_, List.mem_map_of_mem (List.mem_range.2 hother), hmodel⟩

/-- To solve with the tasks one after another is to solve on a pool, whatever the number of its workers. -/
theorem dispatches_of_solve (hp : p.Proper) {clock : Clock} (hworkers : 0 < workers)
    (hsolve : p.solve settings clock = .ok result) :
    ∃ ended, p.Dispatches settings clock.start workers ended result := by
  obtain ⟨deadline, hdeadline, hsolve⟩ := Fault.bind_eq_ok.1 hsolve
  rw [solveWith_eq] at hsolve
  obtain ⟨root, hroot, hsolve⟩ := Fault.bind_eq_ok.1 hsolve
  cases root with
  | inl outcome =>
    obtain rfl : .ok outcome = result := Except.ok.inj hsolve
    exact ⟨[], .atRoot hdeadline hroot⟩
  | inr part =>
    obtain ⟨decisions, -, hsolve⟩ := Fault.bind_eq_ok.1 hsolve
    obtain ⟨ended, hrun, hsolve⟩ := Fault.bind_eq_ok.1 hsolve
    obtain ⟨s, hrooted, rfl⟩ := exists_of_rootResult hp hroot
    have hsplits := Partition.splits_ofRoot (.ofSettings settings) settings.partitionDepth hp
      (hrooted.settled rfl)
    obtain ⟨reports, hreports, hall⟩ := Partition.runAll_spec hsplits
      (Partition.watchInTurn (clock.expired deadline) _)
    rw [Partition.inTurn_eq_runAll, hall, Except.ok.injEq] at hrun
    subst hrun
    obtain ⟨outcome, houtcome, -⟩ := Partition.outcome_eq_ok { pureVariables := p.ranking.pureCount }
      decisions hreports
    obtain ⟨pool, hreached, hfinished, hresults⟩ := Pool.exists_reached_of_inTurn hworkers
      fun task htask => (hreports task htask).1
    obtain ⟨_, _, -, hresults', htally⟩ := hreached.accounted.delivered hfinished
    rw [← Pool.inOrder_eq hresults'] at htally
    have hpool := Dispatches.onPool hdeadline hroot hreached hfinished outcome.trace
    rw [Pool.outcome_eq rfl htally decisions, Pool.inOrder_eq hresults, houtcome] at hpool
    rw [houtcome] at hsolve
    obtain rfl : .ok outcome = result := Except.ok.inj hsolve
    exact ⟨_, hpool⟩

theorem exists_solve (hp : p.Proper) {clock : Clock}
    (hdeadline : settings.deadline clock.start = .ok deadline) :
    ∃ outcome, p.solve settings clock = .ok (.ok outcome) := by
  obtain ⟨part, hsolves⟩ := solveWith_spec hp settings
  obtain ⟨outcome, houtcome, -⟩ :=
    hsolves (Partition.inTurn (clock.expired deadline)) _ Partition.inTurn_eq_runAll
  refine ⟨outcome, ?_⟩
  rw [solve, hdeadline]
  exact houtcome

/-- A formula can be prepared and solved on any number of workers. -/
theorem exists_dispatches {f : Formula} (hf : f.Built) (settings : Settings) (start : Instant)
    (hdeadline : settings.deadline start = .ok deadline) (hworkers : 0 < workers) :
    ∃ p ended result, ofFormula f settings.heuristic = .ok (.ok p) ∧
      p.Dispatches settings start workers ended result := by
  obtain ⟨p, hp, hproper, -⟩ := ofFormula_eq_ok hf.stored settings.heuristic
  obtain ⟨outcome, hsolve⟩ := @exists_solve p settings deadline hproper (.standing start 0) hdeadline
  obtain ⟨ended, h⟩ := dispatches_of_solve hproper hworkers hsolve
  exact ⟨p, ended, _, hp, h⟩

/-- Whatever the workers do and whenever the time runs out, a formula reported satisfiable is so, and one
reported unsatisfiable as well. The verdict is left open only if some task ran out of time, and a task is
stopped only where a model is reported. -/
theorem verdict_of_dispatch {f : Formula} (hf : f.Built)
    (hp : ofFormula f settings.heuristic = .ok (.ok p))
    (h : p.Dispatches settings start workers ended result) :
    ∃ outcome, result = .ok outcome ∧
      (outcome.verdict = .satisfiable → f.Satisfiable) ∧
      (outcome.verdict = .unsatisfiable → ¬ f.Satisfiable) ∧
      (outcome.verdict = .unknown →
        ∃ report ∈ ended, report.ending = .error (.interrupted .timeLimit)) ∧
      ((∃ report ∈ ended, report.ending = .error (.interrupted .stopped)) →
        outcome.verdict = .satisfiable) := by
  obtain ⟨p', hp', hproper, hrenames⟩ := ofFormula_eq_ok hf.stored settings.heuristic
  rw [hp] at hp'
  cases hp'
  obtain ⟨outcome, leaves, hresult, hgrounded, hunsat, hopen, hstopped⟩ := h.sound hproper
  have hsame := satisfiable_iff hproper hrenames hf.stored.ranged
  exact ⟨outcome, hresult, fun hsat => hsame.1 (hgrounded.satisfiable hproper hsat),
    fun hverdict => mt hsame.2 (hunsat hverdict), hopen, hstopped⟩

theorem verdict_of_dispatch_three_workers : ∃ f p ended result,
    f.clauses = #[[⟨1, true⟩, ⟨2, true⟩], [⟨1, false⟩, ⟨2, false⟩]] ∧
      ofFormula f true = .ok (.ok p) ∧ p.Dispatches {} ⟨.zero⟩ 3 ended result ∧
        ∃ outcome, result = .ok outcome ∧ outcome.verdict ≠ .unsatisfiable := by
  have hf : Formula.Built _ := @Formula.Built.add _ _ [1, 2] _ .empty rfl
  have hf' : Formula.Built _ := @Formula.Built.add _ _ [-1, -2] _ hf rfl
  obtain ⟨p, ended, result, hp, h⟩ :=
    exists_dispatches hf' {} ⟨.zero⟩ rfl (by decide : 0 < 3)
  obtain ⟨outcome, hresult, -, hunsat, -⟩ := verdict_of_dispatch hf' hp h
  refine ⟨_, p, ended, _, rfl, hp, h, outcome, hresult, fun hverdict => hunsat hverdict ?_⟩
  refine ⟨fun x => x == 1, ?_⟩
  refine Formula.holds_eq_true_iff.2 fun c hc => ?_
  rcases (by simpa [Formula.store] using hc : c = _ ∨ c = _) with rfl | rfl <;> rfl

end Prepared

end ClauseSearch
