import ClauseSearch.Proofs.Counting
import ClauseSearch.Proofs.Dispatch

/-! Solves in which no task stops the others. Without a time limit no check finds anything then, so a task
comes to the same whoever runs it and whenever, and so do the tasks together: the outcome of a pool is that
of running one task after another, but for the lines of the trace. -/

namespace ClauseSearch

open Search

variable {p : Prepared} {part : Partition} {settings : Settings} {o : Options} {v : Valuation} {n : Int}
  {watches : Nat → Watch} {reports : Nat → TaskReport} {task workers : Nat} {watch : Watch}
  {report : TaskReport} {leaves : List Valuation} {verdict : Verdict} {found : Solutions}
  {start : Instant} {ended : List TaskReport} {result : Except SearchError Outcome}

/-! ### The first model -/

theorem Grounded.model (h : Grounded p o leaves verdict found) :
    found.model = leaves.head?.map p.modelOf := by
  rw [h.found, model_foldl_record]
  rfl

theorem Grounded.cubes (h : Grounded p o leaves verdict found) (he : o.enumerate = true)
    (hk : o.keepModels = true) : found.cubes.toList = leaves.map p.cubeOf := by
  rw [h.found, cubes_foldl_record he hk]
  rfl

theorem Prepared.mem_modelOf (h : n ∈ p.cubeOf v) : n ∈ p.modelOf v := by
  obtain ⟨x, hx, hvalue⟩ := List.mem_filterMap.1 h
  obtain ⟨b, hb, rfl⟩ := Option.map_eq_some_iff.1 hvalue
  exact List.mem_map.2 ⟨x, hx, by rw [hb, Option.getD_some]⟩

namespace Partition

theorem model_solutions (ended : List TaskReport) :
    (solutions ended).model = ended.findSome? (·.solutions.model) := by
  suffices ∀ found : Solutions,
      (ended.foldl (fun found report => found.absorb report.solutions) found).model =
        found.model.or (ended.findSome? (·.solutions.model)) from this {}
  intro found
  induction ended generalizing found with
  | nil => simp
  | cons report ended ih =>
    rw [List.foldl_cons, ih, List.findSome?_cons, Solutions.absorb, Option.or_assoc]
    cases report.solutions.model <;> rfl

/-! ### Checks that find nothing -/

theorem Reported.stopsOthers (h : part.Reported task watch report) (hp : part.problem.Proper)
    (hstops : report.stopsOthers = true) :
    part.options.enumerate = false ∧ part.problem.formula.Satisfiable := by
  refine ⟨?_, h.satisfiable hp (hasModel_of_stopsOthers hstops)⟩
  obtain ⟨v, ending, leaves, -, -, hexplored, hending⟩ := h
  unfold TaskReport.stopsOthers at hstops
  rw [hending] at hstops
  cases ending with
  | error e => simp [Except.map] at hstops
  | ok ended =>
    cases ended with
    | exhausted => simp [Except.map] at hstops
    | satisfiable => exact (hexplored.satisfiable rfl).1

/-- Where no task can stop at a model and there is no deadline, no check finds anything. -/
theorem Follows.quiet (h : part.Follows none watches reports) (hsplits : part.Splits)
    (hexhaustive : part.options.enumerate = true ∨ ¬ part.problem.formula.Satisfiable)
    (htask : task < part.taskCount) : watches task = fun _ => none := by
  funext check
  cases hwatch : watches task check with
  | none => rfl
  | some reason =>
    cases reason with
    | timeLimit => exact absurd (h.limited task htask check hwatch) (by simp)
    | stopped =>
      obtain ⟨other, hother, hstops⟩ := h.stopped task htask check hwatch
      obtain ⟨hone, hsat⟩ := (h.reported hsplits other hother).2.stopsOthers hsplits.proper hstops
      rcases hexhaustive with he | hunsat
      · simp [hone] at he
      · exact absurd hsat hunsat

end Partition

namespace Prepared

theorem Dispatches.outcome_eq (hp : p.Proper) {outcome : Outcome}
    (hroot : p.rootResult settings = .ok (.inr part))
    (h : p.Dispatches settings start workers ended (.ok outcome)) :
    ∃ trace, outcome =
      { verdict := Partition.verdict ended
        tally := { ({ pureVariables := p.ranking.pureCount } : Tally) + part.root.tally +
          (Partition.sharedTally ended).snapshot.tally with partitions := part.taskCount }
        solutions := Partition.solutions ended
        trace
        timedOut := ended.any (·.timedOut) } := by
  rcases h.cases hp with ⟨_, hroot', -⟩ | ⟨_, _, _, _, trace, hroot', -, -, -, -, hresult⟩
  · simp [hroot] at hroot'
  · rw [hroot, Except.ok.injEq, Sum.inr.injEq] at hroot'
    obtain ⟨outcome', houtcome, rfl⟩ := Fault.map_eq_ok.1 (hresult []).symm
    unfold Partition.outcome at houtcome
    split at houtcome
    · simp at houtcome
    · refine ⟨trace, ?_⟩
      rw [← Except.ok.inj houtcome, hroot']

theorem Dispatches.solutions_eq (hp : p.Proper) {outcome : Outcome}
    (hroot : p.rootResult settings = .ok (.inr part))
    (h : p.Dispatches settings start workers ended (.ok outcome)) :
    outcome.solutions = Partition.solutions ended := by
  obtain ⟨_, rfl⟩ := h.outcome_eq hp hroot
  rfl

/-- Beyond the root, each task has come to its report under a watch of its own. -/
theorem Dispatches.exists_follows (hp : p.Proper) (hroot : p.rootResult settings = .ok (.inr part))
    (h : p.Dispatches settings start workers ended result) :
    ∃ deadline watches reports, part.problem = p ∧ part.options = .ofSettings settings ∧ part.Splits ∧
      settings.deadline start = .ok deadline ∧ part.Follows deadline watches reports ∧
      ended = (List.range part.taskCount).map reports := by
  rcases h.cases hp with ⟨_, hroot', -⟩ | ⟨s, deadline, watches, reports, _, hroot', hrooted, hdeadline,
    hfollows, hended, -⟩
  · simp [hroot] at hroot'
  · rw [hroot, Except.ok.injEq, Sum.inr.injEq] at hroot'
    subst hroot'
    exact ⟨deadline, watches, reports, rfl, rfl, Partition.splits_ofRoot _ _ hp (hrooted.settled rfl),
      hdeadline, hfollows, hended⟩

/-- Where no task stops the others, the tasks come to what they come to undisturbed. -/
theorem Dispatches.undisturbed (hp : p.Proper) (hlimit : settings.limit? = none)
    (hexhaustive : settings.enumerate = true ∨ ¬ p.formula.Satisfiable)
    (hroot : p.rootResult settings = .ok (.inr part))
    (h : p.Dispatches settings start workers ended result) :
    part.runAll (fun _ _ => none) = .ok ended := by
  obtain ⟨deadline, watches, reports, rfl, hoptions, hsplits, hdeadline, hfollows, rfl⟩ :=
    h.exists_follows hp hroot
  obtain rfl : none = deadline := by simpa [Settings.deadline, hlimit] using hdeadline
  have hexhaustive' : part.options.enumerate = true ∨ ¬ part.problem.formula.Satisfiable := by
    rw [hoptions]
    exact hexhaustive
  refine Sequence.mapM_eq_ok fun task htask => ?_
  rw [List.mem_range] at htask
  rw [← hfollows.run task htask, hfollows.quiet hsplits hexhaustive' htask]

/-- Where no task stops the others, the result is the same but for the trace, whatever the workers do. -/
theorem Dispatches.unique (hp : p.Proper) (hlimit : settings.limit? = none)
    (hexhaustive : settings.enumerate = true ∨ ¬ p.formula.Satisfiable)
    {start' : Instant} {workers' : Nat} {ended' : List TaskReport} {result' : Except SearchError Outcome}
    (h : p.Dispatches settings start workers ended result)
    (h' : p.Dispatches settings start' workers' ended' result') :
    (result.map fun outcome => { outcome with trace := #[] }) =
      result'.map fun outcome => { outcome with trace := #[] } := by
  rcases h.cases hp with ⟨outcome, hroot, -, rfl⟩ | ⟨s, _, _, _, trace, hroot, -, -, -, -, hresult⟩
  · rcases h'.cases hp with ⟨outcome', hroot', -, rfl⟩ | ⟨_, _, _, _, _, hroot', -⟩
    · rw [hroot, Except.ok.injEq, Sum.inl.injEq] at hroot'
      rw [hroot']
    · simp [hroot] at hroot'
  · have hrun := h.undisturbed hp hlimit hexhaustive hroot
    rw [h'.undisturbed hp hlimit hexhaustive hroot, Except.ok.injEq] at hrun
    rcases h'.cases hp with ⟨_, hroot', -⟩ | ⟨s', _, _, _, trace', hroot', -, -, -, -, hresult'⟩
    · simp [hroot] at hroot'
    · rw [hroot, Except.ok.injEq, Sum.inr.injEq] at hroot'
      rw [hresult [], hresult' [], hrun, hroot']
      cases Partition.outcome _ _ [] ended <;> rfl

theorem exists_answers (hp : p.Proper) (hlimit : settings.limit? = none) (clock : Clock) :
    ∃ outcome, p.solve settings clock = .ok (.ok outcome) ∧ p.Answers settings outcome := by
  have hschedule : Partition.UntimedSchedule (Partition.inTurn (clock.expired none)) :=
    Partition.untimedSchedule_inTurn fun _ _ => rfl
  obtain ⟨part, hsolves⟩ := solveWith_spec hp settings
  obtain ⟨watches, huntimed, hrun⟩ := hschedule part
  obtain ⟨outcome, houtcome, hanswers⟩ := hsolves _ watches hrun
  refine ⟨outcome, ?_, hanswers huntimed⟩
  rw [solve, Settings.deadline, hlimit]
  exact houtcome

/-- Enumerating without a time limit, what is recorded comes from leaves that cover the models. -/
theorem Dispatches.covered (hp : p.Proper) (hlimit : settings.limit? = none)
    (he : settings.enumerate = true) {outcome : Outcome}
    (h : p.Dispatches settings start workers ended (.ok outcome)) :
    ∃ leaves, Cover p leaves ∧
      outcome.solutions = leaves.foldl (record p (.ofSettings settings)) {} := by
  obtain ⟨inTurn, hsolve, hanswers⟩ := exists_answers hp hlimit (.standing start 0)
  obtain ⟨ended', h'⟩ := dispatches_of_solve hp Nat.one_pos hsolve
  have hsame := h.unique hp hlimit (.inl he) h'
  simp only [Except.map, Except.ok.injEq, Outcome.mk.injEq] at hsame
  rw [hsame.2.2.1]
  exact hanswers.covered he

/-- Without a time limit, and enumerating or without a model, a solve comes to the same whatever the number
of workers and whatever they do: to what the tasks come to one after another in the order of their
numbers. The model is that of the first task that has one, and it has the integers of the first cube. -/
theorem dispatch_eq_solve {f : Formula} (hf : f.Built)
    (hp : ofFormula f settings.heuristic = .ok (.ok p)) (hlimit : settings.limit? = none)
    (hexhaustive : settings.enumerate = true ∨ ¬ f.Satisfiable)
    (h : p.Dispatches settings start workers ended result) (clock : Clock) :
    ∃ outcome inTurn, result = .ok outcome ∧ p.solve settings clock = .ok (.ok inTurn) ∧
      outcome.verdict = inTurn.verdict ∧ outcome.tally = inTurn.tally ∧
      outcome.solutions = inTurn.solutions ∧
      (∀ part, p.rootResult settings = .ok (.inr part) →
        part.runAll (fun _ _ => none) = .ok ended ∧
        outcome.solutions = Partition.solutions ended ∧
        outcome.solutions.model = ended.findSome? (·.solutions.model)) ∧
      (settings.enumerate = true → settings.keepModels = true →
        ∀ model, outcome.solutions.model = some model →
          ∃ cube, outcome.solutions.cubes[0]? = some cube ∧ ∀ n ∈ cube, n ∈ model) := by
  obtain ⟨p', hp', hproper, hrenames⟩ := ofFormula_eq_ok hf.stored settings.heuristic
  rw [hp] at hp'
  cases hp'
  rw [← satisfiable_iff hproper hrenames hf.stored.ranged] at hexhaustive
  obtain ⟨outcome, leaves, hresult, hgrounded, -⟩ := h.sound hproper
  have hdeadline : settings.deadline clock.start = .ok none := by rw [Settings.deadline, hlimit]
  obtain ⟨inTurn, hsolve⟩ := exists_solve hproper hdeadline
  obtain ⟨ended', h'⟩ := dispatches_of_solve hproper Nat.one_pos hsolve
  have hsame := h.unique hproper hlimit hexhaustive h'
  rw [hresult] at h hsame
  simp only [Except.map, Except.ok.injEq, Outcome.mk.injEq] at hsame
  obtain ⟨hverdict, htally, hsolutions, -⟩ := hsame
  refine ⟨outcome, inTurn, hresult, hsolve, hverdict, htally, hsolutions, fun part hroot => ?_, ?_⟩
  · have hfound := h.solutions_eq hproper hroot
    refine ⟨h.undisturbed hproper hlimit hexhaustive hroot, hfound, ?_⟩
    rw [hfound, Partition.model_solutions]
  · intro he hk model hmodel
    rw [hgrounded.model] at hmodel
    obtain ⟨w, hw, rfl⟩ := Option.map_eq_some_iff.1 hmodel
    refine ⟨p.cubeOf w, ?_, fun n => mem_modelOf⟩
    rw [← Array.getElem?_toList, hgrounded.cubes he hk, List.getElem?_map, ← List.head?_eq_getElem?, hw]
    rfl

theorem dispatch_eq_solve_three_workers : ∃ f p ended result,
    f.clauses = #[[⟨1, true⟩, ⟨2, true⟩], [⟨1, false⟩, ⟨2, false⟩]] ∧
      ofFormula f true = .ok (.ok p) ∧
        p.Dispatches { enumerate := true, keepModels := true } ⟨.zero⟩ 3 ended result ∧
          ∃ outcome inTurn, result = .ok outcome ∧
            p.solve { enumerate := true, keepModels := true } (.standing ⟨.zero⟩ 0) = .ok (.ok inTurn) ∧
              outcome.tally = inTurn.tally ∧ outcome.solutions = inTurn.solutions := by
  have hf : Formula.Built _ := @Formula.Built.add _ _ [1, 2] _ .empty rfl
  have hf' : Formula.Built _ := @Formula.Built.add _ _ [-1, -2] _ hf rfl
  obtain ⟨p, ended, result, hp, h⟩ :=
    exists_dispatches hf' { enumerate := true, keepModels := true } ⟨.zero⟩ rfl (by decide : 0 < 3)
  obtain ⟨outcome, inTurn, hresult, hsolve', -, htally, hsolutions, -⟩ :=
    dispatch_eq_solve hf' hp rfl (.inl rfl) h (.standing ⟨.zero⟩ 0)
  exact ⟨_, p, ended, _, rfl, hp, h, outcome, inTurn, hresult, hsolve', htally, hsolutions⟩

end Prepared

end ClauseSearch
