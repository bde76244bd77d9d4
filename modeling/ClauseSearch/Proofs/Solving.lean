import ClauseSearch.Proofs.Schedule

/-! Solving a prepared formula. The root keeps a model if there is one, and every model unless pure ranks are
valued; the tasks account for what the root admits. So a solve has an outcome whatever the checks find,
and without a time limit its verdict is right, and its solutions are recorded from leaves that cover the
models when it enumerates them. -/

namespace ClauseSearch

open Search

variable {p : Prepared} {part : Partition} {settings : Settings} {a : Assignment} {before : Tally}
  {watches : Nat → Watch} {reports : Nat → TaskReport} {task : Nat} {watch : Watch}
  {report : TaskReport} {runTasks : Partition → Except Fault (List TaskReport)}

/-! ### The root -/

/-- What the root search leaves. -/
structure Rooted (p : Prepared) (settings : Settings) (t : Search) (conflict : Option Nat) : Prop where
  sound : t.Sound p
  settled : conflict = none → Stands p .settled t
  conflicts : conflict.isSome = true → p.formula.ConflictOn t.valuation
  keeps_all : settings.preassignsPure = false → ∀ a, p.formula.holds a = true →
    t.valuation.admits a = true
  keeps_some : p.formula.Satisfiable → ∃ a, t.valuation.admits a = true ∧ p.formula.holds a = true
  solutions : t.solutions = {}

theorem rooted_propagateAll {s : Search} (hp : p.Proper) (hs : s.Sound p) (hsolutions : s.solutions = {})
    (hall : settings.preassignsPure = false → ∀ a, p.formula.holds a = true →
      s.valuation.admits a = true)
    (hsome : p.formula.Satisfiable →
      ∃ a, s.valuation.admits a = true ∧ p.formula.holds a = true) :
    ∃ t conflict, s.propagateAll p = .ok (t, conflict) ∧ Rooted p settings t conflict := by
  obtain ⟨t, conflict, hprop, hqueue, hadvance⟩ := propagateAll_spec hp hs
  have hkept : ∀ a, p.formula.holds a = true → s.valuation.admits a = true →
      t.valuation.admits a = true := fun a ha hadmits =>
    Formula.admits_of_steps hp.ranged hs.slots hadvance.derived.steps ha hadmits
  refine ⟨t, conflict, hprop, hadvance.sound, ?_, ?_, ?_, ?_, ?_⟩
  · rintro rfl
    exact hadvance.stands hqueue
  · intro hconflict
    obtain ⟨id, rfl⟩ := Option.isSome_iff_exists.1 hconflict
    exact hadvance.conflictOn
  · exact fun hpure a ha => hkept a ha (hall hpure a ha)
  · intro hsat
    obtain ⟨a, hadmits, ha⟩ := hsome hsat
    exact ⟨a, hkept a ha hadmits, ha⟩
  · rw [hadvance.derived.solutions, hsolutions]

theorem atRoot_spec (hp : p.Proper) (settings : Settings) :
    ∃ t conflict, Search.atRoot p settings = .ok (t, conflict) ∧ Rooted p settings t conflict := by
  have hfresh := sound_fresh p
  have hadmits : ∀ a, (fresh p).valuation.admits a = true := Valuation.admits_fresh _
  unfold Search.atRoot
  by_cases hpure : settings.preassignsPure = true
  · obtain ⟨v, hassume, hsize, hext, hread⟩ := assumePure_eq_ok hp hfresh.toCoherent
    rw [if_pos hpure, hassume]
    refine rooted_propagateAll hp (hfresh.holding hsize hext) rfl (by simp [hpure]) ?_
    rintro ⟨a, ha⟩
    exact exists_admitted_of_pure hp (hadmits a) ha hread
  · rw [if_neg hpure]
    exact rooted_propagateAll hp hfresh rfl (fun _ a _ => hadmits a)
      fun ⟨a, ha⟩ => ⟨a, hadmits a, ha⟩

namespace Partition

/-! ### Reports -/

theorem Reported.interrupted (h : part.Reported task watch report) {e : SearchError}
    (he : report.ending = .error e) : ∃ k reason, watch k = some reason ∧ e = .interrupted reason := by
  obtain ⟨v, ending, leaves, -, -, hexplored, hending⟩ := h
  rw [hending] at he
  cases ending with
  | ok found => simp [Except.map] at he
  | error e' =>
    obtain rfl : e' = e := by simpa [Except.map] using he
    rcases hexplored.failure e' rfl with hinterrupted | ⟨-, r, hpos, hle, -⟩
    · exact hinterrupted
    · omega

theorem Reported.failure?_eq_none (h : part.Reported task watch report) : report.failure? = none := by
  unfold TaskReport.failure?
  split
  · rfl
  · rfl
  · rename_i e hne he
    obtain ⟨k, reason, -, rfl⟩ := h.interrupted he
    exact absurd rfl (hne reason)

theorem Reported.satisfiable (h : part.Reported task watch report) (hp : part.problem.Proper)
    (hmodel : report.hasModel = true) : part.problem.formula.Satisfiable := by
  obtain ⟨v, ending, leaves, -, -, hexplored, hending⟩ := h
  have hleaf : leaves ≠ [] := by
    unfold TaskReport.hasModel at hmodel
    rw [hending] at hmodel
    cases ending with
    | error e => simp [Except.map] at hmodel
    | ok found =>
      simp only [Except.map, Bool.or_eq_true, beq_iff_eq, decide_eq_true_eq] at hmodel
      rcases hmodel with rfl | hcount
      · exact (hexplored.satisfiable rfl).2
      · exact count_foldl_record_pos.1 hcount
  obtain ⟨w, hw⟩ := List.exists_mem_of_ne_nil leaves hleaf
  exact (hexplored.solved w hw).satisfiable hp

theorem hasModel_of_stopsOthers (h : report.stopsOthers = true) : report.hasModel = true := by
  unfold TaskReport.stopsOthers at h
  split at h
  · rename_i heq
    simp [TaskReport.hasModel, heq]
  · exact absurd h (by simp)

/-- A task to which a model belongs has found one or was ended early. -/
theorem Reported.hasModel (h : part.Reported task watch report)
    (hroot : part.root.valuation.admits a = true) (ha : part.problem.formula.holds a = true)
    (htask : part.taskOf a = task) :
    report.hasModel = true ∨ ∃ k reason, watch k = some reason ∧
      report.ending = .error (.interrupted reason) := by
  obtain ⟨v, ending, leaves, -, hbelongs, hexplored, hending⟩ := id h
  unfold TaskReport.hasModel
  rw [hending]
  cases ending with
  | error e =>
    obtain ⟨k, reason, hwatch, rfl⟩ := h.interrupted (e := e) (by rw [hending]; rfl)
    exact .inr ⟨k, reason, hwatch, rfl⟩
  | ok found =>
    cases found with
    | satisfiable => exact .inl (by simp [Except.map])
    | exhausted =>
      obtain ⟨w, hw, -⟩ := hexplored.complete rfl a ((hbelongs a).2 ⟨hroot, htask⟩) ha
      have hcount := count_foldl_record_pos (p := part.problem) (o := part.options).2
        (List.ne_nil_of_mem hw)
      exact .inl (by simp [Except.map, hcount])

theorem any_reports_iff {q : TaskReport → Bool} :
    ((List.range part.taskCount).map reports).any q = true ↔
      ∃ task < part.taskCount, q (reports task) = true := by
  simp

section Untimed

variable (hw : part.Untimed watches) (hreports : part.Reports watches reports)

include hw hreports in
/-- Without a time limit, a task that a check ends early owes it to one that has found a model. -/
theorem exists_hasModel_of_watch (htask : task < part.taskCount) {k : Nat} {reason : Interruption}
    (hwatch : watches task k = some reason) :
    ∃ other < part.taskCount, (reports other).stopsOthers = true := by
  cases reason with
  | timeLimit => exact absurd hwatch (hw.no_limit task htask k)
  | stopped =>
    obtain ⟨other, hother, report, hrun, hstops⟩ := hw.stopped task htask k hwatch
    rw [(hreports other hother).1, Except.ok.injEq] at hrun
    exact ⟨other, hother, hrun ▸ hstops⟩

include hw hreports in
/-- Without a time limit, a model that the root keeps is found. -/
theorem verdict_eq_satisfiable (hroot : part.root.valuation.admits a = true)
    (ha : part.problem.formula.holds a = true) :
    verdict ((List.range part.taskCount).map reports) = .satisfiable := by
  have hmodel : ∃ task < part.taskCount, (reports task).hasModel = true := by
    have htask := part.taskOf_lt (a := a)
    rcases (hreports _ htask).2.hasModel hroot ha rfl with hmodel | ⟨k, reason, hwatch, -⟩
    · exact ⟨_, htask, hmodel⟩
    · obtain ⟨other, hother, hstops⟩ := exists_hasModel_of_watch hw hreports htask hwatch
      exact ⟨other, hother, hasModel_of_stopsOthers hstops⟩
  rw [verdict, if_pos (any_reports_iff.2 hmodel)]

include hw hreports in
theorem verdict_eq_unsatisfiable (hp : part.problem.Proper)
    (hunsat : ¬ part.problem.formula.Satisfiable) :
    verdict ((List.range part.taskCount).map reports) = .unsatisfiable := by
  have hmodel : ¬ ∃ task < part.taskCount, (reports task).hasModel = true := by
    rintro ⟨task, htask, hmodel⟩
    exact hunsat ((hreports task htask).2.satisfiable hp hmodel)
  have htimed : ¬ ∃ task < part.taskCount, (reports task).timedOut = true := by
    rintro ⟨task, htask, htimed⟩
    unfold TaskReport.timedOut at htimed
    split at htimed
    · rename_i hending
      obtain ⟨k, reason, hwatch, hreason⟩ := (hreports task htask).2.interrupted hending
      cases hreason
      exact hw.no_limit task htask k hwatch
    · exact absurd htimed (by simp)
  rw [verdict, if_neg (mt any_reports_iff.1 hmodel), if_neg (mt any_reports_iff.1 htimed)]

include hw hreports in
/-- Without a time limit, no task that enumerates ends early. -/
theorem exhausted_of_enumerate (he : part.options.enumerate = true) (htask : task < part.taskCount) :
    ∃ v leaves, v.slots.size = part.problem.variableCount + 1 ∧
      (∀ a, v.admits a = true ↔ part.root.valuation.admits a = true ∧ part.taskOf a = task) ∧
      Explored part.problem part.options (watches task) 0 v (.ok .exhausted) leaves ∧
      (reports task).solutions = leaves.foldl (record part.problem part.options) {} := by
  have hnever : ∀ other < part.taskCount, (reports other).stopsOthers = false := by
    intro other hother
    obtain ⟨v, ending, leaves, -, -, hexplored, hending⟩ := (hreports other hother).2
    unfold TaskReport.stopsOthers
    rw [hending]
    cases ending with
    | error e => rfl
    | ok found =>
      cases found with
      | exhausted => rfl
      | satisfiable => simp [(hexplored.satisfiable rfl).1] at he
  obtain ⟨v, ending, leaves, hsize, hbelongs, hexplored, hending⟩ := (hreports task htask).2
  cases ending with
  | error e =>
    obtain ⟨k, reason, hwatch, -⟩ :=
      (hreports task htask).2.interrupted (e := e) (by rw [hending]; rfl)
    obtain ⟨other, hother, hstops⟩ := exists_hasModel_of_watch hw hreports htask hwatch
    simp [hnever other hother] at hstops
  | ok found =>
    cases found with
    | satisfiable => simp [(hexplored.satisfiable rfl).1] at he
    | exhausted =>
      refine ⟨v, leaves, hsize, hbelongs, hexplored, ?_⟩
      rw [TaskReport.solutions, hending]
      rfl

theorem apart_of_taskOf {v v' : Valuation} {other : Nat} (hne : task ≠ other)
    (hv : ∀ a, v.admits a = true → part.taskOf a = task)
    (hv' : ∀ a, v'.admits a = true → part.taskOf a = other) : v.Apart v' := by
  intro a ha
  rw [Bool.eq_false_iff]
  intro ha'
  exact hne ((hv a ha).symm.trans (hv' a ha'))

/-- Where each task records its leaves, the tasks together record the leaves of one after another. -/
theorem solutions_eq_foldl_record {o : Options} {leaves : Nat → List Valuation} {n : Nat}
    (h : ∀ task < n, (reports task).solutions = (leaves task).foldl (record p o) {}) :
    solutions ((List.range n).map reports) =
      ((List.range n).flatMap leaves).foldl (record p o) {} := by
  induction n with
  | zero => rfl
  | succ n ih =>
    have hbefore := ih fun task htask => h task (by omega)
    unfold solutions at hbefore ⊢
    simp only [List.range_succ, List.map_append, List.foldl_append, List.map_cons, List.map_nil,
      List.foldl_cons, List.foldl_nil, List.flatMap_append, List.flatMap_cons, List.flatMap_nil,
      List.append_nil, hbefore]
    rw [h n (Nat.lt_succ_self n)]
    exact absorb_foldl_record (count_foldl_record_le (Nat.zero_le _))

include hw hreports in
/-- Enumerating without a time limit, the tasks together record leaves that cover the models. -/
theorem exists_cover (he : part.options.enumerate = true)
    (hkeeps : ∀ a, part.problem.formula.holds a = true → part.root.valuation.admits a = true) :
    ∃ leaves, Cover part.problem leaves ∧
      solutions ((List.range part.taskCount).map reports) =
        leaves.foldl (record part.problem part.options) {} := by
  have : Nonempty Valuation := ⟨part.root.valuation⟩
  choose! v leaves hsize hbelongs hexplored hfound using
    fun task (htask : task < part.taskCount) => exhausted_of_enumerate hw hreports he htask
  have hmem : ∀ w ∈ (List.range part.taskCount).flatMap leaves,
      ∃ task < part.taskCount, w ∈ leaves task := by
    simp
  refine ⟨(List.range part.taskCount).flatMap leaves, ⟨?_, ?_, ?_, ?_⟩, ?_⟩
  · intro w hw'
    obtain ⟨task, htask, hleaf⟩ := hmem w hw'
    exact ((hexplored task htask).size w hleaf).trans (hsize task htask)
  · intro w hw'
    obtain ⟨task, htask, hleaf⟩ := hmem w hw'
    exact (hexplored task htask).solved w hleaf
  · -- leaves of one task are apart, and those of two tasks have assignments of different tasks
    refine List.pairwise_flatMap.2 ⟨fun task htask => (hexplored task (List.mem_range.1 htask)).apart, ?_⟩
    refine List.nodup_range.pairwise_of_forall_ne fun task htask other hother hne w hleaf w' hleaf' => ?_
    rw [List.mem_range] at htask hother
    have hv : (v task).Apart (v other) := apart_of_taskOf hne
      (fun a ha => ((hbelongs task htask a).1 ha).2) fun a ha => ((hbelongs other hother a).1 ha).2
    exact hv.mono ((hexplored task htask).extends_start w hleaf)
      ((hexplored other hother).extends_start w' hleaf')
  · intro a ha
    have htask := part.taskOf_lt (a := a)
    obtain ⟨w, hleaf, hwa⟩ := (hexplored _ htask).complete rfl a
      ((hbelongs _ htask a).2 ⟨hkeeps a ha, rfl⟩) ha
    exact ⟨w, List.mem_flatMap.2 ⟨_, List.mem_range.2 htask, hleaf⟩, hwa⟩
  · exact solutions_eq_foldl_record hfound

end Untimed

/-! ### The outcome -/

theorem splitting_eq (h : part.Splits) : part.splitting =
    .ok ((part.ranks.zipIdx.filter fun entry => part.options.traceDepth == some entry.2).map fun entry =>
      ⟨entry.2, part.problem.ranking.varAt entry.1⟩) := by
  refine Sequence.mapM_eq_ok fun (rank, level) hentry => ?_
  have hmem := List.fst_mem_of_mem_zipIdx (List.mem_of_mem_filter hentry)
  dsimp only
  rw [h.proper.place_eq_ok (h.unvalued rank hmem).2.1]
  rfl

theorem splitting_eq_ok (h : part.Splits) : ∃ decisions, part.splitting = .ok decisions :=
  ⟨_, splitting_eq h⟩

/-- No report has an error other than an interruption, so the reports combine. -/
theorem outcome_eq_ok (before : Tally) (decisions : List TracedDecision)
    (hreports : part.Reports watches reports) :
    ∃ outcome, part.outcome before decisions ((List.range part.taskCount).map reports) = .ok outcome ∧
      outcome.verdict = verdict ((List.range part.taskCount).map reports) ∧
      outcome.solutions = solutions ((List.range part.taskCount).map reports) := by
  have hnone : ((List.range part.taskCount).map reports).findSome? (·.failure?) = none := by
    rw [List.findSome?_eq_none_iff]
    intro report hreport
    obtain ⟨task, htask, rfl⟩ := List.mem_map.1 hreport
    exact (hreports task (List.mem_range.1 htask)).2.failure?_eq_none
  unfold outcome
  rw [hnone]
  exact ⟨_, rfl, rfl, rfl⟩

end Partition

namespace Prepared

/-! ### Solves -/

/-- What an outcome says is so: about models, and about which they are where they are enumerated. -/
structure Answers (p : Prepared) (settings : Settings) (outcome : Outcome) : Prop where
  satisfiable : p.formula.Satisfiable → outcome.verdict = .satisfiable
  unsatisfiable : ¬ p.formula.Satisfiable → outcome.verdict = .unsatisfiable
  covered : settings.enumerate = true → ∃ leaves, Cover p leaves ∧
    outcome.solutions = leaves.foldl (record p (.ofSettings settings)) {}

theorem answers_conflict {tally : Tally} (h : ¬ p.formula.Satisfiable) :
    p.Answers settings { verdict := .unsatisfiable, tally } where
  satisfiable hsat := absurd hsat h
  unsatisfiable _ := rfl
  covered _ := ⟨[], ⟨by simp, by simp, .nil, fun a ha => absurd ⟨a, ha⟩ h⟩, rfl⟩

theorem answers_solved {v : Valuation} {tally : Tally} (hp : p.Proper) (h : Solved p v)
    (hsize : v.slots.size = p.variableCount + 1)
    (hkeeps : settings.preassignsPure = false → ∀ a, p.formula.holds a = true → v.admits a = true) :
    p.Answers settings { verdict := .satisfiable, tally,
                         solutions := record p (.ofSettings settings) {} v } where
  satisfiable _ := rfl
  unsatisfiable hunsat := absurd (h.satisfiable hp) hunsat
  covered he :=
    ⟨[v], ⟨by simpa using hsize, by simpa using h, List.pairwise_singleton .., fun a ha =>
      ⟨v, by simp, hkeeps (by simp [Settings.preassignsPure, he]) a ha⟩⟩, rfl⟩

/-- A solve has an outcome however the tasks it is split into are run, and without a time limit the
outcome is the answer. -/
theorem solveWith_spec (hp : p.Proper) (settings : Settings) :
    ∃ part : Partition, ∀ runTasks watches, runTasks part = part.runAll watches →
      ∃ outcome, p.solveWith runTasks settings = .ok (.ok outcome) ∧
        (part.Untimed watches → p.Answers settings outcome) := by
  obtain ⟨t, conflict, hroot, hrooted⟩ := atRoot_spec hp settings
  have ht := hrooted.sound
  refine ⟨.ofRoot p (.ofSettings settings) t settings.partitionDepth, fun runTasks watches hrun => ?_⟩
  unfold solveWith
  rw [hroot]
  cases conflict with
  | some id =>
    refine ⟨_, rfl, fun _ => answers_conflict fun hsat => ?_⟩
    obtain ⟨a, hadmits, ha⟩ := hrooted.keeps_some hsat
    simp [(hrooted.conflicts rfl).holds_eq_false hp.ranged hadmits] at ha
  | none =>
    have hstands := hrooted.settled rfl
    by_cases hsolved : t.allSatisfied = true
    · have hleaf : Solved p t.valuation := solved_of_allSatisfied ht hsolved
      have hrecord := recordSolution_eq_ok (o := .ofSettings settings) (s := t.countSolved) hp
        { ht.toCoherent with }
      have hfound : t.countSolved.solutions = {} := hrooted.solutions
      rw [hfound] at hrecord
      simp only [bind, Except.bind, Option.isSome_none, Bool.false_eq_true, if_false, hsolved, if_true,
        hrecord]
      exact ⟨_, rfl, fun _ => answers_solved hp hleaf ht.slots hrooted.keeps_all⟩
    · have hsplits := Partition.splits_ofRoot (.ofSettings settings) settings.partitionDepth hp hstands
      obtain ⟨decisions, hsplitting⟩ := Partition.splitting_eq_ok hsplits
      obtain ⟨reports, hreports, hall⟩ := Partition.runAll_spec hsplits watches
      obtain ⟨outcome, houtcome, hverdict, hsolutions⟩ := Partition.outcome_eq_ok
        { pureVariables := p.ranking.pureCount } decisions hreports
      rw [hall] at hrun
      simp only [bind, Except.bind, Option.isSome_none, Bool.false_eq_true, if_false, hsolved, hrun,
        hsplitting, houtcome]
      refine ⟨outcome, rfl, fun hw => ⟨fun hsat => ?_, fun hunsat => ?_, fun he => ?_⟩⟩
      · obtain ⟨a, hadmits, ha⟩ := hrooted.keeps_some hsat
        rw [hverdict]
        exact Partition.verdict_eq_satisfiable hw hreports hadmits ha
      · rw [hverdict]
        exact Partition.verdict_eq_unsatisfiable hw hreports hp hunsat
      · rw [hsolutions]
        exact Partition.exists_cover hw hreports he
          (hrooted.keeps_all (by simp [Settings.preassignsPure, he]))

end Prepared

end ClauseSearch
