import ClauseSearch.Proofs.Exhaustive

/-! The first task and the search that is not split. Both stop at the model that comes first in the order of
preference, the one among the models that prefer the ranks split on and the other among all that the root
admits. Since every lower rank has its value from the root, these are the same wherever there is a model of
the first kind. What propagation derives, and in which order, is of no account.

With one worker nothing stops the first task, and its report is the first. -/

namespace ClauseSearch

open Search

variable {p : Prepared} {part : Partition} {settings : Settings} {o : Options} {s : Search}
  {a m : Assignment} {task last count cursor rank r : Nat} {report : TaskReport}
  {deadline : Option Instant} {pool pool' : Pool} {found : List (Option Interruption)}

/-! ### One worker -/

namespace Pool

/-- The first task is decided by checks that had no reason to find a stop. Until then it waits or the one
worker searches it, and no task has a report. -/
def FirstUnstopped (part : Partition) (deadline : Option Instant) (pool : Pool) : Prop :=
  (pool.reports = [] ∧ ∃ w, pool.workers = [w] ∧
      (w = .idle ∧ pool.board.tasks.head? = some 0 ∨ ∃ found, w = .searching 0 found)) ∨
    ∃ report found, (0, report) ∈ pool.reports ∧ Owed deadline false found ∧ part.Decides 0 found report

theorem firstUnstopped_start (part : Partition) (deadline : Option Instant) :
    FirstUnstopped part deadline (start part 1) := by
  refine .inl ⟨?_, .idle, rfl, .inl ⟨rfl, ?_⟩⟩
  · simp [reports, start, Worker.report?, placed_replicate]
  · have : part.taskCount ≠ 0 := by
      rw [part.taskCount_eq]
      exact (Nat.two_pow_pos _).ne'
    simp [start, List.head?_range, this]

theorem mem_reports {ended : Nat × TaskReport} : ended ∈ pool.reports ↔
    (∃ w ∈ pool.workers, w.report? = some ended) ∨ ended ∈ pool.board.sent ∨
      ended ∈ placed pool.results := by
  rw [reports, List.mem_append, List.mem_append, List.mem_filterMap, or_assoc]

theorem report_of_move {board board' : Board} {w w' : Worker} {ended : Nat × TaskReport}
    (hmove : Move part deadline board w board' w') (h : w.report? = some ended ∨ ended ∈ board.sent) :
    w'.report? = some ended ∨ ended ∈ board'.sent := by
  cases hmove with
  | take | check | add | raise => exact h
  | finish => exact h.imp_left fun hnone => by simp [Worker.report?] at hnone
  | send => simpa [Worker.report?, eq_comm, or_comm] using h

/-- No report is lost. -/
theorem mem_reports_of_step {ended : Nat × TaskReport} (h : Accounted part deadline pool)
    (hstep : Step part deadline pool pool') (hended : ended ∈ pool.reports) : ended ∈ pool'.reports := by
  rw [mem_reports] at hended ⊢
  cases hstep with
  | @work before after w w' board hworkers hmove =>
    have hmoved : w.report? = some ended ∨ ended ∈ pool.board.sent →
        (∃ u ∈ before ++ w' :: after, u.report? = some ended) ∨
          ended ∈ board.sent ∨ ended ∈ placed pool.results := fun h =>
      (report_of_move hmove h).imp (fun h => ⟨w', by simp, h⟩) .inl
    rcases hended with ⟨u, hu, hreport⟩ | hsent | hplaced
    · simp only [hworkers, List.mem_append, List.mem_cons] at hu
      rcases hu with hu | rfl | hu
      · exact .inl ⟨u, by simp [hu], hreport⟩
      · exact hmoved (.inl hreport)
      · exact .inl ⟨u, by simp [hu], hreport⟩
    · exact hmoved (.inr hsent)
    · exact .inr (.inr hplaced)
  | @receive task report rest hsent =>
    have hempty := h.place_empty (hsent ▸ List.mem_cons_self)
    rw [hsent, List.mem_cons] at hended
    rw [(placed_set hempty).mem_iff, List.mem_cons]
    rcases hended with hworker | (hhead | hrest) | hplaced
    · exact .inl hworker
    · exact .inr (.inr (.inl hhead))
    · exact .inr (.inl hrest)
    · exact .inr (.inr (.inr hplaced))

theorem FirstUnstopped.step (h : FirstUnstopped part deadline pool)
    (haccounted : Accounted part deadline pool) (hstep : Step part deadline pool pool') :
    FirstUnstopped part deadline pool' := by
  rcases h with ⟨hnone, w, hworkers, hw⟩ | ⟨report, found, hreport, howed, hdecides⟩
  · cases hstep with
    | @work before after u u' board hworkers' hmove =>
      obtain ⟨rfl, rfl, rfl⟩ : before = [] ∧ u = w ∧ after = [] := by
        rw [hworkers] at hworkers'
        cases before <;> simp_all
      rcases hw with ⟨rfl, hhead⟩ | ⟨found, rfl⟩
      · cases hmove with
        | @take task rest htasks =>
          obtain rfl : task = 0 := by simpa [htasks] using hhead
          refine .inl ⟨?_, _, rfl, .inr ⟨[], rfl⟩⟩
          simpa [reports, hworkers, Worker.report?] using hnone
      · cases hmove with
        | check =>
          refine .inl ⟨?_, _, rfl, .inr ⟨_, rfl⟩⟩
          simpa [reports, hworkers, Worker.report?] using hnone
        | @finish _ _ report hdecides =>
          refine .inr ⟨report, found, by simp [reports, Worker.report?], ?_, hdecides⟩
          obtain ⟨hstopped, hlimit⟩ :=
            haccounted.owed (0, found) (by simp [searches, hworkers, Worker.search?])
          refine ⟨fun hmem => ?_, hlimit⟩
          -- a raised flag is owed to a report
          obtain ⟨ended, hended, -⟩ := haccounted.raised (hstopped hmem)
          simp [hnone] at hended
    | receive hsent => simp [reports, hsent] at hnone
  · exact .inr ⟨report, found, mem_reports_of_step haccounted hstep hreport, howed, hdecides⟩

theorem Reached.firstUnstopped (h : Reached part deadline 1 pool) : FirstUnstopped part deadline pool := by
  induction h with
  | refl => exact firstUnstopped_start part deadline
  | tail hreached hstep ih => exact ih.step (Reached.accounted hreached) hstep

/-- With one worker and no deadline, the first report is that of the first task undisturbed. -/
theorem Reached.first_report (h : Reached part none 1 pool) (hfinished : pool.Finished) :
    ∃ report rest, pool.results = some report :: rest ∧ part.run 0 (fun _ => none) = .ok report := by
  rcases h.firstUnstopped with ⟨-, w, hworkers, hw⟩ | ⟨report, found, hreport, howed, hdecides⟩
  · rcases hw with ⟨-, hhead⟩ | ⟨found, rfl⟩
    · simp [hfinished.1] at hhead
    · exact absurd (hfinished.2.2 _ (by rw [hworkers]; exact List.mem_singleton_self _)) (by simp)
  · rw [hfinished.reports_eq.2.2, mem_placed] at hreport
    refine ⟨report, pool.results.tail, ?_, hdecides _ fun check hcheck => ?_⟩
    · cases hresults : pool.results with
      | nil => simp [hresults] at hreport
      | cons first rest =>
        obtain rfl : first = some report := by simpa [hresults] using hreport
        rfl
    · cases hentry : found[check] with
      | none => rfl
      | some reason =>
        have hmem := List.mem_of_getElem hentry
        cases reason with
        | stopped => exact absurd (howed.1 hmem) (by simp)
        | timeLimit => exact absurd (howed.2 hmem) (by simp)

end Pool

/-! ### The model of a task -/

namespace Partition

/-- The first of the models that belong to a task, in the order of preference. -/
structure FirstOf (part : Partition) (task : Nat) (m : Assignment) : Prop where
  holds : part.problem.formula.holds m = true
  admitted : part.root.valuation.admits m = true
  belongs : part.taskOf m = task
  precedes : ∀ a, part.problem.formula.holds a = true → part.root.valuation.admits a = true →
    part.taskOf a = task → part.problem.Precedes m a

/-- A search for one model that no check ends stops at the first model. -/
theorem Reported.exists_first (h : part.Reported task (fun _ => none) report)
    (hp : part.problem.Proper) (he : part.options.enumerate = false)
    (ha : part.problem.formula.holds a = true) (hadmits : part.root.valuation.admits a = true)
    (htask : part.taskOf a = task) :
    ∃ w, part.FirstOf task (part.problem.filled w) ∧
      report.solutions.model = some (part.problem.modelOf w) := by
  obtain ⟨v, ending, leaves, -, hbelongs, hexplored, hending⟩ := id h
  have hfound : ending = .ok .satisfiable := by
    cases ending with
    | error e =>
      obtain ⟨_, _, hwatch, -⟩ := h.interrupted (e := e) (by rw [hending]; rfl)
      simp at hwatch
    | ok found =>
      cases found with
      | satisfiable => rfl
      | exhausted =>
        obtain ⟨w, hw, -⟩ := hexplored.complete rfl a ((hbelongs a).2 ⟨hadmits, htask⟩) ha
        simp [hexplored.unsolved he (by simp)] at hw
  subst hfound
  obtain ⟨w, rest, rfl⟩ := List.exists_cons_of_ne_nil (hexplored.satisfiable rfl).2
  have hfilled := Prepared.admits_filled (p := part.problem) (Valuation.Extends.refl w)
  have hstart := Valuation.admits_of_extends (hexplored.extends_start w List.mem_cons_self) hfilled
  obtain ⟨hroot, hbelongs'⟩ := (hbelongs _).1 hstart
  refine ⟨w, ⟨?_, hroot, hbelongs', fun b hb hadmits hbtask => ?_⟩, ?_⟩
  · exact (hexplored.solved w List.mem_cons_self).holds hp hfilled
  · exact hexplored.foremost he (by omega) w List.mem_cons_self b ((hbelongs b).2 ⟨hadmits, hbtask⟩) hb
  · rw [TaskReport.solutions, hending]
    change ((w :: rest).foldl (record part.problem part.options) {}).model = _
    rw [model_foldl_record]
    rfl

/-! ### The ranks split on -/

/-- The ranks split on are all that have no value, up to the last of them. -/
theorem mem_chooseRanks_of_le (h : r ∈ chooseRanks s last count cursor) (hcursor : cursor < rank)
    (hle : rank ≤ r) (hv : s.valuation.value? rank = none) : rank ∈ chooseRanks s last count cursor := by
  induction count generalizing cursor with
  | zero => simp [chooseRanks] at h
  | succ count ih =>
    unfold chooseRanks at h ⊢
    cases hnext : s.nextUnvalued? last cursor with
    | none => simp [hnext] at h
    | some next =>
      obtain ⟨-, -, -, hlow⟩ := nextUnvalued?_eq_some hnext
      simp only [hnext, List.mem_cons] at h ⊢
      rcases Nat.lt_trichotomy rank next with hless | rfl | hmore
      · exact absurd hv (hlow rank hcursor hless)
      · exact .inl rfl
      · exact .inr (ih (h.resolve_left (by omega)) hmore)

/-- The first task has the assignments that prefer the ranks split on. -/
theorem taskOf_eq_zero_iff : part.taskOf a = 0 ↔ ∀ r ∈ part.ranks, a r = part.preferred r := by
  have hpos : 0 < part.taskCount := by
    rw [part.taskCount_eq]
    exact Nat.two_pow_pos _
  rw [taskOf_eq_iff hpos, literalsOf]
  simp only [List.forall_mem_map, literalAt, Nat.zero_testBit, Bool.false_eq_true, if_false]
  constructor
  · intro h r hr
    obtain ⟨i, hi⟩ := List.mem_iff_getElem?.1 hr
    exact h (r, i) (List.mk_mem_zipIdx_iff_getElem?.2 hi)
  · exact fun h entry hentry => h entry.1 (List.fst_mem_of_mem_zipIdx hentry)

theorem taskOf_unsplit : (ofRoot p o s 0).taskOf a = 0 :=
  taskOf_eq_zero_iff.2 (by simp [ofRoot, chooseRanks])

/-- Where some model prefers the ranks split on, the first of all models that the root admits does. -/
theorem FirstOf.of_preferred (h : (ofRoot p o s 0).FirstOf 0 m) (ha : p.formula.holds a = true)
    (hadmits : s.valuation.admits a = true)
    (htask : (ofRoot p o s count).taskOf a = 0) : (ofRoot p o s count).taskOf m = 0 := by
  rw [taskOf_eq_zero_iff] at htask ⊢
  intro r hr
  obtain ⟨hpos, hle, -⟩ := chooseRanks_spec.2 r hr
  have hprecedes := h.precedes a ha hadmits taskOf_unsplit
  rw [← htask r hr]
  refine (hprecedes.eq_of_preferred hle (fun k hk hkr => ?_) r hpos (Nat.le_refl r)).symm
  cases hv : s.valuation.value? k with
  | none => exact .inr (htask k (mem_chooseRanks_of_le hr hk hkr hv))
  | some value =>
    exact .inl ((Valuation.admits_iff.1 hadmits k value hk hv).trans
      (Valuation.admits_iff.1 h.admitted k value hk hv).symm)

end Partition

/-! ### The model of a solve -/

namespace Prepared

/-- A solve with one worker finds the model, however it goes. -/
def Yields (p : Prepared) (settings : Settings) (model : List Int) : Prop :=
  (∀ start ended result, p.Dispatches settings start 1 ended result →
    ∃ outcome, result = .ok outcome ∧ outcome.solutions.model = some model) ∧
  ∀ clock, ∃ outcome, p.solve settings clock = .ok (.ok outcome) ∧
    outcome.solutions.model = some model

theorem Dispatches.first_report {start : Instant} {ended : List TaskReport}
    {result : Except SearchError Outcome} (hlimit : settings.limit? = none)
    (hroot : p.rootResult settings = .ok (.inr part))
    (h : p.Dispatches settings start 1 ended result) :
    ∃ report rest, ended = report :: rest ∧ part.run 0 (fun _ => none) = .ok report := by
  cases h with
  | atRoot _ hroot' => simp [hroot] at hroot'
  | @onPool deadline part' pool hdeadline hroot' hreached hfinished trace =>
    obtain rfl : part = part' := by simpa [hroot] using hroot'
    obtain rfl : none = deadline := by simpa [Settings.deadline, hlimit] using hdeadline
    obtain ⟨report, rest, hresults, hrun⟩ := hreached.first_report hfinished
    exact ⟨report, rest.filterMap id, by rw [Pool.inOrder, hresults]; rfl, hrun⟩

/-- With one worker and no time limit, a solve for one model finds the first model of the first task. -/
theorem exists_yields (hp : p.Proper) (hlimit : settings.limit? = none) (he : settings.enumerate = false)
    (hroot : p.rootResult settings = .ok (.inr part)) (ha : p.formula.holds a = true)
    (hadmits : part.root.valuation.admits a = true) (htask : part.taskOf a = 0) :
    ∃ w, part.FirstOf 0 (p.filled w) ∧ p.Yields settings (p.modelOf w) := by
  obtain ⟨s, hrooted, rfl⟩ := exists_of_rootResult hp hroot
  have hsplits := Partition.splits_ofRoot (.ofSettings settings) settings.partitionDepth hp
    (hrooted.settled rfl)
  obtain ⟨report, hrun, hreported⟩ :=
    Partition.run_spec (fun _ => none) hsplits (htask ▸ Partition.taskOf_lt)
  obtain ⟨w, hfirst, hmodel⟩ := hreported.exists_first hp he ha hadmits htask
  have hdispatch : ∀ start ended result, p.Dispatches settings start 1 ended result →
      ∃ outcome, result = .ok outcome ∧ outcome.solutions.model = some (p.modelOf w) := by
    intro start ended result h
    obtain ⟨outcome, -, rfl, -⟩ := h.sound hp
    refine ⟨outcome, rfl, ?_⟩
    obtain ⟨report', rest, rfl, hrun'⟩ := h.first_report hlimit hroot
    obtain rfl : report' = report := Except.ok.inj (hrun'.symm.trans hrun)
    rw [h.solutions_eq hp hroot, Partition.model_solutions, List.findSome?_cons, hmodel]
    rfl
  refine ⟨w, hfirst, hdispatch, fun clock => ?_⟩
  have hdeadline : settings.deadline clock.start = .ok none := by rw [Settings.deadline, hlimit]
  obtain ⟨outcome, hsolve⟩ := exists_solve hp hdeadline
  obtain ⟨ended, h⟩ := dispatches_of_solve hp Nat.one_pos hsolve
  obtain ⟨_, heq, hsame⟩ := hdispatch _ _ _ h
  obtain rfl := Except.ok.inj heq
  exact ⟨outcome, hsolve, hsame⟩

theorem rootResult_partitionDepth (h : p.rootResult settings = .ok (.inr part)) (depth : Nat) :
    p.rootResult { settings with partitionDepth := depth } =
      .ok (.inr (.ofRoot p (.ofSettings settings) part.root depth)) := by
  unfold rootResult at h ⊢
  change Search.atRoot p settings >>= (fun root => _) = _
  cases hroot : Search.atRoot p settings with
  | error fault => simp [hroot, bind, Except.bind] at h
  | ok root =>
    obtain ⟨s, conflict⟩ := root
    simp only [hroot, bind, Except.bind] at h ⊢
    cases conflict with
    | some id => cases h
    | none =>
      by_cases hsolved : s.allSatisfied = true
      · simp only [Option.isSome_none, Bool.false_eq_true, if_false, hsolved, if_true] at h
        cases hrecord : s.countSolved.recordSolution p (.ofSettings settings) <;>
          rw [hrecord] at h <;> cases h
      · simp only [Option.isSome_none, Bool.false_eq_true, if_false, hsolved] at h ⊢
        cases h
        rfl

/-- If some model that the root admits prefers the ranks split on, a search split on them with one worker
finds the model that it finds unsplit. -/
theorem yields_of_preferred {f : Formula} (hf : f.Built)
    (hp : ofFormula f settings.heuristic = .ok (.ok p)) (hlimit : settings.limit? = none)
    (he : settings.enumerate = false) (hroot : p.rootResult settings = .ok (.inr part))
    (ha : p.formula.holds a = true) (hadmits : part.root.valuation.admits a = true)
    (hpreferred : ∀ r ∈ part.ranks, a r = part.preferred r) :
    ∃ model, p.Yields settings model ∧ p.Yields { settings with partitionDepth := 0 } model := by
  obtain ⟨p', hp', hproper, -⟩ := ofFormula_eq_ok hf.stored settings.heuristic
  rw [hp] at hp'
  cases hp'
  obtain ⟨s, -, rfl⟩ := exists_of_rootResult hproper hroot
  have htask := Partition.taskOf_eq_zero_iff.2 hpreferred
  obtain ⟨w, hfirst, hyields⟩ := exists_yields hproper hlimit he hroot ha hadmits htask
  obtain ⟨w', hfirst', hyields'⟩ : ∃ w, (Partition.ofRoot p (.ofSettings settings) s 0).FirstOf 0
      (p.filled w) ∧ p.Yields { settings with partitionDepth := 0 } (p.modelOf w) :=
    exists_yields hproper hlimit he (rootResult_partitionDepth hroot 0) ha hadmits
      Partition.taskOf_unsplit
  -- each of the two models is among those that the other one comes first of
  have hbelongs := hfirst'.of_preferred ha hadmits htask
  have hprecedes := hfirst.precedes _ hfirst'.holds hfirst'.admitted hbelongs
  have hprecedes' := hfirst'.precedes _ hfirst.holds hfirst.admitted Partition.taskOf_unsplit
  refine ⟨p.modelOf w, hyields, ?_⟩
  rw [modelOf_congr hproper (hprecedes'.antisymm hprecedes)]
  exact hyields'

theorem yields_of_preferred_three_clauses : ∃ f p part model,
    f.clauses =
        #[[⟨1, true⟩, ⟨2, true⟩], [⟨1, false⟩, ⟨2, false⟩, ⟨3, true⟩], [⟨1, true⟩, ⟨3, false⟩]] ∧
      ofFormula f false = .ok (.ok p) ∧ p.rootResult { heuristic := false } = .ok (.inr part) ∧
      part.taskCount = 8 ∧ p.Yields { heuristic := false } model ∧
      p.Yields { heuristic := false, partitionDepth := 0 } model := by
  let f := ((({} : Formula).store [⟨1, true⟩, ⟨2, true⟩]).store [⟨1, false⟩, ⟨2, false⟩, ⟨3, true⟩]).store
    [⟨1, true⟩, ⟨3, false⟩]
  have hf : f.Built := @Formula.Built.add _ f [1, -3] 2
    (@Formula.Built.add _ _ [-1, -2, 3] 1 (@Formula.Built.add {} _ [1, 2] 0 .empty rfl) rfl) rfl
  have heval : ((ofFormula f false).toOption.any fun prepared => prepared.toOption.any fun p =>
      (p.rootResult { heuristic := false }).toOption.any fun root => root.getRight?.any fun part =>
        decide (part.taskCount = 8 ∧ p.formula.holds (fun _ => true) = true ∧
          part.root.valuation.admits (fun _ => true) = true ∧
          ∀ r ∈ part.ranks, true = part.preferred r)) = true := by decide +kernel
  simp only [Option.any_eq_true, Fault.toOption_eq_some, Sum.getRight?_eq_some_iff] at heval
  obtain ⟨_, hprepared, p, rfl, _, hroot, part, rfl, hdecided⟩ := heval
  obtain ⟨hcount, ha, hadmits, hpreferred⟩ := of_decide_eq_true hdecided
  obtain ⟨model, hmodel, hmodel'⟩ := yields_of_preferred hf hprepared rfl rfl hroot ha hadmits hpreferred
  exact ⟨f, p, part, model, rfl, hprepared, hroot, hcount, hmodel, hmodel'⟩

end Prepared

end ClauseSearch
