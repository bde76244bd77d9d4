import ClauseSearch.Proofs.Pool

/-! To run the tasks one after another is a run of a pool, whatever the number of its workers: one worker does
all the tasks while the others wait. -/

namespace ClauseSearch.Pool

open Relation ClauseSearch.Partition SharedTally

variable {part : Partition} {deadline : Option Instant} {board board' : Board} {w w' : Worker}
  {others : List Worker} {results : List (Option TaskReport)} {task : Nat} {report : TaskReport}
  {clock : Clock} {reports : Nat → TaskReport}

theorem step_first (hmove : Move part deadline board w board' w') :
    Step part deadline ⟨board, w :: others, results⟩ ⟨board', w' :: others, results⟩ :=
  @Step.work part deadline ⟨board, w :: others, results⟩ [] others w w' board' rfl hmove

/-- The checks of a task, where the flag is read as it is and the clock as given. -/
theorem steps_checks (clock : Clock) (count : Nat) :
    ReflTransGen (Step part deadline) ⟨board, .searching task [] :: others, results⟩
      ⟨board, .searching task
        (findings (Partition.watch board.stop (clock.expired deadline task)) count) :: others, results⟩ := by
  induction count with
  | zero => exact .refl
  | succ count ih =>
    refine ih.tail (step_first ?_)
    rw [findings_succ]
    exact .check (clock.reading task count) id

theorem steps_adds (additions : List (SharedCount × UInt64)) :
    ReflTransGen (Step part deadline) ⟨board, .absorbing task report additions :: others, results⟩
      ⟨{ board with tally := additions.foldl bump board.tally }, .absorbing task report [] :: others,
        results⟩ := by
  induction additions generalizing board with
  | nil => exact .refl
  | cons addition rest ih => exact .head (step_first .add) ih

/-- One worker does a task from taking it to the report in its place, and its checks find what the checks
of the task find where the tasks run one after another. -/
theorem steps_task (others : List Worker) (results : List (Option TaskReport)) {rest : List Nat}
    (htasks : board.tasks = task :: rest) (hsent : board.sent = [])
    (hrun : part.run task (Partition.watch board.stop (clock.expired deadline task)) = .ok report) :
    ∃ board', ReflTransGen (Step part deadline) ⟨board, .idle :: others, results⟩
        ⟨board', .idle :: others, results.set task (some report)⟩ ∧
      board'.tasks = rest ∧ board'.sent = [] ∧ board'.stop = (board.stop || report.stopsOthers) := by
  obtain ⟨count, hdecides⟩ := exists_decides hrun
  obtain ⟨tasks, stop, tally, sent⟩ := board
  cases htasks
  cases hsent
  set tally' := (additionsOf report).foldl bump tally
  set stop' := stop || report.stopsOthers
  refine ⟨⟨rest, stop', tally', []⟩, ?_, rfl, rfl, rfl⟩
  calc ReflTransGen (Step part deadline)
        ⟨⟨task :: rest, stop, tally, []⟩, .idle :: others, results⟩
        ⟨⟨rest, stop, tally, []⟩, .searching task [] :: others, results⟩ :=
          .single (step_first (.take rfl))
    ReflTransGen (Step part deadline) _
        ⟨⟨rest, stop, tally, []⟩, .searching task _ :: others, results⟩ := steps_checks clock count
    Step part deadline _
        ⟨⟨rest, stop, tally, []⟩, .absorbing task report (additionsOf report) :: others, results⟩ :=
          step_first (.finish hdecides)
    ReflTransGen (Step part deadline) _
        ⟨⟨rest, stop, tally', []⟩, .absorbing task report [] :: others, results⟩ := steps_adds _
    Step part deadline _
        ⟨⟨rest, stop', tally', []⟩, .sending task report :: others, results⟩ := step_first .raise
    Step part deadline _
        ⟨⟨rest, stop', tally', [(task, report)]⟩, .idle :: others, results⟩ := step_first .send
    Step part deadline _
        ⟨⟨rest, stop', tally', []⟩, .idle :: others, results.set task (some report)⟩ := .receive rfl

/-- The first tasks done one after another. -/
theorem exists_reached_of_first (workers : Nat) {n : Nat}
    (hrun : ∀ task < part.taskCount,
      part.run task (watchInTurn (clock.expired deadline) part task) = .ok (reports task))
    (hn : n ≤ part.taskCount) :
    ∃ board results, Reached part deadline (workers + 1)
        ⟨board, List.replicate (workers + 1) .idle, results⟩ ∧
      board.tasks = List.range' n (part.taskCount - n) ∧ board.sent = [] ∧
      board.stop = part.stoppedBefore (clock.expired deadline) n ∧
      results.length = part.taskCount ∧ ∀ task < n, results[task]? = some (some (reports task)) := by
  induction n with
  | zero => exact ⟨_, _, .refl, List.range_eq_range', rfl, rfl, List.length_replicate, by simp⟩
  | succ n ih =>
    obtain ⟨board, results, hreached, htasks, hsent, hstop, hlength, hresults⟩ := ih (by omega)
    have hlt : n < part.taskCount := by omega
    rw [show part.taskCount - n = part.taskCount - (n + 1) + 1 by omega, List.range'_succ] at htasks
    have hreport := hrun n hlt
    rw [watchInTurn, ← hstop] at hreport
    obtain ⟨board', hsteps, htasks', hsent', hstop'⟩ :=
      steps_task (List.replicate workers .idle) results htasks hsent hreport
    refine ⟨board', _, hreached.trans hsteps, htasks', hsent', ?_, by simpa, fun task htask => ?_⟩
    · rw [hstop', stoppedBefore, ← hstop, hreport]
    · by_cases hn : task = n
      · rw [hn, List.getElem?_set_self (by omega)]
      · rw [List.getElem?_set_ne (Ne.symm hn), hresults task (by omega)]

/-- Tasks that run one after another come to what some run of a pool delivers. -/
theorem exists_reached_of_inTurn {workers : Nat} (hworkers : 0 < workers)
    (hrun : ∀ task < part.taskCount,
      part.run task (watchInTurn (clock.expired deadline) part task) = .ok (reports task)) :
    ∃ pool, Reached part deadline workers pool ∧ pool.Finished ∧
      pool.results = ((List.range part.taskCount).map reports).map some := by
  obtain ⟨others, rfl⟩ := Nat.exists_eq_add_one.2 hworkers
  obtain ⟨board, results, hreached, htasks, hsent, -, hlength, hresults⟩ :=
    exists_reached_of_first others hrun (Nat.le_refl _)
  refine ⟨_, hreached, ⟨by simpa using htasks, hsent, fun w hw => List.eq_of_mem_replicate hw⟩, ?_⟩
  refine List.ext_getElem (by simpa using hlength) fun task htask _ => ?_
  have hresult := hresults task (hlength ▸ htask)
  rw [List.getElem?_eq_getElem htask] at hresult
  simpa using hresult

end ClauseSearch.Pool
