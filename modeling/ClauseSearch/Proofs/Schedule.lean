import ClauseSearch.Partition.Solve
import ClauseSearch.Proofs.Tasks

/-! Schedules of the tasks. What a schedule makes of a task is what its checks find, so any way to run the
tasks comes down to a watch for each. A schedule without a time limit stops a task only where some task
has stopped at a model; to run the tasks one after another is such a schedule. -/

namespace ClauseSearch.Partition

variable {part : Partition} {expired : Nat → Nat → Bool} {task : Nat}

/-- No check finds the time limit, and one that finds a stop does so since some task stops at a model. -/
structure Untimed (part : Partition) (watches : Nat → Watch) : Prop where
  no_limit : ∀ task < part.taskCount, ∀ check, watches task check ≠ some .timeLimit
  stopped : ∀ task < part.taskCount, ∀ check, watches task check = some .stopped →
    ∃ other < part.taskCount, ∃ report, part.run other (watches other) = .ok report ∧
      report.stopsOthers = true

/-- The tasks have come to reports under watches. A check finds a stop only where some task has stopped at
a model, and the time limit only where there is a deadline. -/
structure Follows (part : Partition) (deadline : Option Instant) (watches : Nat → Watch)
    (reports : Nat → TaskReport) : Prop where
  run : ∀ task < part.taskCount, part.run task (watches task) = .ok (reports task)
  stopped : ∀ task < part.taskCount, ∀ check, watches task check = some .stopped →
    ∃ other < part.taskCount, (reports other).stopsOthers = true
  limited : ∀ task < part.taskCount, ∀ check, watches task check = some .timeLimit →
    deadline.isSome = true

/-- A way to run the tasks: every task runs, each under some watch. -/
def Schedule (runTasks : Partition → Except Fault (List TaskReport)) : Prop :=
  ∀ part, ∃ watches, runTasks part = part.runAll watches

/-- A way to run the tasks that has no time limit. -/
def UntimedSchedule (runTasks : Partition → Except Fault (List TaskReport)) : Prop :=
  ∀ part, ∃ watches, part.Untimed watches ∧ runTasks part = part.runAll watches

/-! ### One task after another -/

/-- Whether some task before this one has stopped at a model, where each task begins after the one before
it has ended. -/
def stoppedBefore (expired : Nat → Nat → Bool) (part : Partition) : Nat → Bool
  | 0 => false
  | task + 1 =>
    stoppedBefore expired part task ||
      match part.run task (watch (stoppedBefore expired part task) (expired task)) with
      | .ok report => report.stopsOthers
      | .error _ => false

/-- What the checks find where the tasks run one after another. -/
def watchInTurn (expired : Nat → Nat → Bool) (part : Partition) (task : Nat) : Watch :=
  watch (part.stoppedBefore expired task) (expired task)

theorem foldlM_inTurn (n : Nat) :
    (List.range n).foldlM
        (fun ((reports, stopped) : Array TaskReport × Bool) task => do
          let report ← part.run task (watch stopped (expired task))
          return (reports.push report, stopped || report.stopsOthers)) (#[], false) =
      ((List.range n).mapM fun task => part.run task (watchInTurn expired part task)).map
        fun reports => (reports.toArray, part.stoppedBefore expired n) := by
  induction n with
  | zero => rfl
  | succ n ih =>
    rw [List.range_succ, List.foldlM_append, ih, List.mapM_append]
    cases (List.range n).mapM fun task => part.run task (watchInTurn expired part task) with
    | error fault => rfl
    | ok reports =>
      simp only [Except.map, bind, Except.bind, List.foldlM_cons, List.foldlM_nil, List.mapM_cons,
        List.mapM_nil, stoppedBefore, watchInTurn]
      cases part.run n (watch (part.stoppedBefore expired n) (expired n)) with
      | error fault => rfl
      | ok report => simp [pure, Except.pure]

/-- Running the tasks one after another is running each under a watch of its own. -/
theorem inTurn_eq_runAll : part.inTurn expired = part.runAll (watchInTurn expired part) := by
  unfold inTurn runAll
  rw [foldlM_inTurn]
  cases (List.range part.taskCount).mapM fun task => part.run task (watchInTurn expired part task) with
  | error fault => rfl
  | ok reports => rfl

theorem schedule_inTurn : Schedule (inTurn expired) := fun part =>
  ⟨watchInTurn expired part, inTurn_eq_runAll⟩

theorem exists_of_stoppedBefore (h : part.stoppedBefore expired task = true) :
    ∃ other < task, ∃ report, part.run other (watchInTurn expired part other) = .ok report ∧
      report.stopsOthers = true := by
  induction task with
  | zero => simp [stoppedBefore] at h
  | succ task ih =>
    rw [stoppedBefore, Bool.or_eq_true] at h
    rcases h with h | h
    · obtain ⟨other, hlt, hother⟩ := ih h
      exact ⟨other, by omega, hother⟩
    · refine ⟨task, Nat.lt_succ_self task, ?_⟩
      split at h
      · rename_i report hrun
        exact ⟨report, hrun, h⟩
      · exact absurd h (by simp)

/-- Without a deadline, running the tasks one after another is a schedule without a time limit. -/
theorem untimedSchedule_inTurn (h : ∀ task check, expired task check = false) :
    UntimedSchedule (inTurn expired) := by
  intro part
  refine ⟨watchInTurn expired part, ⟨?_, ?_⟩, inTurn_eq_runAll⟩
  · intro task _ check hlimit
    simp only [watchInTurn, watch, h] at hlimit
    split at hlimit <;> simp at hlimit
  · intro task htask check hstopped
    have hbefore : part.stoppedBefore expired task = true := by
      simp only [watchInTurn, watch, h] at hstopped
      split at hstopped
      · assumption
      · simp at hstopped
    obtain ⟨other, hlt, hother⟩ := exists_of_stoppedBefore hbefore
    exact ⟨other, by omega, hother⟩

end ClauseSearch.Partition
