import ClauseSearch.Partition.Task
import ClauseSearch.Proofs.Tree

/-! What a task comes to depends on its root, on its number and on what finitely many of its checks find.
So a task can be followed from check to check, and it has ended once the checks so far decide its
report. -/

namespace ClauseSearch

/-- Watches that find the same up to some check come to the same. -/
def Watch.Settles {α : Type} (watch : Watch) (result : Watch → α) : Prop :=
  ∃ last, ∀ other : Watch, (∀ check ≤ last, other check = watch check) → result other = result watch

namespace Watch

variable {α β ε : Type} {watch : Watch}

theorem settles_const (a : α) : watch.Settles fun _ => a := ⟨0, fun _ _ => rfl⟩

theorem Settles.comp {f : Watch → α} {g : α → Watch → β} (hf : watch.Settles f)
    (hg : ∀ a, watch.Settles (g a)) : watch.Settles fun w => g (f w) w := by
  obtain ⟨m, hm⟩ := hf
  obtain ⟨n, hn⟩ := hg (f watch)
  refine ⟨max m n, fun other h => ?_⟩
  dsimp only
  rw [hm other fun check hle => h check (by omega), hn other fun check hle => h check (by omega)]

theorem Settles.bind {f : Watch → Except ε α} {g : α → Watch → Except ε β} (hf : watch.Settles f)
    (hg : ∀ a, watch.Settles (g a)) : watch.Settles fun w => f w >>= fun a => g a w :=
  hf.comp (g := fun result w => result >>= fun a => g a w) fun result =>
    match result with
    | .error _ => settles_const _
    | .ok a => hg a

/-- What a check finds ends a run, or the run goes on. -/
theorem Settles.after {f : Interruption → α} {g : Watch → α} (check : Nat) (hg : watch.Settles g) :
    watch.Settles fun w => match w check with
      | some reason => f reason
      | none => g w := by
  obtain ⟨last, hlast⟩ := hg
  refine ⟨max check last, fun other h => ?_⟩
  dsimp only
  rw [h check (by omega), hlast other fun n hn => h n (by omega)]

end Watch

namespace Search

open Watch

variable {p : Prepared} {o : Options} {watch : Watch} {rank : Nat}

theorem settles_attempt (depth : Nat) (b : Bool) (s : Search)
    (h : ∀ depth s, watch.Settles fun w => explore p o w depth (some rank) s) :
    watch.Settles fun w => attempt p o w depth rank b s := by
  unfold attempt
  exact (settles_const _).bind fun s => (h (depth + 1) s).bind fun _ => settles_const _

theorem settles_branch (depth : Nat) (s : Search)
    (h : ∀ depth s, watch.Settles fun w => explore p o w depth (some rank) s) :
    watch.Settles fun w => branch p o w depth rank s := by
  unfold branch
  refine (settles_const _).bind fun place => ?_
  refine (settles_attempt depth place.preferred s h).bind fun (ending, s) => ?_
  split
  · exact settles_attempt depth (!place.preferred) _ h
  · exact settles_const _

theorem explore_eq_error {decided : Option Nat} {fault : Fault} {depth : Nat} {s : Search}
    (h : propagated p decided s = .error fault) :
    explore p o watch depth decided s = .error fault := by
  rw [explore.eq_def]
  cases decided <;>
  · simp only [propagated] at h
    simp only [h, bind, Except.bind]

/-- A search depends on finitely many checks. -/
theorem settles_explore (p : Prepared) (o : Options) (watch : Watch) (depth : Nat)
    (decided : Option Nat) (s : Search) :
    watch.Settles fun w => explore p o w depth decided s := by
  -- on the ranks above the cursor
  induction hn : p.variableCount - decided.getD 0 using Nat.strongRecOn
    generalizing s decided depth with
  | _ n ih =>
    cases hpropagated : propagated p decided s with
    | error fault => simpa only [explore_eq_error hpropagated] using settles_const _
    | ok result =>
      obtain ⟨t, conflict⟩ := result
      simp only [explore_eq hpropagated]
      split
      · exact settles_const _
      split
      · exact settles_const _
      refine .after _ ?_
      split
      · exact settles_const _
      · rename_i rank hnext
        have hless := nextUnvalued?_bounds hnext
        refine (settles_const _).bind fun u => settles_branch depth u fun depth s => ?_
        exact ih (p.variableCount - rank) (by omega) depth (some rank) s rfl

end Search

namespace Partition

open Watch

variable {part : Partition} {task : Nat} {watch : Watch} {report : TaskReport}

theorem run_eq (part : Partition) (task : Nat) (watch : Watch) :
    part.run task watch =
      match watch 0 with
      | some reason => .ok { ending := .error (.interrupted reason) }
      | none => part.literals task >>= fun literals =>
          assumeAll literals part.root.fork >>= fun assumed =>
            match assumed with
            | .error l => .ok { ending := .error (.assumptionConflict l) }
            | .ok s => s.explore part.problem part.options watch part.ranks.length none >>= fun found =>
                .ok { ending := found.1.map (·, found.2.solutions), tally := found.2.tally,
                      trace := found.2.trace } := by
  unfold run
  cases watch 0 <;> rfl

theorem settles_run (part : Partition) (task : Nat) (watch : Watch) :
    watch.Settles fun w => part.run task w := by
  simp only [run_eq]
  refine .after 0 ((settles_const _).bind fun literals => (settles_const _).bind fun assumed => ?_)
  cases assumed with
  | error l => exact settles_const _
  | ok s => exact (Search.settles_explore part.problem part.options watch _ _ s).bind fun _ => settles_const _

/-- What the checks of a task have found so far, one entry for each, decides its report. -/
def Decides (part : Partition) (task : Nat) (found : List (Option Interruption))
    (report : TaskReport) : Prop :=
  ∀ watch : Watch, (∀ check (h : check < found.length), watch check = found[check]) →
    part.run task watch = .ok report

/-- What the first checks of a watch find, in order. -/
def findings (watch : Watch) (count : Nat) : List (Option Interruption) := (List.range count).map watch

theorem findings_succ (watch : Watch) (count : Nat) :
    findings watch (count + 1) = findings watch count ++ [watch count] := by
  rw [findings, List.range_succ, List.map_append]
  rfl

theorem exists_decides (h : part.run task watch = .ok report) :
    ∃ count, part.Decides task (findings watch count) report := by
  obtain ⟨last, hlast⟩ := part.settles_run task watch
  refine ⟨last + 1, fun other hother => ?_⟩
  refine (hlast other fun check hle => ?_).trans h
  have hlt : check < (findings watch (last + 1)).length := by
    simpa [findings] using Nat.lt_succ_of_le hle
  simpa [findings] using hother check hlt

end Partition

end ClauseSearch
