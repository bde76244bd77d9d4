import ClauseSearch.Partition.Solve
import Mathlib.Data.List.Perm.Basic

/-! Additions to a shared tally commute, so what it holds in the end does not depend on the order in which
they are made. -/

namespace ClauseSearch.SharedTally

variable {s t : SharedTally} {as bs : List (SharedCount × UInt64)}

theorem ext_get (h : ∀ c, s.get c = t.get c) : s = t := by
  cases s
  cases t
  congr
  exacts [h .iterations, h .unitPropagations, h .conflicts, h .conflictDepths, h .clauseTests, h .searches,
    h .decisions, h .solvedSubtrees, h .nanoseconds]

/-- An addition goes to its own word and leaves the others. -/
theorem get_bump (s : SharedTally) (addition : SharedCount × UInt64) (c : SharedCount) :
    (s.bump addition).get c = if c = addition.1 then s.get c + addition.2 else s.get c := by
  obtain ⟨d, n⟩ := addition
  cases d <;> cases c <;> rfl

theorem bump_right_comm (s : SharedTally) (a b : SharedCount × UInt64) :
    (s.bump a).bump b = (s.bump b).bump a := by
  refine ext_get fun c => ?_
  simp only [get_bump]
  split <;> split
  · rw [UInt64.add_assoc, UInt64.add_comm a.2, ← UInt64.add_assoc]
  all_goals rfl

theorem foldl_bump_of_perm (h : as.Perm bs) (s : SharedTally) : as.foldl bump s = bs.foldl bump s :=
  h.foldl_eq' (fun _ _ _ _ _ => bump_right_comm ..) s

def additionsOf (report : TaskReport) : List (SharedCount × UInt64) := additions { tally := report.tally }

theorem sharedTally_eq_foldl_bump (reports : List TaskReport) :
    Partition.sharedTally reports = (reports.flatMap additionsOf).foldl bump {} := by
  rw [List.foldl_flatMap]
  rfl

/-! ### Exact counts -/

/-- The count of a tally for a shared one; the time is kept elsewhere. -/
def amount (t : Tally) : SharedCount → Nat
  | .iterations => t.iterations
  | .unitPropagations => t.unitPropagations
  | .conflicts => t.conflicts
  | .conflictDepths => t.conflictDepths
  | .clauseTests => t.clauseTests
  | .searches => t.searches
  | .decisions => t.decisions
  | .solvedSubtrees => t.solvedSubtrees
  | .nanoseconds => 0

theorem amount_add (t u : Tally) (c : SharedCount) : amount (t + u) c = amount t c + amount u c := by
  cases c <;> rfl

/-- What a timed tally has for a shared count; the time counts in nanoseconds. -/
def share (t : TimedTally) : SharedCount → Nat
  | .nanoseconds => t.time.toNanoseconds
  | c => amount t.tally c

theorem get_absorb (s : SharedTally) (t : TimedTally) (c : SharedCount) :
    (s.absorb t).get c = s.get c + UInt64.ofNat (share t c) := by
  simp only [absorb, additions, List.foldl_cons, List.foldl_nil, get_bump]
  cases c <;> simp [share, amount]

theorem share_untimed (t : Tally) (c : SharedCount) : share { tally := t } c = amount t c := by
  cases c with
  | nanoseconds => simp [share, amount, Duration.zero, Duration.toNanoseconds]
  | _ => rfl

/-- The counts of tasks together, without regard to the words that hold them. -/
def total (reports : List TaskReport) : Tally := reports.foldr (fun report t => report.tally + t) {}

/-- Each word holds the sum of the counts, cut to 64 bits. -/
theorem get_sharedTally (reports : List TaskReport) (c : SharedCount) :
    (Partition.sharedTally reports).get c = UInt64.ofNat (amount (total reports) c) := by
  suffices ∀ shared : SharedTally,
      (reports.foldl (fun shared report => shared.absorb { tally := report.tally }) shared).get c =
        shared.get c + UInt64.ofNat (amount (total reports) c) by
    rw [Partition.sharedTally, this]
    cases c <;> exact UInt64.zero_add _
  intro shared
  induction reports generalizing shared with
  | nil => cases c <;> exact (UInt64.add_zero _).symm
  | cons report reports ih =>
    have htotal : total (report :: reports) = report.tally + total reports := rfl
    rw [List.foldl_cons, ih, get_absorb, share_untimed, htotal, amount_add, UInt64.ofNat_add,
      UInt64.add_assoc]

/-- Where each sum fits its word, the snapshot has the sums. -/
theorem snapshot_sharedTally {reports : List TaskReport}
    (h : ∀ n ∈ (total reports).counts, n ≤ TimedTally.countLimit) :
    (Partition.sharedTally reports).snapshot.tally =
      { total reports with pureVariables := 0, partitions := 0 } := by
  have hget : ∀ c, ((Partition.sharedTally reports).get c).toNat = amount (total reports) c := by
    intro c
    rw [get_sharedTally]
    apply UInt64.toNat_ofNat_of_lt'
    have hle : amount (total reports) c ≤ TimedTally.countLimit := by
      cases c
      case nanoseconds => exact Nat.zero_le _
      all_goals
        apply h
        simp [amount, Tally.counts]
    exact Nat.lt_of_le_of_lt hle (by decide)
  simp only [snapshot, Tally.mk.injEq]
  exact ⟨hget .iterations, hget .unitPropagations, hget .conflicts, hget .conflictDepths,
    hget .clauseTests, hget .searches, hget .decisions, hget .solvedSubtrees, trivial, trivial⟩

end ClauseSearch.SharedTally
