import ClauseSearch.Proofs.SharedTally
import Mathlib.Algebra.GroupWithZero.Nat
import Mathlib.Logic.Relation

/-! A shared tally is a sum without order. Tasks side by side absorb timed tallies into it, one addition to one
word at a time, and additions of different tasks mix in any order. What the tally comes to when the additions
still to be made follow never changes on the way, so in the end each word holds the sum over all that was
absorbed, cut to 64 bits. Where no sum outgrows its word, this is what adding the timed tallies one to another
comes to, in whatever order. -/

namespace ClauseSearch

open Relation SharedTally

/-! ### Timed tallies by their shared counts -/

namespace TimedTally

variable {t : TimedTally} {ts : List TimedTally} {amounts : SharedCount → Nat}

/-- The timed tally that has these amounts, and neither pure variables nor partitions. -/
def ofShares (amounts : SharedCount → Nat) : TimedTally where
  tally :=
    { iterations := amounts .iterations
      unitPropagations := amounts .unitPropagations
      conflicts := amounts .conflicts
      conflictDepths := amounts .conflictDepths
      clauseTests := amounts .clauseTests
      searches := amounts .searches
      decisions := amounts .decisions
      solvedSubtrees := amounts .solvedSubtrees
      pureVariables := 0
      partitions := 0 }
  time := .ofNanoseconds (amounts .nanoseconds)

/-- What timed tallies have for a shared count together. -/
def totalShare (ts : List TimedTally) (c : SharedCount) : Nat := (ts.map (share · c)).sum

/-- All of the timed tally is shared: it counts neither pure variables nor partitions. -/
def Shareable (t : TimedTally) : Prop := t.tally.pureVariables = 0 ∧ t.tally.partitions = 0

theorem totalShare_cons (t : TimedTally) (ts : List TimedTally) (c : SharedCount) :
    totalShare (t :: ts) c = share t c + totalShare ts c := List.sum_cons

theorem totalShare_of_perm {us : List TimedTally} (h : ts.Perm us) : totalShare ts = totalShare us := by
  funext c
  exact (h.map (share · c)).sum_nat

/-- Where it has a proper time, what is shareable is known by its shares. -/
theorem Shareable.eq_ofShares (h : t.Shareable) (htime : t.time.nanoseconds < Duration.perSecond) :
    t = ofShares (share t) := by
  obtain ⟨tally, seconds, nanoseconds⟩ := t
  obtain ⟨hpure, hpartitions⟩ := h
  have hseconds : (seconds * Duration.perSecond + nanoseconds) / Duration.perSecond = seconds := by
    rw [Nat.add_comm, Nat.add_mul_div_right _ _ (by decide), Nat.div_eq_of_lt htime, Nat.zero_add]
  have hnanoseconds :
      (seconds * Duration.perSecond + nanoseconds) % Duration.perSecond = nanoseconds := by
    rw [Nat.add_comm, Nat.add_mul_mod_self_right, Nat.mod_eq_of_lt htime]
  simp only [ofShares, share, amount, Duration.ofNanoseconds, Duration.toNanoseconds, hseconds,
    hnanoseconds]
  cases tally
  simp_all

theorem fits_ofShares (h : ∀ c, amounts c < 2 ^ 64) : (ofShares amounts).Fits := by
  constructor
  · have hcount : ∀ c, amounts c ≤ countLimit := fun c => Nat.le_of_lt_succ (h c)
    simp [ofShares, Tally.counts, hcount]
  · -- a time counted in 64 bits of nanoseconds has far fewer seconds
    left
    have := h .nanoseconds
    simp only [ofShares, Duration.ofNanoseconds, Duration.perSecond, Duration.greatest]
    omega

/-- To add a timed tally is to add its share to each amount, where no sum outgrows its word. -/
theorem add_ofShares (ht : t.Shareable) (h : ∀ c, amounts c + share t c < 2 ^ 64) :
    (ofShares amounts).add t = .ok (ofShares fun c => amounts c + share t c) := by
  refine add_eq_ok.2 ⟨?_, fits_ofShares h⟩
  obtain ⟨hpure, hpartitions⟩ := ht
  have htime : (ofShares amounts).time.toNanoseconds = amounts .nanoseconds :=
    Duration.toNanoseconds_ofNanoseconds _
  rw [sum, Duration.add, htime]
  change ofShares _ = ⟨Tally.add _ _, _⟩
  simp [ofShares, share, amount, Tally.add, hpure, hpartitions]

theorem foldlM_add_ofShares (hts : ∀ t ∈ ts, t.Shareable)
    (h : ∀ c, amounts c + totalShare ts c < 2 ^ 64) :
    ts.foldlM add (ofShares amounts) = .ok (ofShares fun c => amounts c + totalShare ts c) := by
  induction ts generalizing amounts with
  | nil => rfl
  | cons t ts ih =>
    simp only [totalShare_cons, ← Nat.add_assoc] at h ⊢
    have hstep := add_ofShares (hts t List.mem_cons_self) fun c => Nat.lt_of_add_right_lt (h c)
    rw [List.foldlM_cons, hstep]
    exact ih (fun u hu => hts u (List.mem_cons_of_mem t hu)) h

end TimedTally

/-! ### Additions in any order -/

/-- Tasks side by side: the tally they share, and for each task the additions it has still to make. -/
structure Absorption where
  shared : SharedTally := {}
  tasks : List (List (SharedCount × UInt64))

namespace Absorption

variable {state state' : Absorption} {tasks : List (List TimedTally)} {ts : List TimedTally}
  {shared : SharedTally}

/-- Each task is about to absorb its timed tallies, one after another. -/
def start (tasks : List (List TimedTally)) : Absorption where
  tasks := tasks.map (·.flatMap additions)

/-- Some task makes its next addition. -/
inductive Step : Absorption → Absorption → Prop
  | add {shared : SharedTally} {before after : List (List (SharedCount × UInt64))}
      {addition : SharedCount × UInt64} {rest : List (SharedCount × UInt64)} :
      Step ⟨shared, before ++ (addition :: rest) :: after⟩ ⟨shared.bump addition, before ++ rest :: after⟩

def Reached (tasks : List (List TimedTally)) (state : Absorption) : Prop :=
  ReflTransGen Step (start tasks) state

def Done (state : Absorption) : Prop := ∀ additions ∈ state.tasks, additions = []

/-- What the tally comes to when the additions still to be made follow. -/
def outlook (state : Absorption) : SharedTally := state.tasks.flatten.foldl bump state.shared

theorem Step.outlook_eq (h : Step state state') : state'.outlook = state.outlook := by
  cases h with
  | @add shared before after addition rest =>
    have hfirst : (before ++ (addition :: rest) :: after).flatten.Perm
        (addition :: (before ++ rest :: after).flatten) := by
      simp only [List.flatten_append, List.flatten_cons, List.cons_append]
      exact List.perm_middle
    exact (foldl_bump_of_perm hfirst shared).symm

/-- The outlook stays that of absorbing all the timed tallies one after another. -/
theorem Reached.outlook_eq (h : Reached tasks state) : state.outlook = tasks.flatten.foldl absorb {} := by
  induction h with
  | refl =>
    change (tasks.map (·.flatMap additions)).flatten.foldl bump {} = _
    rw [List.foldl_flatten, List.foldl_map, List.foldl_flatten]
    simp only [List.foldl_flatMap]
    rfl
  | tail _ hstep ih => rw [hstep.outlook_eq, ih]

theorem Done.shared_eq (h : state.Done) : state.shared = state.outlook := by
  rw [outlook, List.flatten_eq_nil_iff.2 h]
  rfl

/-- A task may make any number of its additions in one go. -/
theorem steps_task (before after : List (List (SharedCount × UInt64)))
    (made rest : List (SharedCount × UInt64)) :
    ReflTransGen Step ⟨shared, before ++ (made ++ rest) :: after⟩
      ⟨made.foldl bump shared, before ++ rest :: after⟩ := by
  induction made generalizing shared with
  | nil => exact .refl
  | cons addition made ih => exact .head .add ih

/-! ### Sums -/

theorem get_foldl_absorb (ts : List TimedTally) (shared : SharedTally) (c : SharedCount) :
    (ts.foldl absorb shared).get c = shared.get c + UInt64.ofNat (TimedTally.totalShare ts c) := by
  induction ts generalizing shared with
  | nil => exact (UInt64.add_zero _).symm
  | cons t ts ih =>
    rw [List.foldl_cons, ih, get_absorb, TimedTally.totalShare_cons, UInt64.ofNat_add, UInt64.add_assoc]

theorem snapshot_eq_ofShares (shared : SharedTally) :
    shared.snapshot = .ofShares fun c => (shared.get c).toNat := rfl

/-- When all additions are made, in whatever order, the snapshot has the sum over all the timed tallies for
each of the eight counts and for the time in nanoseconds, cut to 64 bits, and no pure variables and no
partitions. Where each sum fits its word and no pure variables and partitions were counted, adding the timed
tallies one after another comes to the same, in any order, from nothing or from the first of them on. -/
theorem snapshot_of_done (h : Reached tasks state) (hdone : state.Done) :
    state.shared.snapshot = .ofShares (fun c => TimedTally.totalShare tasks.flatten c % 2 ^ 64) ∧
    ∀ ts, ts.Perm tasks.flatten → (∀ c, TimedTally.totalShare ts c < 2 ^ 64) →
      (∀ t ∈ ts, t.Shareable) →
      ts.foldlM TimedTally.add {} = .ok state.shared.snapshot ∧
      ∀ t rest, ts = t :: rest → t.time.nanoseconds < Duration.perSecond →
        rest.foldlM TimedTally.add t = .ok state.shared.snapshot := by
  have hsnapshot : state.shared.snapshot =
      .ofShares fun c => TimedTally.totalShare tasks.flatten c % 2 ^ 64 := by
    rw [snapshot_eq_ofShares]
    congr 1
    funext c
    rw [hdone.shared_eq, h.outlook_eq, get_foldl_absorb]
    have hempty : ({} : SharedTally).get c = 0 := by cases c <;> rfl
    rw [hempty, UInt64.zero_add, UInt64.toNat_ofNat']
  refine ⟨hsnapshot, fun ts hperm hfits hshareable => ?_⟩
  have hsum : state.shared.snapshot = .ofShares (TimedTally.totalShare ts) := by
    rw [hsnapshot, ← TimedTally.totalShare_of_perm hperm]
    congr 1
    funext c
    exact Nat.mod_eq_of_lt (hfits c)
  rw [hsum]
  constructor
  · have hnone : ({} : TimedTally) = .ofShares fun _ => 0 := rfl
    rw [hnone, TimedTally.foldlM_add_ofShares hshareable (by simpa using hfits)]
    simp
  · rintro t rest rfl htime
    obtain ⟨ht, hrest⟩ := List.forall_mem_cons.1 hshareable
    have hshares : TimedTally.totalShare (t :: rest) =
        fun c => share t c + TimedTally.totalShare rest c :=
      funext fun c => TimedTally.totalShare_cons t rest c
    rw [hshares] at hfits ⊢
    have hadded := @TimedTally.foldlM_add_ofShares rest (share t) hrest hfits
    rwa [← ht.eq_ofShares htime] at hadded

/-- The second task makes three additions among those of the first. -/
theorem snapshot_of_done_two_tasks : ∃ (state : Absorption) (t u : TimedTally),
    t.tally.iterations = 3 ∧ u.tally.iterations = 5 ∧ u.time = ⟨1, 700000000⟩ ∧
      Reached [[t], [u]] state ∧ state.Done ∧
      state.shared.snapshot = ⟨{ iterations := 8, conflicts := 1, decisions := 2 }, ⟨2, 100000000⟩⟩ ∧
      [u].foldlM TimedTally.add t = .ok state.shared.snapshot := by
  let t : TimedTally := ⟨{ iterations := 3, conflicts := 1 }, ⟨0, 400000000⟩⟩
  let u : TimedTally := ⟨{ iterations := 5, decisions := 2 }, ⟨1, 700000000⟩⟩
  have hreached : Reached [[t], [u]] ⟨_, [[], []]⟩ :=
    calc ReflTransGen Step (start [[t], [u]]) ⟨_, [(additions t).drop 4, additions u]⟩ :=
          steps_task [] [additions u] ((additions t).take 4) _
      ReflTransGen Step _ ⟨_, [(additions t).drop 4, (additions u).drop 3]⟩ :=
          steps_task [_] [] ((additions u).take 3) _
      ReflTransGen Step _ ⟨_, [[], (additions u).drop 3]⟩ :=
          steps_task [] [_] ((additions t).drop 4) []
      ReflTransGen Step _ ⟨_, [[], []]⟩ :=
          steps_task [_] [] ((additions u).drop 3) []
  have hdone : ∀ shared, Done ⟨shared, [[], []]⟩ := by simp [Done]
  obtain ⟨hsnapshot, hadded⟩ := snapshot_of_done hreached (hdone _)
  refine ⟨_, t, u, rfl, rfl, rfl, hreached, hdone _, ?_, ?_⟩
  · rw [hsnapshot]
    decide
  · apply (hadded [t, u] (.refl _) ?_ ?_).2 t [u] rfl (by decide)
    · intro c
      cases c <;> decide
    · simp [t, u, TimedTally.Shareable]

end Absorption

end ClauseSearch
