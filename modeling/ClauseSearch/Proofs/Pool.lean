import ClauseSearch.Proofs.Checks
import ClauseSearch.Proofs.Schedule
import ClauseSearch.Proofs.SharedTally
import Mathlib.Data.List.Perm.Lattice
import Mathlib.Logic.Relation

/-! The tasks of a partition on workers side by side. Workers take task numbers from one channel in order
and send reports back on another, and each report is put in its place by its number. Between the two, a
worker goes from check to check of its task, makes one addition to the shared tally after another, and
raises the stop flag if its task has stopped at a model. Steps of different workers mix in any order.

A check that reads the flag as raised ends its task, but it may read a flag that was raised as lowered
still, and nothing is said about the instants that checks read from the clock. A worker that cannot be
started, with which a solve has no outcome, is left out.

In every pool reached each task is in one place, every report is decided by checks that had a reason for
what they found, and the shared tally holds what the ended tasks have added so far. -/

namespace ClauseSearch

open Relation SharedTally

/-- What a worker is at. -/
inductive Worker where
  /-- It waits for a task. -/
  | idle
  /-- It searches, and its checks so far have found this. -/
  | searching (task : Nat) (found : List (Option Interruption))
  /-- The task has ended, and these additions to the shared tally are still to be made. -/
  | absorbing (task : Nat) (report : TaskReport) (additions : List (SharedCount × UInt64))
  /-- The report is about to be sent. -/
  | sending (task : Nat) (report : TaskReport)

/-- What the workers share. -/
structure Board where
  /-- The channel of tasks. -/
  tasks : List Nat
  stop : Bool := false
  tally : SharedTally := {}
  /-- The channel of reports. -/
  sent : List (Nat × TaskReport) := []

/-- Workers around a board, and a place for the report of each task. -/
structure Pool where
  board : Board
  workers : List Worker
  results : List (Option TaskReport)

/-- What a worker does next. -/
inductive Move (part : Partition) (deadline : Option Instant) :
    Board → Worker → Board → Worker → Prop
  | take {board : Board} {task : Nat} {rest : List Nat} (h : board.tasks = task :: rest) :
      Move part deadline board .idle { board with tasks := rest } (.searching task [])
  | check {board : Board} {task : Nat} {found : List (Option Interruption)} {seen : Bool}
      (now : Instant) (hseen : seen = true → board.stop = true) :
      Move part deadline board (.searching task found) board
        (.searching task (found ++ [Partition.watch seen
          (fun _ => deadline.any fun last => decide (last ≤ now)) found.length]))
  | finish {board : Board} {task : Nat} {found : List (Option Interruption)} {report : TaskReport}
      (h : part.Decides task found report) :
      Move part deadline board (.searching task found) board
        (.absorbing task report (additionsOf report))
  | add {board : Board} {task : Nat} {report : TaskReport} {addition : SharedCount × UInt64}
      {rest : List (SharedCount × UInt64)} :
      Move part deadline board (.absorbing task report (addition :: rest))
        { board with tally := board.tally.bump addition } (.absorbing task report rest)
  | raise {board : Board} {task : Nat} {report : TaskReport} :
      Move part deadline board (.absorbing task report [])
        { board with stop := board.stop || report.stopsOthers } (.sending task report)
  | send {board : Board} {task : Nat} {report : TaskReport} :
      Move part deadline board (.sending task report)
        { board with sent := board.sent ++ [(task, report)] } .idle

namespace Worker

def search? : Worker → Option (Nat × List (Option Interruption))
  | searching task found => some (task, found)
  | _ => none

def report? : Worker → Option (Nat × TaskReport)
  | absorbing task report _ => some (task, report)
  | sending task report => some (task, report)
  | _ => none

/-- The additions still to be made. -/
def pending : Worker → List (SharedCount × UInt64)
  | absorbing _ _ additions => additions
  | _ => []

end Worker

namespace Pool

variable {part : Partition} {deadline : Option Instant} {pool pool' : Pool} {board board' : Board}
  {w w' : Worker} {others : List Worker} {results : List (Option TaskReport)} {task : Nat}
  {report : TaskReport} {found : List (Option Interruption)} {stop stop' : Bool}

/-- One step: of a worker, or a report is received. -/
inductive Step (part : Partition) (deadline : Option Instant) : Pool → Pool → Prop
  | work {pool : Pool} {before after : List Worker} {w w' : Worker} {board : Board}
      (hworkers : pool.workers = before ++ w :: after)
      (hmove : Move part deadline pool.board w board w') :
      Step part deadline pool { pool with board, workers := before ++ w' :: after }
  | receive {pool : Pool} {task : Nat} {report : TaskReport} {rest : List (Nat × TaskReport)}
      (h : pool.board.sent = (task, report) :: rest) :
      Step part deadline pool
        { pool with board.sent := rest, results := pool.results.set task (some report) }

/-- All tasks wait, and so do the workers. -/
def start (part : Partition) (workers : Nat) : Pool where
  board := { tasks := List.range part.taskCount }
  workers := List.replicate workers .idle
  results := List.replicate part.taskCount none

def Reached (part : Partition) (deadline : Option Instant) (workers : Nat) (pool : Pool) : Prop :=
  ReflTransGen (Step part deadline) (start part workers) pool

/-- No task waits, no worker has one and no report is on its way. -/
def Finished (pool : Pool) : Prop :=
  pool.board.tasks = [] ∧ pool.board.sent = [] ∧ ∀ w ∈ pool.workers, w = .idle

/-! ### Where things are -/

def searches (pool : Pool) : List (Nat × List (Option Interruption)) :=
  pool.workers.filterMap Worker.search?

def placed (results : List (Option TaskReport)) : List (Nat × TaskReport) :=
  results.zipIdx.filterMap fun (report?, task) => report?.map (task, ·)

def reports (pool : Pool) : List (Nat × TaskReport) :=
  pool.workers.filterMap Worker.report? ++ pool.board.sent ++ placed pool.results

/-- The additions of tasks that have ended which are still to be made. -/
def pending (pool : Pool) : List (SharedCount × UInt64) := pool.workers.flatMap Worker.pending

theorem mem_placed : (task, report) ∈ placed results ↔ results[task]? = some (some report) := by
  simp only [placed, List.mem_filterMap, Prod.exists, List.mem_zipIdx_iff_getElem?,
    Option.map_eq_some_iff, Prod.mk.injEq]
  constructor
  · rintro ⟨_, _, h, _, rfl, rfl, rfl⟩
    exact h
  · exact fun h => ⟨_, _, h, report, rfl, rfl, rfl⟩

theorem placed_replicate (n : Nat) : placed (List.replicate n none) = [] := by
  refine List.eq_nil_iff_forall_not_mem.2 fun (task, report) h => ?_
  rw [mem_placed, List.getElem?_replicate] at h
  split at h <;> simp at h

theorem placed_set (h : results[task]? = some none) :
    (placed (results.set task (some report))).Perm ((task, report) :: placed results) := by
  suffices ∀ start, (((results.set task (some report)).zipIdx start).filterMap
      fun (report?, task) => report?.map (task, ·)).Perm
        ((start + task, report) :: (results.zipIdx start).filterMap
          fun (report?, task) => report?.map (task, ·)) by
    simpa [placed] using this 0
  induction results generalizing task with
  | nil => simp at h
  | cons report? results ih =>
    intro start
    cases task with
    | zero =>
      obtain rfl : report? = none := by simpa using h
      simp
    | succ task =>
      have hrest := ih (by simpa using h) (start + 1)
      rw [show start + 1 + task = start + (task + 1) by omega] at hrest
      cases report? with
      | none => simpa using hrest
      | some other =>
        simp only [List.set_cons_succ, List.zipIdx_cons, List.filterMap_cons, Option.map_some]
        exact (hrest.cons _).trans (.swap ..)

/-! ### The invariant -/

/-- What checks have found they had a reason for. -/
def Owed (deadline : Option Instant) (stop : Bool) (found : List (Option Interruption)) : Prop :=
  (some .stopped ∈ found → stop = true) ∧ (some .timeLimit ∈ found → deadline.isSome = true)

/-- What holds of every pool reached. -/
structure Accounted (part : Partition) (deadline : Option Instant) (pool : Pool) : Prop where
  /-- Each task waits, is searched or has a report. -/
  numbers : (pool.board.tasks ++ pool.searches.map Prod.fst ++ pool.reports.map Prod.fst).Perm
    (List.range part.taskCount)
  places : pool.results.length = part.taskCount
  owed : ∀ search ∈ pool.searches, Owed deadline pool.board.stop search.2
  decided : ∀ ended ∈ pool.reports, ∃ found, Owed deadline pool.board.stop found ∧
    part.Decides ended.1 found ended.2
  raised : pool.board.stop = true → ∃ ended ∈ pool.reports, ended.2.stopsOthers = true
  added : ∃ made : List (SharedCount × UInt64), pool.board.tally = made.foldl bump {} ∧
    (made ++ pool.pending).Perm (pool.reports.flatMap fun ended => additionsOf ended.2)

theorem accounted_start (part : Partition) (deadline : Option Instant) (workers : Nat) :
    Accounted part deadline (start part workers) := by
  have hsearches : (start part workers).searches = [] := by simp [searches, start, Worker.search?]
  have hreports : (start part workers).reports = [] := by
    simp [reports, start, Worker.report?, placed_replicate]
  have hpending : (start part workers).pending = [] := by simp [pending, start, Worker.pending]
  refine ⟨?_, List.length_replicate, ?_, ?_, fun h => absurd h (by simp [start]), [], rfl, ?_⟩
  · rw [hsearches, hreports]
    simp [start]
  · simp [hsearches]
  · simp [hreports]
  · simp [hreports, hpending]

theorem Accounted.of_perm (h : Accounted part deadline pool)
    (hboard : pool'.board.tasks = pool.board.tasks ∧ pool'.board.stop = pool.board.stop ∧
      pool'.board.tally = pool.board.tally)
    (hplaces : pool'.results.length = pool.results.length)
    (hsearches : pool'.searches.Perm pool.searches) (hreports : pool'.reports.Perm pool.reports)
    (hpending : pool'.pending.Perm pool.pending) : Accounted part deadline pool' := by
  obtain ⟨htasks, hstop, htally⟩ := hboard
  obtain ⟨made, hmade, hperm⟩ := h.added
  refine ⟨?_, hplaces.trans h.places, ?_, ?_, ?_, made, htally.trans hmade, ?_⟩
  · rw [htasks]
    exact (((hsearches.map _).append_left _).append (hreports.map _)).trans h.numbers
  · intro search hsearch
    rw [hstop]
    exact h.owed search (hsearches.mem_iff.1 hsearch)
  · intro ended hended
    rw [hstop]
    exact h.decided ended (hreports.mem_iff.1 hended)
  · intro hraised
    obtain ⟨ended, hended, hstops⟩ := h.raised (hstop ▸ hraised)
    exact ⟨ended, hreports.mem_iff.2 hended, hstops⟩
  · exact ((hpending.append_left _).trans hperm).trans (hreports.symm.flatMap_right _)

theorem Accounted.of_workers (h : Accounted part deadline ⟨board, others, results⟩)
    {workers : List Worker} (hperm : workers.Perm others) :
    Accounted part deadline ⟨board, workers, results⟩ :=
  h.of_perm ⟨rfl, rfl, rfl⟩ rfl (hperm.filterMap _)
    (((hperm.filterMap _).append_right _).append_right _) (hperm.flatMap_right _)

theorem Owed.raised (h : Owed deadline stop found) (hstop : stop = true → stop' = true) :
    Owed deadline stop' found := ⟨fun hmem => hstop (h.1 hmem), h.2⟩

theorem Owed.check (h : Owed deadline stop found) {seen : Bool} {now : Instant} {check : Nat}
    (hseen : seen = true → stop = true) :
    Owed deadline stop (found ++ [Partition.watch seen
      (fun _ => deadline.any fun last => decide (last ≤ now)) check]) := by
  constructor
  · intro hmem
    rcases List.mem_append.1 hmem with hmem | hmem
    · exact h.1 hmem
    · refine hseen (by_contra fun hlowered => ?_)
      rw [List.mem_singleton, Partition.watch, if_neg hlowered] at hmem
      split at hmem <;> simp at hmem
  · intro hmem
    rcases List.mem_append.1 hmem with hmem | hmem
    · exact h.2 hmem
    · cases deadline with
      | some last => rfl
      | none =>
        rw [List.mem_singleton, Partition.watch] at hmem
        split at hmem <;> simp at hmem

/-- What a worker does keeps the account. -/
theorem Accounted.move (h : Accounted part deadline ⟨board, w :: others, results⟩)
    (hmove : Move part deadline board w board' w') :
    Accounted part deadline ⟨board', w' :: others, results⟩ := by
  obtain ⟨htasks, hplaces, hsearches, hreports, hstop, made, hmade, hperm⟩ := id h
  obtain ⟨tasks, stop, tally, sent⟩ := board
  cases hmove with
  | take hrest =>
    cases hrest
    exact ⟨.trans (List.perm_middle.append_right _) htasks, hplaces,
      List.forall_mem_cons.2 ⟨⟨by simp, by simp⟩, hsearches⟩, hreports, hstop, made, hmade, hperm⟩
  | check now hseen =>
    obtain ⟨hfound, hsearches⟩ := List.forall_mem_cons.1 hsearches
    exact ⟨htasks, hplaces, List.forall_mem_cons.2 ⟨hfound.check hseen, hsearches⟩, hreports, hstop,
      made, hmade, hperm⟩
  | finish hdecides =>
    obtain ⟨hfound, hsearches⟩ := List.forall_mem_cons.1 hsearches
    refine ⟨?_, hplaces, hsearches, List.forall_mem_cons.2 ⟨⟨_, hfound, hdecides⟩, hreports⟩, ?_,
      made, hmade, .trans (List.perm_append_comm_assoc ..) (hperm.append_left _)⟩
    · exact (List.perm_middle.trans (List.perm_middle.append_right _).symm).trans htasks
    · intro hraised
      obtain ⟨ended, hended, hstops⟩ := hstop hraised
      exact ⟨ended, List.mem_cons_of_mem _ hended, hstops⟩
  | @add _ _ addition =>
    refine ⟨htasks, hplaces, hsearches, hreports, hstop, made ++ [addition], ?_, ?_⟩
    · rw [List.foldl_append, ← hmade]
      rfl
    · rw [List.append_assoc]
      exact hperm
  | @raise task report =>
    have hraise : stop = true → (stop || report.stopsOthers) = true := fun hset => by rw [hset]; rfl
    refine ⟨htasks, hplaces, fun search hsearch => (hsearches search hsearch).raised hraise, ?_, ?_,
      made, hmade, hperm⟩
    · intro ended hended
      obtain ⟨found, hfound, hdecides⟩ := hreports ended hended
      exact ⟨found, hfound.raised hraise, hdecides⟩
    · intro hraised
      rcases Bool.or_eq_true_iff.1 hraised with hset | hstops
      · exact hstop hset
      · exact ⟨(task, report), List.mem_cons_self, hstops⟩
  | send =>
    refine h.of_perm ⟨rfl, rfl, rfl⟩ rfl (.refl _) (.append_right _ ?_) (.refl _)
    rw [← List.append_assoc]
    exact List.perm_append_singleton ..

/-- No report is lost for lack of a place or takes that of another. -/
theorem Accounted.place_empty (h : Accounted part deadline pool)
    (hsent : (task, report) ∈ pool.board.sent) : pool.results[task]? = some none := by
  have hnodup : (pool.reports.map Prod.fst).Nodup :=
    (h.numbers.nodup_iff.2 List.nodup_range).of_append_right
  have hmem : task ∈ (pool.workers.filterMap Worker.report? ++ pool.board.sent).map Prod.fst :=
    List.mem_map_of_mem (List.mem_append_right _ hsent)
  rw [reports, List.map_append] at hnodup
  have hlt : task < pool.results.length := by
    rw [h.places, ← List.mem_range, ← h.numbers.mem_iff, reports, List.map_append]
    exact List.mem_append_right _ (List.mem_append_left _ hmem)
  rw [List.getElem?_eq_getElem hlt]
  cases hplace : pool.results[task] with
  | none => rfl
  | some other =>
    have hplaced : (task, other) ∈ placed pool.results :=
      mem_placed.2 (by rw [List.getElem?_eq_getElem hlt, hplace])
    exact absurd (List.mem_map_of_mem hplaced) (List.disjoint_of_nodup_append hnodup hmem)

theorem Accounted.receive {rest : List (Nat × TaskReport)} (h : Accounted part deadline pool)
    (hsent : pool.board.sent = (task, report) :: rest) :
    Accounted part deadline
      { pool with board.sent := rest, results := pool.results.set task (some report) } := by
  have hempty : pool.results[task]? = some none := h.place_empty (hsent ▸ List.mem_cons_self)
  refine h.of_perm ⟨rfl, rfl, rfl⟩ List.length_set (.refl _) ?_ (.refl _)
  show (_ ++ rest ++ placed (pool.results.set task (some report))).Perm (_ ++ pool.board.sent ++ _)
  rw [hsent]
  exact (((placed_set hempty).append_left _).trans List.perm_middle).trans
    (List.perm_middle.symm.append_right _)

/-- What holds at the start holds of every pool reached. -/
theorem Accounted.step (h : Accounted part deadline pool) (hstep : Step part deadline pool pool') :
    Accounted part deadline pool' := by
  cases hstep with
  | @work _ _ _ _ board hworkers hmove =>
    obtain ⟨start, workers, results⟩ := pool
    cases hworkers
    exact ((h.of_workers List.perm_middle.symm).move hmove).of_workers List.perm_middle
  | receive hsent => exact h.receive hsent

theorem Reached.accounted {workers : Nat} (h : Reached part deadline workers pool) :
    Accounted part deadline pool := by
  induction h with
  | refl => exact accounted_start part deadline workers
  | tail _ hstep ih => exact ih.step hstep

/-! ### Finished pools -/

theorem Finished.reports_eq (h : pool.Finished) :
    pool.searches = [] ∧ pool.pending = [] ∧ pool.reports = placed pool.results := by
  obtain ⟨-, hsent, hidle⟩ := h
  refine ⟨?_, ?_, ?_⟩
  · exact List.filterMap_eq_nil_iff.2 fun w hw => by rw [hidle w hw]; rfl
  · exact List.flatMap_eq_nil_iff.2 fun w hw => by rw [hidle w hw]; rfl
  · have hnone : pool.workers.filterMap Worker.report? = [] :=
      List.filterMap_eq_nil_iff.2 fun w hw => by rw [hidle w hw]; rfl
    rw [reports, hnone, hsent]
    rfl

/-- Every place is filled where the reports in their places are those of all tasks. -/
theorem exists_of_placed_perm {n : Nat} (hlength : results.length = n)
    (h : ((placed results).map Prod.fst).Perm (List.range n)) :
    ∃ reports : Nat → TaskReport, results = (List.range n).map (fun task => some (reports task)) ∧
      (placed results).Perm ((List.range n).map fun task => (task, reports task)) := by
  have hplace : ∀ task < n, ∃ report, results[task]? = some (some report) := by
    intro task htask
    obtain ⟨⟨_, report⟩, hplaced, rfl⟩ := List.mem_map.1 (h.mem_iff.2 (List.mem_range.2 htask))
    exact ⟨report, mem_placed.1 hplaced⟩
  have : Nonempty TaskReport := ⟨{ ending := .ok (.exhausted, {}) }⟩
  choose! reports hresult using hplace
  refine ⟨reports, List.ext_getElem? fun task => ?_, ?_⟩
  · by_cases htask : task < n
    · simp [hresult task htask, htask]
    · simp [List.getElem?_eq_none (by omega : results.length ≤ task), htask]
  · have hnodup := h.nodup_iff.2 List.nodup_range
    refine (List.perm_ext_iff_of_nodup hnodup.of_map
      (List.Nodup.of_map Prod.fst (by simpa [Function.comp_def] using List.nodup_range))).2 ?_
    intro (task, report)
    rw [mem_placed]
    simp only [List.mem_map, List.mem_range, Prod.mk.injEq]
    constructor
    · intro hreport
      have htask : task < n := by
        by_contra hnot
        simp [List.getElem?_eq_none (by omega : results.length ≤ task)] at hreport
      rw [hresult task htask] at hreport
      exact ⟨task, htask, rfl, by simpa using hreport⟩
    · rintro ⟨_, htask, rfl, rfl⟩
      exact hresult _ htask

/-- A finished pool has the report of each task in the place of the task. -/
theorem Accounted.delivered (h : Accounted part deadline pool) (hfinished : pool.Finished) :
    ∃ watches reports, part.Follows deadline watches reports ∧
      pool.results = ((List.range part.taskCount).map reports).map some ∧
      pool.board.tally = Partition.sharedTally ((List.range part.taskCount).map reports) := by
  obtain ⟨hsearches, hpending, hended⟩ := hfinished.reports_eq
  have hnumbers : ((placed pool.results).map Prod.fst).Perm (List.range part.taskCount) := by
    have := h.numbers
    rwa [hfinished.1, hsearches, hended] at this
  obtain ⟨reports, hresults, hplaced⟩ := exists_of_placed_perm h.places hnumbers
  have hreports : pool.reports.Perm ((List.range part.taskCount).map fun task => (task, reports task)) :=
    hended ▸ hplaced
  choose! found howed hdecides using fun task (htask : task < part.taskCount) =>
    h.decided (task, reports task)
      (hreports.mem_iff.2 (List.mem_map_of_mem (List.mem_range.2 htask)))
  have hfound : ∀ task check reason, ((found task)[check]?).join = some reason →
      some reason ∈ found task := fun task check reason hreason =>
    List.mem_of_getElem? (Option.join_eq_some_iff.1 hreason)
  refine ⟨fun task check => ((found task)[check]?).join, reports, ⟨?_, ?_, ?_⟩,
    hresults.trans List.map_map.symm, ?_⟩
  · exact fun task htask => hdecides task htask _ fun check hcheck => by
      rw [List.getElem?_eq_getElem hcheck, Option.join_some]
  · intro task htask check hstop
    obtain ⟨ended, hmem, hstops⟩ := h.raised ((howed task htask).1 (hfound task check _ hstop))
    obtain ⟨other, hother, rfl⟩ := List.mem_map.1 (hreports.mem_iff.1 hmem)
    exact ⟨other, List.mem_range.1 hother, hstops⟩
  · exact fun task htask check hlimit => (howed task htask).2 (hfound task check _ hlimit)
  · obtain ⟨made, hmade, hperm⟩ := h.added
    rw [hpending, List.append_nil] at hperm
    rw [hmade, sharedTally_eq_foldl_bump]
    refine foldl_bump_of_perm (hperm.trans ((hreports.flatMap_right _).trans ?_)) _
    rw [List.flatMap_map, List.flatMap_map]

end Pool

end ClauseSearch
