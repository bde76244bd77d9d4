import ClauseSearch.Proofs.Exhaustive
import ClauseSearch.Proofs.Recursion

/-! Laws of the counts. At any time a search has taken no more ranks from the queue than have joined it, by a
decision or by a unit clause, and has met each conflict at a depth that the variables bound. A search that is
exhausted has gone through a full binary tree: each node but the leaves has two below it, and a leaf is a
conflict or a solved node. Root, tasks and the shared tally add these counts up, so the laws carry over to the
outcome of a solve. -/

namespace ClauseSearch

/-- What holds of the counts of every search, with so many variables. -/
structure Tally.Lawful (variableCount : Nat) (t : Tally) : Prop where
  iterations : t.iterations ≤ t.unitPropagations + t.decisions
  depths : t.conflictDepths ≤ t.conflicts * variableCount

/-- One leaf is counted, no node of a tree and no task. -/
structure Tally.CountsLeaf (t : Tally) : Prop where
  searches : t.searches = 0
  decisions : t.decisions = 0
  partitions : t.partitions = 0
  leaves : t.conflicts + t.solvedSubtrees = 1

/-- From one tally to another so many full binary trees were searched. In each a node is the root or has been
decided on, and the leaves are one more than half of the other nodes. -/
structure Tally.Trees (trees : Nat) (before after : Tally) : Prop where
  searches : after.searches + before.decisions = before.searches + after.decisions + trees
  leaves : 2 * (after.conflicts + after.solvedSubtrees) + before.searches =
    2 * (before.conflicts + before.solvedSubtrees) + after.searches + trees

namespace Search

variable {p : Prepared} {o : Options} {watch : Watch} {s t u v : Search} {rank depth clause : Nat} {b : Bool}
  {decided conflict : Option Nat} {ending : Ending}

/-! ### The counts of a propagation -/

/-- A propagation leaves nothing waiting, and takes no more ranks than waited and have joined. -/
def Empties (s t : Search) : Prop :=
  t.queue.items = [] ∧ ∃ taken pushed, s.Counts t taken pushed ∧ taken ≤ pushed + s.queue.size

theorem empties_of_propagate (h : propagate p s = .ok (t, conflict)) : s.Empties t := by
  obtain ⟨taken, pushed, hdrains⟩ := drains_of_propagate h
  obtain ⟨hempty, -, -, hpaid, hcounts⟩ := hdrains.drained
  refine ⟨hempty, _, _, hcounts, ?_⟩
  have hle := hpaid.length_le
  rwa [List.length_append] at hle

theorem empties_of_propagateAll (h : propagateAll p s = .ok (t, conflict)) : s.Empties t := by
  unfold propagateAll at h
  split at h
  · exact absurd h (by simp)
  · rename_i hvisited
    obtain ⟨rfl, -⟩ := Prod.mk.inj (Except.ok.inj h)
    obtain ⟨pushed, hpushed⟩ := pushes_visitAll hvisited
    exact ⟨rfl, 0, pushed.length, hpushed.counts, Nat.zero_le _⟩
  · rename_i hvisited
    obtain ⟨pushed, hpushed⟩ := pushes_visitAll hvisited
    obtain ⟨hempty, taken, more, hcounts, hle⟩ := empties_of_propagate h
    refine ⟨hempty, _, _, hpushed.counts.trans hcounts, ?_⟩
    rw [BoundedStack.size, hpushed.queue, List.length_append] at hle
    rw [BoundedStack.size]
    omega

theorem empties_of_propagated (h : propagated p decided s = .ok (t, conflict)) : s.countNode.Empties t := by
  cases decided with
  | none => exact empties_of_propagateAll h
  | some r => exact empties_of_propagate h

/-! ### What holds of every search -/

/-- What holds of a search at any time; where models are kept, there is one for each solved node. -/
structure Balanced (p : Prepared) (o : Options) (s : Search) : Prop where
  iterations : s.tally.iterations + s.queue.size ≤ s.tally.unitPropagations + s.tally.decisions
  depths : s.tally.conflictDepths ≤ s.tally.conflicts * p.variableCount
  cubes : o.enumerate = true → o.keepModels = true →
    s.solutions.cubes.size = s.tally.solvedSubtrees

theorem Balanced.lawful (h : s.Balanced p o) : s.tally.Lawful p.variableCount where
  iterations := Nat.le_of_add_right_le h.iterations
  depths := h.depths

theorem balanced_start (htally : s.tally = {}) (hqueue : s.queue.items = []) (hsolutions : s.solutions = {}) :
    s.Balanced p o where
  iterations := by simp [htally, BoundedStack.size, hqueue]
  depths := by simp [htally]
  cubes _ _ := by simp [htally, hsolutions]

theorem Balanced.empties (h : s.Balanced p o) (ht : s.Empties t) (hsolutions : t.solutions = s.solutions) :
    t.Balanced p o := by
  obtain ⟨hempty, taken, pushed, ⟨tests, htally⟩, hle⟩ := ht
  have hiterations := h.iterations
  refine ⟨?_, ?_, ?_⟩
  · rw [BoundedStack.size, hempty, htally, List.length_nil]
    dsimp only
    omega
  · rw [htally]
    exact h.depths
  · rw [htally, hsolutions]
    exact h.cubes

theorem Balanced.countConflict (h : s.Balanced p o) (hdepth : depth ≤ p.variableCount) :
    (s.countConflict depth).Balanced p o where
  iterations := h.iterations
  depths := by
    simp only [Search.countConflict, Nat.succ_mul]
    exact Nat.add_le_add h.depths hdepth
  cubes := h.cubes

theorem Balanced.solved (h : s.Balanced p o) (w : Valuation) :
    Balanced p o { s.countSolved with solutions := record p o s.solutions w } where
  iterations := h.iterations
  depths := h.depths
  cubes he hk := by
    simp only [record, he, hk, Bool.and_self, if_true, Array.size_push, countSolved, h.cubes he hk]

theorem Balanced.entered (h : s.Balanced p o) : (s.entered rank b).Balanced p o where
  iterations := by
    have := h.iterations
    simp only [Search.entered, Search.valued, BoundedStack.pushed, BoundedStack.size,
      List.length_cons] at this ⊢
    omega
  depths := h.depths
  cubes := h.cubes

/-- What was undone has been counted, and nothing waits. -/
theorem Balanced.carrying (h : t.Balanced p o) (hqueue : s.queue.items = []) :
    (s.carrying t).Balanced p o where
  iterations := by
    have := h.iterations
    simp only [Search.carrying, BoundedStack.size, hqueue, List.length_nil] at this ⊢
    omega
  depths := h.depths
  cubes := h.cubes

theorem Balanced.propagated (h : s.Balanced p o) (hp : p.Proper) (hs : s.Sound p)
    (ht : propagated p decided s = .ok (t, conflict)) : t.Balanced p o := by
  obtain ⟨-, hadvance⟩ := advance_of_propagated hp hs ht
  have hcounted : s.countNode.Balanced p o := { h with }
  exact hcounted.empties (empties_of_propagated ht) hadvance.derived.solutions

theorem Decides.balanced (h : Decides p o watch depth decided s rank t) (hp : p.Proper) (hs : s.Sound p)
    (hbalanced : s.Balanced p o) : t.Balanced p o := by
  obtain ⟨u, trace, hpropagated, -, -, -, rfl⟩ := h.exists_propagated hp hs
  exact { hbalanced.propagated hp hs hpropagated with }

theorem recordSolution_of_propagated (hp : p.Proper) (hs : s.Sound p)
    (ht : propagated p decided s = .ok (t, conflict)) (hu : t.countSolved.recordSolution p o = .ok u) :
    u = { t.countSolved with solutions := record p o t.solutions t.valuation } := by
  have hsound := (advance_of_propagated hp hs ht).2.sound
  rw [recordSolution_eq_ok hp (s := t.countSolved) { hsound.toCoherent with }, Except.ok.injEq] at hu
  exact hu.symm

/-- What holds before a decision holds when it is undone, if the search below the decision keeps it. -/
theorem Poised.balanced (h : Poised p s rank) (hp : p.Proper) (hbalanced : s.Balanced p o)
    (hdepth : depth + s.valuation.unvalued.length ≤ p.variableCount) (ht : s.enter rank b = .ok t)
    (hu : Explores p o watch (depth + 1) (some rank) t ending u) (hv : u.backtrack = .ok v)
    (hkeeps : t.Sound p → t.Balanced p o →
      depth + 1 + t.valuation.unvalued.length ≤ p.variableCount → u.Balanced p o) :
    v = s.carrying u ∧ v.Balanced p o := by
  obtain ⟨hsound, hfewer⟩ := h.enter ht
  have hentered : t.Balanced p o := by
    rw [h.eq_entered ht]
    exact hbalanced.entered
  have hkept := hkeeps hsound hentered (by omega)
  obtain rfl := h.undone hp ht hu hv
  exact ⟨rfl, hkept.carrying h.queue⟩

/-- A search keeps what holds of it at any time, however it ends. -/
theorem Explores.balanced (h : Explores p o watch depth decided s ending t) (hp : p.Proper) (hs : s.Sound p)
    (hbalanced : s.Balanced p o) (hdepth : depth + s.valuation.unvalued.length ≤ p.variableCount) :
    t.Balanced p o := by
  induction h with
  | conflict h => exact (hbalanced.propagated hp hs h).countConflict (Nat.le_of_add_right_le hdepth)
  | leaf h _ hu =>
    rw [recordSolution_of_propagated hp hs h hu]
    exact (hbalanced.propagated hp hs h).solved _
  | interrupted h => exact hbalanced.propagated hp hs h
  | stuck h => exact hbalanced.propagated hp hs h
  | first hdecides hu hv _ hw ih =>
    obtain ⟨hpoised, hle⟩ := hdecides.poised hp hs
    exact (hpoised.balanced hp (hdecides.balanced hp hs hbalanced) (by omega) hu hv hw ih).2
  | both hdecides hu hv hw hu' hv' hw' ih ih' =>
    obtain ⟨hpoised, hle⟩ := hdecides.poised hp hs
    obtain ⟨rfl, hfirst⟩ :=
      hpoised.balanced hp (hdecides.balanced hp hs hbalanced) (by omega) hu hv hw ih
    have hless : _ + (Search.carrying _ _).valuation.unvalued.length ≤ p.variableCount :=
      Nat.le_trans (Nat.add_le_add_left hle _) hdepth
    exact ((hpoised.carrying _).balanced hp hfirst hless hu' hv' hw' ih').2

/-! ### Full binary trees -/

/-- One node is counted, and nothing that may follow from it. -/
structure CountsNode (s t : Search) : Prop where
  searches : t.tally.searches = s.tally.searches + 1
  decisions : t.tally.decisions = s.tally.decisions
  conflicts : t.tally.conflicts = s.tally.conflicts
  solvedSubtrees : t.tally.solvedSubtrees = s.tally.solvedSubtrees

theorem countsNode_of_propagated (h : propagated p decided s = .ok (t, conflict)) : s.CountsNode t := by
  obtain ⟨-, _, _, ⟨_, htally⟩, -⟩ := empties_of_propagated h
  constructor <;>
  · rw [htally]
    rfl

theorem Decides.countsNode (h : Decides p o watch depth decided s rank t) (hp : p.Proper)
    (hs : s.Sound p) : s.CountsNode t := by
  obtain ⟨u, trace, hpropagated, -, -, -, rfl⟩ := h.exists_propagated hp hs
  exact { countsNode_of_propagated hpropagated with }

/-- A decision stands for the root of the tree below it, so an exhausted attempt adds one leaf more than
half of its nodes. -/
theorem Poised.trees (h : Poised p s rank) (hp : p.Proper) (ht : s.enter rank b = .ok t)
    (hu : Explores p o watch depth (some rank) t ending u) (hv : u.backtrack = .ok v)
    (htree : t.Sound p → Tally.Trees 1 t.tally u.tally) :
    v = s.carrying u ∧
      v.tally.searches + s.tally.decisions = s.tally.searches + v.tally.decisions ∧
      2 * (v.tally.conflicts + v.tally.solvedSubtrees) + s.tally.searches =
        2 * (s.tally.conflicts + s.tally.solvedSubtrees) + v.tally.searches + 1 := by
  obtain ⟨hsearches, hleaves⟩ := htree (h.enter ht).1
  obtain rfl := h.undone hp ht hu hv
  rw [h.eq_entered ht] at hsearches hleaves
  have hsearches' : u.tally.searches + (s.tally.decisions + 1) =
      s.tally.searches + u.tally.decisions + 1 := hsearches
  exact ⟨rfl, Nat.succ.inj hsearches', hleaves⟩

/-- A search that is exhausted has gone through one full binary tree. -/
theorem Explores.trees (h : Explores p o watch depth decided s ending t) (hp : p.Proper) (hs : s.Sound p)
    (hends : ending = .ok .exhausted) : Tally.Trees 1 s.tally t.tally := by
  induction h with
  | @conflict depth clause decided s t h =>
    obtain ⟨hsearches, hdecisions, hconflicts, hsolved⟩ := countsNode_of_propagated h
    constructor
    · change t.tally.searches + _ = _ + t.tally.decisions + 1
      omega
    · change 2 * (t.tally.conflicts + 1 + t.tally.solvedSubtrees) + _ = _ + t.tally.searches + 1
      omega
  | @leaf depth decided s t u h _ hu =>
    obtain ⟨hsearches, hdecisions, hconflicts, hsolved⟩ := countsNode_of_propagated h
    rw [recordSolution_of_propagated hp hs h hu]
    constructor
    · change t.tally.searches + _ = _ + t.tally.decisions + 1
      omega
    · change 2 * (t.tally.conflicts + (t.tally.solvedSubtrees + 1)) + _ = _ + t.tally.searches + 1
      omega
  | interrupted => exact absurd hends (by simp)
  | stuck => exact absurd hends (by simp)
  | first _ _ _ hne => exact absurd hends hne
  | both hdecides hu hv hw hu' hv' hw' ih ih' =>
    obtain ⟨hpoised, -⟩ := hdecides.poised hp hs
    obtain ⟨hnodes, hdecisions, hconflicts, hsolved⟩ := hdecides.countsNode hp hs
    obtain ⟨rfl, hsearches, hleaves⟩ := hpoised.trees hp hu hv hw fun hsound => ih hsound rfl
    obtain ⟨-, hsearches', hleaves'⟩ :=
      (hpoised.carrying _).trees hp hu' hv' hw' fun hsound => ih' hsound hends
    constructor <;> omega

/-! ### The root -/

/-- Nothing is counted that has to do with a node of the tree, and no task. -/
structure CountsRoot (s : Search) : Prop where
  searches : s.tally.searches = 0
  decisions : s.tally.decisions = 0
  conflicts : s.tally.conflicts = 0
  solvedSubtrees : s.tally.solvedSubtrees = 0
  partitions : s.tally.partitions = 0

theorem CountsRoot.countConflict (h : s.CountsRoot) : (s.countConflict 0).tally.CountsLeaf where
  searches := h.searches
  decisions := h.decisions
  partitions := h.partitions
  leaves := by simp only [Search.countConflict, h.conflicts, h.solvedSubtrees]

theorem CountsRoot.countSolved (h : s.CountsRoot) : s.countSolved.tally.CountsLeaf where
  searches := h.searches
  decisions := h.decisions
  partitions := h.partitions
  leaves := by simp only [Search.countSolved, h.conflicts, h.solvedSubtrees]

theorem empties_of_atRoot (hp : p.Proper) {settings : Settings}
    (h : Search.atRoot p settings = .ok (s, conflict)) : ∃ v, ((fresh p).holding v).Empties s := by
  have hfresh := (sound_fresh p).toCoherent
  unfold Search.atRoot at h
  split at h
  · obtain ⟨u, hassume, h⟩ := Fault.bind_eq_ok.1 h
    obtain ⟨v, rfl, -, -⟩ := exists_holding_of_assumePure hp hfresh hassume
    exact ⟨v, empties_of_propagateAll h⟩
  · refine ⟨(fresh p).valuation, ?_⟩
    rw [hfresh.holding_self]
    exact empties_of_propagateAll h

theorem counts_of_atRoot (hp : p.Proper) {settings : Settings} (o : Options)
    (h : Search.atRoot p settings = .ok (s, conflict)) (hsolutions : s.solutions = {}) :
    s.Balanced p o ∧ s.CountsRoot := by
  obtain ⟨v, hempties⟩ := empties_of_atRoot hp h
  have hfresh : ((fresh p).holding v).Balanced p o := balanced_start rfl rfl rfl
  refine ⟨hfresh.empties hempties hsolutions, ?_⟩
  obtain ⟨-, _, _, ⟨_, htally⟩, -⟩ := hempties
  constructor <;>
  · rw [htally]
    rfl

end Search

open Search SharedTally

variable {p : Prepared} {part : Partition} {settings : Settings} {watch : Watch} {report : TaskReport}
  {task n : Nat} {a b : Tally} {ended : List TaskReport} {outcome : Outcome} {found : Solutions}
  {start : Instant} {workers : Nat}

/-! ### Sums -/

theorem Tally.Lawful.add (h : a.Lawful n) (h' : b.Lawful n) : (a + b).Lawful n where
  iterations := by
    have := h.iterations
    have := h'.iterations
    change a.iterations + b.iterations ≤ a.unitPropagations + b.unitPropagations + (a.decisions + b.decisions)
    omega
  depths := by
    change a.conflictDepths + b.conflictDepths ≤ (a.conflicts + b.conflicts) * n
    rw [Nat.add_mul]
    exact Nat.add_le_add h.depths h'.depths

theorem Tally.lawful_pureVariables (k : Nat) : ({ pureVariables := k } : Tally).Lawful n :=
  ⟨Nat.le_refl _, Nat.zero_le _⟩

theorem Tally.CountsLeaf.add_pureVariables (h : a.CountsLeaf) (k : Nat) :
    (({ pureVariables := k } : Tally) + a).CountsLeaf where
  searches := (Nat.zero_add _).trans h.searches
  decisions := (Nat.zero_add _).trans h.decisions
  partitions := (Nat.zero_add _).trans h.partitions
  leaves := by
    change 0 + a.conflicts + (0 + a.solvedSubtrees) = 1
    rw [Nat.zero_add, Nat.zero_add, h.leaves]

theorem Tally.Trees.add {m : Nat} (h : Tally.Trees n {} a) (h' : Tally.Trees m {} b) :
    Tally.Trees (n + m) {} (a + b) := by
  obtain ⟨hsearches, hleaves⟩ := h
  obtain ⟨hsearches', hleaves'⟩ := h'
  dsimp only at hsearches hleaves hsearches' hleaves'
  constructor
  · change a.searches + b.searches + 0 = 0 + (a.decisions + b.decisions) + (n + m)
    omega
  · change 2 * (a.conflicts + b.conflicts + (a.solvedSubtrees + b.solvedSubtrees)) + 0 =
      2 * (0 + 0) + (a.searches + b.searches) + (n + m)
    omega

theorem lawful_total (h : ∀ report ∈ ended, report.tally.Lawful n) : (total ended).Lawful n := by
  induction ended with
  | nil => exact ⟨Nat.le_refl _, Nat.zero_le _⟩
  | cons report ended ih =>
    obtain ⟨hreport, hrest⟩ := List.forall_mem_cons.1 h
    exact hreport.add (ih hrest)

theorem trees_total (h : ∀ report ∈ ended, Tally.Trees 1 {} report.tally) :
    Tally.Trees ended.length {} (total ended) := by
  induction ended with
  | nil => exact ⟨rfl, rfl⟩
  | cons report ended ih =>
    obtain ⟨hreport, hrest⟩ := List.forall_mem_cons.1 h
    rw [List.length_cons, Nat.add_comm]
    exact hreport.add (ih hrest)

theorem size_cubes_solutions
    (h : ∀ report ∈ ended, report.solutions.cubes.size = report.tally.solvedSubtrees) :
    (Partition.solutions ended).cubes.size = (total ended).solvedSubtrees := by
  suffices ∀ found : Solutions,
      (ended.foldl (fun found report => found.absorb report.solutions) found).cubes.size =
        found.cubes.size + (total ended).solvedSubtrees from
    (this {}).trans (Nat.zero_add _)
  intro found
  induction ended generalizing found with
  | nil => rfl
  | cons report ended ih =>
    obtain ⟨hreport, hrest⟩ := List.forall_mem_cons.1 h
    rw [List.foldl_cons, ih hrest, Solutions.absorb, Array.size_append, hreport, Nat.add_assoc]
    rfl

/-! ### Tasks -/

namespace Partition

theorem Splits.cases_of_run (h : part.Splits) (hrun : part.run task watch = .ok report) :
    (∃ reason, report = { ending := .error (.interrupted reason) }) ∨
    ∃ v ending t, (part.root.fork.holding v).Sound part.problem ∧
      part.ranks.length + v.unvalued.length ≤ part.problem.variableCount ∧
      Explores part.problem part.options watch part.ranks.length none (part.root.fork.holding v) ending t ∧
      report = { ending := ending.map (·, t.solutions), tally := t.tally, trace := t.trace } := by
  have hroot := h.settled.sound.fork
  unfold run at hrun
  cases hwatch : watch 0 with
  | some reason =>
    simp only [hwatch] at hrun
    exact .inl ⟨reason, (Fault.pure_eq_ok.1 hrun).symm⟩
  | none =>
    obtain ⟨v, hassumed, hsize, hext, hadmits⟩ := h.assumed task
    simp only [hwatch, literals_eq_ok h] at hrun
    obtain ⟨ls, hls, hrun⟩ := Fault.bind_eq_ok.1 hrun
    obtain rfl := Except.ok.inj hls
    rw [hassumed] at hrun
    obtain ⟨_, hassumed', hrun⟩ := Fault.bind_eq_ok.1 hrun
    obtain rfl := Except.ok.inj hassumed'
    obtain ⟨⟨ending, t⟩, hexplore, hrun⟩ := Fault.bind_eq_ok.1 hrun
    refine .inr ⟨v, ending, t, hroot.holding (hsize.trans hroot.slots.symm) hext,
      h.length_ranks_add_le hsize fun a ha => ((hadmits a).1 ha).2,
      explores_of_explore h.proper hexplore, (Fault.pure_eq_ok.1 hrun).symm⟩

theorem Splits.lawful (h : part.Splits) (hrun : part.run task watch = .ok report) :
    report.tally.Lawful part.problem.variableCount := by
  rcases h.cases_of_run hrun with ⟨reason, rfl⟩ | ⟨v, ending, t, hs, hdepth, hexplores, rfl⟩
  · exact ⟨Nat.le_refl _, Nat.zero_le _⟩
  · have hstart : (part.root.fork.holding v).Balanced part.problem part.options :=
      balanced_start rfl rfl rfl
    exact (hexplores.balanced h.proper hs hstart hdepth).lawful

/-- A task that is exhausted has searched one full binary tree, and hands over a cube for each solved node
where cubes are kept. -/
theorem Splits.trees (h : part.Splits) (hrun : part.run task watch = .ok report)
    (hending : report.ending = .ok (.exhausted, found)) :
    Tally.Trees 1 {} report.tally ∧ (part.options.enumerate = true → part.options.keepModels = true →
      report.solutions.cubes.size = report.tally.solvedSubtrees) := by
  rcases h.cases_of_run hrun with ⟨reason, rfl⟩ | ⟨v, ending, t, hs, hdepth, hexplores, rfl⟩
  · simp at hending
  · have hstart : (part.root.fork.holding v).Balanced part.problem part.options :=
      balanced_start rfl rfl rfl
    cases ending with
    | error e => simp [Except.map] at hending
    | ok ended =>
      obtain ⟨rfl, rfl⟩ := Prod.mk.inj (Except.ok.inj hending)
      exact ⟨hexplores.trees h.proper hs rfl, (hexplores.balanced h.proper hs hstart hdepth).cubes⟩

theorem Follows.exhausted {watches : Nat → Watch} {reports : Nat → TaskReport}
    (h : part.Follows none watches reports) (hsplits : part.Splits)
    (hnone : ∀ task < part.taskCount, (reports task).stopsOthers = false) (htask : task < part.taskCount) :
    ∃ found, (reports task).ending = .ok (.exhausted, found) := by
  cases hending : (reports task).ending with
  | ok ended =>
    obtain ⟨end', found⟩ := ended
    cases end' with
    | exhausted => exact ⟨found, rfl⟩
    | satisfiable => simpa [TaskReport.stopsOthers, hending] using hnone task htask
  | error e =>
    obtain ⟨check, reason, hwatch, -⟩ := (h.reported hsplits task htask).2.interrupted hending
    cases reason with
    | timeLimit => exact absurd (h.limited task htask check hwatch) (by simp)
    | stopped =>
      obtain ⟨other, hother, hstops⟩ := h.stopped task htask check hwatch
      simp [hnone other hother] at hstops

end Partition

namespace Prepared

/-! ### Outcomes -/

/-- A search that decides at the root counts one leaf and no node. -/
theorem counts_of_rootResult (hp : p.Proper) (h : p.rootResult settings = .ok (.inl outcome)) :
    outcome.tally.Lawful p.variableCount ∧ outcome.tally.CountsLeaf := by
  obtain ⟨s, conflict, hroot, hrooted, hcases⟩ := rootResult_cases hp settings
  obtain ⟨hbalanced, hcounts⟩ := counts_of_atRoot hp (.ofSettings settings) hroot hrooted.solutions
  simp only [h, Except.ok.injEq, Sum.inl.injEq, reduceCtorEq, and_false, or_false] at hcases
  rcases hcases with ⟨-, rfl⟩ | ⟨-, rfl⟩
  · exact ⟨(Tally.lawful_pureVariables _).add (hbalanced.countConflict (Nat.zero_le _)).lawful,
      hcounts.countConflict.add_pureVariables _⟩
  · exact ⟨(Tally.lawful_pureVariables _).add (hbalanced.solved s.valuation).lawful,
      hcounts.countSolved.add_pureVariables _⟩

theorem counts_of_part (hp : p.Proper) (h : p.rootResult settings = .ok (.inr part)) :
    part.root.tally.Lawful p.variableCount ∧ part.root.CountsRoot := by
  obtain ⟨s, conflict, hroot, hrooted, hcases⟩ := rootResult_cases hp settings
  simp only [h, Except.ok.injEq, Sum.inr.injEq, reduceCtorEq, and_false, false_or] at hcases
  obtain ⟨-, -, rfl⟩ := hcases
  obtain ⟨hbalanced, hcounts⟩ := counts_of_atRoot hp (.ofSettings settings) hroot hrooted.solutions
  exact ⟨hbalanced.lawful, hcounts⟩

section Beyond

variable (hp : p.Proper) (hroot : p.rootResult settings = .ok (.inr part))
  (h : p.Dispatches settings start workers ended (.ok outcome))

include hp hroot h in
theorem Dispatches.lawful : (total ended).Lawful p.variableCount := by
  obtain ⟨_, watches, reports, rfl, -, hsplits, -, hfollows, rfl⟩ := h.exists_follows hp hroot
  refine lawful_total fun report hreport => ?_
  obtain ⟨task, htask, rfl⟩ := List.mem_map.1 hreport
  exact hsplits.lawful (hfollows.run task (List.mem_range.1 htask))

include hp hroot h in
/-- Where no shared count outgrows its word, the outcome has the counts of the root and of the tasks. -/
theorem Dispatches.tally_eq (hfits : ∀ n ∈ (total ended).counts, n ≤ TimedTally.countLimit) :
    outcome.tally = { ({ pureVariables := p.ranking.pureCount } : Tally) + part.root.tally +
      { total ended with pureVariables := 0, partitions := 0 } with partitions := part.taskCount } := by
  obtain ⟨_, rfl⟩ := h.outcome_eq hp hroot
  rw [snapshot_sharedTally hfits]

include hp hroot h in
/-- Where no task stops at a model and there is no time limit, each task has searched one full binary tree. -/
theorem Dispatches.trees (hlimit : settings.limit? = none)
    (hnone : ∀ report ∈ ended, report.stopsOthers = false) :
    Tally.Trees part.taskCount {} (total ended) ∧
      (settings.enumerate = true → settings.keepModels = true →
        outcome.solutions.cubes.size = (total ended).solvedSubtrees) := by
  have hsolutions := h.solutions_eq hp hroot
  obtain ⟨deadline, watches, reports, -, hoptions, hsplits, hdeadline, hfollows, rfl⟩ :=
    h.exists_follows hp hroot
  obtain rfl : none = deadline := by simpa [Settings.deadline, hlimit] using hdeadline
  have hstops : ∀ task < part.taskCount, (reports task).stopsOthers = false := fun task htask =>
    hnone _ (List.mem_map_of_mem (List.mem_range.2 htask))
  have htasks : ∀ report ∈ (List.range part.taskCount).map reports, Tally.Trees 1 {} report.tally ∧
      (part.options.enumerate = true → part.options.keepModels = true →
        report.solutions.cubes.size = report.tally.solvedSubtrees) := by
    intro report hreport
    obtain ⟨task, htask, rfl⟩ := List.mem_map.1 hreport
    rw [List.mem_range] at htask
    obtain ⟨found, hending⟩ := hfollows.exhausted hsplits hstops htask
    exact hsplits.trees (hfollows.run task htask) hending
  constructor
  · have htrees := trees_total fun report hreport => (htasks report hreport).1
    rwa [List.length_map, List.length_range] at htrees
  · intro he hk
    rw [hsolutions]
    rw [hoptions] at htasks
    exact size_cubes_solutions fun report hreport => (htasks report hreport).2 he hk

include hp hroot h in
theorem Dispatches.stopsOthers_eq_false
    (hexhaustive : settings.enumerate = true ∨ ¬ p.formula.Satisfiable) :
    ∀ report ∈ ended, report.stopsOthers = false := by
  obtain ⟨_, watches, reports, hproblem, hoptions, hsplits, -, hfollows, rfl⟩ := h.exists_follows hp hroot
  intro report hreport
  obtain ⟨task, htask, rfl⟩ := List.mem_map.1 hreport
  rw [Bool.eq_false_iff]
  intro hstops
  obtain ⟨hone, hsat⟩ := (hfollows.reported hsplits task (List.mem_range.1 htask)).2.stopsOthers
    hsplits.proper hstops
  rw [hproblem] at hsat
  rw [hoptions] at hone
  rcases hexhaustive with he | hunsat
  · exact absurd (hone.symm.trans he) (by simp)
  · exact hunsat hsat

include hp hroot h in
theorem Dispatches.lawful_tally (hfits : ∀ n ∈ (total ended).counts, n ≤ TimedTally.countLimit) :
    outcome.tally.Lawful p.variableCount := by
  have htotal : ({ total ended with pureVariables := 0, partitions := 0 } : Tally).Lawful p.variableCount :=
    { h.lawful hp hroot with }
  rw [h.tally_eq hp hroot hfits]
  exact { ((Tally.lawful_pureVariables _).add (counts_of_part hp hroot).1).add htotal with }

include hp hroot h in
/-- The root adds no node, so the outcome counts the trees of the tasks. -/
theorem Dispatches.trees_tally (hlimit : settings.limit? = none)
    (hnone : ∀ report ∈ ended, report.stopsOthers = false)
    (hfits : ∀ n ∈ (total ended).counts, n ≤ TimedTally.countLimit) :
    outcome.tally.searches = outcome.tally.partitions + outcome.tally.decisions ∧
      2 * (outcome.tally.conflicts + outcome.tally.solvedSubtrees) =
        outcome.tally.searches + outcome.tally.partitions ∧
      (settings.enumerate = true → settings.keepModels = true →
        outcome.solutions.cubes.size = outcome.tally.solvedSubtrees) := by
  obtain ⟨-, hsearches, hdecisions, hconflicts, hsolved, -⟩ := counts_of_part hp hroot
  obtain ⟨⟨hnodes, hleaves⟩, hcubes⟩ := h.trees hp hroot hlimit hnone
  rw [h.tally_eq hp hroot hfits]
  refine ⟨?_, ?_, fun he hk => ?_⟩
  · change 0 + part.root.tally.searches + (total ended).searches =
      part.taskCount + (0 + part.root.tally.decisions + (total ended).decisions)
    dsimp only at hnodes
    omega
  · change 2 * (0 + part.root.tally.conflicts + (total ended).conflicts +
        (0 + part.root.tally.solvedSubtrees + (total ended).solvedSubtrees)) =
      0 + part.root.tally.searches + (total ended).searches + part.taskCount
    dsimp only at hleaves
    omega
  · change _ = 0 + part.root.tally.solvedSubtrees + (total ended).solvedSubtrees
    rw [hcubes he hk]
    omega

end Beyond

/-- The laws of the counts. A run that is decided at the root counts no node, no decision and no task, and one
leaf. In every run ranks are taken from the queue no more often than there are unit propagations and decisions,
and the depths of conflicts are bounded by the variables; and where no task stops at a model and there is no
time limit, the tasks have searched one full binary tree each, with a kept model for each solved node. For the
tasks together the counts are exact as long as they fit the words that are shared. -/
theorem tally_of_dispatch {f : Formula} {result : Except SearchError Outcome} (hf : f.Built)
    (hp : ofFormula f settings.heuristic = .ok (.ok p))
    (h : p.Dispatches settings start workers ended result) :
    ∃ outcome, result = .ok outcome ∧
      (∀ decided, p.rootResult settings = .ok (.inl decided) →
        outcome.tally.Lawful f.variableCount ∧ outcome.tally.searches = 0 ∧
        outcome.tally.decisions = 0 ∧ outcome.tally.partitions = 0 ∧
        outcome.tally.conflicts + outcome.tally.solvedSubtrees = 1) ∧
      (∀ part, p.rootResult settings = .ok (.inr part) →
        (part.root.tally + total ended).Lawful f.variableCount) ∧
      ((∀ n ∈ (total ended).counts, n ≤ TimedTally.countLimit) →
        outcome.tally.iterations ≤ outcome.tally.unitPropagations + outcome.tally.decisions ∧
        outcome.tally.conflictDepths ≤ outcome.tally.conflicts * f.variableCount ∧
        ∀ part, p.rootResult settings = .ok (.inr part) → settings.limit? = none →
          ((∀ report ∈ ended, report.stopsOthers = false) ∨
            settings.enumerate = true ∨ ¬ f.Satisfiable) →
          outcome.tally.searches = outcome.tally.partitions + outcome.tally.decisions ∧
          2 ∣ outcome.tally.decisions ∧
          2 * (outcome.tally.conflicts + outcome.tally.solvedSubtrees) =
            outcome.tally.searches + outcome.tally.partitions ∧
          (settings.enumerate = true → settings.keepModels = true →
            outcome.solutions.cubes.size = outcome.tally.solvedSubtrees)) := by
  obtain ⟨hproper, hrenames⟩ := proper_of_ofFormula hf.stored hp
  obtain ⟨outcome, -, rfl, -⟩ := h.sound hproper
  rw [← hrenames.variableCount, ← satisfiable_iff hproper hrenames hf.stored.ranged]
  refine ⟨outcome, rfl, fun decided hroot => ?_, fun part hroot => ?_, fun hfits => ?_⟩
  · rcases h.cases hproper with ⟨outcome', hroot', -, heq⟩ | ⟨_, _, _, _, _, hroot', -⟩
    · obtain rfl := Except.ok.inj heq
      obtain ⟨hlawful, hsearches, hdecisions, hpartitions, hleaves⟩ := counts_of_rootResult hproper hroot'
      exact ⟨hlawful, hsearches, hdecisions, hpartitions, hleaves⟩
    · simp [hroot] at hroot'
  · exact (counts_of_part hproper hroot).1.add (h.lawful hproper hroot)
  have hlawful : outcome.tally.Lawful p.variableCount := by
    rcases h.cases hproper with ⟨outcome', hroot', -, heq⟩ | ⟨_, _, _, _, _, hroot', -⟩
    · obtain rfl := Except.ok.inj heq
      exact (counts_of_rootResult hproper hroot').1
    · exact h.lawful_tally hproper hroot' hfits
  refine ⟨hlawful.iterations, hlawful.depths, fun part hroot hlimit hexhaustive => ?_⟩
  have hnone : ∀ report ∈ ended, report.stopsOthers = false :=
    hexhaustive.elim id (h.stopsOthers_eq_false hproper hroot)
  obtain ⟨hsearches, hleaves, hcubes⟩ := h.trees_tally hproper hroot hlimit hnone hfits
  -- each tree has an even number of decisions, since its leaves are one more than half of them
  exact ⟨hsearches, by omega, hleaves, hcubes⟩

/-- Three workers enumerate the models on two tasks, with decisions below. -/
theorem tally_of_dispatch_three_workers : ∃ f p part ended outcome,
    let settings : Settings :=
      { heuristic := false, enumerate := true, keepModels := true, partitionDepth := 1 }
    f.clauses = #[[⟨1, true⟩, ⟨2, true⟩, ⟨3, true⟩], [⟨2, true⟩, ⟨3, false⟩]] ∧
      ofFormula f false = .ok (.ok p) ∧ p.rootResult settings = .ok (.inr part) ∧
      p.Dispatches settings ⟨.zero⟩ 3 ended (.ok outcome) ∧ (total ended).decisions = 4 ∧
      outcome.tally.searches = outcome.tally.partitions + outcome.tally.decisions ∧
      2 * (outcome.tally.conflicts + outcome.tally.solvedSubtrees) =
        outcome.tally.searches + outcome.tally.partitions ∧
      outcome.solutions.cubes.size = outcome.tally.solvedSubtrees := by
  let f := (({} : Formula).store [⟨1, true⟩, ⟨2, true⟩, ⟨3, true⟩]).store [⟨2, true⟩, ⟨3, false⟩]
  let settings : Settings :=
    { heuristic := false, enumerate := true, keepModels := true, partitionDepth := 1 }
  have hf : f.Built := @Formula.Built.add _ f [2, -3] 1
    (@Formula.Built.add {} _ [1, 2, 3] 0 .empty rfl) rfl
  obtain ⟨p, ended, result, hp, h⟩ := exists_dispatches hf settings ⟨.zero⟩ rfl (by decide : 0 < 3)
  have heval : ((ofFormula f false).toOption.any fun prepared => prepared.toOption.any fun p =>
      (p.rootResult settings).toOption.any fun root => root.getRight?.any fun part =>
        (part.runAll fun _ _ => none).toOption.any fun ended =>
          decide ((total ended).decisions = 4 ∧
            ∀ n ∈ (total ended).counts, n ≤ TimedTally.countLimit)) = true := by
    decide +kernel
  simp only [Option.any_eq_true, Fault.toOption_eq_some, Sum.getRight?_eq_some_iff] at heval
  obtain ⟨_, hp', p', rfl, root, hroot, part, rfl, ended', hended, hcounts⟩ := heval
  obtain ⟨hdecisions, hfits⟩ := of_decide_eq_true hcounts
  obtain rfl : p' = p := Except.ok.inj (Except.ok.inj (hp'.symm.trans hp))
  obtain ⟨hproper, -⟩ := proper_of_ofFormula hf.stored hp
  obtain rfl : ended' = ended := by
    simpa [hended] using h.undisturbed hproper rfl (.inl rfl) hroot
  obtain ⟨outcome, rfl, -, -, hlaws⟩ := tally_of_dispatch hf hp h
  obtain ⟨-, -, htrees⟩ := hlaws hfits
  obtain ⟨hsearches, -, hleaves, hcubes⟩ := htrees part hroot rfl (.inr (.inl rfl))
  exact ⟨f, p', part, ended', outcome, rfl, hp, hroot, h, hdecisions, hsearches, hleaves, hcubes rfl rfl⟩

end Prepared

end ClauseSearch
