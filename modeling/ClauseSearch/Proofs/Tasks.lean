import ClauseSearch.Partition.Task
import ClauseSearch.Proofs.Tree
import Mathlib.Data.Nat.Init
import Mathlib.Tactic.Choose

/-! The tasks of a partition divide the assignments that the root admits: each belongs to the task whose bits
say where it leaves the preferred polarities. A task assumes its literals without contradiction, and its
report accounts for exactly the assignments that belong to it, whatever its checks find. -/

namespace ClauseSearch

open Search

variable {p : Prepared} {o : Options} {s : Search} {part : Partition} {a : Assignment}
  {task last count cursor depth : Nat} {watch : Watch} {ls : List Literal}

namespace Partition

/-! ### The ranks split on -/

/-- The root is settled, and the ranks split on are ranks of its own without a value. -/
structure Splits (part : Partition) : Prop where
  proper : part.problem.Proper
  settled : Stands part.problem .settled part.root
  ascending : part.ranks.Pairwise (· < ·)
  unvalued : ∀ r ∈ part.ranks,
    0 < r ∧ r ≤ part.problem.variableCount ∧ part.root.valuation.value? r = none

theorem chooseRanks_spec : (chooseRanks s last count cursor).Pairwise (· < ·) ∧
    ∀ r ∈ chooseRanks s last count cursor,
      cursor < r ∧ r ≤ last ∧ s.valuation.value? r = none := by
  induction count generalizing cursor with
  | zero => exact ⟨.nil, by simp [chooseRanks]⟩
  | succ count ih =>
    unfold chooseRanks
    cases hnext : s.nextUnvalued? last cursor with
    | none => exact ⟨.nil, by simp⟩
    | some rank =>
      obtain ⟨hcursor, hlast, hv, -⟩ := nextUnvalued?_eq_some hnext
      obtain ⟨hascending, hranks⟩ := @ih rank
      refine ⟨List.pairwise_cons.2 ⟨fun r hr => (hranks r hr).1, hascending⟩, ?_⟩
      refine List.forall_mem_cons.2 ⟨⟨hcursor, hlast, hv⟩, fun r hr => ?_⟩
      obtain ⟨hlow, hlast', hv'⟩ := hranks r hr
      exact ⟨by omega, hlast', hv'⟩

theorem splits_ofRoot (o : Options) (depth : Nat) (hp : p.Proper) (hs : Stands p .settled s) :
    (ofRoot p o s depth).Splits where
  proper := hp
  settled := hs
  ascending := chooseRanks_spec.1
  unvalued := chooseRanks_spec.2

/-! ### The literals of a task -/

def preferred (part : Partition) (r : Nat) : Bool := (part.problem.ranking.placeAt r).preferred

/-- The literal that a task assumes on the rank of a level. -/
def literalAt (part : Partition) (task : Nat) (entry : Nat × Nat) : Literal :=
  ⟨entry.1, if task.testBit entry.2 then !part.preferred entry.1 else part.preferred entry.1⟩

def literalsOf (part : Partition) (task : Nat) : List Literal :=
  part.ranks.zipIdx.map (part.literalAt task)

theorem literals_eq_ok (h : part.Splits) : part.literals task = .ok (part.literalsOf task) := by
  refine Sequence.mapM_eq_ok fun (rank, level) hentry => ?_
  have hle := (h.unvalued rank (List.fst_mem_of_mem_zipIdx hentry)).2.1
  dsimp only
  rw [h.proper.place_eq_ok hle]
  rfl

theorem vars_literalsOf (part : Partition) (task : Nat) :
    (part.literalsOf task).map Literal.var = part.ranks := by
  rw [literalsOf, List.map_map]
  exact List.zipIdx_map_fst 0 part.ranks

/-- The task an assignment belongs to: its bits say where the assignment leaves the preferred polarity. -/
def taskOf (part : Partition) (a : Assignment) : Nat :=
  Nat.ofBits fun i : Fin part.ranks.length => a part.ranks[i] != part.preferred part.ranks[i]

theorem taskCount_eq (part : Partition) : part.taskCount = 2 ^ part.ranks.length :=
  Nat.one_shiftLeft _

theorem taskOf_lt : part.taskOf a < part.taskCount := by
  rw [taskCount_eq]
  exact Nat.ofBits_lt_two_pow _

/-- An assignment belongs to the task whose literals it makes true. -/
theorem taskOf_eq_iff (htask : task < part.taskCount) :
    part.taskOf a = task ↔ ∀ l ∈ part.literalsOf task, a l.var = l.polarity := by
  have hlevel : ∀ i (hi : i < part.ranks.length), (part.taskOf a).testBit i =
      (a part.ranks[i] != part.preferred part.ranks[i]) := fun i hi => Nat.testBit_ofBits_lt _ i hi
  have hliterals : (∀ l ∈ part.literalsOf task, a l.var = l.polarity) ↔
      ∀ i (hi : i < part.ranks.length), a part.ranks[i] =
        if task.testBit i then !part.preferred part.ranks[i] else part.preferred part.ranks[i] := by
    simp only [literalsOf, List.forall_mem_map, literalAt, Prod.forall]
    constructor
    · intro h i hi
      exact h _ i (List.mk_mem_zipIdx_iff_getElem?.2 (List.getElem?_eq_getElem hi))
    · intro h r i hmem
      obtain ⟨hi, rfl⟩ := List.getElem?_eq_some_iff.1 (List.mk_mem_zipIdx_iff_getElem?.1 hmem)
      exact h i hi
  rw [hliterals]
  constructor
  · rintro rfl i hi
    rw [hlevel i hi]
    cases a part.ranks[i] <;> cases part.preferred part.ranks[i] <;> rfl
  · intro h
    refine Nat.eq_of_testBit_eq fun i => ?_
    by_cases hi : i < part.ranks.length
    · rw [hlevel i hi, h i hi]
      cases task.testBit i <;> simp
    · have hpow : part.taskCount ≤ 2 ^ i := by
        rw [taskCount_eq]
        exact Nat.pow_le_pow_right (by decide) (by omega)
      rw [Nat.testBit_lt_two_pow (Nat.lt_of_lt_of_le taskOf_lt hpow),
        Nat.testBit_lt_two_pow (Nat.lt_of_lt_of_le htask hpow)]

/-- Literals that contradict neither each other nor a value held can be assumed together. -/
theorem assumeAll_spec (hs : s.Coherent p)
    (hls : ∀ l ∈ ls, 0 < l.var ∧ l.var ≤ p.variableCount ∧
      s.valuation.value? l.var ≠ some (!l.polarity))
    (hagree : ∀ l ∈ ls, ∀ k ∈ ls, l.var = k.var → l.polarity = k.polarity) :
    ∃ v : Valuation, assumeAll ls s = .ok (.ok (s.holding v)) ∧
      v.slots.size = s.valuation.slots.size ∧ v.Extends s.valuation ∧
      ∀ a, v.admits a = true ↔
        s.valuation.admits a = true ∧ ∀ l ∈ ls, a l.var = l.polarity := by
  induction ls generalizing s with
  | nil =>
    refine ⟨s.valuation, ?_, rfl, .refl _, by simp⟩
    rw [hs.holding_self]
    rfl
  | cons l ls ih =>
    obtain ⟨hr, hn, hl⟩ := hls l List.mem_cons_self
    obtain ⟨w, hassume, hsize, hext, hread⟩ := assume?_eq_some hs hr hn hl
    have hrest : ∀ k ∈ ls, 0 < k.var ∧ k.var ≤ p.variableCount ∧
        w.value? k.var ≠ some (!k.polarity) := by
      intro k hk
      obtain ⟨hr', hn', hk'⟩ := hls k (List.mem_cons_of_mem l hk)
      refine ⟨hr', hn', ?_⟩
      rw [hread]
      split
      · rename_i heq
        have hsame := hagree k (List.mem_cons_of_mem l hk) l List.mem_cons_self heq
        simp [hsame]
      · exact hk'
    have hagree' : ∀ j ∈ ls, ∀ k ∈ ls, j.var = k.var → j.polarity = k.polarity := fun j hj k hk =>
      hagree j (List.mem_cons_of_mem l hj) k (List.mem_cons_of_mem l hk)
    obtain ⟨v, hall, hsize', hext', hadmits⟩ := ih (hs.holding hsize hext) hrest hagree'
    refine ⟨v, ?_, hsize'.trans hsize, hext'.trans hext, fun a => ?_⟩
    · rw [assumeAll, hassume]
      exact hall
    · rw [hadmits, List.forall_mem_cons, ← and_assoc]
      exact and_congr_left fun _ => admits_assumed hr hext hread

/-! ### Reports -/

/-- A report accounts for the assignments that belong to the task. -/
def Reported (part : Partition) (task : Nat) (watch : Watch) (report : TaskReport) : Prop :=
  ∃ v ending leaves, v.slots.size = part.problem.variableCount + 1 ∧
    (∀ a, v.admits a = true ↔ part.root.valuation.admits a = true ∧ part.taskOf a = task) ∧
    Explored part.problem part.options watch 0 v ending leaves ∧
    report.ending = ending.map (·, leaves.foldl (record part.problem part.options) {})

/-- The literals of a task can be assumed on a fork of the root. -/
theorem Splits.assumed (h : part.Splits) (task : Nat) :
    ∃ v : Valuation,
      assumeAll (part.literalsOf task) part.root.fork = .ok (.ok (part.root.fork.holding v)) ∧
      v.slots.size = part.problem.variableCount + 1 ∧ v.Extends part.root.valuation ∧
      ∀ a, v.admits a = true ↔ part.root.valuation.admits a = true ∧
        ∀ l ∈ part.literalsOf task, a l.var = l.polarity := by
  have hroot := h.settled.sound.fork
  have hnodup : ((part.literalsOf task).map Literal.var).Nodup := by
    rw [vars_literalsOf]
    exact h.ascending.imp fun hlt => Nat.ne_of_lt hlt
  have hvars : ∀ l ∈ part.literalsOf task, l.var ∈ part.ranks := fun l hl => by
    rw [← part.vars_literalsOf task]
    exact List.mem_map_of_mem hl
  have hagree : ∀ l ∈ part.literalsOf task, ∀ k ∈ part.literalsOf task,
      l.var = k.var → l.polarity = k.polarity := fun l hl k hk heq => by
    rw [List.inj_on_of_nodup_map hnodup hl hk heq]
  obtain ⟨v, hall, hsize, hext, hadmits⟩ := assumeAll_spec hroot.toCoherent (fun l hl => by
    obtain ⟨hr, hn, hv⟩ := h.unvalued l.var (hvars l hl)
    exact ⟨hr, hn, fun hvalue => absurd (hv.symm.trans hvalue) (by simp)⟩) hagree
  exact ⟨v, hall, hsize.trans hroot.slots, hext, hadmits⟩

/-- A task has a report, whatever its checks find. -/
theorem run_spec (watch : Watch) (h : part.Splits) (htask : task < part.taskCount) :
    ∃ report, part.run task watch = .ok report ∧ part.Reported task watch report := by
  have hroot := h.settled.sound.fork
  obtain ⟨v, hall, hsize, hext, hadmits⟩ := h.assumed task
  have hbelongs : ∀ a, v.admits a = true ↔
      part.root.valuation.admits a = true ∧ part.taskOf a = task := fun a => by
    rw [hadmits, taskOf_eq_iff htask]
  cases hwatch : watch 0 with
  | some reason =>
    refine ⟨{ ending := .error (.interrupted reason) }, ?_, v, _, [], hsize, hbelongs,
      explored_interrupted hwatch, rfl⟩
    simp only [run, hwatch]
    rfl
  | none =>
    obtain ⟨ending, t, leaves, hexplore, hexplored, hfound⟩ :=
      explore_spec part.options watch part.ranks.length none h.proper
        (hroot.holding (hsize.trans hroot.slots.symm) hext) (by simp)
    refine ⟨{ ending := ending.map (·, t.solutions), tally := t.tally, trace := t.trace }, ?_, v, ending,
      leaves, hsize, hbelongs, hexplored, by rw [hfound]; rfl⟩
    simp only [run, hwatch]
    rw [literals_eq_ok h]
    change (assumeAll (part.literalsOf task) part.root.fork >>= fun x => _) = _
    rw [hall]
    change (explore _ _ _ _ _ _ >>= fun x => _) = _
    rw [hexplore]
    rfl

/-- The reports of the tasks under their watches. -/
def Reports (part : Partition) (watches : Nat → Watch) (reports : Nat → TaskReport) : Prop :=
  ∀ task < part.taskCount, part.run task (watches task) = .ok (reports task) ∧
    part.Reported task (watches task) (reports task)

theorem runAll_spec (h : part.Splits) (watches : Nat → Watch) :
    ∃ reports : Nat → TaskReport, part.Reports watches reports ∧
      part.runAll watches = .ok ((List.range part.taskCount).map reports) := by
  have : Nonempty TaskReport := ⟨{ ending := .ok (.exhausted, {}) }⟩
  choose! reports hreports using fun task (htask : task < part.taskCount) =>
    run_spec (watches task) h htask
  refine ⟨reports, hreports, Sequence.mapM_eq_ok fun task htask => ?_⟩
  exact (hreports task (List.mem_range.1 htask)).1

end Partition

end ClauseSearch
