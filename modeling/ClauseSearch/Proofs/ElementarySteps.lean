import ClauseSearch.Proofs.Recursion
import Mathlib.Logic.Relation

/-! The elementary steps of a search: a value is assumed or forced, a clause flagged, a decision begun, a rank
taken from the queue, the queue cleared, a decision undone. A run begins in a fresh search or in a fork and takes
such steps in any order. Whatever a search does, from one propagation to a whole search with all that it
decides, comes down to them, with every frame that was opened closed again. -/

namespace ClauseSearch.Search

variable {p : Prepared} {o : Options} {watch : Watch} {s t u v : Search} {l : Literal} {rank clause depth : Nat}
  {decided conflict : Option Nat} {ending : Ending} {b value moved : Bool} {os : List Occurrence}
  {ids : List Nat}

/-! ### Runs -/

/-- A point of a run: the state, the ranks valued by assumption since the run began and the number of decision
frames that are open. -/
structure Point where
  search : Search
  assumed : List Nat
  frames : Nat

def Point.start (origin : Search) : Point := ⟨origin, [], 0⟩

/-- An elementary step. Only a clause that is not flagged is flagged; the last step stands for all that counts,
records or reports and touches nothing else. -/
inductive Point.Step : Point → Point → Prop
  | assume {s t : Search} {assumed : List Nat} {frames : Nat} {l : Literal}
      (h : s.assume? l = .ok (some t)) :
      Step ⟨s, assumed, frames⟩
        ⟨t, if s.valuation.value? l.var = none then l.var :: assumed else assumed, frames⟩
  | force {s t : Search} {assumed : List Nat} {frames : Nat} {l : Literal} (h : s.force l = .ok t) :
      Step ⟨s, assumed, frames⟩ ⟨t, assumed, frames⟩
  | flag {s t : Search} {assumed : List Nat} {frames clause : Nat} (hc : s.flags[clause]? = some false)
      (h : s.flag clause = .ok t) : Step ⟨s, assumed, frames⟩ ⟨t, assumed, frames⟩
  | enter {s t : Search} {assumed : List Nat} {frames rank : Nat} {b : Bool} (h : s.enter rank b = .ok t) :
      Step ⟨s, assumed, frames⟩ ⟨t, assumed, frames + 1⟩
  | pop {s t : Search} {assumed : List Nat} {frames rank : Nat} (h : s.pop? = some (rank, t)) :
      Step ⟨s, assumed, frames⟩ ⟨t, assumed, frames⟩
  | clear (s : Search) (assumed : List Nat) (frames : Nat) :
      Step ⟨s, assumed, frames⟩ ⟨s.clearQueue, assumed, frames⟩
  | backtrack {s t : Search} {assumed : List Nat} {frames : Nat} (h : s.backtrack = .ok t) :
      Step ⟨s, assumed, frames⟩ ⟨t, assumed, frames - 1⟩
  | note (s t : Search) (assumed : List Nat) (frames : Nat) :
      Step ⟨s, assumed, frames⟩ ⟨s.carrying t, assumed, frames⟩

abbrev Point.Run : Point → Point → Prop := Relation.ReflTransGen Point.Step

/-- The states that runs begin in: a fresh search, or a fork at any point of a run. -/
inductive Origin (p : Prepared) : Search → Prop
  | fresh : Origin p (fresh p)
  | fork {origin : Search} {x : Point} (h : Origin p origin) (hx : (Point.start origin).Run x) :
      Origin p x.search.fork

/-! ### Operations are runs -/

/-- Elementary steps lead from one state to another, in which as many frames are open and the same is assumed. -/
def Leads (s t : Search) : Prop :=
  ∀ assumed frames, Point.Run ⟨s, assumed, frames⟩ ⟨t, assumed, frames⟩

theorem Leads.refl (s : Search) : Leads s s := fun _ _ => .refl

theorem Leads.trans (h : Leads s t) (h' : Leads t u) : Leads s u :=
  fun assumed frames => (h assumed frames).trans (h' assumed frames)

/-- What differs only in what was counted, found and reported is one step away. -/
theorem leads_noted (h : s.carrying t = t) : Leads s t := by
  intro assumed frames
  apply Relation.ReflTransGen.single
  rw [← h]
  exact .note s t assumed frames

theorem leads_flag (hc : s.flags[clause]? = some false) (h : s.flag clause = .ok t) : Leads s t :=
  fun _ _ => .single (.flag hc h)

theorem leads_force (h : s.force l = .ok t) : Leads s t := fun _ _ => .single (.force h)

theorem leads_pop (h : s.pop? = some (rank, t)) : Leads s t := fun _ _ => .single (.pop h)

theorem leads_clearQueue : Leads s s.clearQueue :=
  fun assumed frames => .single (.clear s assumed frames)

/-- A frame is closed again after what was done in it. -/
theorem leads_frame (ht : s.enter rank b = .ok t) (hu : Leads t u) (hv : u.backtrack = .ok v) :
    Leads s v := fun assumed frames =>
  (Relation.ReflTransGen.head (.enter ht) (hu assumed (frames + 1))).tail (.backtrack hv)

theorem leads_visit (hc : s.flags[clause]? = some false) (h : visit p s clause = .ok (t, conflict)) :
    Leads s t := by
  have htested : Leads s s.tested := leads_noted rfl
  rcases visit_cases h with hflag | ⟨l, u, hforce, hflag⟩ | rfl
  · exact htested.trans (leads_flag hc hflag)
  · obtain ⟨-, -, rfl⟩ := forced_of_force hforce
    exact (htested.trans (leads_force hforce)).trans (leads_flag hc hflag)
  · exact htested

theorem leads_follow (h : follow p value os s = .ok (t, conflict)) : Leads s t := by
  induction os generalizing s with
  | nil =>
    obtain ⟨rfl, -⟩ := Prod.mk.inj (Except.ok.inj h)
    exact .refl s
  | cons o rest ih =>
    unfold follow at h
    split at h
    · cases h
    · exact ih h
    · rename_i hopen
      split at h
      · split at h
        · cases h
        · rename_i hflag
          exact (leads_flag hopen hflag).trans (ih h)
      · split at h
        · rename_i hvisit
          exact (leads_visit hopen hvisit).trans (ih h)
        · exact leads_visit hopen h

theorem leads_visitAll (h : visitAll p ids s = .ok (t, conflict)) : Leads s t := by
  induction ids generalizing s with
  | nil =>
    obtain ⟨rfl, -⟩ := Prod.mk.inj (Except.ok.inj h)
    exact .refl s
  | cons id rest ih =>
    unfold visitAll at h
    split at h
    · cases h
    · exact ih h
    · rename_i hopen
      split at h
      · rename_i hvisit
        exact (leads_visit hopen hvisit).trans (ih h)
      · exact leads_visit hopen h

theorem leads_propagate (h : s.propagate p = .ok (t, conflict)) : Leads s t := by
  obtain ⟨taken, pushed, hdrains⟩ := drains_of_propagate h
  clear h
  induction hdrains with
  | idle => exact .refl _
  | conflict hpop _ hfollow _ => exact ((leads_pop hpop).trans (leads_follow hfollow)).trans leads_clearQueue
  | round hpop _ hfollow _ _ ih => exact ((leads_pop hpop).trans (leads_follow hfollow)).trans ih

theorem leads_propagateAll (h : s.propagateAll p = .ok (t, conflict)) : Leads s t := by
  unfold propagateAll at h
  split at h
  · cases h
  · rename_i hvisit
    obtain ⟨rfl, -⟩ := Prod.mk.inj (Except.ok.inj h)
    exact (leads_visitAll hvisit).trans leads_clearQueue
  · rename_i hvisit
    exact (leads_visitAll hvisit).trans (leads_propagate h)

theorem leads_propagated (h : propagated p decided s = .ok (t, conflict)) : Leads s t := by
  have hcounted : Leads s s.countNode := leads_noted rfl
  cases decided with
  | none => exact hcounted.trans (leads_propagateAll h)
  | some rank => exact hcounted.trans (leads_propagate h)

theorem leads_recordSolution (h : s.recordSolution p o = .ok t) : Leads s t := by
  apply leads_noted
  have hle : ¬ s.valuation.variableCount < s.valuedCount := fun hlt => by
    rw [recordSolution, if_pos hlt] at h
    cases h
  rw [recordSolution, if_neg hle] at h
  cases hmodel : s.solutions.model <;> cases hkeep : o.enumerate && o.keepModels
  all_goals
    simp only [hmodel, hkeep, if_true, Bool.false_eq_true, if_false] at h
    obtain ⟨model, -, h⟩ := Fault.bind_eq_ok.1 h
    obtain ⟨cubes, -, h⟩ := Fault.bind_eq_ok.1 h
    obtain rfl := Fault.pure_eq_ok.1 h
    rfl

theorem leads_traceDecision (h : s.traceDecision p o depth rank = .ok t) : Leads s t := by
  unfold traceDecision at h
  split at h
  · obtain ⟨place, -, h⟩ := Fault.bind_eq_ok.1 h
    obtain rfl := Fault.pure_eq_ok.1 h
    exact leads_noted rfl
  · obtain rfl := Fault.pure_eq_ok.1 h
    exact .refl s

theorem leads_decides (h : Decides p o watch depth decided s rank t) : Leads s t := by
  obtain ⟨u, hpropagated, -, -, -, htrace⟩ := h
  exact (leads_propagated hpropagated).trans (leads_traceDecision htrace)

/-- A whole search is a run. -/
theorem leads_explores (h : Explores p o watch depth decided s ending t) : Leads s t := by
  induction h with
  | conflict h => exact (leads_propagated h).trans (leads_noted rfl)
  | @leaf _ _ s t _ h _ hu =>
    have hcounted : Leads t t.countSolved := leads_noted rfl
    exact ((leads_propagated h).trans hcounted).trans (leads_recordSolution hu)
  | interrupted h => exact leads_propagated h
  | stuck h => exact leads_propagated h
  | first hdecides hu _ _ hw ih => exact (leads_decides hdecides).trans (leads_frame hu ih hw)
  | both hdecides hu _ hw hu' _ hw' ih ih' =>
    exact ((leads_decides hdecides).trans (leads_frame hu ih hw)).trans (leads_frame hu' ih' hw')

theorem leads_within (hp : p.Proper) (h : Within p s t) : Leads s t := by
  induction h with
  | refl => exact .refl _
  | propagate _ hu ih => exact ih.trans (leads_propagate hu)
  | propagateAll _ hu ih => exact ih.trans (leads_propagateAll hu)
  | explore _ hu ih => exact ih.trans (leads_explores (explores_of_explore hp hu))
  | frame _ _ _ _ _ hu _ hw ih ih' => exact ih.trans (leads_frame hu ih' hw)

/-! ### Assumptions are runs -/

/-- Elementary steps lead from one state to another, in which as many frames are open. -/
def Assumes (s t : Search) : Prop :=
  ∀ assumed frames, ∃ assumed', Point.Run ⟨s, assumed, frames⟩ ⟨t, assumed', frames⟩

theorem Assumes.refl (s : Search) : Assumes s s := fun assumed _ => ⟨assumed, .refl⟩

theorem Assumes.trans (h : Assumes s t) (h' : Assumes t u) : Assumes s u := by
  intro assumed frames
  obtain ⟨assumed', hst⟩ := h assumed frames
  obtain ⟨assumed'', htu⟩ := h' assumed' frames
  exact ⟨assumed'', hst.trans htu⟩

theorem assumes_assume (h : s.assume? l = .ok (some t)) : Assumes s t :=
  fun _ _ => ⟨_, .single (.assume h)⟩

theorem assumes_assumeAll {ls : List Literal} (h : Partition.assumeAll ls s = .ok (.ok t)) :
    Assumes s t := by
  induction ls generalizing s with
  | nil =>
    cases h
    exact .refl _
  | cons l rest ih =>
    obtain ⟨assumed, hassume, h⟩ := Fault.bind_eq_ok.1 h
    cases assumed with
    | none => cases h
    | some u => exact (assumes_assume hassume).trans (ih h)

theorem assumes_assumePure (h : s.assumePure p = .ok t) : Assumes s t := by
  unfold assumePure at h
  generalize p.ranking.pureRanks = ranks at h
  induction ranks generalizing s with
  | nil =>
    obtain rfl := Fault.pure_eq_ok.1 h
    exact .refl s
  | cons rank rest ih =>
    rw [List.foldlM_cons] at h
    obtain ⟨u, hu, h⟩ := Fault.bind_eq_ok.1 h
    refine Assumes.trans ?_ (ih h)
    cases hv : s.valuation.value? rank with
    | some value =>
      simp only [hv] at hu
      obtain rfl := Fault.pure_eq_ok.1 hu
      exact .refl s
    | none =>
      simp only [hv] at hu
      obtain ⟨place, -, hu⟩ := Fault.bind_eq_ok.1 hu
      apply assumes_assume (l := ⟨rank, place.preferred⟩)
      simp only [assume?, hv, hu]
      rfl

/-- Every search in operation is a point of a run. -/
theorem Operated.exists_run (hp : p.Proper) (h : Operated p moved s) :
    ∃ origin assumed frames, Origin p origin ∧ (Point.start origin).Run ⟨s, assumed, frames⟩ := by
  induction h with
  | fresh => exact ⟨_, [], 0, .fresh, .refl⟩
  | fork _ ih =>
    obtain ⟨origin, assumed, frames, horigin, hrun⟩ := ih
    exact ⟨_, [], 0, .fork horigin hrun, .refl⟩
  | assume _ _ _ ht ih =>
    obtain ⟨origin, assumed, frames, horigin, hrun⟩ := ih
    obtain ⟨assumed', hassume⟩ := assumes_assume ht assumed frames
    exact ⟨origin, assumed', frames, horigin, hrun.trans hassume⟩
  | assumePure _ ht ih =>
    obtain ⟨origin, assumed, frames, horigin, hrun⟩ := ih
    obtain ⟨assumed', hassume⟩ := assumes_assumePure ht assumed frames
    exact ⟨origin, assumed', frames, horigin, hrun.trans hassume⟩
  | enter _ _ _ _ ht ih =>
    obtain ⟨origin, assumed, frames, horigin, hrun⟩ := ih
    exact ⟨origin, assumed, frames + 1, horigin, hrun.tail (.enter ht)⟩
  | proceed _ ht ih =>
    obtain ⟨origin, assumed, frames, horigin, hrun⟩ := ih
    exact ⟨origin, assumed, frames, horigin, hrun.trans (leads_within hp ht assumed frames)⟩

end ClauseSearch.Search
