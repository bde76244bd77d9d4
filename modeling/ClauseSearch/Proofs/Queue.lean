import ClauseSearch.Proofs.Propagation

/-! The queue of a propagation, rank by rank. A rank joins the queue only when a unit clause gives it its value,
so no rank joins twice, and each that joins is counted as one unit propagation. What is taken from the queue
waited there before or has joined it since, so what is taken is paid for by these ranks, each of them once. -/

namespace ClauseSearch.Search

variable {p : Prepared} {s t u : Search} {l : Literal} {rank clause : Nat} {value : Bool}
  {conflict : Option Nat} {pushed more taken : List Nat} {ids : List Nat} {os : List Occurrence}
  {v w : Valuation}

/-! ### What joins the queue -/

/-- So many ranks more were taken from the queue and have joined it; of the other counts, that of clause tests
alone may be another one. -/
def Counts (s t : Search) (taken pushed : Nat) : Prop :=
  ∃ tests, t.tally = { s.tally with
    iterations := s.tally.iterations + taken
    unitPropagations := s.tally.unitPropagations + pushed
    clauseTests := tests }

theorem Counts.trans {n m n' m' : Nat} (h : s.Counts t n m) (h' : t.Counts u n' m') :
    s.Counts u (n + n') (m + m') := by
  obtain ⟨_, ht⟩ := h
  obtain ⟨tests, hu⟩ := h'
  refine ⟨tests, ?_⟩
  rw [hu, ht]
  simp only [Nat.add_assoc]

/-- The ranks that have joined the queue, the latest first. Each had no value, has got one, and counts. -/
structure Pushes (s t : Search) (pushed : List Nat) : Prop where
  queue : t.queue.items = pushed ++ s.queue.items
  nodup : pushed.Nodup
  vacant : ∀ r ∈ pushed, s.valuation.slots[r]? = some none
  valued : ∀ r ∈ pushed, t.valuation.value? r ≠ none
  size : t.valuation.slots.size = s.valuation.slots.size
  extends_valuation : t.valuation.Extends s.valuation
  counts : s.Counts t 0 pushed.length

theorem vacant_of_extends (hsize : w.slots.size = v.slots.size) (hext : w.Extends v)
    (h : w.slots[rank]? = some none) : v.slots[rank]? = some none := by
  have hlt : rank < v.slots.size := by
    rw [← hsize]
    exact (Array.getElem?_eq_some_iff.1 h).1
  rw [Valuation.slots_eq_some hlt, hext.value?_eq_none (Valuation.value?_of_slot h)]

theorem Pushes.trans (h : Pushes s t pushed) (h' : Pushes t u more) : Pushes s u (more ++ pushed) where
  queue := by rw [h'.queue, h.queue, List.append_assoc]
  nodup := by
    refine List.nodup_append'.2 ⟨h'.nodup, h.nodup, fun r hmore hpushed => h.valued r hpushed ?_⟩
    exact Valuation.value?_of_slot (h'.vacant r hmore)
  vacant := List.forall_mem_append.2
    ⟨fun r hr => vacant_of_extends h.size h.extends_valuation (h'.vacant r hr), h.vacant⟩
  valued := List.forall_mem_append.2
    ⟨h'.valued, fun r hr hnone => h.valued r hr (h'.extends_valuation.value?_eq_none hnone)⟩
  size := h'.size.trans h.size
  extends_valuation := h'.extends_valuation.trans h.extends_valuation
  counts := by
    rw [List.length_append, Nat.add_comm]
    exact h.counts.trans h'.counts

theorem pushes_nil (hqueue : t.queue = s.queue) (hvaluation : t.valuation = s.valuation)
    (hcounts : s.Counts t 0 0) : Pushes s t [] where
  queue := by rw [hqueue, List.nil_append]
  nodup := .nil
  vacant := by simp
  valued := by simp
  size := by rw [hvaluation]
  extends_valuation := by
    rw [hvaluation]
    exact .refl s.valuation
  counts := hcounts

theorem Pushes.refl (s : Search) : Pushes s s [] := pushes_nil rfl rfl ⟨_, rfl⟩

theorem pushes_tested : Pushes s s.tested [] := pushes_nil rfl rfl ⟨_, rfl⟩

theorem pushes_flag (h : s.flag clause = .ok t) : Pushes s t [] := by
  obtain ⟨marks, -, rfl⟩ := flag_eq_ok h
  exact pushes_nil rfl rfl ⟨_, rfl⟩

theorem pushes_force (h : s.force l = .ok t) : Pushes s t [l.var] := by
  obtain ⟨hlt, hnone, rfl⟩ := forced_of_force h
  exact
    { queue := rfl
      nodup := List.nodup_singleton _
      vacant := by simp [Valuation.slots_eq_some hlt, hnone]
      valued := by
        show ∀ r ∈ [l.var], (s.valuation.put l.var (some l.polarity)).value? r ≠ none
        simp [Valuation.value?_put_self hlt]
      size := Valuation.size_put
      extends_valuation := Valuation.extends_put hnone
      counts := ⟨_, rfl⟩ }

theorem pushes_visit (h : visit p s clause = .ok (t, conflict)) : ∃ pushed, Pushes s t pushed := by
  rcases visit_cases h with hflag | ⟨l, u, hforce, hflag⟩ | rfl
  · exact ⟨_, pushes_tested.trans (pushes_flag hflag)⟩
  · exact ⟨_, (pushes_tested.trans (pushes_force hforce)).trans (pushes_flag hflag)⟩
  · exact ⟨_, pushes_tested⟩

theorem pushes_follow (h : follow p value os s = .ok (t, conflict)) : ∃ pushed, Pushes s t pushed := by
  induction os generalizing s with
  | nil =>
    obtain ⟨rfl, -⟩ := Prod.mk.inj (Except.ok.inj h)
    exact ⟨_, .refl s⟩
  | cons o rest ih =>
    unfold follow at h
    split at h
    · exact absurd h (by simp)
    · exact ih h
    · split at h
      · split at h
        · exact absurd h (by simp)
        · rename_i hflag
          obtain ⟨_, hrest⟩ := ih h
          exact ⟨_, (pushes_flag hflag).trans hrest⟩
      · split at h
        · rename_i hvisit
          obtain ⟨_, hvisited⟩ := pushes_visit hvisit
          obtain ⟨_, hrest⟩ := ih h
          exact ⟨_, hvisited.trans hrest⟩
        · exact pushes_visit h

theorem pushes_visitAll (h : visitAll p ids s = .ok (t, conflict)) : ∃ pushed, Pushes s t pushed := by
  induction ids generalizing s with
  | nil =>
    obtain ⟨rfl, -⟩ := Prod.mk.inj (Except.ok.inj h)
    exact ⟨_, .refl s⟩
  | cons id rest ih =>
    unfold visitAll at h
    split at h
    · exact absurd h (by simp)
    · exact ih h
    · split at h
      · rename_i hvisit
        obtain ⟨_, hvisited⟩ := pushes_visit hvisit
        obtain ⟨_, hrest⟩ := ih h
        exact ⟨_, hvisited.trans hrest⟩
      · exact pushes_visit h

/-! ### Rounds -/

/-- The rounds of a propagation, with the ranks taken from the queue in turn and those that have joined it
meanwhile, the latest first. -/
inductive Drains (p : Prepared) : Search → List Nat → List Nat → Search → Option Nat → Prop
  | idle {s : Search} (hpop : s.pop? = none) : Drains p s [] [] s none
  | conflict {s popped t : Search} {rank clause : Nat} {value : Bool} {pushed : List Nat}
      (hpop : s.pop? = some (rank, popped))
      (hvalue : popped.valuation.slots[rank]? = some (some value))
      (hfollow : follow p value (p.occurrences.row rank) popped = .ok (t, some clause))
      (hqueue : t.queue.items = pushed ++ popped.queue.items) :
      Drains p s [rank] pushed t.clearQueue (some clause)
  | round {s popped t u : Search} {rank : Nat} {value : Bool} {taken pushed more : List Nat}
      {conflict : Option Nat} (hpop : s.pop? = some (rank, popped))
      (hvalue : popped.valuation.slots[rank]? = some (some value))
      (hfollow : follow p value (p.occurrences.row rank) popped = .ok (t, none))
      (hqueue : t.queue.items = pushed ++ popped.queue.items)
      (hrest : Drains p t taken more u conflict) :
      Drains p s (rank :: taken) (more ++ pushed) u conflict

/-- A propagation that has a result has come to it in so many rounds. -/
theorem drains_of_propagate (h : propagate p s = .ok (t, conflict)) :
    ∃ taken pushed, Drains p s taken pushed t conflict := by
  induction hn : s.pending using Nat.strongRecOn generalizing s with
  | _ n ih =>
    unfold propagate at h
    split at h
    · rename_i hpop
      obtain ⟨rfl, rfl⟩ := Prod.mk.inj (Except.ok.inj h)
      exact ⟨[], [], .idle hpop⟩
    · rename_i rank popped hpop
      have hpending := pending_pop? hpop
      split at h
      · exact absurd h (by simp)
      · exact absurd h (by simp)
      · rename_i value hvalue
        split at h
        · exact absurd h (by simp)
        · rename_i hfollow
          obtain ⟨rfl, rfl⟩ := Prod.mk.inj (Except.ok.inj h)
          obtain ⟨pushed, hpushed⟩ := pushes_follow hfollow
          exact ⟨_, _, .conflict hpop hvalue hfollow hpushed.queue⟩
        · rename_i hfollow
          have hpending' := pending_follow hfollow
          obtain ⟨pushed, hpushed⟩ := pushes_follow hfollow
          obtain ⟨taken, more, hrest⟩ := ih _ (by omega) h rfl
          exact ⟨_, _, .round hpop hvalue hfollow hpushed.queue hrest⟩

theorem pop?_eq_some (h : s.pop? = some (rank, t)) :
    s.queue.items = rank :: t.queue.items ∧ t.valuation = s.valuation ∧ s.Counts t 1 0 := by
  obtain ⟨⟨r, queue⟩, hpop, heq⟩ := Option.map_eq_some_iff.1 h
  obtain ⟨rfl, rfl⟩ := Prod.mk.inj heq
  exact ⟨(BoundedStack.pop?_eq_some.1 hpop).1, rfl, _, rfl⟩

/-- The ranks that a part of a propagation reports as joining the queue are those that have joined it. -/
theorem pushes_of_follow (h : follow p value os s = .ok (t, conflict))
    (hqueue : t.queue.items = pushed ++ s.queue.items) : Pushes s t pushed := by
  obtain ⟨pushed', hpushed⟩ := pushes_follow h
  obtain rfl : pushed' = pushed := List.append_cancel_right (hpushed.queue.symm.trans hqueue)
  exact hpushed

/-- What a propagation has done with the queue, for whatever values and ranks it began with. -/
structure Drained (s : Search) (taken pushed : List Nat) (t : Search) : Prop where
  empty : t.queue.items = []
  nodup : pushed.Nodup
  vacant : ∀ r ∈ pushed, s.valuation.slots[r]? = some none
  paid : taken.Subperm (pushed ++ s.queue.items)
  counts : s.Counts t taken.length pushed.length

theorem Drains.drained (h : Drains p s taken pushed t conflict) : Drained s taken pushed t := by
  induction h with
  | idle hpop =>
    refine ⟨?_, .nil, by simp, List.nil_subperm, _, rfl⟩
    rw [pop?, Option.map_eq_none_iff] at hpop
    unfold BoundedStack.pop? at hpop
    split at hpop
    · assumption
    · exact absurd hpop (by simp)
  | @conflict s popped t rank clause value pushed hpop hvalue hfollow hqueue =>
    obtain ⟨hitems, hvaluation, hcounts⟩ := pop?_eq_some hpop
    have hpushed := pushes_of_follow hfollow hqueue
    refine ⟨rfl, hpushed.nodup, ?_, ?_, ?_⟩
    · rw [← hvaluation]
      exact hpushed.vacant
    · rw [hitems, List.singleton_subperm_iff]
      simp
    · have hround := hcounts.trans hpushed.counts
      rw [Nat.zero_add] at hround
      exact hround
  | @round s popped t u rank value taken pushed more conflict hpop hvalue hfollow hqueue hrest ih =>
    obtain ⟨hitems, hvaluation, hcounts⟩ := pop?_eq_some hpop
    have hpushed := pushes_of_follow hfollow hqueue
    refine ⟨ih.empty, ?_, ?_, ?_, ?_⟩
    · refine List.nodup_append'.2 ⟨ih.nodup, hpushed.nodup, fun r hmore hmem => ?_⟩
      apply hpushed.valued r hmem
      exact Valuation.value?_of_slot (ih.vacant r hmore)
    · rw [← hvaluation]
      exact List.forall_mem_append.2
        ⟨fun r hr => vacant_of_extends hpushed.size hpushed.extends_valuation (ih.vacant r hr),
          hpushed.vacant⟩
    · have hpaid : (rank :: taken).Subperm (rank :: (more ++ t.queue.items)) :=
        List.subperm_cons rank |>.2 ih.paid
      rw [hqueue, ← List.append_assoc] at hpaid
      rw [hitems]
      exact hpaid.trans List.perm_middle.symm.subperm
    · have hrounds := (hcounts.trans hpushed.counts).trans ih.counts
      rw [Nat.zero_add, Nat.add_zero, Nat.add_comm 1, Nat.add_comm pushed.length] at hrounds
      rw [List.length_cons, List.length_append]
      exact hrounds

theorem Coherent.mem_unvalued (hs : s.Coherent p) (h : s.valuation.slots[rank]? = some none) :
    rank ∈ s.valuation.unvalued := by
  have hlt := (Array.getElem?_eq_some_iff.1 h).1
  have hnone : s.valuation.value? rank = none := Valuation.value?_of_slot h
  refine Valuation.mem_unvalued.2 ⟨Nat.pos_of_ne_zero ?_, ?_, hnone⟩
  · rintro rfl
    simp [hs.top] at hnone
  · simp only [Valuation.variableCount]
    omega

/-- Each rank taken is one of those that waited or had no value when the propagation began. -/
theorem Drains.paid (h : Drains p s taken pushed t conflict) (hs : s.Coherent p) :
    (pushed ++ s.queue.items).Nodup ∧ (∀ r ∈ pushed, r ∈ s.valuation.unvalued) ∧
      taken.Subperm (pushed ++ s.queue.items) ∧
      taken.length ≤ s.queue.size + s.valuation.unvalued.length := by
  obtain ⟨-, hnodup, hvacant, hpaid, -⟩ := h.drained
  have hpushed : ∀ r ∈ pushed, r ∈ s.valuation.unvalued := fun r hr => hs.mem_unvalued (hvacant r hr)
  refine ⟨List.nodup_append'.2 ⟨hnodup, hs.queue_nodup, fun r hr hwaits => ?_⟩, hpushed, hpaid, ?_⟩
  · exact (hs.queue_valued r hwaits).2 (Valuation.mem_unvalued.1 (hpushed r hr)).2.2
  · have hfew := (List.subperm_of_subset hnodup hpushed).length_le
    have htaken := hpaid.length_le
    rw [List.length_append] at htaken
    rw [BoundedStack.size]
    omega

end ClauseSearch.Search
