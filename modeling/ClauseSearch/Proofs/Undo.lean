import ClauseSearch.Proofs.Trail

/-! A state grows from another by log entries: what differs between the two is what the entries name, and that
had no value and no flag before. Backtracking takes off the entries down to the latest decision, which
restores valuation, flags, counts and logs exactly and leaves what was counted, found and reported in
between. -/

namespace ClauseSearch.Search

variable {p : Prepared} {s t u : Search} {rank clause : Nat} {b : Bool} {l : Literal}
  {entries entries' : List Assigned} {marks marks' : List Mark}

/-- The state with what another one has counted, found and reported. -/
def carrying (s t : Search) : Search :=
  { s with tally := t.tally, solutions := t.solutions, trace := t.trace }

/-! ### Growth -/

/-- The second state is the first with further log entries, the latest first: it differs from the first
on the ranks and clauses they name, which had no value and no flag there. -/
structure Grows (s t : Search) (entries : List Assigned) (marked : List Mark) : Prop where
  assigned : t.assigned.items = entries ++ s.assigned.items
  marks : t.marks.items = marked ++ s.marks.items
  values : ∀ r, t.valuation.value? r = s.valuation.value? r ∨ r ∈ ranksOf entries
  fresh_ranks : ∀ r ∈ ranksOf entries, s.valuation.value? r = none
  flags : ∀ c, t.flags[c]? = s.flags[c]? ∨ c ∈ clausesOf marked
  fresh_clauses : ∀ c ∈ clausesOf marked, s.flags[c]? = some false

namespace Grows

theorem trans (h : Grows s t entries marks) (h' : Grows t u entries' marks') :
    Grows s u (entries' ++ entries) (marks' ++ marks) where
  assigned := by rw [h'.assigned, h.assigned, List.append_assoc]
  marks := by rw [h'.marks, h.marks, List.append_assoc]
  values r := by
    rw [ranksOf_append, List.mem_append]
    rcases h'.values r with heq | hmem
    · rw [heq]
      exact (h.values r).imp_right .inr
    · exact .inr (.inl hmem)
  fresh_ranks r hr := by
    rw [ranksOf_append, List.mem_append] at hr
    rcases hr with hr | hr
    · rcases h.values r with heq | hmem
      · rw [← heq]
        exact h'.fresh_ranks r hr
      · exact h.fresh_ranks r hmem
    · exact h.fresh_ranks r hr
  flags c := by
    rw [clausesOf_append, List.mem_append]
    rcases h'.flags c with heq | hmem
    · rw [heq]
      exact (h.flags c).imp_right .inr
    · exact .inr (.inl hmem)
  fresh_clauses c hc := by
    rw [clausesOf_append, List.mem_append] at hc
    rcases hc with hc | hc
    · rcases h.flags c with heq | hmem
      · rw [← heq]
        exact h'.fresh_clauses c hc
      · exact h.fresh_clauses c hmem
    · exact h.fresh_clauses c hc

/-- Growth is about valuation, flags and logs. -/
theorem of_eq (hvaluation : t.valuation = s.valuation) (hflags : t.flags = s.flags)
    (hassigned : t.assigned = s.assigned) (hmarks : t.marks = s.marks) : Grows s t [] [] where
  assigned := by rw [hassigned, List.nil_append]
  marks := by rw [hmarks, List.nil_append]
  values r := .inl (by rw [hvaluation])
  fresh_ranks := by simp [ranksOf]
  flags c := .inl (by rw [hflags])
  fresh_clauses := by simp [clausesOf]

end Grows

theorem grows_valued {entry : Assigned} (hr : rank < s.valuation.slots.size)
    (hv : s.valuation.value? rank = none) (hentry : entry.rank = rank) {added : List Mark}
    (hadded : clausesOf added = []) (htval : t.valuation = s.valuation.put rank (some b))
    (htflags : t.flags = s.flags) (htassigned : t.assigned.items = entry :: s.assigned.items)
    (htmarks : t.marks.items = added ++ s.marks.items) : Grows s t [entry] added where
  assigned := htassigned
  marks := htmarks
  values r := by
    rw [htval, Valuation.value?_put hr]
    by_cases h : r = rank
    · exact .inr (by simp [ranksOf, hentry, h])
    · exact .inl (if_neg h)
  fresh_ranks r hmem := by
    have heq : r = rank := by simpa [ranksOf, hentry] using hmem
    rw [heq, hv]
  flags c := .inl (by rw [htflags])
  fresh_clauses := by simp [hadded]

theorem grows_forced (hr : l.var < s.valuation.slots.size) (hv : s.valuation.value? l.var = none) :
    Grows s (s.forced l) [.forced l.var] [] :=
  grows_valued hr hv rfl rfl rfl rfl rfl rfl

theorem grows_entered (hr : rank < s.valuation.slots.size) (hv : s.valuation.value? rank = none) :
    Grows s (s.entered rank b) [.decided rank] [.level] :=
  grows_valued hr hv rfl rfl rfl rfl rfl rfl

theorem grows_flagged (hc : s.flags[clause]? = some false) :
    Grows s (s.flagged clause) [] [.clause clause] where
  assigned := rfl
  marks := rfl
  values _ := .inl rfl
  fresh_ranks := by simp [ranksOf]
  flags c := by
    have hlt := (Array.getElem?_eq_some_iff.1 hc).1
    simp only [Search.flagged]
    rw [getElem?_set_flag hlt]
    by_cases h : c = clause
    · exact .inr (by simp [clausesOf, Mark.clause?, h])
    · exact .inl (if_neg h)
  fresh_clauses c hmem := by
    have heq : c = clause := by simpa [clausesOf, Mark.clause?] using hmem
    rw [heq, hc]

/-! ### Taking entries back -/

theorem unassign_eq_ok (hcount : s.valuedCount = s.valuation.valuedCount) (hr : 0 < rank)
    (hv : s.valuation.value? rank ≠ none) :
    s.unassign rank = .ok { s with
      valuation := s.valuation.put rank none
      valuedCount := (s.valuation.put rank none).valuedCount } := by
  obtain ⟨b, hb⟩ := Option.ne_none_iff_exists'.1 hv
  have hlt := Valuation.lt_size_of_value? hb
  rw [unassign, Valuation.write?_eq_put hlt, hcount, ← Valuation.valuedCount_put_none hr hb]
  rfl

theorem foldlM_unassign (hcount : s.valuedCount = s.valuation.valuedCount)
    (hnodup : (ranksOf entries).Nodup)
    (hvalued : ∀ r ∈ ranksOf entries, 0 < r ∧ s.valuation.value? r ≠ none) :
    ∃ v : Valuation, entries.foldlM (fun s entry => s.unassign entry.rank) s =
        .ok { s with valuation := v, valuedCount := v.valuedCount } ∧
      v.slots.size = s.valuation.slots.size ∧
      ∀ r, v.value? r = if r ∈ ranksOf entries then none else s.valuation.value? r := by
  induction entries generalizing s with
  | nil => exact ⟨s.valuation, by rw [← hcount]; rfl, rfl, fun r => by simp [ranksOf]⟩
  | cons entry entries ih =>
    rw [ranksOf_cons, List.nodup_cons] at hnodup
    obtain ⟨hr, hv⟩ := hvalued entry.rank (by simp)
    obtain ⟨b, hb⟩ := Option.ne_none_iff_exists'.1 hv
    have hlt := Valuation.lt_size_of_value? hb
    have hstep := unassign_eq_ok hcount hr hv
    rw [Sequence.foldlM_cons_ok (f := fun (s : Search) (e : Assigned) => s.unassign e.rank) hstep]
    obtain ⟨v, hfold, hsize, hread⟩ := ih
      (s := { s with
        valuation := s.valuation.put entry.rank none
        valuedCount := (s.valuation.put entry.rank none).valuedCount }) rfl hnodup.2
      (fun r hmem => by
        refine ⟨(hvalued r (by simp [hmem])).1, ?_⟩
        have hne : r ≠ entry.rank := fun h => hnodup.1 (h ▸ hmem)
        rw [Valuation.value?_put_ne hne]
        exact (hvalued r (by simp [hmem])).2)
    refine ⟨v, hfold, by simpa using hsize, fun r => ?_⟩
    rw [hread, Valuation.value?_put hlt, ranksOf_cons]
    by_cases hmem : r ∈ ranksOf entries
    · simp [hmem]
    · by_cases heq : r = entry.rank <;> simp [hmem, heq]

theorem unflag_eq_ok (hcount : s.flaggedCount = flagCount s.flags)
    (hc : s.flags[clause]? = some true) :
    s.unflag clause = .ok { s with
      flags := s.flags.setIfInBounds clause false
      flaggedCount := flagCount (s.flags.setIfInBounds clause false) } := by
  rw [unflag, Fault.lookup_eq_ok.2 hc, hcount, ← flagCount_clear hc]
  rfl

theorem foldlM_unflag {clauses : List Nat} (hcount : s.flaggedCount = flagCount s.flags)
    (hnodup : clauses.Nodup) (hflagged : ∀ c ∈ clauses, s.flags[c]? = some true) :
    ∃ flags : Array Bool, clauses.foldlM unflag s =
        .ok { s with flags, flaggedCount := flagCount flags } ∧
      flags.size = s.flags.size ∧
      ∀ c, flags[c]? = if c ∈ clauses then some false else s.flags[c]? := by
  induction clauses generalizing s with
  | nil => exact ⟨s.flags, by rw [← hcount]; rfl, rfl, fun c => by simp⟩
  | cons c clauses ih =>
    rw [List.nodup_cons] at hnodup
    have hc := hflagged c List.mem_cons_self
    have hlt := (Array.getElem?_eq_some_iff.1 hc).1
    rw [Sequence.foldlM_cons_ok (unflag_eq_ok hcount hc)]
    obtain ⟨flags, hfold, hsize, hread⟩ := ih
      (s := { s with
        flags := s.flags.setIfInBounds c false
        flaggedCount := flagCount (s.flags.setIfInBounds c false) }) rfl hnodup.2
      (fun d hmem => by
        have hne : d ≠ c := fun h => hnodup.1 (h ▸ hmem)
        rw [getElem?_set_flag hlt, if_neg hne]
        exact hflagged d (List.mem_cons_of_mem c hmem))
    refine ⟨flags, hfold, by simpa using hsize, fun d => ?_⟩
    rw [hread, getElem?_set_flag hlt]
    by_cases hmem : d ∈ clauses
    · simp [hmem]
    · by_cases heq : d = c <;> simp [hmem, heq]

theorem Grows.unassign (hg : Grows s t entries marks) (hs : s.Coherent p) (ht : t.Coherent p)
    {assigned : BoundedStack Assigned} :
    entries.foldlM (fun s entry => s.unassign entry.rank) { t with assigned } =
      .ok { t with assigned, valuation := s.valuation, valuedCount := s.valuedCount } := by
  have hnodup := ht.logged_nodup
  have hvalued := ht.logged_valued
  rw [hg.assigned, ranksOf_append] at hnodup hvalued
  obtain ⟨v, hfold, hsize, hread⟩ := foldlM_unassign (s := { t with assigned }) ht.valuedCount
    hnodup.of_append_left fun r hr => hvalued r (List.mem_append_left _ hr)
  have hv : v = s.valuation := by
    refine Valuation.ext_value? (by rw [hsize, hs.slots]; exact ht.slots) fun r => ?_
    rw [hread]
    split
    · rename_i hr
      exact (hg.fresh_ranks r hr).symm
    · rename_i hr
      exact (hg.values r).resolve_right hr
  rw [hfold, hv, ← hs.valuedCount]

theorem Grows.unflag (hg : Grows s t entries marks) (hs : s.Coherent p) (ht : t.Coherent p)
    (hflags : u.flags = t.flags) (hcount : u.flaggedCount = t.flaggedCount) :
    (clausesOf marks).foldlM unflag u =
      .ok { u with flags := s.flags, flaggedCount := s.flaggedCount } := by
  have hnodup := ht.marked_nodup
  have hflagged := ht.marked_flagged
  rw [hg.marks, clausesOf_append] at hnodup hflagged
  obtain ⟨flags, hfold, -, hread⟩ := foldlM_unflag (s := u)
    (by rw [hcount, ht.flaggedCount, hflags]) hnodup.of_append_left fun c hc => by
      rw [hflags]
      exact hflagged c (List.mem_append_left _ hc)
  have heq : flags = s.flags := by
    refine Array.ext_getElem? fun c => ?_
    rw [hread, hflags]
    split
    · rename_i hc
      exact (hg.fresh_clauses c hc).symm
    · rename_i hc
      exact (hg.flags c).resolve_right hc
  rw [hfold, heq, ← hs.flaggedCount]

/-- Backtracking that takes off just what a growth has logged takes all of it back. -/
theorem Grows.backtrack (hg : Grows s t entries marks) (hs : s.Coherent p) (ht : t.Coherent p)
    (hqueue : s.queue.items = [])
    (hentries : (t.assigned.popThrough (·.isDecision)).1 = entries ∧
      (t.assigned.popThrough (·.isDecision)).2.items = s.assigned.items)
    (hmarks : (t.marks.popThrough (·.isLevel)).1 = marks ∧
      (t.marks.popThrough (·.isLevel)).2.items = s.marks.items) :
    t.backtrack = .ok (s.carrying t) := by
  have hrest : (t.assigned.popThrough (·.isDecision)).2 = s.assigned := by
    apply BoundedStack.ext_items hentries.2
    rw [BoundedStack.capacity_popThrough, ht.assigned_capacity, hs.assigned_capacity]
  have hrest' : (t.marks.popThrough (·.isLevel)).2 = s.marks := by
    apply BoundedStack.ext_items hmarks.2
    rw [BoundedStack.capacity_popThrough, ht.marks_capacity, hs.marks_capacity]
  have hclear : t.queue.clear = s.queue := by
    apply BoundedStack.ext_items hqueue.symm
    rw [BoundedStack.capacity_clear, ht.queue_capacity, hs.queue_capacity]
  have hunflag := hg.unflag hs ht
    (u := { t with
      valuation := s.valuation, valuedCount := s.valuedCount, assigned := s.assigned,
      marks := s.marks }) rfl rfl
  unfold Search.backtrack
  simp only [hentries.1, hrest, hg.unassign hs ht]
  change ((t.marks.popThrough (·.isLevel)).1.filterMap (·.clause?)).foldlM Search.unflag
    { t with
      assigned := s.assigned, valuation := s.valuation, valuedCount := s.valuedCount,
      marks := (t.marks.popThrough (·.isLevel)).2 } >>= _ = _
  rw [hmarks.1, hrest']
  change (clausesOf _).foldlM Search.unflag _ >>= _ = _
  rw [hunflag]
  change Except.ok _ = Except.ok _
  rw [hclear]
  rfl

/-! ### Without a decision -/

/-- The second state has grown from the first with no decision. -/
def Grown (s t : Search) : Prop :=
  ∃ entries marks, Grows s t entries marks ∧ (∀ e ∈ entries, e.isDecision = false) ∧
    ∀ m ∈ marks, m.isLevel = false

theorem Grown.refl (s : Search) : Grown s s := ⟨[], [], .of_eq rfl rfl rfl rfl, by simp, by simp⟩

theorem Grown.trans (h : Grown s t) (h' : Grown t u) : Grown s u := by
  obtain ⟨entries, marks, hg, hentries, hmarks⟩ := h
  obtain ⟨entries', marks', hg', hentries', hmarks'⟩ := h'
  exact ⟨_, _, hg.trans hg', List.forall_mem_append.2 ⟨hentries', hentries⟩,
    List.forall_mem_append.2 ⟨hmarks', hmarks⟩⟩

/-- What is counted, found and reported is no part of a growth. -/
theorem Grown.carrying (h : Grown s t) (u : Search) : Grown s (t.carrying u) := by
  obtain ⟨entries, marks, hg, hentries, hmarks⟩ := h
  exact ⟨entries, marks, { hg with }, hentries, hmarks⟩

/-- Backtracking with no decision to undo takes everything logged back. -/
theorem Grown.backtrack (h : Grown s t) (hs : s.Coherent p) (ht : t.Coherent p)
    (hqueue : s.queue.items = []) (hassigned : s.assigned.items = []) (hmarked : s.marks.items = []) :
    t.backtrack = .ok (s.carrying t) := by
  obtain ⟨entries, marks, hg, hentries, hmarks⟩ := h
  have hassigned' := hg.assigned
  have hmarked' := hg.marks
  rw [hassigned, List.append_nil] at hassigned'
  rw [hmarked, List.append_nil] at hmarked'
  have hall := BoundedStack.popThrough_eq_all (hassigned' ▸ hentries)
  have hall' := BoundedStack.popThrough_eq_all (hmarked' ▸ hmarks)
  exact hg.backtrack hs ht hqueue ⟨hall.1.trans hassigned', hall.2.trans hassigned.symm⟩
    ⟨hall'.1.trans hmarked', hall'.2.trans hmarked.symm⟩

/-! ### Below a decision -/

/-- The second state has grown from the first by one decision and what followed from it. -/
def Below (s t : Search) : Prop :=
  ∃ rank entries marks, Grows s t (entries ++ [.decided rank]) (marks ++ [.level]) ∧
    (∀ e ∈ entries, e.isDecision = false) ∧ ∀ m ∈ marks, m.isLevel = false

theorem below_entered (hr : rank < s.valuation.slots.size)
    (hv : s.valuation.value? rank = none) : Below s (s.entered rank b) :=
  ⟨rank, [], [], grows_entered hr hv, by simp, by simp⟩

theorem Below.grown (h : Below s t) (hg : Grown t u) : Below s u := by
  obtain ⟨rank, entries, marks, hg', hentries, hmarks⟩ := h
  obtain ⟨entries', marks', hg, hentries', hmarks'⟩ := hg
  refine ⟨rank, entries' ++ entries, marks' ++ marks, ?_,
    List.forall_mem_append.2 ⟨hentries', hentries⟩, List.forall_mem_append.2 ⟨hmarks', hmarks⟩⟩
  rw [List.append_assoc, List.append_assoc]
  exact hg'.trans hg

/-- Backtracking from below a decision restores the state before the decision. -/
theorem Below.backtrack (h : Below s t) (hs : s.Coherent p) (ht : t.Coherent p)
    (hqueue : s.queue.items = []) : t.backtrack = .ok (s.carrying t) := by
  obtain ⟨rank, entries, marks, hg, hentries, hmarks⟩ := h
  have hassigned := hg.assigned
  have hmarked := hg.marks
  rw [List.append_assoc] at hassigned hmarked
  exact hg.backtrack hs ht hqueue (BoundedStack.popThrough_eq hassigned hentries rfl)
    (BoundedStack.popThrough_eq hmarked hmarks rfl)

end ClauseSearch.Search
