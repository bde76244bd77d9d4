import ClauseSearch.Proofs.ElementarySteps

/-! The trail at every point of a run. Between any two elementary steps the counts are those of the valuation and
the flags, the logs name exactly what the run has valued and flagged, assumptions apart, and as many decisions
are logged as frames are open.

What the logs name is relative to the state that the run began in: a fork inherits values and flags that no log
names, and nothing takes them back. -/

namespace ClauseSearch.Search

variable {p : Prepared} {s t origin : Search} {x y : Point} {l : Literal} {rank clause frames frames' : Nat}
  {b : Bool} {assumed : List Nat}

/-! ### Backtracking from any state -/

/-- The second state is the first with all taken back that was logged since the latest decision, and that
decision; without a decision, with everything logged taken back. -/
structure Undone (s t : Search) : Prop where
  assigned : t.assigned = (s.assigned.popThrough (·.isDecision)).2
  marks : t.marks = (s.marks.popThrough (·.isLevel)).2
  queue : t.queue = s.queue.clear
  slots : t.valuation.slots.size = s.valuation.slots.size
  value? : ∀ r, t.valuation.value? r =
    if r ∈ ranksOf (s.assigned.popThrough (·.isDecision)).1 then none else s.valuation.value? r
  valuedCount : t.valuedCount = t.valuation.valuedCount
  flags : t.flags.size = s.flags.size
  flag : ∀ c, t.flags[c]? =
    if c ∈ clausesOf (s.marks.popThrough (·.isLevel)).1 then some false else s.flags[c]?
  flaggedCount : t.flaggedCount = flagCount t.flags

theorem ranksOf_popThrough (s : Search) (q : Assigned → Bool) :
    ranksOf (s.assigned.popThrough q).1 ++ ranksOf (s.assigned.popThrough q).2.items =
      ranksOf s.assigned.items := by
  rw [← ranksOf_append, BoundedStack.items_popThrough]

theorem clausesOf_popThrough (s : Search) (q : Mark → Bool) :
    clausesOf (s.marks.popThrough q).1 ++ clausesOf (s.marks.popThrough q).2.items =
      clausesOf s.marks.items := by
  rw [← clausesOf_append, BoundedStack.items_popThrough]

theorem Coherent.undone (h : s.Coherent p) (ht : s.backtrack = .ok t) : Undone s t := by
  have hranks := s.ranksOf_popThrough (·.isDecision)
  have hclauses := s.clausesOf_popThrough (·.isLevel)
  have hlogged := h.logged_nodup
  have hvalued := h.logged_valued
  have hmarked := h.marked_nodup
  have hflagged := h.marked_flagged
  rw [← hranks] at hlogged hvalued
  rw [← hclauses] at hmarked hflagged
  obtain ⟨v, hunassign, hslots, hvalue⟩ := foldlM_unassign
    (s := { s with assigned := (s.assigned.popThrough (·.isDecision)).2 }) h.valuedCount
    hlogged.of_append_left fun r hr => hvalued r (List.mem_append_left _ hr)
  obtain ⟨flags, hunflag, hsize, hflag⟩ := foldlM_unflag
    (s := { s with
      assigned := (s.assigned.popThrough (·.isDecision)).2
      valuation := v, valuedCount := v.valuedCount
      marks := (s.marks.popThrough (·.isLevel)).2 }) h.flaggedCount
    hmarked.of_append_left fun c hc => hflagged c (List.mem_append_left _ hc)
  unfold Search.backtrack at ht
  simp only [hunassign] at ht
  change (clausesOf (s.marks.popThrough (·.isLevel)).1).foldlM Search.unflag _ >>= _ = _ at ht
  rw [hunflag] at ht
  cases ht
  exact
    { assigned := rfl
      marks := rfl
      queue := rfl
      slots := hslots
      value? := hvalue
      valuedCount := rfl
      flags := hsize
      flag := hflag
      flaggedCount := rfl }

theorem Undone.extends_valuation (h : Undone s t) : s.valuation.Extends t.valuation := by
  intro r b hr
  rw [h.value?] at hr
  split at hr
  · cases hr
  · exact hr

theorem Undone.value?_of_not_logged (h : Undone s t) (hr : rank ∉ ranksOf s.assigned.items) :
    t.valuation.value? rank = s.valuation.value? rank := by
  rw [← s.ranksOf_popThrough (·.isDecision), List.mem_append, not_or] at hr
  rw [h.value?, if_neg hr.1]

theorem Undone.flag_of_flagged (h : Undone s t) (hc : t.flags[clause]? = some true) :
    s.flags[clause]? = some true := by
  rw [h.flag] at hc
  split at hc
  · simp at hc
  · exact hc

theorem Undone.flag_of_not_marked (h : Undone s t) (hc : clause ∉ clausesOf s.marks.items) :
    t.flags[clause]? = s.flags[clause]? := by
  rw [← s.clausesOf_popThrough (·.isLevel), List.mem_append, not_or] at hc
  rw [h.flag, if_neg hc.1]

/-- Of what a log named once, what is left is what was not popped. -/
theorem mem_left_iff {popped left named : List Nat} (h : popped ++ left = named) (hnodup : named.Nodup)
    (a : Nat) : a ∈ left ↔ a ∈ named ∧ a ∉ popped := by
  subst h
  rw [List.mem_append]
  constructor
  · intro hleft
    exact ⟨.inr hleft, fun hpopped => List.disjoint_of_nodup_append hnodup hpopped hleft⟩
  · rintro ⟨hmem, hnot⟩
    exact hmem.resolve_left hnot

/-- Of the ranks logged, those that have kept their value are still logged. -/
theorem Undone.mem_ranksOf_iff (h : Undone s t) (hs : s.Coherent p) :
    rank ∈ ranksOf t.assigned.items ↔
      rank ∈ ranksOf s.assigned.items ∧ t.valuation.value? rank ≠ none := by
  rw [h.assigned, mem_left_iff (s.ranksOf_popThrough _) hs.logged_nodup, and_congr_right_iff]
  intro hlogged
  have hvalued := (hs.logged_valued rank hlogged).2
  rw [h.value?]
  split
  · rename_i hpopped
    simp [hpopped]
  · rename_i hleft
    simp [hleft, hvalued]

/-- Of the clauses marked, those that have kept their flag are still marked. -/
theorem Undone.mem_clausesOf_iff (h : Undone s t) (hs : s.Coherent p) :
    clause ∈ clausesOf t.marks.items ↔
      clause ∈ clausesOf s.marks.items ∧ t.flags[clause]? = some true := by
  rw [h.marks, mem_left_iff (s.clausesOf_popThrough _) hs.marked_nodup, and_congr_right_iff]
  intro hmarked
  have hflagged := hs.marked_flagged clause hmarked
  rw [h.flag]
  split
  · rename_i hpopped
    simp [hpopped]
  · rename_i hleft
    simp [hleft, hflagged]

theorem Undone.coherent (h : Undone s t) (hs : s.Coherent p) : t.Coherent p where
  slots := h.slots.trans hs.slots
  top := by
    rw [h.value?_of_not_logged fun hmem => absurd (hs.logged_valued 0 hmem).1 (by decide), hs.top]
  valuedCount := h.valuedCount
  flags := h.flags.trans hs.flags
  flaggedCount := h.flaggedCount
  logged_nodup := by
    have hnodup := hs.logged_nodup
    rw [← s.ranksOf_popThrough (·.isDecision), ← h.assigned] at hnodup
    exact hnodup.of_append_right
  logged_valued r hr := by
    obtain ⟨hlogged, hv⟩ := (h.mem_ranksOf_iff hs).1 hr
    exact ⟨(hs.logged_valued r hlogged).1, hv⟩
  marked_nodup := by
    have hnodup := hs.marked_nodup
    rw [← s.clausesOf_popThrough (·.isLevel), ← h.marks] at hnodup
    exact hnodup.of_append_right
  marked_flagged c hc := ((h.mem_clausesOf_iff hs).1 hc).2
  levels := by
    rw [h.marks, h.assigned]
    show List.countP Mark.isLevel _ = List.countP Assigned.isDecision _
    rw [BoundedStack.countP_popThrough, BoundedStack.countP_popThrough, hs.levels]
  queue_nodup := by simp [h.queue]
  queue_valued := by simp [h.queue]
  queue_capacity := by rw [h.queue, BoundedStack.capacity_clear, hs.queue_capacity]
  assigned_capacity := by rw [h.assigned, BoundedStack.capacity_popThrough, hs.assigned_capacity]
  marks_capacity := by rw [h.marks, BoundedStack.capacity_popThrough, hs.marks_capacity]

/-! ### The invariant -/

/-- Counts, logs and queue agree with the valuation and the flags, and the logs name exactly what the run has
valued and flagged since it began, assumptions apart. -/
structure Audited (p : Prepared) (origin : Search) (x : Point) : Prop extends
    Coherent p x.search where
  extends_origin : x.search.valuation.Extends origin.valuation
  assumed_valued : ∀ r ∈ x.assumed, x.search.valuation.value? r ≠ none
  logged_iff : ∀ r, r ∈ ranksOf x.search.assigned.items ↔
    x.search.valuation.value? r ≠ none ∧ origin.valuation.value? r = none ∧ r ∉ x.assumed
  keeps_flags : ∀ c : Nat, origin.flags[c]? = some true → x.search.flags[c]? = some true
  marked_iff : ∀ c : Nat, c ∈ clausesOf x.search.marks.items ↔
    x.search.flags[c]? = some true ∧ origin.flags[c]? ≠ some true
  decisions : x.search.assigned.items.countP Assigned.isDecision = x.frames

theorem audited_start (h : origin.Coherent p) (hassigned : origin.assigned.items = [])
    (hmarks : origin.marks.items = []) : Audited p origin (.start origin) where
  toCoherent := h
  extends_origin := .refl _
  assumed_valued := by simp [Point.start]
  logged_iff r := by
    show r ∈ ranksOf origin.assigned.items ↔ _
    rw [hassigned]
    exact ⟨fun hr => absurd hr List.not_mem_nil, fun hr => absurd hr.2.1 hr.1⟩
  keeps_flags _ hc := hc
  marked_iff c := by
    show c ∈ clausesOf origin.marks.items ↔ _
    rw [hmarks]
    exact ⟨fun hc => absurd hc List.not_mem_nil, fun hc => absurd hc.1 hc.2⟩
  decisions := by
    show origin.assigned.items.countP Assigned.isDecision = 0
    rw [hassigned]
    rfl

/-! ### What one step preserves -/

theorem Audited.same (h : Audited p origin ⟨s, assumed, frames⟩) (ht : t.Coherent p)
    (hvaluation : t.valuation = s.valuation) (hflags : t.flags = s.flags)
    (hassigned : t.assigned = s.assigned) (hmarks : t.marks = s.marks) :
    Audited p origin ⟨t, assumed, frames⟩ where
  toCoherent := ht
  extends_origin := by rw [hvaluation]; exact h.extends_origin
  assumed_valued := by rw [hvaluation]; exact h.assumed_valued
  logged_iff := by rw [hvaluation, hassigned]; exact h.logged_iff
  keeps_flags := by rw [hflags]; exact h.keeps_flags
  marked_iff := by rw [hflags, hmarks]; exact h.marked_iff
  decisions := by rw [hassigned]; exact h.decisions

/-- A rank that gets a value is logged: it had none when the run began, and no assumption gave it one. -/
theorem Audited.logged {e : Assigned} (h : Audited p origin ⟨s, assumed, frames⟩)
    (ht : t.Coherent p) (hlt : e.rank < s.valuation.slots.size)
    (hv : s.valuation.value? e.rank = none) (hvaluation : t.valuation = s.valuation.put e.rank (some b))
    (hflags : t.flags = s.flags) (hassigned : t.assigned.items = e :: s.assigned.items)
    (hmarks : clausesOf t.marks.items = clausesOf s.marks.items)
    (hframes : (e :: s.assigned.items).countP Assigned.isDecision = frames') :
    Audited p origin ⟨t, assumed, frames'⟩ where
  toCoherent := ht
  extends_origin := by
    rw [hvaluation]
    exact (Valuation.extends_put hv).trans h.extends_origin
  assumed_valued r hr := by
    rw [hvaluation]
    exact fun hnone => h.assumed_valued r hr ((Valuation.extends_put hv).value?_eq_none hnone)
  logged_iff r := by
    have hvacant : origin.valuation.value? e.rank = none := h.extends_origin.value?_eq_none hv
    have hfree : e.rank ∉ assumed := fun hmem => h.assumed_valued _ hmem hv
    rw [hvaluation, hassigned, ranksOf_cons, List.mem_cons, h.logged_iff r, Valuation.value?_put hlt]
    by_cases hr : r = e.rank
    · simp [hr, hvacant, hfree]
    · simp [hr]
  keeps_flags := by rw [hflags]; exact h.keeps_flags
  marked_iff := by rw [hflags, hmarks]; exact h.marked_iff
  decisions := by rw [hassigned]; exact hframes

theorem Audited.flagged (h : Audited p origin ⟨s, assumed, frames⟩)
    (hc : s.flags[clause]? = some false) : Audited p origin ⟨s.flagged clause, assumed, frames⟩ where
  toCoherent := h.toCoherent.flagged hc
  extends_origin := h.extends_origin
  assumed_valued := h.assumed_valued
  logged_iff := h.logged_iff
  keeps_flags c hkept := by
    show (s.flags.setIfInBounds clause true)[c]? = some true
    rw [getElem?_set_flag (Array.getElem?_eq_some_iff.1 hc).1]
    split
    · rfl
    · exact h.keeps_flags c hkept
  marked_iff c := by
    have hnew : origin.flags[clause]? ≠ some true := fun hold => by
      simp [h.keeps_flags clause hold] at hc
    show c ∈ clausesOf (.clause clause :: s.marks.items) ↔
      (s.flags.setIfInBounds clause true)[c]? = some true ∧ _
    rw [clausesOf_clause, List.mem_cons, h.marked_iff c,
      getElem?_set_flag (Array.getElem?_eq_some_iff.1 hc).1]
    by_cases heq : c = clause
    · simp [heq, hnew]
    · simp [heq]
  decisions := h.decisions

/-- What is undone was logged, so it is none of what the run began with and none of what was assumed. -/
theorem Audited.undone (h : Audited p origin ⟨s, assumed, frames⟩) (ht : Undone s t) :
    Audited p origin ⟨t, assumed, frames - 1⟩ where
  toCoherent := ht.coherent h.toCoherent
  extends_origin := by
    intro r b hr
    show t.valuation.value? r = some b
    rw [ht.value?_of_not_logged fun hmem => by simp [((h.logged_iff r).1 hmem).2.1] at hr]
    exact h.extends_origin r b hr
  assumed_valued := by
    intro r hr
    show t.valuation.value? r ≠ none
    rw [ht.value?_of_not_logged fun hmem => ((h.logged_iff r).1 hmem).2.2 hr]
    exact h.assumed_valued r hr
  logged_iff := by
    intro r
    show r ∈ ranksOf t.assigned.items ↔ t.valuation.value? r ≠ none ∧ _
    rw [ht.mem_ranksOf_iff h.toCoherent, h.logged_iff r]
    constructor
    · rintro ⟨⟨-, hsince⟩, hv⟩
      exact ⟨hv, hsince⟩
    · rintro ⟨hv, hsince⟩
      exact ⟨⟨fun hnone => hv (ht.extends_valuation.value?_eq_none hnone), hsince⟩, hv⟩
  keeps_flags := by
    intro c hc
    show t.flags[c]? = some true
    rw [ht.flag_of_not_marked fun hmem => ((h.marked_iff c).1 hmem).2 hc]
    exact h.keeps_flags c hc
  marked_iff := by
    intro c
    show c ∈ clausesOf t.marks.items ↔ t.flags[c]? = some true ∧ _
    rw [ht.mem_clausesOf_iff h.toCoherent, h.marked_iff c]
    constructor
    · rintro ⟨⟨-, hsince⟩, hflag⟩
      exact ⟨hflag, hsince⟩
    · rintro ⟨hflag, hsince⟩
      exact ⟨⟨ht.flag_of_flagged hflag, hsince⟩, hflag⟩
  decisions := by
    show t.assigned.items.countP Assigned.isDecision = frames - 1
    rw [ht.assigned]
    show List.countP Assigned.isDecision _ = _
    rw [BoundedStack.countP_popThrough, h.decisions]

/-- An assumption that gives a rank a value is remembered beside the logs. -/
theorem Audited.assuming (h : Audited p origin ⟨s, assumed, frames⟩)
    (ht : s.assume? l = .ok (some t)) :
    Audited p origin
      ⟨t, if s.valuation.value? l.var = none then l.var :: assumed else assumed, frames⟩ := by
  cases hv : s.valuation.value? l.var with
  | some value =>
    simp only [assume?, hv, Except.ok.injEq] at ht
    split at ht
    · cases ht
      rw [if_neg (by simp)]
      exact h
    · cases ht
  | none =>
    simp only [assume?, hv] at ht
    obtain ⟨u, hassign, heq⟩ := Fault.map_eq_ok.1 ht
    obtain rfl := Option.some.inj heq
    obtain ⟨hlt, -, rfl⟩ := valued_of_assign hassign
    obtain ⟨hpos, hle⟩ := h.toCoherent.rank_of_unvalued hlt hv
    have hext : (s.valued l.var l.polarity).valuation.Extends s.valuation := Valuation.extends_put hv
    have hread : ∀ r, (s.valued l.var l.polarity).valuation.value? r =
        if r = l.var then some l.polarity else s.valuation.value? r := fun r => Valuation.value?_put hlt
    rw [if_pos rfl]
    exact
      { toCoherent := h.toCoherent.valued hpos hle hv
        extends_origin := hext.trans h.extends_origin
        assumed_valued := by
          intro r hr
          show (s.valued l.var l.polarity).valuation.value? r ≠ none
          rw [hread]
          split
          · simp
          · rename_i hne
            exact h.assumed_valued r ((List.mem_cons.1 hr).resolve_left hne)
        logged_iff := by
          intro r
          -- the rank assumed is in no log, since it had no value
          have hnot : l.var ∉ ranksOf s.assigned.items := fun hmem => (h.logged_iff _).1 hmem |>.1 hv
          show r ∈ ranksOf s.assigned.items ↔ (s.valued l.var l.polarity).valuation.value? r ≠ none ∧ _
          rw [hread]
          by_cases hr : r = l.var
          · simp [hr, hnot]
          · simpa [hr] using h.logged_iff r
        keeps_flags := h.keeps_flags
        marked_iff := h.marked_iff
        decisions := h.decisions }

/-- Each elementary step preserves the invariant. -/
theorem Audited.step (h : Audited p origin x) (hxy : x.Step y) : Audited p origin y := by
  cases hxy with
  | assume ht => exact h.assuming ht
  | @force s t assumed frames l ht =>
    obtain ⟨hlt, hv, rfl⟩ := forced_of_force ht
    obtain ⟨hpos, hle⟩ := h.toCoherent.rank_of_unvalued hlt hv
    exact h.logged (e := .forced l.var) (h.toCoherent.forced hpos hle hv) hlt hv rfl rfl rfl rfl
      h.decisions
  | flag hc ht =>
    obtain rfl := flagged_of_flag ht
    exact h.flagged hc
  | @enter s t assumed frames rank b ht =>
    obtain ⟨hlt, hv, rfl⟩ := entered_of_enter ht
    obtain ⟨hpos, hle⟩ := h.toCoherent.rank_of_unvalued hlt hv
    apply h.logged (e := .decided rank) (h.toCoherent.entered hpos hle hv) hlt hv rfl rfl rfl rfl
    rw [List.countP_cons, h.decisions]
    rfl
  | pop ht =>
    have hpopped := h.toCoherent.popped ht
    obtain ⟨_, -, heq⟩ := Option.map_eq_some_iff.1 ht
    obtain ⟨-, rfl⟩ := Prod.mk.inj heq
    exact h.same hpopped rfl rfl rfl rfl
  | clear => exact h.same h.toCoherent.clearQueue rfl rfl rfl rfl
  | backtrack ht => exact h.undone (h.toCoherent.undone ht)
  | note s t => exact h.same { h.toCoherent with } rfl rfl rfl rfl

/-! ### What a run preserves -/

theorem Audited.run (h : Audited p origin x) (hxy : x.Run y) : Audited p origin y := by
  induction hxy with
  | refl => exact h
  | tail _ hstep ih => exact ih.step hstep

theorem Origin.audited (h : Origin p origin) : Audited p origin (.start origin) := by
  -- the state that is forked is itself a point of a run
  induction h with
  | fresh => exact audited_start (sound_fresh p).toCoherent rfl rfl
  | fork _ hx ih => exact audited_start (ih.run hx).toCoherent.fork rfl rfl

/-- At every point of every run, from a fresh search or a fork of one, counts, logs and queue agree with the
values and the flags, the logs name exactly what was valued and flagged since the run began, assumptions
apart, and decisions, level markers and open frames are equal in number. Every search in operation is such a
point, and whatever a search does, from one propagation to a whole search, it does in elementary steps. -/
theorem audited_of_run {f : Formula} {byFrequency : Bool} (hf : f.Built)
    (hp : Prepared.ofFormula f byFrequency = .ok (.ok p)) :
    (∀ origin x, Origin p origin → (Point.start origin).Run x → Audited p origin x) ∧
    (∀ moved s, Operated p moved s →
      ∃ origin assumed frames, Origin p origin ∧ (Point.start origin).Run ⟨s, assumed, frames⟩) ∧
    (∀ s t, Within p s t → Leads s t) ∧
    (∀ s t, s.assumePure p = .ok t → Assumes s t) ∧
    ∀ ls s t, Partition.assumeAll ls s = .ok (.ok t) → Assumes s t := by
  obtain ⟨hproper, -⟩ := Prepared.proper_of_ofFormula hf.stored hp
  refine ⟨fun origin x horigin hrun => ?_, fun moved s h => ?_, fun s t h => ?_, fun s t h => ?_,
    fun ls s t h => ?_⟩
  · exact horigin.audited.run hrun
  · exact h.exists_run hproper
  · exact leads_within hproper h
  · exact assumes_assumePure h
  · exact assumes_assumeAll h

/-- A fork inherits the value assumed for rank 1 and decides rank 2: the log names rank 2 alone. -/
theorem audited_of_run_forked : ∃ f p s t,
    f.clauses = #[[⟨1, true⟩, ⟨2, true⟩], [⟨1, false⟩, ⟨2, true⟩]] ∧
      Prepared.ofFormula f true = .ok (.ok p) ∧ (fresh p).assume? ⟨1, true⟩ = .ok (some s) ∧
      s.fork.enter 2 true = .ok t ∧ t.valuation.value? 1 = some true ∧
      ranksOf t.assigned.items = [2] ∧ Audited p s.fork ⟨t, [], 1⟩ := by
  have hf : Formula.Built _ := @Formula.Built.add _ _ [1, 2] _ .empty rfl
  have hf' : Formula.Built _ := @Formula.Built.add _ _ [-1, 2] _ hf rfl
  obtain ⟨p, hp, -, hrenames⟩ := Prepared.ofFormula_eq_ok hf'.stored true
  have hcount : p.variableCount = 2 := hrenames.variableCount
  have hfresh : (fresh p).Coherent p := (sound_fresh p).toCoherent
  have hlt : 1 < (fresh p).valuation.slots.size := hfresh.lt_slots (by omega)
  have hnone : (fresh p).valuation.value? 1 = none := Valuation.value?_fresh (by decide)
  have hassume : (fresh p).assume? ⟨1, true⟩ = .ok (some ((fresh p).valued 1 true)) := by
    simp only [assume?, hnone, assign_eq_ok_of_none hlt hnone]
    rfl
  have hfork : ((fresh p).valued 1 true).fork.Coherent p :=
    (hfresh.valued (by decide) (by omega) hnone).fork
  have hnone' : ((fresh p).valued 1 true).fork.valuation.value? 2 = none := by
    show ((fresh p).valuation.put 1 (some true)).value? 2 = none
    rw [Valuation.value?_put hlt, if_neg (by decide)]
    exact Valuation.value?_fresh (by decide)
  have henter := enter_eq_ok (b := true) hfork (by decide) hcount.ge hnone'
  have horigin : Origin p ((fresh p).valued 1 true).fork := .fork .fresh (.single (.assume hassume))
  obtain ⟨haudited, -⟩ := audited_of_run hf' hp
  refine ⟨_, p, _, _, rfl, hp, hassume, henter, ?_, rfl,
    haudited _ _ horigin (.single (.enter henter))⟩
  show (((fresh p).valuation.put 1 (some true)).put 2 (some true)).value? 1 = some true
  rw [Valuation.value?_put_ne (by decide), Valuation.value?_put_self hlt]

end ClauseSearch.Search
