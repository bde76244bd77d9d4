import ClauseSearch.Proofs.Node

/-! Exact undo. A search that has returned has undone its decisions, whatever it came to: what is left is what
its first propagation came to, with more counted, found and reported. So to begin a decision, to propagate
and search below it in any way and to undo it leaves the values, the flags, their counts and the logs as
they were. This holds of every search that operations lead to, whether or not it is settled, and of every
rank without a value. -/

namespace ClauseSearch.Search

variable {p : Prepared} {o : Options} {watch : Watch} {s t u : Search} {rank depth : Nat} {b : Bool}
  {decided conflict : Option Nat} {ending : Ending} {f : Formula} {byFrequency moved : Bool}

/-! ### What a search leaves -/

/-- The state that a search leaves: what its first propagation came to, with what has been counted, found
and reported since. -/
def LeftBy (p : Prepared) (decided : Option Nat) (s t : Search) : Prop :=
  ∃ u conflict, propagated p decided s = .ok (u, conflict) ∧ u.queue.items = [] ∧ u.Sound p ∧
    Derived p s u ∧ t = u.carrying t

theorem Sound.carrying (h : s.Sound p) (t : Search) : (s.carrying t).Sound p := { h with }

theorem LeftBy.sound (h : LeftBy p decided s t) : t.Sound p := by
  obtain ⟨u, conflict, -, -, hu, -, ht⟩ := h
  rw [ht]
  exact hu.carrying t

theorem LeftBy.grown (h : LeftBy p decided s t) : Grown s t := by
  obtain ⟨u, conflict, -, -, -, hderived, ht⟩ := h
  rw [ht]
  exact Grown.carrying hderived.grows t

/-- Without further hypotheses every clause may have something to say. -/
theorem openBut_true : s.OpenBut p fun _ => True := fun _ _ _ _ _ h => absurd trivial h

theorem advance_of_propagated (hp : p.Proper) (hs : s.Sound p)
    (h : propagated p decided s = .ok (t, conflict)) :
    t.queue.items = [] ∧ Advance p s (fun _ => True) t conflict := by
  obtain ⟨t', conflict', hresult, hadvance⟩ := propagated_spec hp hs fun _ => openBut_true
  rw [h] at hresult
  cases hresult
  exact hadvance

theorem attempt_eq_ok (hs : s.Sound p) (hqueue : s.queue.items = []) (hr : 0 < rank)
    (hn : rank ≤ p.variableCount) (hv : s.valuation.value? rank = none)
    (h : explore p o watch (depth + 1) (some rank) (s.entered rank b) = .ok (ending, t))
    (hleft : LeftBy p (some rank) (s.entered rank b) t) :
    attempt p o watch depth rank b s = .ok (ending, s.carrying t) := by
  have hbelow : Below s t := (below_entered (hs.lt_slots hn) hv).grown hleft.grown
  exact attempt_eq_ok_iff.2 ⟨_, _, enter_eq_ok hs.toCoherent hr hn hv, h,
    hbelow.backtrack hs.toCoherent hleft.sound.toCoherent hqueue⟩

/-- Both decisions on a rank are undone, if what is searched below them is. -/
theorem branch_left (depth : Nat) (hp : p.Proper) (hs : s.Sound p) (hqueue : s.queue.items = [])
    (hr : 0 < rank) (hn : rank ≤ p.variableCount) (hv : s.valuation.value? rank = none)
    (hexplore : ∀ depth {t : Search}, t.Sound p → ∃ ending u,
      explore p o watch depth (some rank) t = .ok (ending, u) ∧ LeftBy p (some rank) t u) :
    ∃ ending t, branch p o watch depth rank s = .ok (ending, s.carrying t) := by
  have hattempt : ∀ b {s : Search}, s.Sound p → s.queue.items = [] → s.valuation.value? rank = none →
      ∃ ending t, attempt p o watch depth rank b s = .ok (ending, s.carrying t) := by
    intro b s hs hqueue hv
    obtain ⟨ending, t, hresult, hleft⟩ := hexplore (depth + 1) (hs.entered (b := b) hr hn hv)
    exact ⟨ending, t, attempt_eq_ok hs hqueue hr hn hv hresult hleft⟩
  obtain ⟨ending, t, hfirst⟩ := hattempt (p.ranking.placeAt rank).preferred hs hqueue hv
  by_cases hends : ending = .ok .exhausted
  · subst hends
    obtain ⟨ending, u, hsecond⟩ :=
      hattempt (!(p.ranking.placeAt rank).preferred) (hs.carrying t) hqueue hv
    exact ⟨ending, u, (branch_eq_ok_iff hp hn).2 (.inr ⟨_, hfirst, hsecond⟩)⟩
  · exact ⟨ending, t, (branch_eq_ok_iff hp hn).2 (.inl ⟨hfirst, hends⟩)⟩

/-- A search from a sound state has a result whatever its checks find, and undoes all that it decides. -/
theorem explore_left (o : Options) (watch : Watch) (depth : Nat) (decided : Option Nat) (hp : p.Proper)
    (hs : s.Sound p) :
    ∃ ending t, explore p o watch depth decided s = .ok (ending, t) ∧ LeftBy p decided s t := by
  -- on the ranks above the cursor
  induction hn : p.variableCount - decided.getD 0 using Nat.strongRecOn
    generalizing s decided depth with
  | _ n ih =>
    obtain ⟨t, conflict, hpropagated, hqueue, hadvance⟩ := propagated_spec hp hs fun _ => openBut_true
    have ht := hadvance.sound
    suffices h : ∃ ending u, explore p o watch depth decided s = .ok (ending, t.carrying u) by
      obtain ⟨ending, u, hresult⟩ := h
      exact ⟨ending, _, hresult, t, conflict, hpropagated, hqueue, ht, hadvance.derived, rfl⟩
    rw [explore_eq hpropagated]
    split
    · exact ⟨_, t.countConflict depth, rfl⟩
    split
    · rw [recordSolution_eq_ok hp (s := t.countSolved) { ht.toCoherent with }]
      exact ⟨_, { t.countSolved with solutions := record p o t.solutions t.valuation }, rfl⟩
    cases watch t.tally.searches with
    | some reason => exact ⟨_, t, rfl⟩
    | none =>
      cases hnext : t.nextUnvalued? p.variableCount (decided.getD 0) with
      | none => exact ⟨_, t, rfl⟩
      | some rank =>
        obtain ⟨hcursor, hle, hv, -⟩ := nextUnvalued?_eq_some hnext
        obtain ⟨trace, htrace⟩ := traceDecision_eq_ok o t depth hp hle
        -- the ranks above the one decided are fewer than those above the cursor
        have hless : p.variableCount - rank < n := by omega
        obtain ⟨ending, u, hbranch⟩ := branch_left (s := { t with trace }) depth hp { ht with } hqueue
          (by omega) hle hv fun depth' _ hs' => ih _ hless depth' (some rank) hs' rfl
        refine ⟨ending, u, ?_⟩
        simp only [htrace]
        exact hbranch

theorem LeftBy.of_explore (hp : p.Proper) (hs : s.Sound p)
    (h : explore p o watch depth decided s = .ok (ending, t)) : LeftBy p decided s t := by
  obtain ⟨ending', t', hresult, hleft⟩ := explore_left o watch depth decided hp hs
  obtain ⟨-, rfl⟩ := Prod.mk.inj (Except.ok.inj (h.symm.trans hresult))
  exact hleft

/-! ### Frames -/

/-- What one search leads to by propagations, searches and decisions that are undone again. -/
inductive Within (p : Prepared) : Search → Search → Prop
  | refl (s : Search) : Within p s s
  | propagate {s t u : Search} {conflict : Option Nat} (h : Within p s t)
      (hu : t.propagate p = .ok (u, conflict)) : Within p s u
  | propagateAll {s t u : Search} {conflict : Option Nat} (h : Within p s t)
      (hu : t.propagateAll p = .ok (u, conflict)) : Within p s u
  | explore {s t u : Search} {o : Options} {watch : Watch} {depth : Nat} {decided : Option Nat}
      {ending : Ending} (h : Within p s t)
      (hu : explore p o watch depth decided t = .ok (ending, u)) : Within p s u
  | frame {s t u v w : Search} {rank : Nat} {b : Bool} (h : Within p s t)
      (hqueue : t.queue.items = []) (hpos : 0 < rank) (hle : rank ≤ p.variableCount)
      (hv : t.valuation.value? rank = none) (hu : t.enter rank b = .ok u) (hbelow : Within p u v)
      (hw : v.backtrack = .ok w) : Within p s w

/-- A decision is undone, whatever was done below it. -/
theorem backtrack_of_grown (hs : s.Sound p) (hqueue : s.queue.items = []) (hn : rank ≤ p.variableCount)
    (hv : s.valuation.value? rank = none) (ht : t.Sound p) (hgrown : Grown (s.entered rank b) t) :
    t.backtrack = .ok (s.carrying t) :=
  ((below_entered (hs.lt_slots hn) hv).grown hgrown).backtrack hs.toCoherent ht.toCoherent hqueue

theorem Within.grown (hp : p.Proper) (h : Within p s t) (hs : s.Sound p) : t.Sound p ∧ Grown s t := by
  induction h with
  | refl s => exact ⟨hs, .refl s⟩
  | propagate _ hu ih =>
    obtain ⟨ht, hgrown⟩ := ih hs
    obtain ⟨-, hadvance⟩ := advance_of_propagate hp ht openBut_true hu
    exact ⟨hadvance.sound, hgrown.trans hadvance.derived.grows⟩
  | propagateAll _ hu ih =>
    obtain ⟨ht, hgrown⟩ := ih hs
    obtain ⟨-, hadvance⟩ := advance_of_propagateAll hp ht hu
    exact ⟨hadvance.sound, hgrown.trans hadvance.derived.grows⟩
  | explore _ hu ih =>
    obtain ⟨ht, hgrown⟩ := ih hs
    have hleft := LeftBy.of_explore hp ht hu
    exact ⟨hleft.sound, hgrown.trans hleft.grown⟩
  | frame _ hqueue hpos hle hv hu _ hw ih ih' =>
    obtain ⟨ht, hgrown⟩ := ih hs
    rw [enter_eq_ok ht.toCoherent hpos hle hv] at hu
    cases hu
    obtain ⟨hbelow, hgrown'⟩ := ih' (ht.entered hpos hle hv)
    rw [backtrack_of_grown ht hqueue hle hv hbelow hgrown'] at hw
    cases hw
    exact ⟨ht.carrying _, hgrown.carrying _⟩

/-! ### Searches in operation -/

/-- The searches that operations lead to from a fresh search or a fork, in any order and whatever the
operations come to, and whether anything but assumptions was made. -/
inductive Operated (p : Prepared) : Bool → Search → Prop
  | fresh : Operated p false (fresh p)
  | fork {moved : Bool} {s : Search} (h : Operated p moved s) : Operated p false s.fork
  | assume {moved : Bool} {s t : Search} {l : Literal} (h : Operated p moved s) (hpos : 0 < l.var)
      (hle : l.var ≤ p.variableCount) (ht : s.assume? l = .ok (some t)) : Operated p moved t
  | assumePure {moved : Bool} {s t : Search} (h : Operated p moved s) (ht : s.assumePure p = .ok t) :
      Operated p moved t
  | enter {moved : Bool} {s t : Search} {rank : Nat} {b : Bool} (h : Operated p moved s)
      (hpos : 0 < rank) (hle : rank ≤ p.variableCount) (hv : s.valuation.value? rank = none)
      (ht : s.enter rank b = .ok t) : Operated p true t
  | proceed {moved : Bool} {s t : Search} (h : Operated p moved s) (ht : Within p s t) :
      Operated p true t

/-- Nothing waits, nothing is logged and nothing was found. -/
structure Untouched (s : Search) : Prop where
  queue : s.queue.items = []
  assigned : s.assigned.items = []
  marks : s.marks.items = []
  solutions : s.solutions = {}

/-- Every search in operation is sound, and untouched while only assumptions were made. -/
theorem Operated.sound (hp : p.Proper) (h : Operated p moved s) :
    s.Sound p ∧ (moved = false → s.Untouched) := by
  induction h with
  | fresh => exact ⟨sound_fresh p, fun _ => ⟨rfl, rfl, rfl, rfl⟩⟩
  | fork _ ih => exact ⟨ih.1.fork, fun _ => ⟨rfl, rfl, rfl, rfl⟩⟩
  | assume _ hpos hle ht ih =>
    obtain ⟨v, rfl, hsize, hext⟩ := exists_holding_of_assume ih.1.toCoherent hpos hle ht
    exact ⟨ih.1.holding hsize hext, fun hmoved => { ih.2 hmoved with }⟩
  | assumePure _ ht ih =>
    obtain ⟨v, rfl, hsize, hext⟩ := exists_holding_of_assumePure hp ih.1.toCoherent ht
    exact ⟨ih.1.holding hsize hext, fun hmoved => { ih.2 hmoved with }⟩
  | enter _ hpos hle hv ht ih =>
    rw [enter_eq_ok ih.1.toCoherent hpos hle hv] at ht
    cases ht
    exact ⟨ih.1.entered hpos hle hv, by simp⟩
  | proceed _ ht ih => exact ⟨(ht.grown hp ih.1).1, by simp⟩

/-- The second state holds the values, flags, counts and logs of the first, and nothing waits in it. -/
structure Restored (s t : Search) : Prop where
  valuation : t.valuation = s.valuation
  valuedCount : t.valuedCount = s.valuedCount
  flags : t.flags = s.flags
  flaggedCount : t.flaggedCount = s.flaggedCount
  assigned : t.assigned = s.assigned
  marks : t.marks = s.marks
  queue : t.queue.items = []

theorem restored_carrying (hqueue : s.queue.items = []) : Restored s (s.carrying t) :=
  ⟨rfl, rfl, rfl, rfl, rfl, rfl, hqueue⟩

/-- In every search in operation propagations and searches return, and what is decided is undone exactly.
To decide any rank without a value, or to open a frame for it, do anything in it and drop it, restores
the search if nothing waits in it; to search with no decision restores what its propagation of everything came
to; and to backtrack with no decision restores a search in which only assumptions were made. -/
theorem restored_of_operated (hf : f.Built) (hp : Prepared.ofFormula f byFrequency = .ok (.ok p))
    (h : Operated p moved s) :
    (s.queue.items = [] → ∀ rank, 0 < rank → rank ≤ p.variableCount →
      s.valuation.value? rank = none →
      (∀ o watch depth, ∃ ending t, branch p o watch depth rank s = .ok (ending, t) ∧ Restored s t) ∧
      ∀ b, ∃ t, s.enter rank b = .ok t ∧
        ∀ u, Within p t u → ∃ v, u.backtrack = .ok v ∧ Restored s v) ∧
    (∀ o watch depth, ∃ t conflict, propagateAll p s.countNode = .ok (t, conflict) ∧
      ∃ ending u, explore p o watch depth none s = .ok (ending, u) ∧ Restored t u) ∧
    (moved = false → ∀ t, Within p s t → ∃ u, t.backtrack = .ok u ∧ Restored s u) ∧
    (∃ t conflict, s.propagate p = .ok (t, conflict)) ∧
    (∃ t conflict, s.propagateAll p = .ok (t, conflict)) ∧
    ∀ o watch depth decided, ∃ ending t, explore p o watch depth decided s = .ok (ending, t) := by
  obtain ⟨hproper, -⟩ := Prepared.proper_of_ofFormula hf.stored hp
  obtain ⟨hs, huntouched⟩ := h.sound hproper
  refine ⟨fun hqueue rank hr hn hv => ⟨fun o watch depth => ?_, fun b => ?_⟩, fun o watch depth => ?_,
    fun hmoved t hwithin => ?_, ?_, ?_, fun o watch depth decided => ?_⟩
  · have hexplore : ∀ depth {t : Search}, t.Sound p → ∃ ending u,
        explore p o watch depth (some rank) t = .ok (ending, u) ∧ LeftBy p (some rank) t u :=
      fun depth _ ht => explore_left o watch depth (some rank) hproper ht
    obtain ⟨ending, t, hbranch⟩ := branch_left depth hproper hs hqueue hr hn hv hexplore
    exact ⟨ending, _, hbranch, restored_carrying hqueue⟩
  · refine ⟨_, enter_eq_ok hs.toCoherent hr hn hv, fun u hwithin => ?_⟩
    obtain ⟨hu, hgrown⟩ := hwithin.grown hproper (hs.entered hr hn hv)
    exact ⟨_, backtrack_of_grown hs hqueue hn hv hu hgrown, restored_carrying hqueue⟩
  · obtain ⟨ending, u, hexplore, t, conflict, hall, hqueue, -, -, hu⟩ :=
      explore_left o watch depth none hproper hs
    refine ⟨t, conflict, hall, ending, u, hexplore, ?_⟩
    rw [hu]
    exact restored_carrying hqueue
  · obtain ⟨hqueue, hassigned, hmarks, -⟩ := huntouched hmoved
    obtain ⟨ht, hgrown⟩ := hwithin.grown hproper hs
    exact ⟨_, hgrown.backtrack hs.toCoherent ht.toCoherent hqueue hassigned hmarks,
      restored_carrying hqueue⟩
  · obtain ⟨t, conflict, hresult, -⟩ := propagate_spec hproper hs openBut_true
    exact ⟨t, conflict, hresult⟩
  · obtain ⟨t, conflict, hresult, -⟩ := propagateAll_spec hproper hs
    exact ⟨t, conflict, hresult⟩
  · obtain ⟨ending, t, hresult, -⟩ := explore_left o watch depth decided hproper hs
    exact ⟨ending, t, hresult⟩

theorem restored_of_operated_last_rank : ∃ f p,
    f.clauses = #[[⟨1, true⟩, ⟨2, true⟩], [⟨1, false⟩, ⟨2, true⟩]] ∧
      Prepared.ofFormula f true = .ok (.ok p) ∧ ∃ ending t,
        branch p {} (fun _ => some .timeLimit) 0 2 (fresh p) = .ok (ending, t) ∧
          Restored (fresh p) t := by
  have hf : Formula.Built _ := @Formula.Built.add _ _ [1, 2] _ .empty rfl
  have hf' : Formula.Built _ := @Formula.Built.add _ _ [-1, 2] _ hf rfl
  obtain ⟨p, hp, -, hrenames⟩ := Prepared.ofFormula_eq_ok hf'.stored true
  have hcount : p.variableCount = 2 := hrenames.variableCount
  obtain ⟨hrank, -⟩ := restored_of_operated hf' hp .fresh
  obtain ⟨hbranch, -⟩ := hrank rfl 2 (by decide) hcount.ge (Valuation.value?_fresh (by decide))
  obtain ⟨ending, t, hresult, hrestored⟩ := hbranch {} (fun _ => some .timeLimit) 0
  exact ⟨_, p, rfl, hp, ending, t, hresult, hrestored⟩

end ClauseSearch.Search
