import ClauseSearch.Proofs.Assumptions

/-! The searches that are reached from a fresh one by the operations of a search, in the order in which a
search performs them. Values are assumed and everything is propagated; from a settled search a decision
is begun and propagated, or a fork taken; and a decision is undone. Every search reached is sound, and the
settled searches in which the open decisions were begun are those that undoing them returns to.

In all of them propagation is unit propagation. -/

namespace ClauseSearch.Search

variable {p : Prepared} {stage : Stage} {outer : List Search} {s t u : Search} {rank : Nat} {b : Bool}
  {conflict : Option Nat} {f : Formula} {byFrequency : Bool}

/-- Where a search stands between two operations. -/
inductive Stage where
  /-- Values are assumed, and nothing is propagated yet. -/
  | assuming
  /-- A decision was begun and waits to be propagated. -/
  | opened
  /-- The latest propagation has met no conflict. -/
  | settled
  /-- The latest propagation has met a conflict. -/
  | failed

/-- Where a search stands after a propagation. -/
def Stage.after : Option Nat → Stage
  | none => settled
  | some _ => failed

/-- The searches reached, each with the settled searches in which its open decisions were begun, the
latest first. -/
inductive Reached (p : Prepared) : Stage → List Search → Search → Prop
  | fresh : Reached p .assuming [] (fresh p)
  | fork {outer : List Search} {s : Search} (h : Reached p .settled outer s) :
      Reached p .assuming [] s.fork
  | assume {s t : Search} {l : Literal} (h : Reached p .assuming [] s) (hpos : 0 < l.var)
      (hle : l.var ≤ p.variableCount) (ht : s.assume? l = .ok (some t)) : Reached p .assuming [] t
  | assumePure {s t : Search} (h : Reached p .assuming [] s) (ht : s.assumePure p = .ok t) :
      Reached p .assuming [] t
  | propagateAll {s t : Search} {conflict : Option Nat} (h : Reached p .assuming [] s)
      (ht : s.propagateAll p = .ok (t, conflict)) : Reached p (.after conflict) [] t
  | enter {outer : List Search} {s t : Search} {rank : Nat} {b : Bool}
      (h : Reached p .settled outer s) (hpos : 0 < rank) (hle : rank ≤ p.variableCount)
      (hv : s.valuation.value? rank = none) (ht : s.enter rank b = .ok t) :
      Reached p .opened (s :: outer) t
  | propagate {outer : List Search} {s t : Search} {conflict : Option Nat}
      (h : Reached p .opened outer s) (ht : s.propagate p = .ok (t, conflict)) :
      Reached p (.after conflict) outer t
  | backtrack {stage : Stage} {outer : List Search} {s t u : Search}
      (h : Reached p stage (u :: outer) s) (ht : s.backtrack = .ok t) : Reached p .settled outer t

/-! ### The invariant -/

/-- What holds of a search wherever it stands: ranks wait only while a decision is open, and but for these
no clause has anything to say once something was propagated. -/
structure Stands (p : Prepared) (stage : Stage) (s : Search) : Prop where
  sound : s.Sound p
  queue : stage ≠ .opened → s.queue.items = []
  open_but : stage = .opened ∨ stage = .settled → s.OpenBut p fun _ => False

/-- Each open decision was begun in a settled search. -/
def Nested (p : Prepared) : List Search → Search → Prop
  | [], _ => True
  | u :: outer, s => Stands p .settled u ∧ Below u s ∧ Nested p outer u

theorem Stands.carrying (h : Stands p stage s) (t : Search) : Stands p stage (s.carrying t) where
  sound := { h.sound with }
  queue := h.queue
  open_but := h.open_but

theorem Below.carrying (h : Below s t) (u : Search) : Below s (t.carrying u) := by
  obtain ⟨rank, entries, marks, hg, hentries, hmarks⟩ := h
  exact ⟨rank, entries, marks, { hg with }, hentries, hmarks⟩

theorem Nested.below (h : Nested p outer s) (ht : ∀ u, Below u s → Below u t) : Nested p outer t := by
  cases outer with
  | nil => trivial
  | cons u outer => exact ⟨h.1, ht u h.2.1, h.2.2⟩

theorem Advance.stands (h : Advance p s (fun _ => False) t conflict) (hqueue : t.queue.items = []) :
    Stands p (.after conflict) t where
  sound := h.sound
  queue _ := hqueue
  open_but hstage := by
    cases conflict with
    | none => exact h.open_but rfl
    | some id => simp [Stage.after] at hstage

theorem Stands.entered (h : Stands p .settled s) (hr : 0 < rank) (hn : rank ≤ p.variableCount)
    (hv : s.valuation.value? rank = none) : Stands p .opened (s.entered rank b) where
  sound := h.sound.entered hr hn hv
  queue hne := absurd rfl hne
  open_but _ := (h.open_but (.inr rfl)).valued rfl rfl rfl

theorem Stands.holding (h : Stands p .assuming s) {v : Valuation}
    (hsize : v.slots.size = s.valuation.slots.size) (hext : v.Extends s.valuation) :
    Stands p .assuming (s.holding v) where
  sound := h.sound.holding hsize hext
  queue := h.queue
  open_but hstage := by simp at hstage

/-- Every search reached is sound, and nested in the settled ones in which its decisions were begun. -/
theorem Reached.stands (hp : p.Proper) (h : Reached p stage outer s) :
    Stands p stage s ∧ Nested p outer s := by
  induction h with
  | fresh => exact ⟨⟨sound_fresh p, fun _ => rfl, by simp⟩, trivial⟩
  | fork _ ih => exact ⟨⟨ih.1.sound.fork, fun _ => rfl, by simp⟩, trivial⟩
  | assume _ hpos hle ht ih =>
    obtain ⟨v, rfl, hsize, hext⟩ := exists_holding_of_assume ih.1.sound.toCoherent hpos hle ht
    exact ⟨ih.1.holding hsize hext, trivial⟩
  | assumePure _ ht ih =>
    obtain ⟨v, rfl, hsize, hext⟩ := exists_holding_of_assumePure hp ih.1.sound.toCoherent ht
    exact ⟨ih.1.holding hsize hext, trivial⟩
  | propagateAll _ ht ih =>
    obtain ⟨hqueue, hadvance⟩ := advance_of_propagateAll hp ih.1.sound ht
    exact ⟨hadvance.stands hqueue, trivial⟩
  | enter _ hpos hle hv ht ih =>
    have hcoherent := ih.1.sound.toCoherent
    rw [enter_eq_ok hcoherent hpos hle hv] at ht
    cases ht
    exact ⟨ih.1.entered hpos hle hv, ih.1, below_entered (hcoherent.lt_slots hle) hv, ih.2⟩
  | propagate _ ht ih =>
    obtain ⟨hqueue, hadvance⟩ := advance_of_propagate hp ih.1.sound (ih.1.open_but (.inl rfl)) ht
    exact ⟨hadvance.stands hqueue, ih.2.below fun u hu => hu.derived hadvance.derived⟩
  | backtrack _ ht ih =>
    obtain ⟨hs, hu, hbelow, hnested⟩ := ih
    rw [hbelow.backtrack hu.sound.toCoherent hs.sound.toCoherent (hu.queue (by simp))] at ht
    cases ht
    exact ⟨hu.carrying _, hnested.below fun w hw => hw.carrying _⟩

/-! ### Propagation -/

/-- What a propagation comes to is what every run of unit propagation from the valuation comes to. -/
theorem Advance.unitRun_iff (h : Advance p s (fun _ => False) t conflict) (hp : p.Proper)
    (hqueue : t.queue.items = []) (o : Option Valuation) :
    p.formula.UnitRun s.valuation o ↔ o = if conflict.isSome then none else some t.valuation := by
  cases conflict with
  | none =>
    exact Formula.unitRun_iff_of_settled h.derived.steps ((h.open_but rfl).settled hp h.sound hqueue)
  | some id =>
    exact Formula.unitRun_iff_of_conflict h.derived.steps h.conflictOn

/-- In every search reached, propagation succeeds, and it comes to what unit propagation comes to in
whatever order clauses are picked: to a conflict if that does, and to the same valuation otherwise. No
order of picking them goes on forever. -/
theorem propagation_eq_unit_propagation (hf : f.Built)
    (hp : Prepared.ofFormula f byFrequency = .ok (.ok p)) (h : Reached p stage outer s) :
    Acc (fun w v => p.formula.UnitStep v w) s.valuation ∧
    (stage = .assuming → ∃ t conflict, s.propagateAll p = .ok (t, conflict) ∧
      ∀ o, p.formula.UnitRun s.valuation o ↔
        o = if conflict.isSome then none else some t.valuation) ∧
    (stage = .opened → ∃ t conflict, s.propagate p = .ok (t, conflict) ∧
      ∀ o, p.formula.UnitRun s.valuation o ↔
        o = if conflict.isSome then none else some t.valuation) := by
  obtain ⟨p', hp', hproper, -⟩ := Prepared.ofFormula_eq_ok hf.stored byFrequency
  rw [hp] at hp'
  cases hp'
  obtain ⟨hs, -⟩ := h.stands hproper
  refine ⟨Formula.acc_unitStep hproper.ranged hs.sound.slots, ?_, ?_⟩
  · intro _
    obtain ⟨t, conflict, hall, hqueue, hadvance⟩ := propagateAll_spec hproper hs.sound
    exact ⟨t, conflict, hall, hadvance.unitRun_iff hproper hqueue⟩
  · intro hstage
    obtain ⟨t, conflict, hpropagate, hqueue, hadvance⟩ :=
      propagate_spec hproper hs.sound (hs.open_but (.inl hstage))
    exact ⟨t, conflict, hpropagate, hadvance.unitRun_iff hproper hqueue⟩

theorem propagation_eq_unit_propagation_two_clauses : ∃ f p,
    f.clauses = #[[⟨1, true⟩], [⟨1, false⟩, ⟨2, true⟩]] ∧
      Prepared.ofFormula f true = .ok (.ok p) ∧ ∃ t conflict,
        (fresh p).propagateAll p = .ok (t, conflict) ∧ ∀ o, p.formula.UnitRun (fresh p).valuation o ↔
          o = if conflict.isSome then none else some t.valuation := by
  have hf : Formula.Built _ := @Formula.Built.add _ _ [1] _ .empty rfl
  have hf' : Formula.Built _ := @Formula.Built.add _ _ [-1, 2] _ hf rfl
  obtain ⟨p, hp, -, -⟩ := Prepared.ofFormula_eq_ok hf'.stored true
  obtain ⟨-, hall, -⟩ := propagation_eq_unit_propagation hf' hp .fresh
  obtain ⟨t, conflict, hresult, hruns⟩ := hall rfl
  exact ⟨_, p, rfl, hp, t, conflict, hresult, hruns⟩

end ClauseSearch.Search
