import ClauseSearch.Proofs.Status
import Mathlib.Logic.Relation

/-! Unit propagation with no queue, no flags and no occurrences: as long as no clause is falsified, the
literal of any unit clause is made true. Which clause is picked makes no difference: a conflict is met in
every order or in none, and without one every order ends in the same valuation, the least that extends
the first one and on which no clause is unit or falsified. -/

namespace ClauseSearch.Formula

open Relation

variable {f : Formula} {v w u : Valuation} {o : Option Valuation} {c : Clause} {l : Literal} {n : Nat}

def ConflictOn (f : Formula) (v : Valuation) : Prop := ∃ c ∈ f.clauses, Clause.FalsifiedOn v c

/-- The literal of some unit clause is made true. -/
def UnitStep (f : Formula) (v w : Valuation) : Prop :=
  ∃ c ∈ f.clauses, ∃ l, Clause.UnitOn v c l ∧ w = v.put l.var (some l.polarity)

def Settled (f : Formula) (v : Valuation) : Prop :=
  ¬ f.ConflictOn v ∧ ∀ c ∈ f.clauses, ∀ l, ¬ Clause.UnitOn v c l

/-- A run of unit propagation from the valuation, with any unit clause picked at each step: it ends in a
conflict, or where nothing changes. -/
inductive UnitRun (f : Formula) : Valuation → Option Valuation → Prop
  | conflict {v : Valuation} (h : f.ConflictOn v) : UnitRun f v none
  | fixpoint {v : Valuation} (h : ¬ f.ConflictOn v) (hstuck : ∀ w, ¬ f.UnitStep v w) :
      UnitRun f v (some v)
  | step {v w : Valuation} {o : Option Valuation} (h : ¬ f.ConflictOn v) (hstep : f.UnitStep v w)
      (hrun : UnitRun f w o) : UnitRun f v o

/-! ### Steps -/

theorem UnitStep.extends (h : f.UnitStep v w) : w.Extends v := by
  obtain ⟨c, _, l, hunit, rfl⟩ := h
  exact Valuation.extends_put hunit.value?_eq_none

theorem UnitStep.size (h : f.UnitStep v w) : w.slots.size = v.slots.size := by
  obtain ⟨c, _, l, _, rfl⟩ := h
  exact Valuation.size_put

theorem extends_of_steps (h : ReflTransGen f.UnitStep v w) : w.Extends v := by
  induction h with
  | refl => exact .refl v
  | tail _ hstep ih => exact hstep.extends.trans ih

theorem size_of_steps (h : ReflTransGen f.UnitStep v w) : w.slots.size = v.slots.size := by
  induction h with
  | refl => rfl
  | tail _ hstep ih => rw [hstep.size, ih]

theorem ConflictOn.of_extends (h : f.ConflictOn v) (hw : w.Extends v) : f.ConflictOn w := by
  obtain ⟨c, hc, hfalse⟩ := h
  exact ⟨c, hc, hfalse.of_extends hw⟩

theorem settled_iff : f.Settled v ↔ ¬ f.ConflictOn v ∧ ∀ w, ¬ f.UnitStep v w := by
  refine and_congr_right fun _ => ⟨?_, ?_⟩
  · rintro h w ⟨c, hc, l, hunit, -⟩
    exact h c hc l hunit
  · intro h c hc l hunit
    exact h _ ⟨c, hc, l, hunit, rfl⟩

/-- A settled valuation extends every step from a valuation that it extends. -/
theorem Settled.extends_step (hu : f.Settled u) (h : u.Extends v) (hstep : f.UnitStep v w) :
    u.Extends w := by
  obtain ⟨c, hc, l, hunit, rfl⟩ := hstep
  have hl := hunit.value?_of_extends h (fun hfalse => hu.1 ⟨c, hc, hfalse⟩) fun ⟨k, hk⟩ =>
    hu.2 c hc k hk
  intro x b hx
  by_cases hxl : x = l.var
  · have hlt : l.var < v.slots.size := by
      have := Valuation.lt_size_of_value? hx
      rwa [Valuation.size_put, hxl] at this
    rw [hxl, Valuation.value?_put_self hlt] at hx
    rw [hxl, hl, hx]
  · rw [Valuation.value?_put_ne hxl] at hx
    exact h x b hx

theorem Settled.extends_steps (hu : f.Settled u) (h : u.Extends v)
    (hsteps : ReflTransGen f.UnitStep v w) : u.Extends w := by
  induction hsteps with
  | refl => exact h
  | tail _ hstep ih => exact hu.extends_step ih hstep

/-- Each step fills a slot, so no order of steps goes on forever. -/
theorem acc_unitStep (hf : f.Ranged) (hv : v.slots.size = f.variableCount + 1) :
    Acc (fun w v => f.UnitStep v w) v := by
  induction hn : v.vacancies using Nat.strongRecOn generalizing v with
  | _ n ih =>
    refine .intro v fun w hstep => ?_
    refine ih w.vacancies ?_ (by rw [hstep.size, hv]) rfl
    obtain ⟨c, hc, l, hunit, rfl⟩ := hstep
    have hlt : l.var < v.slots.size := by
      have := (hf c hc l hunit.mem).2
      omega
    have hslot := Valuation.slots_eq_some hlt
    rw [hunit.value?_eq_none] at hslot
    have hwrite : v.write? l.var (some l.polarity) = some (v.put l.var (some l.polarity)) :=
      Valuation.write?_eq_put hlt
    have := Valuation.vacancies_write? hslot hwrite
    omega

/-- An assignment that satisfies the formula and has the values held has those derived as well. -/
theorem admits_of_steps (hf : f.Ranged) (hv : v.slots.size = f.variableCount + 1)
    (h : ReflTransGen f.UnitStep v w) {a : Assignment} (ha : f.holds a = true)
    (hadmits : v.admits a = true) : w.admits a = true := by
  induction h with
  | refl => exact hadmits
  | tail hsteps hstep ih =>
    have hsize := size_of_steps hsteps
    obtain ⟨c, hc, l, hunit, rfl⟩ := hstep
    obtain ⟨hpos, hle⟩ := hf c hc l hunit.mem
    rw [Valuation.admits_put hpos (by omega) hunit.value?_eq_none]
    exact ⟨ih, hunit.eq_polarity (hf c hc) ih (holds_eq_true_iff.1 ha c hc)⟩

/-- No assignment that satisfies the formula has the values of a conflict. -/
theorem ConflictOn.holds_eq_false (h : f.ConflictOn v) (hf : f.Ranged) {a : Assignment}
    (hadmits : v.admits a = true) : f.holds a = false := by
  obtain ⟨c, hc, hfalse⟩ := h
  rw [Bool.eq_false_iff]
  intro ha
  have := hfalse.holds_eq_false (hf c hc) hadmits
  simp [holds_eq_true_iff.1 ha c hc] at this

/-! ### Runs -/

theorem unitRun_of_steps (h : ReflTransGen f.UnitStep v w) (hw : f.UnitRun w o)
    (ho : o = none ∨ ¬ f.ConflictOn w) : f.UnitRun v o := by
  induction h using ReflTransGen.head_induction_on with
  | refl => exact hw
  | head hstep hsteps ih =>
    rename_i v' w'
    by_cases hconflict : f.ConflictOn v'
    · rcases ho with rfl | hfree
      · exact .conflict hconflict
      · exact absurd (hconflict.of_extends (extends_of_steps (.head hstep hsteps))) hfree
    · exact .step hconflict hstep ih

/-- Where some steps lead to a conflict, every run ends in one. -/
theorem unitRun_iff_of_conflict (h : ReflTransGen f.UnitStep v w) (hw : f.ConflictOn w) :
    f.UnitRun v o ↔ o = none := by
  constructor
  · intro hrun
    -- no settled valuation extends the first one, and so none extends a later one of the run
    have hnone : ∀ u, f.Settled u → ¬ u.Extends v := fun u hu hext =>
      hu.1 (hw.of_extends (hu.extends_steps hext h))
    clear h
    induction hrun with
    | conflict _ => rfl
    | fixpoint hfree hstuck => exact absurd (.refl _) (hnone _ (settled_iff.2 ⟨hfree, hstuck⟩))
    | step _ hstep _ ih => exact ih fun u hu hext => hnone u hu (hext.trans hstep.extends)
  · rintro rfl
    exact unitRun_of_steps h (.conflict hw) (.inl rfl)

theorem unitRun_iff_of_settled (h : ReflTransGen f.UnitStep v w) (hw : f.Settled w) :
    f.UnitRun v o ↔ o = some w := by
  constructor
  · intro hrun
    have hleast : ∀ u, f.Settled u → u.Extends v → u.Extends w := fun u hu hext =>
      hu.extends_steps hext h
    have hext := extends_of_steps h
    have hsize := size_of_steps h
    clear h
    induction hrun with
    | conflict hconflict => exact absurd (hconflict.of_extends hext) hw.1
    | fixpoint hfree hstuck =>
      have hback := hleast _ (settled_iff.2 ⟨hfree, hstuck⟩) (.refl _)
      rw [Valuation.Extends.antisymm hsize hext hback]
    | step _ hstep _ ih =>
      exact ih (fun u hu hext => hleast u hu (hext.trans hstep.extends)) (hw.extends_step hext hstep)
        (by rw [hsize, hstep.size])
  · rintro rfl
    exact unitRun_of_steps h (.fixpoint hw.1 (settled_iff.1 hw).2) (.inr hw.1)

theorem UnitRun.exists_steps (h : f.UnitRun v o) :
    (∃ w, ReflTransGen f.UnitStep v w ∧ f.ConflictOn w ∧ o = none) ∨
      ∃ w, ReflTransGen f.UnitStep v w ∧ f.Settled w ∧ o = some w := by
  induction h with
  | conflict h => exact .inl ⟨_, .refl, h, rfl⟩
  | fixpoint h hstuck => exact .inr ⟨_, .refl, settled_iff.2 ⟨h, hstuck⟩, rfl⟩
  | step _ hstep _ ih =>
    exact ih.imp (fun ⟨w, hsteps, hw⟩ => ⟨w, .head hstep hsteps, hw⟩)
      fun ⟨w, hsteps, hw⟩ => ⟨w, .head hstep hsteps, hw⟩

theorem UnitRun.unique {o' : Option Valuation} (h : f.UnitRun v o) (h' : f.UnitRun v o') : o' = o := by
  rcases h.exists_steps with ⟨w, hsteps, hw, rfl⟩ | ⟨w, hsteps, hw, rfl⟩
  · exact (unitRun_iff_of_conflict hsteps hw).1 h'
  · exact (unitRun_iff_of_settled hsteps hw).1 h'

theorem UnitRun.before (h : f.UnitRun w o) (hsteps : ReflTransGen f.UnitStep v w) : f.UnitRun v o := by
  rcases h.exists_steps with ⟨u, hlater, hu, rfl⟩ | ⟨u, hlater, hu, rfl⟩
  · exact (unitRun_iff_of_conflict (hsteps.trans hlater) hu).2 rfl
  · exact (unitRun_iff_of_settled (hsteps.trans hlater) hu).2 rfl

end ClauseSearch.Formula
