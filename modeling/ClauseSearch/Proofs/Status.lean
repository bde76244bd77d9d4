import ClauseSearch.Proofs.Valuation

/-! What the status of a clause on a valuation says. Each status is a condition on the values held by the
clause's literals, and the conditions carry over to assignments: an admitted assignment satisfies a
satisfied clause, falsifies a falsified one, and gives the literal of a unit clause the value that makes
it true if it satisfies the clause. -/

namespace ClauseSearch

def Literal.holds (a : Assignment) (l : Literal) : Bool := l.satisfiedBy (a l.var)

theorem Literal.holds_iff {a : Assignment} {l : Literal} :
    l.holds a = true ↔ a l.var = l.polarity := by
  rw [Literal.holds, Literal.satisfiedBy, beq_iff_eq, eq_comm]

namespace Clause

def holds (a : Assignment) (c : Clause) : Bool := c.any (Literal.holds a)

/-- Every literal is on one of the variables `1..n`. -/
def Within (n : Nat) (c : Clause) : Prop := ∀ l ∈ c, 0 < l.var ∧ l.var ≤ n

def FalsifiedOn (v : Valuation) (c : Clause) : Prop :=
  ∀ l ∈ c, v.value? l.var = some (!l.polarity)

/-- One occurrence of the literal has no value, and every other literal is false. -/
def UnitOn (v : Valuation) (c : Clause) (l : Literal) : Prop :=
  ∃ before after, c = before ++ l :: after ∧ v.value? l.var = none ∧
    FalsifiedOn v (before ++ after)

variable {v w : Valuation} {c : Clause} {l : Literal} {a : Assignment} {n : Nat}

/-! ### Literals -/

theorem trueOn_iff : trueOn v l = true ↔ v.value? l.var = some l.polarity := by
  unfold trueOn
  split
  · rename_i b hb
    rw [hb, Option.some.injEq, Literal.satisfiedBy, beq_iff_eq, eq_comm]
  · rename_i hnone
    simp [hnone]

theorem satisfiedOn_iff :
    satisfiedOn v c = true ↔ ∃ l ∈ c, v.value? l.var = some l.polarity := by
  simp [satisfiedOn, trueOn_iff]

theorem holds_iff : holds a c = true ↔ ∃ l ∈ c, a l.var = l.polarity := by
  simp [holds, Literal.holds_iff]

theorem value?_literal (v : Valuation) (l : Literal) :
    v.value? l.var = none ∨ v.value? l.var = some l.polarity ∨
      v.value? l.var = some (!l.polarity) := by
  cases hv : v.value? l.var with
  | none => exact .inl rfl
  | some b =>
    by_cases h : b = l.polarity
    · exact .inr (.inl (by rw [h]))
    · exact .inr (.inr (by rw [Bool.eq_not_of_ne h]))

theorem FalsifiedOn.tail {k : Literal} (h : FalsifiedOn v (k :: c)) : FalsifiedOn v c :=
  fun l hl => h l (List.mem_cons_of_mem k hl)

theorem FalsifiedOn.cons {k : Literal} (hk : v.value? k.var = some (!k.polarity))
    (h : FalsifiedOn v c) : FalsifiedOn v (k :: c) :=
  List.forall_mem_cons.2 ⟨hk, h⟩

theorem UnitOn.mem (h : UnitOn v c l) : l ∈ c := by
  obtain ⟨before, after, rfl, -, -⟩ := h
  simp

theorem UnitOn.value?_eq_none (h : UnitOn v c l) : v.value? l.var = none := by
  obtain ⟨_, _, -, hnone, -⟩ := h
  exact hnone

theorem UnitOn.others (h : UnitOn v c l) {k : Literal} (hk : k ∈ c) :
    k = l ∨ v.value? k.var = some (!k.polarity) := by
  obtain ⟨before, after, rfl, -, hfalse⟩ := h
  rcases List.mem_append.1 hk with hk | hk
  · exact .inr (hfalse k (List.mem_append_left _ hk))
  · rcases List.mem_cons.1 hk with rfl | hk
    · exact .inl rfl
    · exact .inr (hfalse k (List.mem_append_right _ hk))

theorem unitOn_cons_none {k : Literal} (hk : v.value? k.var = none) :
    UnitOn v (k :: c) l ↔ l = k ∧ FalsifiedOn v c := by
  constructor
  · rintro ⟨before, after, heq, hnone, hfalse⟩
    cases before with
    | nil =>
      obtain ⟨rfl, rfl⟩ := List.cons.inj heq
      exact ⟨rfl, hfalse⟩
    | cons j before =>
      obtain ⟨rfl, rfl⟩ := List.cons.inj heq
      exact absurd (hfalse k List.mem_cons_self) (by simp [hk])
  · rintro ⟨rfl, hfalse⟩
    exact ⟨[], c, rfl, hk, hfalse⟩

theorem unitOn_cons_false {k : Literal} (hk : v.value? k.var = some (!k.polarity)) :
    UnitOn v (k :: c) l ↔ UnitOn v c l := by
  constructor
  · rintro ⟨before, after, heq, hnone, hfalse⟩
    cases before with
    | nil =>
      obtain ⟨rfl, rfl⟩ := List.cons.inj heq
      exact absurd hnone (by simp [hk])
    | cons j before =>
      obtain ⟨rfl, rfl⟩ := List.cons.inj heq
      exact ⟨before, after, rfl, hnone, hfalse.tail⟩
  · rintro ⟨before, after, rfl, hnone, hfalse⟩
    exact ⟨k :: before, after, rfl, hnone, hfalse.cons hk⟩

theorem not_unitOn_cons_true {k : Literal} (hk : v.value? k.var = some k.polarity) :
    ¬ UnitOn v (k :: c) l := by
  intro h
  rcases h.others List.mem_cons_self with rfl | hfalse
  · exact absurd h.value?_eq_none (by simp [hk])
  · simp [hk] at hfalse

/-! ### Reading the status -/

theorem Within.slots (h : Within n c) (hv : v.slots.size = n + 1) :
    ∀ l ∈ c, l.var < v.slots.size := fun l hl => by have := h l hl; omega

theorem status_cons_true {k : Literal} (hk : v.value? k.var = some k.polarity) :
    status v (k :: c) = .ok .satisfied := by
  have hslot := Valuation.slots_eq_some (Valuation.lt_size_of_value? hk)
  rw [hk] at hslot
  simp [status, hslot, Literal.satisfiedBy]

theorem status_cons_false {k : Literal} (hk : v.value? k.var = some (!k.polarity)) :
    status v (k :: c) = status v c := by
  have hslot := Valuation.slots_eq_some (Valuation.lt_size_of_value? hk)
  rw [hk] at hslot
  simp [status, hslot, Literal.satisfiedBy]

theorem status_cons_none {k : Literal} (hslot : k.var < v.slots.size)
    (hk : v.value? k.var = none) :
    status v (k :: c) = match status v c with
      | .ok .satisfied => .ok .satisfied
      | .ok .falsified => .ok (.unit k)
      | .ok _ => .ok .undecided
      | .error fault => .error fault := by
  have hs := Valuation.slots_eq_some hslot
  rw [hk] at hs
  cases hst : status v c with
  | error fault => simp [status, hs, hst]
  | ok st => cases st <;> simp [status, hs, hst]

/-- The status is there, and it is the one that the values of the literals call for. -/
theorem status_spec (h : ∀ l ∈ c, l.var < v.slots.size) :
    ∃ st, status v c = .ok st ∧ (st = .satisfied ↔ satisfiedOn v c = true) ∧
      (st = .falsified ↔ FalsifiedOn v c) ∧ ∀ l, st = .unit l ↔ UnitOn v c l := by
  induction c with
  | nil =>
    refine ⟨.falsified, rfl, by simp [satisfiedOn], by simp [FalsifiedOn], fun l => ?_⟩
    simp [UnitOn]
  | cons k c ih =>
    obtain ⟨st, hst, hsat, hfalse, hunit⟩ := ih fun l hl => h l (List.mem_cons_of_mem k hl)
    rcases value?_literal v k with hk | hk | hk
    · -- without a value the head leaves a satisfied rest alone and makes a falsified rest unit
      rw [status_cons_none (h k List.mem_cons_self) hk, hst]
      have hcons : satisfiedOn v (k :: c) = satisfiedOn v c := by simp [satisfiedOn, trueOn, hk]
      have hnot : ¬ FalsifiedOn v (k :: c) := fun hf => by
        simpa [hk] using hf k List.mem_cons_self
      cases st with
      | satisfied =>
        refine ⟨.satisfied, rfl, by simp [hcons, ← hsat], by simp [hnot], fun l => ?_⟩
        simp [unitOn_cons_none hk, ← hfalse]
      | falsified =>
        refine ⟨.unit k, rfl, by simp [hcons, ← hsat], by simp [hnot], fun l => ?_⟩
        simp [unitOn_cons_none hk, ← hfalse, eq_comm]
      | unit j =>
        refine ⟨.undecided, rfl, by simp [hcons, ← hsat], by simp [hnot], fun l => ?_⟩
        simp [unitOn_cons_none hk, ← hfalse]
      | undecided =>
        refine ⟨.undecided, rfl, by simp [hcons, ← hsat], by simp [hnot], fun l => ?_⟩
        simp [unitOn_cons_none hk, ← hfalse]
    · refine ⟨.satisfied, status_cons_true hk, ?_, ?_, fun l => ?_⟩
      · simp [satisfiedOn, trueOn_iff.2 hk]
      · simp only [reduceCtorEq, false_iff]
        exact fun hf => by simpa [hk] using hf k List.mem_cons_self
      · simp only [reduceCtorEq, false_iff]
        exact not_unitOn_cons_true hk
    · refine ⟨st, by rw [status_cons_false hk, hst], ?_, ?_, fun l => ?_⟩
      · rw [hsat]
        simp [satisfiedOn, trueOn, hk, Literal.satisfiedBy]
      · exact hfalse.trans ⟨fun hf => hf.cons hk, FalsifiedOn.tail⟩
      · rw [hunit, unitOn_cons_false hk]

theorem status_eq_satisfied_iff (h : ∀ l ∈ c, l.var < v.slots.size) :
    status v c = .ok .satisfied ↔ satisfiedOn v c = true := by
  obtain ⟨st, hst, hsat, -, -⟩ := status_spec h
  rw [hst, Except.ok.injEq, hsat]

theorem status_eq_falsified_iff (h : ∀ l ∈ c, l.var < v.slots.size) :
    status v c = .ok .falsified ↔ FalsifiedOn v c := by
  obtain ⟨st, hst, -, hfalse, -⟩ := status_spec h
  rw [hst, Except.ok.injEq, hfalse]

theorem status_eq_unit_iff (h : ∀ l ∈ c, l.var < v.slots.size) :
    status v c = .ok (.unit l) ↔ UnitOn v c l := by
  obtain ⟨st, hst, -, -, hunit⟩ := status_spec h
  rw [hst, Except.ok.injEq, hunit]

/-- The status depends on the slots of the clause's literals alone. -/
theorem status_congr (h : ∀ l ∈ c, v.slots[l.var]? = w.slots[l.var]?) :
    status v c = status w c := by
  induction c with
  | nil => rfl
  | cons k c ih =>
    have hrest := ih fun l hl => h l (List.mem_cons_of_mem k hl)
    simp only [status, h k List.mem_cons_self, hrest]

theorem exists_unvalued_of_undecided (h : ∀ l ∈ c, l.var < v.slots.size)
    (hst : status v c = .ok .undecided) : ∃ l ∈ c, v.value? l.var = none := by
  by_contra hno
  push Not at hno
  have hfalse : FalsifiedOn v c := fun l hl => by
    rcases value?_literal v l with hl' | hl' | hl'
    · exact absurd hl' (hno l hl)
    · have hsat := (status_eq_satisfied_iff h).2 (satisfiedOn_iff.2 ⟨l, hl, hl'⟩)
      simp [hst] at hsat
    · exact hl'
  have := (status_eq_falsified_iff h).2 hfalse
  simp [hst] at this

/-! ### Extension -/

theorem satisfiedOn_of_extends (h : w.Extends v) (hc : satisfiedOn v c = true) :
    satisfiedOn w c = true := by
  obtain ⟨l, hl, hv⟩ := satisfiedOn_iff.1 hc
  exact satisfiedOn_iff.2 ⟨l, hl, h _ _ hv⟩

theorem FalsifiedOn.of_extends (h : w.Extends v) (hc : FalsifiedOn v c) : FalsifiedOn w c :=
  fun l hl => h _ _ (hc l hl)

/-- On an extension that leaves it neither unit nor falsified, the literal of a unit clause is true. -/
theorem UnitOn.value?_of_extends (h : UnitOn v c l) (hw : w.Extends v)
    (hfalse : ¬ FalsifiedOn w c) (hunit : ¬ ∃ k, UnitOn w c k) :
    w.value? l.var = some l.polarity := by
  obtain ⟨before, after, rfl, hnone, hothers⟩ := h
  have hothers' := hothers.of_extends hw
  rcases value?_literal w l with hl | hl | hl
  · exact absurd ⟨l, before, after, rfl, hl, hothers'⟩ hunit
  · exact hl
  · refine absurd (fun k hk => ?_) hfalse
    rcases List.mem_append.1 hk with hk | hk
    · exact hothers' k (List.mem_append_left _ hk)
    · rcases List.mem_cons.1 hk with rfl | hk
      · exact hl
      · exact hothers' k (List.mem_append_right _ hk)

/-! ### Assignments -/

theorem holds_of_satisfiedOn (hn : Within n c) (ha : v.admits a = true)
    (hc : satisfiedOn v c = true) : holds a c = true := by
  obtain ⟨l, hl, hv⟩ := satisfiedOn_iff.1 hc
  exact holds_iff.2 ⟨l, hl, Valuation.admits_iff.1 ha _ _ (hn l hl).1 hv⟩

theorem FalsifiedOn.holds_eq_false (hc : FalsifiedOn v c) (hn : Within n c)
    (ha : v.admits a = true) : holds a c = false := by
  rw [Bool.eq_false_iff]
  intro hholds
  obtain ⟨l, hl, hal⟩ := holds_iff.1 hholds
  have := Valuation.admits_iff.1 ha _ _ (hn l hl).1 (hc l hl)
  simp [hal] at this

/-- An admitted assignment satisfies a unit clause only through its literal. -/
theorem UnitOn.eq_polarity (hc : UnitOn v c l) (hn : Within n c) (ha : v.admits a = true)
    (hholds : holds a c = true) : a l.var = l.polarity := by
  obtain ⟨k, hk, hak⟩ := holds_iff.1 hholds
  rcases hc.others hk with rfl | hfalse
  · exact hak
  · have := Valuation.admits_iff.1 ha _ _ (hn k hk).1 hfalse
    simp [hak] at this

end Clause

namespace Formula

def holds (f : Formula) (a : Assignment) : Bool := f.clauses.all (Clause.holds a)

def Satisfiable (f : Formula) : Prop := ∃ a, f.holds a = true

/-- Every literal is on one of the variables `1..variableCount`. -/
def Ranged (f : Formula) : Prop := ∀ c ∈ f.clauses, c.Within f.variableCount

variable {f : Formula} {a : Assignment} {l : Literal}

theorem holds_eq_true_iff : f.holds a = true ↔ ∀ c ∈ f.clauses, Clause.holds a c = true :=
  Array.all_eq_true_iff_forall_mem

theorem mem_literals : l ∈ f.literals ↔ ∃ c ∈ f.clauses, l ∈ c := by
  simp [literals, List.mem_flatten]

theorem Ranged.literal (h : f.Ranged) (hl : l ∈ f.literals) :
    0 < l.var ∧ l.var ≤ f.variableCount := by
  obtain ⟨c, hc, hlc⟩ := mem_literals.1 hl
  exact h c hc l hlc

end Formula

end ClauseSearch
