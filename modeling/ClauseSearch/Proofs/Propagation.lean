import ClauseSearch.Proofs.Undo
import ClauseSearch.Proofs.UnitPropagation
import ClauseSearch.Search.Propagation

/-! Propagation over the occurrences is unit propagation. Its loops keep one invariant: flagged clauses are
satisfied, and a clause that is not flagged has two occurrences without a value or more, unless one of its
ranks waits in the queue or the loop has still to come to it. When nothing waits any more, no clause is
unit and none is falsified.

No step of a loop can fail: the logs and the queue have room for each rank and each clause once. -/

namespace ClauseSearch.Search

open Relation

variable {p : Prepared} {s t u : Search} {c : Clause} {l : Literal} {rank clause : Nat} {b : Bool}
  {conflict : Option Nat} {covered covered' : Nat → Prop}

/-! ### Soundness of the flags -/

/-- The state agrees with itself, and each flagged clause is satisfied. -/
structure Sound (p : Prepared) (s : Search) : Prop extends s.Coherent p where
  satisfied : ∀ (id : Nat) c, p.formula.clauses[id]? = some c → s.flags[id]? = some true →
    Clause.satisfiedOn s.valuation c = true

theorem Sound.flagged (hs : s.Sound p) (hid : p.formula.clauses[clause]? = some c)
    (hflag : s.flags[clause]? = some false) (hc : Clause.satisfiedOn s.valuation c = true) :
    (s.flagged clause).Sound p where
  toCoherent := hs.toCoherent.flagged hflag
  satisfied id d hd hset := by
    simp only [Search.flagged] at hset ⊢
    rw [getElem?_set_flag (Array.getElem?_eq_some_iff.1 hflag).1] at hset
    split at hset
    · rename_i heq
      rw [heq, hid, Option.some.injEq] at hd
      rwa [← hd]
    · exact hs.satisfied id d hd hset

theorem Sound.satisfied_of_extends (hs : s.Sound p) (hflags : t.flags = s.flags)
    (h : t.valuation.Extends s.valuation) (id : Nat) (d : Clause)
    (hd : p.formula.clauses[id]? = some d) (hset : t.flags[id]? = some true) :
    Clause.satisfiedOn t.valuation d = true := by
  rw [hflags] at hset
  exact Clause.satisfiedOn_of_extends h (hs.satisfied id d hd hset)

theorem Sound.forced (hs : s.Sound p) (hr : 0 < l.var) (hn : l.var ≤ p.variableCount)
    (hv : s.valuation.value? l.var = none) : (s.forced l).Sound p where
  toCoherent := hs.toCoherent.forced hr hn hv
  satisfied := hs.satisfied_of_extends rfl (Valuation.extends_put hv)

theorem Sound.entered (hs : s.Sound p) (hr : 0 < rank) (hn : rank ≤ p.variableCount)
    (hv : s.valuation.value? rank = none) : (s.entered rank b).Sound p where
  toCoherent := hs.toCoherent.entered hr hn hv
  satisfied := hs.satisfied_of_extends rfl (Valuation.extends_put hv)

theorem Coherent.clearQueue (h : s.Coherent p) : s.clearQueue.Coherent p :=
  { h with
    queue_nodup := List.nodup_nil
    queue_valued := by simp [Search.clearQueue]
    queue_capacity := by
      rw [← h.queue_capacity]
      exact BoundedStack.capacity_clear s.queue }

theorem Sound.clearQueue (hs : s.Sound p) : s.clearQueue.Sound p where
  toCoherent := hs.toCoherent.clearQueue
  satisfied := hs.satisfied

def tested (s : Search) : Search := { s with tally.clauseTests := s.tally.clauseTests + 1 }

theorem Sound.tested (hs : s.Sound p) : s.tested.Sound p := { hs with }

/-! ### What is derived -/

/-- The second state holds what unit propagation derives from the first, and logs it with no decision. -/
structure Derived (p : Prepared) (s t : Search) : Prop where
  grows : ∃ entries marks, s.Grows t entries marks ∧ (∀ e ∈ entries, e.isDecision = false) ∧
    ∀ m ∈ marks, m.isLevel = false
  steps : ReflTransGen p.formula.UnitStep s.valuation t.valuation
  solutions : t.solutions = s.solutions
  trace : t.trace = s.trace

theorem Derived.extends_valuation (h : Derived p s t) : t.valuation.Extends s.valuation :=
  Formula.extends_of_steps h.steps

theorem Derived.trans (h : Derived p s t) (h' : Derived p t u) : Derived p s u where
  grows := Grown.trans h.grows h'.grows
  steps := h.steps.trans h'.steps
  solutions := h'.solutions.trans h.solutions
  trace := h'.trace.trans h.trace

theorem Below.derived (h : Below s t) (hd : Derived p t u) : Below s u := h.grown hd.grows

/-- Queue and tally are no part of what is derived. -/
theorem Derived.of_eq (hvaluation : t.valuation = s.valuation) (hflags : t.flags = s.flags)
    (hassigned : t.assigned = s.assigned) (hmarks : t.marks = s.marks)
    (hsolutions : t.solutions = s.solutions) (htrace : t.trace = s.trace) : Derived p s t where
  grows := ⟨[], [], .of_eq hvaluation hflags hassigned hmarks, by simp, by simp⟩
  steps := by rw [hvaluation]
  solutions := hsolutions
  trace := htrace

theorem Derived.refl (s : Search) : Derived p s s := .of_eq rfl rfl rfl rfl rfl rfl

theorem derived_tested : Derived p s s.tested := .of_eq rfl rfl rfl rfl rfl rfl

theorem derived_clearQueue : Derived p s s.clearQueue := .of_eq rfl rfl rfl rfl rfl rfl

theorem derived_flagged (hflag : s.flags[clause]? = some false) :
    Derived p s (s.flagged clause) where
  grows := ⟨[], _, grows_flagged hflag, by simp, by simp [Mark.isLevel]⟩
  steps := .refl
  solutions := rfl
  trace := rfl

theorem derived_forced (hr : l.var < s.valuation.slots.size) (hc : c ∈ p.formula.clauses)
    (hunit : Clause.UnitOn s.valuation c l) : Derived p s (s.forced l) where
  grows := ⟨_, [], grows_forced hr hunit.value?_eq_none, by simp [Assigned.isDecision], by simp⟩
  steps := .single ⟨c, hc, l, hunit, rfl⟩
  solutions := rfl
  trace := rfl

/-! ### Clauses that are open -/

/-- A clause that is not flagged is undecided, unless one of its ranks waits or it is covered. -/
def OpenBut (p : Prepared) (s : Search) (covered : Nat → Prop) : Prop :=
  ∀ id c, p.formula.clauses[id]? = some c → s.flags[id]? = some false →
    (∀ l ∈ c, l.var ∉ s.queue.items) → ¬ covered id →
    Clause.status s.valuation c = .ok .undecided

theorem OpenBut.mono (h : s.OpenBut p covered)
    (himp : ∀ id, s.flags[id]? = some false → covered id → covered' id) : s.OpenBut p covered' :=
  fun id c hid hflag hqueue hcovered =>
    h id c hid hflag hqueue fun hold => hcovered (himp id hflag hold)

theorem OpenBut.flagged (h : s.OpenBut p covered) (hflag : s.flags[clause]? = some false) :
    (s.flagged clause).OpenBut p fun id => covered id ∧ id ≠ clause := by
  intro id c hid hunflagged hqueue hcovered
  simp only [Search.flagged] at hunflagged hqueue ⊢
  rw [getElem?_set_flag (Array.getElem?_eq_some_iff.1 hflag).1] at hunflagged
  split at hunflagged
  · exact absurd hunflagged (by simp)
  · rename_i hne
    exact h id c hid hunflagged hqueue fun hold => hcovered ⟨hold, hne⟩

/-- A rank that gets its value waits, so its clauses make no difference. -/
theorem OpenBut.valued (h : s.OpenBut p covered)
    (hvaluation : t.valuation = s.valuation.put rank (some b)) (hflags : t.flags = s.flags)
    (hqueue : t.queue.items = rank :: s.queue.items) : t.OpenBut p covered := by
  intro id c hid hflag hwaits hcovered
  rw [hflags] at hflag
  rw [hqueue] at hwaits
  have hsame : Clause.status t.valuation c = Clause.status s.valuation c := by
    refine Clause.status_congr fun k hk => ?_
    have hne : k.var ≠ rank := fun heq => hwaits k hk (heq ▸ List.mem_cons_self)
    rw [hvaluation]
    exact Array.getElem?_setIfInBounds_ne (Ne.symm hne)
  rw [hsame]
  exact h id c hid hflag (fun k hk hmem => hwaits k hk (List.mem_cons_of_mem _ hmem)) hcovered

/-- With nothing waiting and nothing covered, no clause is unit and none is falsified. -/
theorem OpenBut.settled (h : s.OpenBut p fun _ => False) (hp : p.Proper) (hs : s.Sound p)
    (hqueue : s.queue.items = []) : p.formula.Settled s.valuation := by
  have hkind : ∀ c ∈ p.formula.clauses, Clause.status s.valuation c = .ok .satisfied ∨
      Clause.status s.valuation c = .ok .undecided := by
    intro c hc
    obtain ⟨id, hid⟩ := Array.mem_iff_getElem?.1 hc
    have hlt : id < p.clauseCount := (Array.getElem?_eq_some_iff.1 hid).1
    rcases hs.flag_eq hlt with hflag | hflag
    · left
      rw [Clause.status_eq_satisfied_iff ((hp.within hid).slots hs.slots)]
      exact hs.satisfied id c hid hflag
    · exact .inr (h id c hid hflag (by simp [hqueue]) not_false)
  constructor
  · rintro ⟨c, hc, hfalse⟩
    have hst := (Clause.status_eq_falsified_iff ((hp.ranged c hc).slots hs.slots)).2 hfalse
    rcases hkind c hc with h' | h' <;> simp [hst] at h'
  · intro c hc l hunit
    have hst := (Clause.status_eq_unit_iff ((hp.ranged c hc).slots hs.slots)).2 hunit
    rcases hkind c hc with h' | h' <;> simp [hst] at h'

/-! ### Advancing -/

/-- What a part of a propagation leaves: what it holds is derived, a conflict is a falsified clause, and
without one the covered clauses alone may still have something to say. -/
structure Advance (p : Prepared) (s : Search) (covered : Nat → Prop) (t : Search)
    (conflict : Option Nat) : Prop where
  sound : t.Sound p
  derived : Derived p s t
  falsified : ∀ id, conflict = some id →
    ∃ c, p.formula.clauses[id]? = some c ∧ Clause.FalsifiedOn t.valuation c
  open_but : conflict = none → t.OpenBut p covered

theorem Advance.after (h : Advance p t covered u conflict) (hst : Derived p s t) :
    Advance p s covered u conflict := { h with derived := hst.trans h.derived }

theorem Advance.mono (h : Advance p s covered t conflict) (himp : ∀ id, covered id → covered' id) :
    Advance p s covered' t conflict :=
  { h with open_but := fun hnone => (h.open_but hnone).mono fun id _ => himp id }

theorem Advance.conflictOn {id : Nat} (h : Advance p s covered t (some id)) :
    p.formula.ConflictOn t.valuation := by
  obtain ⟨c, hid, hfalse⟩ := h.falsified id rfl
  exact ⟨c, Array.mem_of_getElem? hid, hfalse⟩

theorem Advance.refl (hs : s.Sound p) (hopen : s.OpenBut p covered) :
    Advance p s covered s none where
  sound := hs
  derived := .refl s
  falsified _ h := absurd h (by simp)
  open_but _ := hopen

theorem advance_flagged (hs : s.Sound p) (hid : p.formula.clauses[clause]? = some c)
    (hflag : s.flags[clause]? = some false) (hc : Clause.satisfiedOn s.valuation c = true)
    (hopen : s.OpenBut p covered) :
    Advance p s (fun id => covered id ∧ id ≠ clause) (s.flagged clause) none :=
  (Advance.refl (hs.flagged hid hflag hc) (hopen.flagged hflag)).after (derived_flagged hflag)

theorem examine_eq (hid : p.formula.clauses[clause]? = some c) :
    s.examine p clause = (Clause.status s.valuation c, s.tested) := by
  rw [examine, Fault.lookup_eq_ok.2 hid]
  rfl

theorem force_eq_ok (hs : s.Sound p) (hr : 0 < l.var) (hn : l.var ≤ p.variableCount)
    (hv : s.valuation.value? l.var = none) : s.force l = .ok (s.forced l) := by
  rw [force, assign_eq_ok_of_none (hs.lt_slots hn) hv]
  change (s.assigned.push (.forced l.var) >>= fun assigned => _) = _
  rw [BoundedStack.push_eq_pushed (hs.room_assigned hr hn hv)]
  change (s.queue.push l.var >>= fun queue => _) = _
  rw [BoundedStack.push_eq_pushed (hs.room_queue hr hn hv)]
  rfl

theorem forced_of_force (h : s.force l = .ok t) :
    l.var < s.valuation.slots.size ∧ s.valuation.value? l.var = none ∧ t = s.forced l := by
  obtain ⟨u, hassign, h⟩ := Fault.bind_eq_ok.1 h
  obtain ⟨assigned, hassigned, h⟩ := Fault.bind_eq_ok.1 h
  obtain ⟨queue, hqueue, h⟩ := Fault.bind_eq_ok.1 h
  obtain ⟨hlt, hv, rfl⟩ := valued_of_assign hassign
  rw [(BoundedStack.push_eq_ok.1 hassigned).2, (BoundedStack.push_eq_ok.1 hqueue).2] at h
  exact ⟨hlt, hv, (Fault.pure_eq_ok.1 h).symm⟩

/-- What a visit comes to: the clause flagged, its last literal forced before, or the test alone. -/
theorem visit_cases (h : visit p s clause = .ok (t, conflict)) :
    s.tested.flag clause = .ok t ∨
      (∃ l u, s.tested.force l = .ok u ∧ u.flag clause = .ok t) ∨ t = s.tested := by
  unfold visit examine at h
  split at h
  · exact absurd h (by simp)
  · rename_i heq
    obtain ⟨-, rfl⟩ := Prod.mk.inj heq
    obtain ⟨_, hflag, hu⟩ := Fault.map_eq_ok.1 h
    obtain ⟨rfl, -⟩ := Prod.mk.inj hu
    exact .inl hflag
  · rename_i l _ heq
    obtain ⟨-, rfl⟩ := Prod.mk.inj heq
    obtain ⟨_, hunit, hu⟩ := Fault.map_eq_ok.1 h
    obtain ⟨u, hforce, hflag⟩ := Fault.bind_eq_ok.1 hunit
    obtain ⟨rfl, -⟩ := Prod.mk.inj hu
    exact .inr (.inl ⟨l, u, hforce, hflag⟩)
  all_goals
    rename_i heq
    obtain ⟨-, rfl⟩ := Prod.mk.inj heq
    obtain ⟨rfl, -⟩ := Prod.mk.inj (Except.ok.inj h)
    exact .inr (.inr rfl)

/-- A visit draws the consequence of the clause, which is then no longer among the covered ones. -/
theorem visit_spec (hp : p.Proper) (hs : s.Sound p) (hid : p.formula.clauses[clause]? = some c)
    (hflag : s.flags[clause]? = some false) (hopen : s.OpenBut p covered) :
    ∃ t conflict, visit p s clause = .ok (t, conflict) ∧
      Advance p s (fun id => covered id ∧ id ≠ clause) t conflict := by
  have hslots := (hp.within hid).slots hs.slots
  obtain ⟨st, hst, hsat, hfalse, hunit⟩ := Clause.status_spec hslots
  have htested : s.tested.Sound p := hs.tested
  have hexamine := examine_eq (s := s) hid
  rw [hst] at hexamine
  unfold visit
  rw [hexamine]
  cases st with
  | satisfied =>
    have hflagged := advance_flagged htested hid hflag (hsat.1 rfl) hopen
    change ∃ t conflict, (s.tested.flag clause).map (·, none) = .ok (t, conflict) ∧ _
    rw [flag_eq_ok_of_false htested.toCoherent hflag]
    exact ⟨_, _, rfl, hflagged.after derived_tested⟩
  | unit l =>
    have hl := (hunit l).1 rfl
    obtain ⟨hr, hn⟩ := hp.within hid l hl.mem
    have hforced := htested.forced hr hn hl.value?_eq_none
    have htrue : Clause.satisfiedOn (s.tested.forced l).valuation c = true :=
      Clause.satisfiedOn_iff.2 ⟨l, hl.mem, Valuation.value?_put_self (htested.lt_slots hn)⟩
    have hflagged := advance_flagged hforced hid hflag htrue (hopen.valued rfl rfl rfl)
    have hderived : Derived p s.tested (s.tested.forced l) :=
      derived_forced (htested.lt_slots hn) (Array.mem_of_getElem? hid) hl
    change ∃ t conflict,
      ((s.tested.force l).bind (·.flag clause)).map (·, none) = .ok (t, conflict) ∧ _
    rw [force_eq_ok htested hr hn hl.value?_eq_none]
    change ∃ t conflict, ((s.tested.forced l).flag clause).map (·, none) = .ok (t, conflict) ∧ _
    rw [flag_eq_ok_of_false hforced.toCoherent hflag]
    exact ⟨_, _, rfl, hflagged.after (derived_tested.trans hderived)⟩
  | falsified =>
    refine ⟨_, _, rfl, htested, derived_tested, fun id heq => ?_, fun h => absurd h (by simp)⟩
    cases heq
    exact ⟨c, hid, hfalse.1 rfl⟩
  | undecided =>
    refine ⟨_, _, rfl, htested, derived_tested, fun id heq => absurd heq (by simp), fun _ => ?_⟩
    intro id d hd hunflagged hqueue hcovered
    by_cases heq : id = clause
    · rw [heq, hid, Option.some.injEq] at hd
      rw [← hd]
      exact hst
    · exact hopen id d hd hunflagged hqueue fun hold => hcovered ⟨hold, heq⟩

/-! ### The occurrences of a rank -/

/-- Going through occurrences of a rank draws the consequences of their clauses. -/
theorem follow_spec (hp : p.Proper) {value : Bool} {os : List Occurrence} (hs : s.Sound p)
    (hos : ∀ o ∈ os, ∃ c, p.formula.clauses[o.clause]? = some c ∧ (⟨rank, o.polarity⟩ : Literal) ∈ c)
    (hvalue : s.valuation.value? rank = some value)
    (hopen : s.OpenBut p fun id => covered id ∨ ∃ o ∈ os, o.clause = id) :
    ∃ t conflict, follow p value os s = .ok (t, conflict) ∧ Advance p s covered t conflict := by
  induction os generalizing s with
  | nil => exact ⟨s, none, rfl, .refl hs (hopen.mono fun id _ h => by simpa using h)⟩
  | cons o rest ih =>
    obtain ⟨c, hid, hmem⟩ := hos o List.mem_cons_self
    have hrest := fun o' ho' => hos o' (List.mem_cons_of_mem o ho')
    -- what is covered by the whole row and is not the clause at its head is covered by the rest
    have htail : ∀ id, (covered id ∨ ∃ o' ∈ o :: rest, o'.clause = id) ∧ id ≠ o.clause →
        covered id ∨ ∃ o' ∈ rest, o'.clause = id := by
      rintro id ⟨hcovered | ⟨o', ho', rfl⟩, hne⟩
      · exact .inl hcovered
      rcases List.mem_cons.1 ho' with rfl | ho'
      · exact absurd rfl hne
      · exact .inr ⟨o', ho', rfl⟩
    unfold follow
    rcases hs.flag_eq (Array.getElem?_eq_some_iff.1 hid).1 with hflag | hflag
    · simp only [hflag]
      refine ih hs hrest hvalue (hopen.mono fun id hunflagged hcovered => htail id ⟨hcovered, ?_⟩)
      rintro rfl
      simp [hflag] at hunflagged
    · simp only [hflag]
      by_cases hsame : (o.polarity == value) = true
      · have htrue : Clause.satisfiedOn s.valuation c = true := by
          refine Clause.satisfiedOn_iff.2 ⟨_, hmem, ?_⟩
          rw [hvalue, ← beq_iff_eq.1 hsame]
        have hflagged := advance_flagged hs hid hflag htrue hopen
        rw [if_pos hsame, flag_eq_ok_of_false hs.toCoherent hflag]
        obtain ⟨t, conflict, hfollow, hadvance⟩ :=
          ih hflagged.sound hrest hvalue ((hflagged.open_but rfl).mono fun id _ => htail id)
        exact ⟨t, conflict, hfollow, hadvance.after hflagged.derived⟩
      · rw [if_neg hsame]
        obtain ⟨t, conflict, hvisit, hvisited⟩ := visit_spec hp hs hid hflag hopen
        rw [hvisit]
        cases conflict with
        | none =>
          have hvalue' := hvisited.derived.extends_valuation _ _ hvalue
          obtain ⟨u, conflict, hfollow, hadvance⟩ :=
            ih hvisited.sound hrest hvalue' ((hvisited.open_but rfl).mono fun id _ => htail id)
          exact ⟨u, conflict, hfollow, hadvance.after hvisited.derived⟩
        | some id => exact ⟨t, some id, rfl, { hvisited with open_but := fun h => absurd h (by simp) }⟩

theorem Coherent.popped (h : s.Coherent p) (ht : s.pop? = some (rank, t)) : t.Coherent p := by
  obtain ⟨⟨r, queue⟩, hpop, heq⟩ := Option.map_eq_some_iff.1 ht
  obtain ⟨rfl, rfl⟩ := Prod.mk.inj heq
  have hitems := (BoundedStack.pop?_eq_some.1 hpop).1
  have hnodup := h.queue_nodup
  have hvalued := h.queue_valued
  rw [hitems] at hnodup hvalued
  exact
    { h with
      queue_nodup := (List.nodup_cons.1 hnodup).2
      queue_valued := fun x hx => hvalued x (List.mem_cons_of_mem _ hx)
      queue_capacity := by
        rw [← h.queue_capacity]
        exact BoundedStack.capacity_pop? hpop }

/-- What is taken from the queue has a value, and its row lists the clauses that no longer wait. -/
theorem pop?_spec (hp : p.Proper) (hs : s.Sound p) (hopen : s.OpenBut p covered)
    (h : s.pop? = some (rank, t)) :
    t.Sound p ∧ Derived p s t ∧ (∃ value, t.valuation.value? rank = some value) ∧
      t.OpenBut p fun id => covered id ∨ ∃ o ∈ p.occurrences.row rank, o.clause = id := by
  have hpopped := hs.toCoherent.popped h
  obtain ⟨⟨r, queue⟩, hpop, heq⟩ := Option.map_eq_some_iff.1 h
  obtain ⟨rfl, rfl⟩ := Prod.mk.inj heq
  have hitems := (BoundedStack.pop?_eq_some.1 hpop).1
  have hvalued := hs.queue_valued
  rw [hitems] at hvalued
  refine ⟨⟨hpopped, hs.satisfied⟩, .of_eq rfl rfl rfl rfl rfl rfl, ?_, ?_⟩
  · exact Option.ne_none_iff_exists'.1 (hvalued r List.mem_cons_self).2
  · intro id c hid hflag hqueue hcovered
    refine hopen id c hid hflag (fun l hl hmem => ?_) fun hold => hcovered (.inl hold)
    rw [hitems] at hmem
    rcases List.mem_cons.1 hmem with hvar | hmem
    · have hrow : (⟨id, l.polarity⟩ : Occurrence) ∈ p.occurrences.row r :=
        hp.row_mem.2 ⟨c, hid, by rwa [← hvar]⟩
      exact hcovered (.inr ⟨_, hrow, rfl⟩)
    · exact hqueue l hl hmem

/-! ### Whole propagations -/

/-- Propagation succeeds, and where it meets no conflict it leaves nothing to derive, but from the covered
clauses. -/
theorem propagate_spec (hp : p.Proper) (hs : s.Sound p) (hopen : s.OpenBut p covered) :
    ∃ t conflict, propagate p s = .ok (t, conflict) ∧ t.queue.items = [] ∧
      Advance p s covered t conflict := by
  induction hn : s.pending using Nat.strongRecOn generalizing s with
  | _ n ih =>
    unfold propagate
    split
    · rename_i hpop
      refine ⟨s, none, rfl, ?_, .refl hs hopen⟩
      rw [pop?, Option.map_eq_none_iff] at hpop
      unfold BoundedStack.pop? at hpop
      split at hpop
      · assumption
      · exact absurd hpop (by simp)
    · rename_i rank taken hpop
      obtain ⟨htaken, hderived, ⟨value, hvalue⟩, hcovered⟩ := pop?_spec hp hs hopen hpop
      have hslot := Valuation.slots_eq_some (Valuation.lt_size_of_value? hvalue)
      rw [hvalue] at hslot
      obtain ⟨t, conflict, hfollow, hfollowed⟩ := follow_spec hp htaken
        (fun o ho => hp.row_mem.1 ho) hvalue hcovered
      have hpending := pending_pop? hpop
      have hpending' := pending_follow hfollow
      simp only [hslot]
      split
      · rename_i heq
        rw [hfollow] at heq
        exact absurd heq (by simp)
      · rename_i heq
        rw [hfollow] at heq
        cases heq
        refine ⟨_, _, rfl, rfl, hfollowed.sound.clearQueue,
          hderived.trans (hfollowed.derived.trans derived_clearQueue), hfollowed.falsified,
          fun h => absurd h (by simp)⟩
      · rename_i heq
        rw [hfollow] at heq
        cases heq
        obtain ⟨u, conflict, hpropagate, hqueue, hadvance⟩ :=
          ih t.pending (by omega) hfollowed.sound (hfollowed.open_but rfl) rfl
        exact ⟨u, conflict, hpropagate, hqueue, hadvance.after (hderived.trans hfollowed.derived)⟩

theorem visitAll_spec (hp : p.Proper) {ids : List Nat} (hs : s.Sound p)
    (hids : ∀ id ∈ ids, id < p.clauseCount) (hopen : s.OpenBut p (· ∈ ids)) :
    ∃ t conflict, visitAll p ids s = .ok (t, conflict) ∧
      Advance p s (fun _ => False) t conflict := by
  induction ids generalizing s with
  | nil => exact ⟨s, none, rfl, .refl hs (hopen.mono fun id _ h => by simp at h)⟩
  | cons id rest ih =>
    have hrest := fun id' h => hids id' (List.mem_cons_of_mem id h)
    have hlt := hids id List.mem_cons_self
    have hid : p.formula.clauses[id]? = some p.formula.clauses[id] := Array.getElem?_eq_getElem hlt
    unfold visitAll
    rcases hs.flag_eq hlt with hflag | hflag
    · simp only [hflag]
      refine ih hs hrest (hopen.mono fun id' hunflagged hcovered => ?_)
      refine (List.mem_cons.1 hcovered).resolve_left fun heq => ?_
      simp [heq, hflag] at hunflagged
    · simp only [hflag]
      obtain ⟨t, conflict, hvisit, hvisited⟩ := visit_spec hp hs hid hflag hopen
      rw [hvisit]
      cases conflict with
      | none =>
        obtain ⟨u, conflict, hall, hadvance⟩ := ih hvisited.sound hrest
          ((hvisited.open_but rfl).mono fun id' _ h => (List.mem_cons.1 h.1).resolve_left h.2)
        exact ⟨u, conflict, hall, hadvance.after hvisited.derived⟩
      | some id' =>
        exact ⟨t, some id', rfl, { hvisited with open_but := fun h => absurd h (by simp) }⟩

/-- Propagation of everything succeeds from whatever values are held. -/
theorem propagateAll_spec (hp : p.Proper) (hs : s.Sound p) :
    ∃ t conflict, propagateAll p s = .ok (t, conflict) ∧ t.queue.items = [] ∧
      Advance p s (fun _ => False) t conflict := by
  have hids : ∀ id ∈ List.range s.flags.size, id < p.clauseCount := fun id hid => by
    rw [← hs.flags]
    exact List.mem_range.1 hid
  have hopen : s.OpenBut p (· ∈ List.range s.flags.size) := fun id c _ hflag _ hcovered =>
    absurd (List.mem_range.2 (Array.getElem?_eq_some_iff.1 hflag).1) hcovered
  obtain ⟨t, conflict, hall, hvisited⟩ := visitAll_spec hp hs hids hopen
  unfold propagateAll
  rw [hall]
  cases conflict with
  | some id =>
    exact ⟨_, _, rfl, rfl, hvisited.sound.clearQueue, hvisited.derived.trans derived_clearQueue,
      hvisited.falsified, fun h => absurd h (by simp)⟩
  | none =>
    obtain ⟨u, conflict, hpropagate, hqueue, hadvance⟩ :=
      propagate_spec hp hvisited.sound (hvisited.open_but rfl)
    exact ⟨u, conflict, hpropagate, hqueue, hadvance.after hvisited.derived⟩

theorem advance_of_propagate (hp : p.Proper) (hs : s.Sound p) (hopen : s.OpenBut p covered)
    (h : s.propagate p = .ok (t, conflict)) : t.queue.items = [] ∧ Advance p s covered t conflict := by
  obtain ⟨t', conflict', hresult, hadvance⟩ := propagate_spec hp hs hopen
  rw [h] at hresult
  cases hresult
  exact hadvance

theorem advance_of_propagateAll (hp : p.Proper) (hs : s.Sound p)
    (h : s.propagateAll p = .ok (t, conflict)) :
    t.queue.items = [] ∧ Advance p s (fun _ => False) t conflict := by
  obtain ⟨t', conflict', hresult, hadvance⟩ := propagateAll_spec hp hs
  rw [h] at hresult
  cases hresult
  exact hadvance

end ClauseSearch.Search
