import ClauseSearch.Proofs.Frames

/-! Propagation draws consequences only. Whatever assumptions, propagations and decision frames have led to a
search, a value that propagation adds is one that every model of the formula on the values held has, and
a conflict that it meets leaves no such model.

Frames may be opened while ranks wait to be propagated, and values may be assumed inside a frame. The frame
does not take these back, so they count as held before it as well: the state saved for a frame is not the
state in which it was opened, but that state with what has been assumed since. -/

namespace ClauseSearch.Search

variable {p : Prepared} {s t u : Search} {v : Valuation} {l : Literal} {rank frames : Nat} {b : Bool}
  {conflict : Option Nat} {covered : Nat → Prop} {entries : List Assigned} {marks : List Mark}
  {f : Formula} {byFrequency : Bool}

/-! ### What a propagation entails -/

/-- The second state holds consequences of the first alone, and a conflict refutes the first. -/
structure Entails (p : Prepared) (s t : Search) (conflict : Option Nat) : Prop where
  /-- Each literal of a clause in conflict is false, and no assignment of the values that were held
  satisfies the formula. -/
  refuted : ∀ id, conflict = some id →
    (∃ c, p.formula.clauses[id]? = some c ∧ Clause.FalsifiedOn t.valuation c) ∧
      ∀ a, s.valuation.admits a = true → p.formula.holds a = false
  /-- Every model on the values that were held is one on the values held now. -/
  entailed : ∀ a, s.valuation.admits a = true → p.formula.holds a = true →
    t.valuation.admits a = true
  kept : t.valuation.Extends s.valuation
  /-- Each flagged clause has a true literal. -/
  flagged : ∀ id : Nat, t.flags[id]? = some true →
    ∃ c, p.formula.clauses[id]? = some c ∧ Clause.satisfiedOn t.valuation c = true

theorem Sound.exists_satisfied (hs : s.Sound p) {id : Nat} (h : s.flags[id]? = some true) :
    ∃ c, p.formula.clauses[id]? = some c ∧ Clause.satisfiedOn s.valuation c = true := by
  have hlt : id < p.formula.clauses.size := by
    have := (Array.getElem?_eq_some_iff.1 h).1
    rwa [hs.flags] at this
  have hid : p.formula.clauses[id]? = some p.formula.clauses[id] := Array.getElem?_eq_getElem hlt
  exact ⟨_, hid, hs.satisfied id _ hid h⟩

theorem Advance.entails (h : Advance p s covered t conflict) (hp : p.Proper) (hs : s.Sound p) :
    Entails p s t conflict where
  refuted id hid := by
    subst hid
    refine ⟨h.falsified id rfl, fun a hadmits => ?_⟩
    rw [Bool.eq_false_iff]
    intro ha
    have hlater := Formula.admits_of_steps hp.ranged hs.slots h.derived.steps ha hadmits
    rw [h.conflictOn.holds_eq_false hp.ranged hlater] at ha
    exact absurd ha (by simp)
  entailed a hadmits ha := Formula.admits_of_steps hp.ranged hs.slots h.derived.steps ha hadmits
  kept := h.derived.extends_valuation
  flagged _ hflag := h.sound.exists_satisfied hflag

/-! ### Frames with assumptions in them -/

/-- Values assumed after a growth might as well have been assumed before it. -/
theorem Grows.holding (h : Grows s t entries marks) (ht : t.Coherent p)
    (hsize : v.slots.size = t.valuation.slots.size) (hext : v.Extends t.valuation) :
    ∃ w : Valuation, w.slots.size = v.slots.size ∧ w.Extends s.valuation ∧
      Grows (s.holding w) (t.holding v) entries marks := by
  have hnodup := ht.logged_nodup
  have hvalued := (ht.holding hsize hext).logged_valued
  simp only [Search.holding] at hvalued
  rw [h.assigned, ranksOf_append] at hnodup hvalued
  -- the values before the growth are those after it less those of the ranks that it has logged
  obtain ⟨w, -, hw, hread⟩ := foldlM_unassign (s := t.holding v) rfl hnodup.of_append_left
    fun r hr => hvalued r (List.mem_append_left _ hr)
  refine ⟨w, hw, fun r value hr => ?_, ?_⟩
  · have hlogged : r ∉ ranksOf entries := fun hmem => by simp [h.fresh_ranks r hmem] at hr
    rw [hread, if_neg hlogged]
    exact hext r value (by rwa [(h.values r).resolve_right hlogged])
  · exact
      { h with
        values := fun r => by
          by_cases hmem : r ∈ ranksOf entries
          · exact .inr hmem
          · left
            change v.value? r = w.value? r
            rw [hread, if_neg hmem]
            rfl
        fresh_ranks := fun r hmem => by
          change w.value? r = none
          rw [hread, if_pos hmem] }

theorem Below.holding (h : Below s t) (ht : t.Coherent p)
    (hsize : v.slots.size = t.valuation.slots.size) (hext : v.Extends t.valuation) :
    ∃ w : Valuation, w.slots.size = v.slots.size ∧ w.Extends s.valuation ∧
      Below (s.holding w) (t.holding v) := by
  obtain ⟨rank, entries, marks, hg, hentries, hmarks⟩ := h
  obtain ⟨w, hw, hextends, hg'⟩ := hg.holding ht hsize hext
  exact ⟨w, hw, hextends, rank, entries, marks, hg', hentries, hmarks⟩

/-- The state lies below decisions in as many frames: each frame has a saved state with nothing
waiting, which itself lies below the decisions in the frames around it. -/
inductive Stacked (p : Prepared) : Nat → Search → Prop
  | root {s : Search} (hs : s.Sound p) : Stacked p 0 s
  | frame {frames : Nat} {s t : Search} (h : Stacked p frames s) (hqueue : s.queue.items = [])
      (hbelow : Below s t) (ht : t.Sound p) : Stacked p (frames + 1) t

namespace Stacked

theorem sound (h : Stacked p frames s) : s.Sound p := by
  cases h with
  | root hs => exact hs
  | frame _ _ _ hs => exact hs

theorem grown (h : Stacked p frames s) (ht : t.Sound p) (hgrown : Grown s t) : Stacked p frames t := by
  cases h with
  | root _ => exact .root ht
  | frame h hqueue hbelow _ => exact .frame h hqueue (hbelow.grown hgrown) ht

theorem holding (h : Stacked p frames s) (hsize : v.slots.size = s.valuation.slots.size)
    (hext : v.Extends s.valuation) : Stacked p frames (s.holding v) := by
  induction h generalizing v with
  | root hs => exact .root (hs.holding hsize hext)
  | frame h hqueue hbelow ht ih =>
    obtain ⟨w, hw, hextends, hbelow'⟩ := hbelow.holding ht.toCoherent hsize hext
    have hslots := hw.trans (hsize.trans (ht.slots.trans h.sound.slots.symm))
    exact .frame (ih hslots hextends) hqueue hbelow' (ht.holding hsize hext)

theorem entered (h : Stacked p frames s) (hr : 0 < rank) (hn : rank ≤ p.variableCount)
    (hv : s.valuation.value? rank = none) : Stacked p (frames + 1) (s.entered rank b) := by
  have hs := h.sound
  have hsaved : Stacked p frames s.clearQueue := h.grown hs.clearQueue (derived_clearQueue (p := p)).grows
  have hbelow : Below s.clearQueue (s.clearQueue.entered rank b) := below_entered (hs.lt_slots hn) hv
  have hqueue : Grown (s.clearQueue.entered rank b) (s.entered rank b) :=
    ⟨[], [], .of_eq rfl rfl rfl rfl, by simp, by simp⟩
  exact .frame hsaved rfl (hbelow.grown hqueue) (hs.entered hr hn hv)

/-- To drop a frame succeeds and leads back to its saved state. -/
theorem backtrack (h : Stacked p (frames + 1) s) :
    ∃ t, s.backtrack = .ok t ∧ Stacked p frames t := by
  cases h with
  | frame h hqueue hbelow hs =>
    have hu := h.sound
    exact ⟨_, hbelow.backtrack hu.toCoherent hs.toCoherent hqueue,
      h.grown (hu.carrying s) ((Grown.refl _).carrying s)⟩

end Stacked

/-! ### Searches with frames open -/

/-- The searches that a fresh search or a fork comes to by assumptions, propagations and decision frames
opened and dropped, in any order, with the number of frames open. What is counted, found and reported in
between makes no difference. -/
inductive Framed (p : Prepared) : Nat → Search → Prop
  | fresh : Framed p 0 (fresh p)
  | fork {frames : Nat} {s : Search} (h : Framed p frames s) : Framed p 0 s.fork
  | assume {frames : Nat} {s t : Search} {l : Literal} (h : Framed p frames s) (hpos : 0 < l.var)
      (hle : l.var ≤ p.variableCount) (ht : s.assume? l = .ok (some t)) : Framed p frames t
  | assumePure {frames : Nat} {s t : Search} (h : Framed p frames s) (ht : s.assumePure p = .ok t) :
      Framed p frames t
  | propagate {frames : Nat} {s t : Search} {conflict : Option Nat} (h : Framed p frames s)
      (ht : s.propagate p = .ok (t, conflict)) : Framed p frames t
  | propagateAll {frames : Nat} {s t : Search} {conflict : Option Nat} (h : Framed p frames s)
      (ht : s.propagateAll p = .ok (t, conflict)) : Framed p frames t
  | enter {frames : Nat} {s t : Search} {rank : Nat} {b : Bool} (h : Framed p frames s)
      (hpos : 0 < rank) (hle : rank ≤ p.variableCount) (hv : s.valuation.value? rank = none)
      (ht : s.enter rank b = .ok t) : Framed p (frames + 1) t
  | backtrack {frames : Nat} {s t : Search} (h : Framed p (frames + 1) s)
      (ht : s.backtrack = .ok t) : Framed p frames t
  | carrying {frames : Nat} {s : Search} (h : Framed p frames s) (t : Search) :
      Framed p frames (s.carrying t)

/-- Each operation keeps the saved states of the open frames in order. -/
theorem Framed.stacked (hp : p.Proper) (h : Framed p frames s) : Stacked p frames s := by
  induction h with
  | fresh => exact .root (sound_fresh p)
  | fork _ ih => exact .root ih.sound.fork
  | assume _ hpos hle ht ih =>
    obtain ⟨v, rfl, hsize, hext⟩ := exists_holding_of_assume ih.sound.toCoherent hpos hle ht
    exact ih.holding hsize hext
  | assumePure _ ht ih =>
    obtain ⟨v, rfl, hsize, hext⟩ := exists_holding_of_assumePure hp ih.sound.toCoherent ht
    exact ih.holding hsize hext
  | propagate _ ht ih =>
    obtain ⟨-, hadvance⟩ := advance_of_propagate hp ih.sound openBut_true ht
    exact ih.grown hadvance.sound hadvance.derived.grows
  | propagateAll _ ht ih =>
    obtain ⟨-, hadvance⟩ := advance_of_propagateAll hp ih.sound ht
    exact ih.grown hadvance.sound hadvance.derived.grows
  | enter _ hpos hle hv ht ih =>
    rw [enter_eq_ok ih.sound.toCoherent hpos hle hv] at ht
    cases ht
    exact ih.entered hpos hle hv
  | backtrack _ ht ih =>
    obtain ⟨t, hresult, hstacked⟩ := ih.backtrack
    rw [ht] at hresult
    cases hresult
    exact hstacked
  | carrying _ t ih => exact ih.grown (ih.sound.carrying t) ((Grown.refl _).carrying t)

/-- In every search that assumptions, propagations and frames lead to, either propagation returns, keeps
every value held and adds only such values as each model of the formula on them has. A clause that it names
in conflict is false, and then there is no such model. -/
theorem entails_of_framed (hf : f.Built) (hp : Prepared.ofFormula f byFrequency = .ok (.ok p))
    (h : Framed p frames s) :
    (∃ t conflict, s.propagate p = .ok (t, conflict) ∧ Entails p s t conflict) ∧
    (∃ t conflict, s.propagateAll p = .ok (t, conflict) ∧ Entails p s t conflict) := by
  obtain ⟨hproper, -⟩ := Prepared.proper_of_ofFormula hf.stored hp
  have hs := (h.stacked hproper).sound
  constructor
  · obtain ⟨t, conflict, hresult, -, hadvance⟩ := propagate_spec hproper hs openBut_true
    exact ⟨t, conflict, hresult, hadvance.entails hproper hs⟩
  · obtain ⟨t, conflict, hresult, -, hadvance⟩ := propagateAll_spec hproper hs
    exact ⟨t, conflict, hresult, hadvance.entails hproper hs⟩

/-- One frame is open, its decision waits, and the other rank was assumed in it. -/
theorem entails_of_framed_assumed : ∃ f p s,
    f.clauses = #[[⟨1, true⟩, ⟨2, true⟩], [⟨1, false⟩, ⟨2, true⟩]] ∧
      Prepared.ofFormula f true = .ok (.ok p) ∧ Framed p 1 s ∧ s.queue.items = [1] ∧
      s.valuation.value? 2 = some false ∧
      ∃ t conflict, s.propagate p = .ok (t, conflict) ∧ Entails p s t conflict := by
  have hf : Formula.Built _ := @Formula.Built.add _ _ [1, 2] _ .empty rfl
  have hf' : Formula.Built _ := @Formula.Built.add _ _ [-1, 2] _ hf rfl
  obtain ⟨p, hp, -, hrenames⟩ := Prepared.ofFormula_eq_ok hf'.stored true
  have hcount : p.variableCount = 2 := hrenames.variableCount
  have hone : 1 ≤ p.variableCount := by omega
  have hfree : ∀ r, 0 < r → (fresh p).valuation.value? r = none := fun _ hr =>
    Valuation.value?_fresh hr
  have hfirst := hfree 1 Nat.one_pos
  have hs := (sound_fresh p).entered (b := true) Nat.one_pos hone hfirst
  have henter : Framed p 1 ((fresh p).entered 1 true) :=
    .enter .fresh Nat.one_pos hone hfirst
      (enter_eq_ok (b := true) (sound_fresh p).toCoherent Nat.one_pos hone hfirst)
  have hother : ((fresh p).entered 1 true).valuation.value? 2 = none :=
    (Valuation.value?_put_ne (by decide)).trans (hfree 2 (by decide))
  obtain ⟨v, hassume, -, -, hread⟩ := assume?_eq_some (l := ⟨2, false⟩) hs.toCoherent (by decide)
    hcount.ge (by simp [hother])
  have hframed : Framed p 1 (((fresh p).entered 1 true).holding v) :=
    .assume henter (by decide) hcount.ge hassume
  exact ⟨_, p, _, rfl, hp, hframed, rfl, by rw [Search.holding, hread]; rfl,
    (entails_of_framed hf' hp hframed).1⟩

end ClauseSearch.Search
