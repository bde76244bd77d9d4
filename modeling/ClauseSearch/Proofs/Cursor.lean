import ClauseSearch.Proofs.Frames

/-! The cursor never skips a rank. Below a decision the search for the next rank to decide resumes from the rank
decided, and finds what it would find from the first rank on, since at every node of a search each rank up to
the one decided has a value. The invariant is followed along the way from the root to the node: propagation
keeps values, a decision is made on the lowest rank without one, and when the first attempt on a rank is
exhausted, its decision is undone exactly. -/

namespace ClauseSearch.Search

variable {p : Prepared} {o : Options} {watch : Watch} {s t u : Search}
  {rank depth depth' last cursor : Nat} {b : Bool} {decided : Option Nat} {f : Formula}
  {byFrequency moved : Bool}

/-! ### Ranks up to a cursor -/

def ValuedTo (s : Search) (cursor : Nat) : Prop :=
  ∀ r, 0 < r → r ≤ cursor → s.valuation.value? r ≠ none

theorem ValuedTo.extends (h : s.ValuedTo cursor) (hext : t.valuation.Extends s.valuation) :
    t.ValuedTo cursor :=
  fun r hr hle hnone => h r hr hle (hext.value?_eq_none hnone)

/-- From a cursor up to which each rank has a value, the rank found is the lowest without one. -/
theorem ValuedTo.nextUnvalued?_eq_some_iff (h : s.ValuedTo cursor) :
    s.nextUnvalued? last cursor = some rank ↔ rank ≤ last ∧ Lowest s.valuation rank := by
  constructor
  · intro hnext
    obtain ⟨hcursor, hlast, hnone, hlow⟩ := nextUnvalued?_eq_some hnext
    refine ⟨hlast, by omega, hnone, fun r hr hlt => ?_⟩
    rcases Nat.lt_or_ge cursor r with habove | hbelow
    · exact hlow r habove hlt
    · exact h r hr hbelow
  · rintro ⟨hlast, hlowest⟩
    have hcursor : cursor < rank :=
      Nat.lt_of_not_le fun hle => h rank hlowest.pos hle hlowest.unvalued
    cases hnext : s.nextUnvalued? last cursor with
    | none => exact absurd hlowest.unvalued (nextUnvalued?_eq_none hnext hcursor hlast)
    | some rank' =>
      obtain ⟨hcursor', -, hnone, hlow⟩ := nextUnvalued?_eq_some hnext
      refine congrArg some (hlowest.unique ⟨by omega, hnone, fun r hr hlt => ?_⟩)
      rcases Nat.lt_or_ge cursor r with habove | hbelow
      · exact hlow r habove hlt
      · exact h r hr hbelow

theorem valuedTo_zero : s.ValuedTo 0 := fun _ hr hle => by omega

theorem ValuedTo.nextUnvalued?_eq (h : s.ValuedTo cursor) :
    s.nextUnvalued? last cursor = s.nextUnvalued? last 0 :=
  Option.ext fun _ => h.nextUnvalued?_eq_some_iff.trans valuedTo_zero.nextUnvalued?_eq_some_iff.symm

/-! ### The nodes of a search -/

/-- A node gets as far as a decision: its propagation meets no conflict, some clause is not flagged, the check
lets it go on, and there is a rank to decide. -/
def Decides (p : Prepared) (o : Options) (watch : Watch) (depth : Nat) (decided : Option Nat)
    (s : Search) (rank : Nat) (u : Search) : Prop :=
  ∃ t, propagated p decided s = .ok (t, none) ∧ t.allSatisfied = false ∧
    watch t.tally.searches = none ∧ t.nextUnvalued? p.variableCount (decided.getD 0) = some rank ∧
    t.traceDecision p o depth rank = .ok u

/-- The nodes that a search begun with no decision comes to, each with its depth, the rank decided and the
state in which it begins. The second attempt on a rank is made where the first one is exhausted. -/
inductive Visits (p : Prepared) (o : Options) (watch : Watch) (depth : Nat) (s : Search) :
    Nat → Option Nat → Search → Prop
  | root : Visits p o watch depth s depth none s
  | first {depth' rank : Nat} {decided : Option Nat} {t u v : Search}
      (h : Visits p o watch depth s depth' decided t)
      (hdecides : Decides p o watch depth' decided t rank u)
      (hv : u.enter rank (p.ranking.placeAt rank).preferred = .ok v) :
      Visits p o watch depth s (depth' + 1) (some rank) v
  | second {depth' rank : Nat} {decided : Option Nat} {t u v w : Search}
      (h : Visits p o watch depth s depth' decided t)
      (hdecides : Decides p o watch depth' decided t rank u)
      (hfirst : attempt p o watch depth' rank (p.ranking.placeAt rank).preferred u =
        .ok (.ok .exhausted, v))
      (hw : v.enter rank (!(p.ranking.placeAt rank).preferred) = .ok w) :
      Visits p o watch depth s (depth' + 1) (some rank) w

theorem Decides.explore_eq (h : Decides p o watch depth decided s rank u) :
    explore p o watch depth decided s = branch p o watch depth rank u := by
  obtain ⟨t, hpropagated, hopen, hwatch, hnext, htrace⟩ := h
  rw [Search.explore_eq hpropagated]
  simp only [Option.isSome_none, Bool.false_eq_true, if_false, hopen, hwatch, hnext, htrace]
  rfl

theorem Decides.exists_propagated (h : Decides p o watch depth decided s rank u) (hp : p.Proper)
    (hs : s.Sound p) :
    ∃ t trace, propagated p decided s = .ok (t, none) ∧ t.queue.items = [] ∧
      Advance p s (fun _ => True) t none ∧ t.nextUnvalued? p.variableCount (decided.getD 0) = some rank ∧
      u = { t with trace } := by
  obtain ⟨t, hpropagated, -, -, hnext, htrace⟩ := h
  obtain ⟨hqueue, hadvance⟩ := advance_of_propagated hp hs hpropagated
  obtain ⟨trace, htrace'⟩ := traceDecision_eq_ok o t depth hp (nextUnvalued?_bounds hnext).2
  rw [htrace, Except.ok.injEq] at htrace'
  exact ⟨t, trace, hpropagated, hqueue, hadvance, hnext, htrace'⟩

/-- What a node decides is the lowest rank without a value, in a sound state with nothing waiting. -/
theorem Decides.spec (h : Decides p o watch depth decided s rank u) (hp : p.Proper) (hs : s.Sound p)
    (hvalued : s.ValuedTo (decided.getD 0)) :
    u.Sound p ∧ u.queue.items = [] ∧ rank ≤ p.variableCount ∧ Lowest u.valuation rank := by
  obtain ⟨t, trace, -, hqueue, hadvance, hnext, rfl⟩ := h.exists_propagated hp hs
  obtain ⟨hle, hlowest⟩ :=
    (hvalued.extends hadvance.derived.extends_valuation).nextUnvalued?_eq_some_iff.1 hnext
  exact ⟨{ hadvance.sound with }, hqueue, hle, hlowest⟩

theorem Lowest.valuedTo_entered (h : Lowest s.valuation rank) (hlt : rank < s.valuation.slots.size) :
    (s.entered rank b).ValuedTo rank := by
  intro r hr hle
  change (s.valuation.put rank (some b)).value? r ≠ none
  rw [Valuation.value?_put hlt]
  split
  · simp
  · exact h.valued r hr (by omega)

theorem sound_valuedTo_of_enter (hs : s.Sound p) (hle : rank ≤ p.variableCount)
    (hlowest : Lowest s.valuation rank) (h : s.enter rank b = .ok t) : t.Sound p ∧ t.ValuedTo rank := by
  rw [enter_eq_ok hs.toCoherent hlowest.pos hle hlowest.unvalued] at h
  cases h
  exact ⟨hs.entered hlowest.pos hle hlowest.unvalued, hlowest.valuedTo_entered (hs.lt_slots hle)⟩

theorem attempt_undone {ending : Ending} (hp : p.Proper) (hs : s.Sound p) (hqueue : s.queue.items = [])
    (hr : 0 < rank) (hn : rank ≤ p.variableCount) (hv : s.valuation.value? rank = none)
    (h : attempt p o watch depth rank b s = .ok (ending, t)) : ∃ u, t = s.carrying u := by
  obtain ⟨ending', u, hresult, hleft⟩ :=
    explore_left o watch (depth + 1) (some rank) hp (hs.entered (b := b) hr hn hv)
  rw [attempt_eq_ok hs hqueue hr hn hv hresult hleft] at h
  cases h
  exact ⟨u, rfl⟩

/-- The invariant of the nodes: the state is sound, and each rank up to the one decided has a value. -/
theorem Visits.spec (hp : p.Proper) (hs : s.Sound p) (h : Visits p o watch depth s depth' decided t) :
    t.Sound p ∧ t.ValuedTo (decided.getD 0) := by
  induction h with
  | root => exact ⟨hs, valuedTo_zero⟩
  | first _ hdecides hv ih =>
    obtain ⟨hu, -, hle, hlowest⟩ := hdecides.spec hp ih.1 ih.2
    exact sound_valuedTo_of_enter hu hle hlowest hv
  | second _ hdecides hfirst hw ih =>
    obtain ⟨hu, hqueue, hle, hlowest⟩ := hdecides.spec hp ih.1 ih.2
    obtain ⟨r, rfl⟩ := attempt_undone hp hu hqueue hlowest.pos hle hlowest.unvalued hfirst
    exact sound_valuedTo_of_enter (hu.carrying r) hle hlowest hw

/-- At every node below a decision, once it has propagated, each rank up to the one decided has a value. So the
next rank from the cursor on is the next from the first rank on: the lowest without a value, or none. -/
theorem nextUnvalued?_eq_of_visits (hf : f.Built)
    (hp : Prepared.ofFormula f byFrequency = .ok (.ok p)) (hs : Operated p moved s)
    (h : Visits p o watch depth s depth' (some cursor) t) :
    ∃ u conflict, propagated p (some cursor) t = .ok (u, conflict) ∧
      (∀ r, 0 < r → r ≤ cursor → u.valuation.value? r ≠ none) ∧
      u.nextUnvalued? p.variableCount cursor = u.nextUnvalued? p.variableCount 0 ∧
      ∀ rank, u.nextUnvalued? p.variableCount cursor = some rank ↔
        rank ≤ p.variableCount ∧ Lowest u.valuation rank := by
  obtain ⟨hproper, -⟩ := Prepared.proper_of_ofFormula hf.stored hp
  obtain ⟨ht, hvalued⟩ := h.spec hproper (hs.sound hproper).1
  obtain ⟨u, conflict, hresult, -, hadvance⟩ := propagated_spec hproper ht fun _ => openBut_true
  have hvalued' := hvalued.extends hadvance.derived.extends_valuation
  exact ⟨u, conflict, hresult, hvalued', hvalued'.nextUnvalued?_eq,
    fun _ => hvalued'.nextUnvalued?_eq_some_iff⟩

/-- Every model is asked for, so the first attempt on rank 1 is exhausted and the second one made. -/
theorem nextUnvalued?_eq_of_visits_second : ∃ f p t,
    f.clauses = #[[⟨1, true⟩, ⟨2, true⟩, ⟨3, true⟩], [⟨2, true⟩, ⟨3, false⟩]] ∧
      Prepared.ofFormula f false = .ok (.ok p) ∧
      Visits p { enumerate := true } (fun _ => none) 0 (fresh p) 1 (some 1) t ∧
      t.tally.decisions = 4 ∧
      ∃ u conflict, propagated p (some 1) t = .ok (u, conflict) ∧
        u.nextUnvalued? p.variableCount 1 = u.nextUnvalued? p.variableCount 0 := by
  let f := (({} : Formula).store [⟨1, true⟩, ⟨2, true⟩, ⟨3, true⟩]).store [⟨2, true⟩, ⟨3, false⟩]
  have hf : f.Built := @Formula.Built.add _ f [2, -3] 1
    (@Formula.Built.add {} _ [1, 2, 3] 0 .empty rfl) rfl
  have heval : ((Prepared.ofFormula f false).toOption.any fun prepared => prepared.toOption.any fun p =>
      (propagated p none (fresh p)).toOption.any fun root =>
        (root.1.traceDecision p { enumerate := true } 0 1).toOption.any fun u =>
          (attempt p { enumerate := true } (fun _ => none) 0 1 (p.ranking.placeAt 1).preferred
            u).toOption.any fun ended =>
              (ended.2.enter 1 (!(p.ranking.placeAt 1).preferred)).toOption.any fun t =>
                decide (root.2 = none ∧ root.1.allSatisfied = false ∧
                  root.1.nextUnvalued? p.variableCount 0 = some 1 ∧
                  ended.1.toOption = some .exhausted ∧ t.tally.decisions = 4)) = true := by
    decide +kernel
  simp only [Option.any_eq_true, Fault.toOption_eq_some] at heval
  obtain ⟨_, hp, p, rfl, ⟨root, conflict⟩, hroot, u, hu, ⟨ending, v⟩, hfirst, t, ht, hdecided⟩ := heval
  obtain ⟨rfl, hopen, hnext, rfl, hdecisions⟩ := of_decide_eq_true hdecided
  have hvisits : Visits p { enumerate := true } (fun _ => none) 0 (fresh p) 1 (some 1) t :=
    .second .root ⟨root, hroot, hopen, rfl, hnext, hu⟩ hfirst ht
  obtain ⟨w, conflict, hpropagated, -, hsame, -⟩ := nextUnvalued?_eq_of_visits hf hp .fresh hvisits
  exact ⟨f, p, t, rfl, hp, hvisits, hdecisions, w, conflict, hpropagated, hsame⟩

end ClauseSearch.Search
