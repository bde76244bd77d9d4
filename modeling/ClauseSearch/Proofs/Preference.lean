import ClauseSearch.Proofs.Prepared

/-! The order of preference. Assignments are compared at the lowest rank at which they differ, and the one
with the preferred polarity comes first. A search that decides the lowest rank without a value, the preferred
polarity first, meets assignments in this order, whatever else is derived on the way. -/

namespace ClauseSearch

variable {p : Prepared} {v w : Valuation} {a b : Assignment} {rank last : Nat}

namespace Prepared

/-- The assignment that a valuation stands for: a rank without a value has its preferred polarity. -/
def filled (p : Prepared) (v : Valuation) : Assignment := fun r =>
  (v.value? r).getD (p.ranking.placeAt r).preferred

/-- The first assignment has the preferred polarity at the lowest rank at which they differ. -/
def Precedes (p : Prepared) (a b : Assignment) : Prop :=
  ∀ r, 0 < r → r ≤ p.variableCount → (∀ k, 0 < k → k < r → b k = a k) →
    b r = (p.ranking.placeAt r).preferred → a r = (p.ranking.placeAt r).preferred

/-- What a valuation stands for comes first among the models that the other one admits. -/
def Foremost (p : Prepared) (v w : Valuation) : Prop :=
  ∀ a, v.admits a = true → p.formula.holds a = true → p.Precedes (p.filled w) a

theorem filled_eq {r : Nat} {value : Bool} (h : v.value? r = some value) : p.filled v r = value := by
  rw [filled, h, Option.getD_some]

theorem admits_filled (h : w.Extends v) : v.admits (p.filled w) = true :=
  Valuation.admits_iff.2 fun x b _ hx => filled_eq (h x b hx)

theorem modelOf_congr (hp : p.Proper)
    (h : ∀ r, 0 < r → r ≤ p.variableCount → p.filled v r = p.filled w r) : p.modelOf v = p.modelOf w := by
  refine List.map_congr_left fun x hx => ?_
  rw [List.mem_range'_1] at hx
  obtain ⟨hr, hle⟩ := hp.inverse.rankOf_mem x (by omega) (by omega)
  exact congrArg (signed x) (h _ hr hle)

/-! ### The order -/

/-- Where the later assignment has the preferred polarity wherever it may differ, the two agree. -/
theorem Precedes.eq_of_preferred (h : p.Precedes a b) (hlast : last ≤ p.variableCount)
    (hb : ∀ r, 0 < r → r ≤ last → b r = a r ∨ b r = (p.ranking.placeAt r).preferred) :
    ∀ r, 0 < r → r ≤ last → b r = a r := by
  intro r
  induction r using Nat.strongRecOn with
  | _ r ih =>
    intro hr hle
    rcases hb r hr hle with hsame | hpreferred
    · exact hsame
    · rw [hpreferred, h r hr (by omega) (fun k hk hlt => ih k hlt hk (by omega)) hpreferred]

theorem Precedes.antisymm (h : p.Precedes a b) (h' : p.Precedes b a) :
    ∀ r, 0 < r → r ≤ p.variableCount → b r = a r := by
  intro r
  induction r using Nat.strongRecOn with
  | _ r ih =>
    intro hr hle
    have hbelow : ∀ k, 0 < k → k < r → b k = a k := fun k hk hlt => ih k hlt hk (by omega)
    by_cases hb : b r = (p.ranking.placeAt r).preferred
    · rw [hb, h r hr hle hbelow hb]
    · have ha : a r ≠ (p.ranking.placeAt r).preferred := fun ha =>
        hb (h' r hr hle (fun k hk hlt => (hbelow k hk hlt).symm) ha)
      rw [Bool.eq_not_of_ne ha, Bool.eq_not_of_ne hb]

theorem foremost_self : p.Foremost v v := by
  intro a ha _ r hr _ _ hpreferred
  cases hv : v.value? r with
  | none => rw [filled, hv, Option.getD_none]
  | some value => rw [filled_eq hv, ← hpreferred, Valuation.admits_iff.1 ha r value hr hv]

/-- What comes first with the preferred polarity comes first without it, where the ranks below have
values. -/
theorem Foremost.of_put (hr : 0 < rank) (hlt : rank < v.slots.size) (hv : v.value? rank = none)
    (hlow : ∀ r, 0 < r → r < rank → v.value? r ≠ none)
    (hext : w.Extends (v.put rank (some (p.ranking.placeAt rank).preferred)))
    (h : p.Foremost (v.put rank (some (p.ranking.placeAt rank).preferred)) w) : p.Foremost v w := by
  have hrank : p.filled w rank = (p.ranking.placeAt rank).preferred :=
    filled_eq (hext rank _ (Valuation.value?_put_self hlt))
  intro a ha hholds r hpos hle hbelow hpreferred
  by_cases hsame : a rank = (p.ranking.placeAt rank).preferred
  · exact h a ((Valuation.admits_put hr hlt hv).2 ⟨ha, hsame⟩) hholds r hpos hle hbelow hpreferred
  · rcases Nat.lt_trichotomy r rank with hless | rfl | hmore
    · obtain ⟨value, hvalue⟩ := Option.ne_none_iff_exists'.1 (hlow r hpos hless)
      rw [filled_eq ((hext.trans (Valuation.extends_put hv)) r value hvalue), ← hpreferred,
        Valuation.admits_iff.1 ha r value hpos hvalue]
    · exact hrank
    · exact absurd ((hbelow rank hr hmore).trans hrank) hsame

end Prepared

end ClauseSearch
