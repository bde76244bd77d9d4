import ClauseSearch.Formula
import Mathlib.Data.List.Nodup
import Mathlib.Data.List.Perm.Basic

/-! A valuation as a partial assignment. Writing a slot is a total operation here, valuations of one size
are ordered by the values they hold, and each stands for the total assignments that it admits: those
that agree with every value held. -/

namespace ClauseSearch

abbrev Assignment := Nat → Bool

/-- A count over a list without repetition, where one item has the property in only one reading. -/
theorem countP_eq_succ {α : Type} [DecidableEq α] {l : List α} {x : α} {p q : α → Bool}
    (hl : l.Nodup) (hx : x ∈ l) (hoff : ∀ y, y ≠ x → p y = q y) (hp : p x = true)
    (hq : q x = false) : l.countP p = l.countP q + 1 := by
  have hperm := List.perm_cons_erase hx
  have hrest : (l.erase x).countP p = (l.erase x).countP q := by
    refine List.countP_congr fun y hy => ?_
    rw [hoff y fun h => hl.not_mem_erase (h ▸ hy)]
  rw [hperm.countP_eq, hperm.countP_eq q, List.countP_cons, List.countP_cons, hrest]
  simp [hp, hq]

namespace Valuation

variable {v w u : Valuation} {x y : Nat} {b : Bool} {value : Option Bool} {a : Assignment}

/-! ### Slots -/

/-- The valuation with one slot written, unchanged if there is no such slot. -/
def put (v : Valuation) (x : Nat) (value : Option Bool) : Valuation :=
  ⟨v.slots.setIfInBounds x value⟩

@[simp] theorem size_put : (v.put x value).slots.size = v.slots.size := by simp [put]

@[simp] theorem variableCount_put : (v.put x value).variableCount = v.variableCount := by
  simp [variableCount]

theorem write?_eq_put (h : x < v.slots.size) : v.write? x value = some (v.put x value) := by
  simp [write?, put, Array.setIfInBounds, h]

theorem value?_put (h : x < v.slots.size) :
    (v.put x value).value? y = if y = x then value else v.value? y :=
  value?_write? (write?_eq_put h)

theorem value?_put_self (h : x < v.slots.size) : (v.put x value).value? x = value := by
  rw [value?_put h, if_pos rfl]

theorem value?_put_ne (h : y ≠ x) : (v.put x value).value? y = v.value? y := by
  simp [put, value?, Array.getElem?_setIfInBounds_ne (Ne.symm h)]

theorem slots_eq_some (h : x < v.slots.size) : v.slots[x]? = some (v.value? x) := by
  simp [value?, Array.getElem?_eq_getElem h]

theorem value?_of_slot (h : v.slots[x]? = some value) : v.value? x = value := by
  rw [value?, h, Option.getD_some]

theorem lt_size_of_value? (h : v.value? x = some b) : x < v.slots.size := by
  by_contra hx
  simp [value?, Array.getElem?_eq_none (Nat.le_of_not_lt hx)] at h

theorem le_variableCount_of_value? (h : v.value? x = some b) : x ≤ v.variableCount := by
  have := lt_size_of_value? h
  simp only [variableCount]
  omega

theorem ext_value? (hsize : v.slots.size = w.slots.size) (h : ∀ x, v.value? x = w.value? x) :
    v = w := by
  obtain ⟨vs⟩ := v
  obtain ⟨ws⟩ := w
  congr 1
  refine Array.ext hsize fun i hi hi' => ?_
  have := h i
  simpa [value?, hi, hi'] using this

theorem mem_range_iff (hx : 0 < x) : x ∈ List.range' 1 v.variableCount ↔ x < v.slots.size := by
  simp only [List.mem_range'_1, variableCount]
  omega

theorem valuedCount_put_some (hx : 0 < x) (h : x < v.slots.size) (hv : v.value? x = none) :
    (v.put x (some b)).valuedCount = v.valuedCount + 1 := by
  simp only [valuedCount, variableCount_put]
  refine countP_eq_succ List.nodup_range' ((mem_range_iff hx).2 h) (fun y hy => ?_) ?_ ?_
  · rw [value?_put_ne hy]
  · simp [value?_put_self h]
  · simp [hv]

theorem valuedCount_put_none (hx : 0 < x) (hv : v.value? x = some b) :
    (v.put x none).valuedCount + 1 = v.valuedCount := by
  have h := lt_size_of_value? hv
  simp only [valuedCount, variableCount_put]
  symm
  refine countP_eq_succ List.nodup_range' ((mem_range_iff hx).2 h) (fun y hy => ?_) ?_ ?_
  · rw [value?_put_ne hy]
  · simp [hv]
  · simp [value?_put_self h]

theorem valuedCount_le : v.valuedCount ≤ v.variableCount := by
  simpa [valuedCount] using
    List.countP_le_length (p := fun x => (v.value? x).isSome) (l := List.range' 1 v.variableCount)

theorem valuedCount_lt (hx : 0 < x) (h : x < v.slots.size) (hv : v.value? x = none) :
    v.valuedCount < v.variableCount := by
  have hcount := valuedCount_put_some (b := true) hx h hv
  have hle := valuedCount_le (v := v.put x (some true))
  rw [variableCount_put] at hle
  omega

theorem valuedCount_fresh (n : Nat) : (fresh n).valuedCount = 0 := by
  simp only [valuedCount, List.countP_eq_zero, List.mem_range'_1]
  intro x hx
  simp [value?_fresh (n := n) (x := x) (by omega)]

theorem nodup_unvalued : v.unvalued.Nodup := List.Nodup.filter _ List.nodup_range'

theorem length_unvalued_add (v : Valuation) : v.unvalued.length + v.valuedCount = v.variableCount := by
  have hsplit := List.length_eq_countP_add_countP (fun x => (v.value? x).isNone)
    (l := List.range' 1 v.variableCount)
  simp only [List.length_range', Bool.not_eq_true, Option.isNone_eq_false_iff, Bool.decide_eq_true]
    at hsplit
  rw [unvalued, ← List.countP_eq_length_filter, valuedCount, ← hsplit]

theorem length_unvalued_put (hx : 0 < x) (h : x < v.slots.size) (hv : v.value? x = none) :
    (v.put x (some b)).unvalued.length + 1 = v.unvalued.length := by
  have hbefore := length_unvalued_add v
  have hafter := length_unvalued_add (v.put x (some b))
  rw [valuedCount_put_some hx h hv, variableCount_put] at hafter
  omega

/-! ### Extension -/

/-- The first valuation holds every value that the second holds. -/
def Extends (w v : Valuation) : Prop := ∀ x b, v.value? x = some b → w.value? x = some b

theorem Extends.refl (v : Valuation) : v.Extends v := fun _ _ h => h

theorem Extends.trans (h : u.Extends w) (h' : w.Extends v) : u.Extends v :=
  fun x b hx => h x b (h' x b hx)

theorem Extends.value?_eq_none (h : w.Extends v) (hx : w.value? x = none) : v.value? x = none := by
  cases hv : v.value? x with
  | none => rfl
  | some b => exact absurd (h x b hv) (by simp [hx])

theorem Extends.antisymm (hsize : v.slots.size = w.slots.size) (h : v.Extends w)
    (h' : w.Extends v) : v = w := by
  refine ext_value? hsize fun x => ?_
  cases hx : v.value? x with
  | some b => rw [h' x b hx]
  | none => rw [h.value?_eq_none hx]

theorem extends_put (hv : v.value? x = none) : (v.put x (some b)).Extends v := by
  intro y c hy
  have hne : y ≠ x := fun h => by simp [h, hv] at hy
  rw [value?_put_ne hne, hy]

theorem Extends.length_unvalued_le (hsize : w.slots.size = v.slots.size) (h : w.Extends v) :
    w.unvalued.length ≤ v.unvalued.length := by
  refine (List.subperm_of_subset nodup_unvalued fun x hx => ?_).length_le
  obtain ⟨hpos, hle, hnone⟩ := mem_unvalued.1 hx
  rw [variableCount, hsize] at hle
  exact mem_unvalued.2 ⟨hpos, hle, h.value?_eq_none hnone⟩

/-! ### Assignments -/

/-- Whether an assignment agrees with every value held. -/
def admits (v : Valuation) (a : Assignment) : Bool :=
  (List.range' 1 v.variableCount).all fun x => (v.value? x).all (· == a x)

theorem admits_iff : v.admits a = true ↔ ∀ x b, 0 < x → v.value? x = some b → a x = b := by
  simp only [admits, List.all_eq_true, List.mem_range'_1]
  constructor
  · intro h x b hx hv
    have hle := le_variableCount_of_value? hv
    have heq := h x (by omega)
    rw [hv] at heq
    exact (beq_iff_eq.1 heq).symm
  · intro h x hx
    cases hv : v.value? x with
    | none => rfl
    | some b => simp [h x b (by omega) hv]

theorem admits_of_extends (h : w.Extends v) (hw : w.admits a = true) : v.admits a = true :=
  admits_iff.2 fun x b hx hv => admits_iff.1 hw x b hx (h x b hv)

/-- Holding one more value narrows the assignments to those that have it. -/
theorem admits_put (hx : 0 < x) (h : x < v.slots.size) (hv : v.value? x = none) :
    (v.put x (some b)).admits a = true ↔ v.admits a = true ∧ a x = b := by
  constructor
  · intro hw
    exact ⟨admits_of_extends (extends_put hv) hw, admits_iff.1 hw x b hx (value?_put_self h)⟩
  · rintro ⟨hw, hb⟩
    refine admits_iff.2 fun y c hy hyc => ?_
    rw [value?_put h] at hyc
    split at hyc
    · rename_i hyx
      rw [hyx, hb]
      exact Option.some.inj hyc
    · exact admits_iff.1 hw y c hy hyc

theorem admits_fresh (n : Nat) (a : Assignment) : (fresh n).admits a = true := by
  refine admits_iff.2 fun x b hx hv => ?_
  rw [value?_fresh hx] at hv
  exact absurd hv (by simp)

/-- A variable on which all the assignments admitted agree has that value. -/
theorem value?_of_admits (h : ∀ a, v.admits a = true → a x = b) : v.value? x = some b := by
  -- without a value of its own the variable could be filled either way
  have hfilled : ∀ c, (v.value? x).getD c = b := fun c =>
    h (fun y => (v.value? y).getD c) (admits_iff.2 fun y d _ hy => by simp [hy])
  cases hv : v.value? x with
  | some c =>
    have := hfilled b
    simpa [hv] using this
  | none =>
    have := hfilled !b
    simp [hv] at this

def Apart (v w : Valuation) : Prop := ∀ a, v.admits a = true → w.admits a = false

theorem Apart.mono {v' w' : Valuation} (h : Apart v w) (hv : v'.Extends v) (hw : w'.Extends w) :
    Apart v' w' := by
  intro a ha
  cases hwa : w'.admits a with
  | false => rfl
  | true => simpa [admits_of_extends hw hwa] using h a (admits_of_extends hv ha)

/-- The two ways to value a variable have no assignment in common. -/
theorem apart_put (hx : 0 < x) (h : x < v.slots.size) (hv : v.value? x = none) :
    Apart (v.put x (some b)) (v.put x (some !b)) := by
  intro a ha
  have hb := ((admits_put hx h hv).1 ha).2
  rw [Bool.eq_false_iff]
  intro hc
  have := ((admits_put hx h hv).1 hc).2
  simp [hb] at this

/-- Some assignment has the values held. -/
def completion (v : Valuation) : Assignment := fun x => (v.value? x).getD true

theorem admits_completion : v.admits v.completion = true :=
  admits_iff.2 fun x b _ hv => by simp [completion, hv]

end Valuation

end ClauseSearch
