/-! A valuation gives some variables a value. It is a row of slots, one for each variable, where the
slot at index 0 belongs to no variable and is true. A variable outside the row has no value. -/

namespace ClauseSearch

structure Valuation where
  slots : Array (Option Bool)
  deriving DecidableEq, Repr

namespace Valuation

/-- No variable of `1..n` has a value yet. -/
def fresh (n : Nat) : Valuation :=
  ⟨(Array.replicate (n + 1) none).setIfInBounds 0 (some true)⟩

def value? (v : Valuation) (x : Nat) : Option Bool := (v.slots[x]?).getD none

/-- How many variables there are; the slot at index 0 is not counted. -/
def variableCount (v : Valuation) : Nat := v.slots.size - 1

/-- The variables without a value, in ascending order. -/
def unvalued (v : Valuation) : List Nat :=
  (List.range' 1 v.variableCount).filter fun x => (v.value? x).isNone

def valuedCount (v : Valuation) : Nat :=
  (List.range' 1 v.variableCount).countP fun x => (v.value? x).isSome

/-- How many slots are empty. -/
def vacancies (v : Valuation) : Nat := v.slots.count none

/-- Writes a slot: none if there is no such slot. -/
def write? (v : Valuation) (x : Nat) (value : Option Bool) : Option Valuation :=
  if h : x < v.slots.size then some ⟨v.slots.set x value⟩ else none

/-- Each listed variable of `1..n` has the value listed last for it. -/
def ofValues (n : Nat) (values : List (Nat × Bool)) : Valuation :=
  values.foldl (fun v p => ⟨v.slots.setIfInBounds p.1 (some p.2)⟩) (fresh n)

/-! ### Reading and writing slots -/

@[simp] theorem size_fresh (n : Nat) : (fresh n).slots.size = n + 1 := by simp [fresh]

theorem value?_fresh_zero (n : Nat) : (fresh n).value? 0 = some true := by
  simp [fresh, value?]

theorem value?_fresh {n x : Nat} (h : 0 < x) : (fresh n).value? x = none := by
  unfold fresh value?
  rw [Array.getElem?_setIfInBounds_ne (by omega), Array.getElem?_replicate]
  split <;> rfl

theorem value?_write? {v w : Valuation} {x y : Nat} {value : Option Bool}
    (h : v.write? x value = some w) : w.value? y = if y = x then value else v.value? y := by
  unfold write? at h
  split at h
  · rename_i hx
    cases h
    unfold value?
    by_cases hyx : y = x
    · subst hyx
      simp [hx]
    · simp [hyx, Ne.symm hyx]
  · exact absurd h (by simp)

/-- Values written one after another: the last one on a variable counts. -/
theorem value?_foldl_set (values : List (Nat × Bool)) (v : Valuation) {x : Nat}
    (h : x < v.slots.size) :
    (values.foldl (fun v p => ⟨v.slots.setIfInBounds p.1 (some p.2)⟩) v).value? x =
      (values.reverse.lookup x).or (v.value? x) := by
  induction values generalizing v with
  | nil => simp
  | cons p values ih =>
    rw [List.foldl_cons, ih _ (by simpa using h), List.reverse_cons, List.lookup_append,
      Option.or_assoc]
    congr 1
    obtain ⟨y, b⟩ := p
    by_cases hx : x = y
    · subst hx
      simp [value?, h]
    · have hne : (x == y) = false := by simpa using hx
      simp [value?, Array.getElem?_setIfInBounds_ne (Ne.symm hx), List.lookup_cons, hne]

theorem value?_ofValues {n x : Nat} {values : List (Nat × Bool)} (h0 : 0 < x) (hn : x ≤ n) :
    (ofValues n values).value? x = values.reverse.lookup x := by
  unfold ofValues
  rw [value?_foldl_set _ _ (by rw [size_fresh]; omega), value?_fresh h0, Option.or_none]

theorem mem_unvalued {v : Valuation} {x : Nat} :
    x ∈ v.unvalued ↔ 0 < x ∧ x ≤ v.variableCount ∧ v.value? x = none := by
  simp only [unvalued, List.mem_filter, List.mem_range'_1, Option.isNone_iff_eq_none]
  exact ⟨fun ⟨h, hx⟩ => ⟨by omega, by omega, hx⟩, fun ⟨h0, h1, hx⟩ => ⟨by omega, hx⟩⟩

/-- Filling an empty slot leaves one empty slot less. -/
theorem vacancies_write? {v w : Valuation} {x : Nat} {b : Bool} (hx : v.slots[x]? = some none)
    (h : v.write? x (some b) = some w) : w.vacancies + 1 = v.vacancies := by
  unfold write? at h
  split at h
  · rename_i hlt
    cases h
    have hnone : v.slots[x] = none := by
      rw [Array.getElem?_eq_getElem hlt] at hx
      exact Option.some.inj hx
    have hpos : 0 < v.slots.count none :=
      Array.count_pos_iff.2 (hnone ▸ Array.getElem_mem hlt)
    simp only [vacancies, Array.count_set, hnone]
    simp
    omega
  · exact absurd h (by simp)

end Valuation

end ClauseSearch
