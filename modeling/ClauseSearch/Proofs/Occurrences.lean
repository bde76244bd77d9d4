import ClauseSearch.Occurrences
import ClauseSearch.Proofs.FormulaStore
import Mathlib.Algebra.BigOperators.Group.Finset.Basic
import Mathlib.Algebra.BigOperators.Group.Finset.Piecewise
import Mathlib.Algebra.GroupWithZero.Nat

/-! Where the table of frequencies counts the literals, the rows of occurrences can be filled: the totals
agree, no row overflows and none is left with room. The row of a variable lists its literals in the
order in which they stand in the clauses. -/

namespace ClauseSearch

/-! ### Totals -/

theorem Sequence.foldl_add_eq_sum {α : Type} (g : α → Nat) (items : Array α) :
    items.foldl (fun n a => n + g a) 0 = (items.toList.map g).sum := by
  rw [← Array.foldl_toList, List.sum_eq_foldl, List.foldl_map]

namespace FrequencyTable

variable {t : FrequencyTable} {ls : List Literal} {n : Nat}

theorem total_eq_sum : t.total = ∑ x ∈ Finset.range t.size, (t.get x).total := by
  rw [total, Sequence.foldl_add_eq_sum]
  change _ = ((List.range t.size).map fun x => (t.get x).total).sum
  refine congrArg List.sum (List.ext_getElem (by simp) fun x hx _ => ?_)
  rw [List.length_map, Array.length_toList] at hx
  simp [get, Array.getD_eq_getD_getElem?, hx]

theorem Counts.total_get (h : t.Counts ls) (x : Nat) :
    (t.get x).total = ls.countP fun l => l.var == x := by
  rw [h x, Frequency.total]
  dsimp only
  clear h
  induction ls with
  | nil => rfl
  | cons l ls ih =>
    obtain ⟨y, b⟩ := l
    simp only [List.count_cons, List.countP_cons, ← ih]
    by_cases hy : y = x
    · cases b <;> simp [hy] <;> omega
    · simp [hy]

theorem sum_countP (h : ∀ l ∈ ls, l.var < n) :
    ∑ x ∈ Finset.range n, ls.countP (fun l => l.var == x) = ls.length := by
  induction ls with
  | nil => simp
  | cons l ls ih =>
    have hl := h l List.mem_cons_self
    simp only [List.countP_cons, Finset.sum_add_distrib, List.length_cons, beq_iff_eq]
    rw [ih fun k hk => h k (List.mem_cons_of_mem l hk), Finset.sum_ite_eq]
    simp [hl]

theorem Counts.total_eq (h : t.Counts ls) : t.total = ls.length := by
  rw [total_eq_sum, Finset.sum_congr rfl fun x _ => h.total_get x]
  exact sum_countP fun l hl => h.var_lt hl

end FrequencyTable

/-! ### Numbered literals -/

namespace Formula

variable {f : Formula}

theorem mem_numbered {id : Nat} {l : Literal} :
    (id, l) ∈ f.numbered ↔ ∃ c, f.clauses[id]? = some c ∧ l ∈ c := by
  simp only [numbered, List.mem_flatMap, Prod.exists, List.mem_map, Prod.mk.injEq,
    List.mk_mem_zipIdx_iff_getElem?, Array.getElem?_toList]
  constructor
  · rintro ⟨c, _, hc, k, hk, rfl, rfl⟩
    exact ⟨c, hc, hk⟩
  · rintro ⟨c, hc, hl⟩
    exact ⟨c, id, hc, l, hl, rfl, rfl⟩

theorem map_snd_numbered : f.numbered.map Prod.snd = f.literals := by
  have hflat : ∀ (cs : List Clause) (k : Nat),
      ((cs.zipIdx k).flatMap fun p => p.1.map fun l => (p.2, l)).map Prod.snd = cs.flatten := by
    intro cs
    induction cs with
    | nil => exact fun _ => rfl
    | cons c cs ih =>
      intro k
      rw [List.zipIdx_cons, List.flatMap_cons, List.map_append, ih, List.flatten_cons]
      simp [Function.comp_def]
  exact hflat _ 0

theorem literalCount_eq : f.literalCount = f.literals.length := by
  rw [literalCount, Sequence.foldl_add_eq_sum, literals, List.length_flatten]

end Formula

/-! ### Filling the rows -/

namespace Occurrences

variable {rows : Rows} {entries : List (Nat × Literal)} {f : Formula} {x : Nat}

/-- The literals of a variable among numbered ones, as occurrences. -/
def rowOf (entries : List (Nat × Literal)) (x : Nat) : List Occurrence :=
  entries.filterMap fun (id, l) => if l.var = x then some ⟨id, l.polarity⟩ else none

theorem mem_rowOf {o : Occurrence} :
    o ∈ rowOf entries x ↔ (o.clause, (⟨x, o.polarity⟩ : Literal)) ∈ entries := by
  obtain ⟨id, b⟩ := o
  simp only [rowOf, List.mem_filterMap, Prod.exists]
  constructor
  · rintro ⟨id', ⟨y, c⟩, hmem, heq⟩
    split at heq
    · simp_all
    · exact absurd heq (by simp)
  · exact fun hmem => ⟨id, ⟨x, b⟩, hmem, by simp⟩

theorem length_rowOf (entries : List (Nat × Literal)) (x : Nat) :
    (rowOf entries x).length = (entries.map Prod.snd).countP fun l => l.var == x := by
  induction entries with
  | nil => rfl
  | cons entry entries ih =>
    obtain ⟨id, l⟩ := entry
    by_cases hl : l.var = x
    · simpa [rowOf, hl] using ih
    · simpa [rowOf, hl] using ih

theorem rowOf_cons_self {id : Nat} {l : Literal} :
    rowOf ((id, l) :: entries) l.var = ⟨id, l.polarity⟩ :: rowOf entries l.var := by
  simp [rowOf]

theorem rowOf_cons_ne {id : Nat} {l : Literal} (h : l.var ≠ x) :
    rowOf ((id, l) :: entries) x = rowOf entries x := by
  simp [rowOf, h]

def putAll (row : BoundedStack Occurrence) (items : List Occurrence) : BoundedStack Occurrence :=
  ⟨items.reverse ++ row.items, row.room - items.length⟩

/-- With room enough in each row, every literal finds its place. -/
theorem foldlM_place (hvar : ∀ e ∈ entries, e.2.var < rows.size)
    (hroom : ∀ (x : Nat) (row : BoundedStack Occurrence), rows[x]? = some row →
      (rowOf entries x).length ≤ row.room) :
    ∃ filled : Rows, entries.foldlM place rows = .ok filled ∧
      ∀ x, filled[x]? = rows[x]?.map fun row => putAll row (rowOf entries x) := by
  induction entries generalizing rows with
  | nil => exact ⟨rows, rfl, fun x => by simp [rowOf, putAll]⟩
  | cons entry entries ih =>
    obtain ⟨id, l⟩ := entry
    have hlt : l.var < rows.size := hvar (id, l) List.mem_cons_self
    have hrow : rows[l.var]? = some rows[l.var] := Array.getElem?_eq_getElem hlt
    set row := rows[l.var] with hdef
    have hlength := hroom l.var row hrow
    rw [rowOf_cons_self, List.length_cons] at hlength
    let next : BoundedStack Occurrence := ⟨⟨id, l.polarity⟩ :: row.items, row.room - 1⟩
    have hplace : place rows (id, l) = .ok (rows.setIfInBounds l.var next) := by
      have hpush : row.push? ⟨id, l.polarity⟩ = some next :=
        BoundedStack.push?_eq_some.2 ⟨by omega, rfl⟩
      simp [place, hrow, hpush]
    have hget : ∀ x, (rows.setIfInBounds l.var next)[x]? =
        if x = l.var then some next else rows[x]? := by
      intro x
      by_cases hx : x = l.var
      · subst hx
        simp [hlt]
      · simp [hx, Array.getElem?_setIfInBounds_ne (Ne.symm hx)]
    obtain ⟨filled, hfilled, hread⟩ := @ih (rows.setIfInBounds l.var next)
      (fun e he => by simpa using hvar e (List.mem_cons_of_mem _ he)) (fun x r hr => by
        rw [hget] at hr
        split at hr
        · rename_i hx
          cases hr
          rw [hx]
          show _ ≤ row.room - 1
          omega
        · rename_i hx
          have := hroom x r hr
          rwa [rowOf_cons_ne (Ne.symm hx)] at this)
    refine ⟨filled, by rw [Sequence.foldlM_cons_ok hplace, hfilled], fun x => ?_⟩
    rw [hread, hget]
    by_cases hx : x = l.var
    · subst hx
      rw [if_pos rfl, hrow, rowOf_cons_self]
      simp [putAll, next, Nat.sub_sub, Nat.add_comm]
    · rw [if_neg hx, rowOf_cons_ne (Ne.symm hx)]

/-- Rows without room left are handed over from the first item to the last. -/
theorem finish_eq_ok
    (h : ∀ (x : Nat) (row : BoundedStack Occurrence), rows[x]? = some row → row.room = 0) :
    finish rows = .ok ⟨rows.map (·.toList)⟩ := by
  unfold finish
  split
  · rename_i row x hfind
    have hmem := List.mem_of_find?_eq_some hfind
    rw [List.mk_mem_zipIdx_iff_getElem?, Array.getElem?_toList] at hmem
    have := List.find?_some hfind
    simp [h x row hmem] at this
  · rfl

theorem length_rowOf_numbered (h : f.frequencies.Counts f.literals) (x : Nat) :
    (rowOf f.numbered x).length = (f.frequencies.get x).total := by
  rw [length_rowOf, Formula.map_snd_numbered, h.total_get]

/-- The row kept for a variable has room for exactly its occurrences. -/
theorem reserve_eq_empty (h : f.frequencies.Counts f.literals) {row : BoundedStack Occurrence}
    (hrow : (reserve f.frequencies)[x]? = some row) :
    row = .empty (rowOf f.numbered x).length := by
  rw [reserve, Array.getElem?_map] at hrow
  obtain ⟨t, ht, rfl⟩ := Option.map_eq_some_iff.1 hrow
  rw [length_rowOf_numbered h, FrequencyTable.get, Array.getD_eq_getD_getElem?, ht, Option.getD_some]

theorem rowOf_numbered_eq_nil (h : f.frequencies.Counts f.literals) (hx : f.frequencies.size ≤ x) :
    rowOf f.numbered x = [] := by
  apply List.eq_nil_of_length_eq_zero
  rw [length_rowOf_numbered h, FrequencyTable.get, Array.getD_eq_getD_getElem?,
    Array.getElem?_eq_none hx]
  rfl

/-- A formula whose table counts its literals has its occurrences row by row. -/
theorem ofFormula_eq_ok (h : f.frequencies.Counts f.literals) :
    ∃ o, ofFormula f = .ok o ∧ ∀ x, o.row x = rowOf f.numbered x := by
  have htotal : f.frequencies.total = f.literalCount := by
    rw [h.total_eq, Formula.literalCount_eq]
  have hsize : (reserve f.frequencies).size = f.frequencies.size := Array.size_map
  have hvar : ∀ e ∈ f.numbered, e.2.var < (reserve f.frequencies).size := by
    intro e he
    have hmem : e.2 ∈ f.literals := Formula.map_snd_numbered ▸ List.mem_map_of_mem he
    rw [hsize]
    exact h.var_lt hmem
  obtain ⟨filled, hfilled, hread⟩ := foldlM_place hvar fun x row hrow => by
    rw [reserve_eq_empty h hrow]
    exact Nat.le_refl _
  have hfull : ∀ (x : Nat) (row : BoundedStack Occurrence), filled[x]? = some row → row.room = 0 := by
    intro x row hrow
    rw [hread] at hrow
    obtain ⟨row', hrow', rfl⟩ := Option.map_eq_some_iff.1 hrow
    simp [reserve_eq_empty h hrow', putAll, BoundedStack.empty]
  refine ⟨⟨filled.map (·.toList)⟩, ?_, fun x => ?_⟩
  · rw [ofFormula]
    simp only [htotal, ne_eq, not_true_eq_false, if_false]
    change (f.numbered.foldlM place (reserve f.frequencies) >>= finish) = _
    rw [hfilled]
    exact finish_eq_ok hfull
  · have hrow : (filled.map (·.toList))[x]? = (reserve f.frequencies)[x]?.map fun row =>
        (putAll row (rowOf f.numbered x)).toList := by
      rw [Array.getElem?_map, hread, Option.map_map]
      rfl
    rw [row, Array.getD_eq_getD_getElem?, hrow]
    cases hx : (reserve f.frequencies)[x]? with
    | some row =>
      simp [reserve_eq_empty h hx, putAll, BoundedStack.toList, BoundedStack.empty]
    | none =>
      have hout : f.frequencies.size ≤ x := by
        rw [← hsize]
        exact Array.getElem?_eq_none_iff.1 hx
      exact (rowOf_numbered_eq_nil h hout).symm

end Occurrences

end ClauseSearch
