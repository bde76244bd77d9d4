import ClauseSearch.Proofs.Packed
import Mathlib.Algebra.Order.BigOperators.Group.Finset

/-! Occurrences of a formula whose table of frequencies may contradict its clauses. The occurrences are found
exactly if the table has every variable with the number of its literals. Otherwise the sums differ, or else some
literal comes to a variable whose slots are all taken: a variable left with free slots would need another one
with too few, and the first of those literals is met before any slot is missed. -/

namespace ClauseSearch

/-- A literal that comes after others finds a slot: the table has its variable, with more occurrences than
have been placed. -/
def FrequencyTable.Admits (t : FrequencyTable) (before : List Literal) (l : Literal) : Prop :=
  l.var < t.size ∧ before.countP (fun k => k.var == l.var) < (t.get l.var).total

/-- Every literal of the list finds a slot after those before it. -/
def FrequencyTable.AdmitsAll (t : FrequencyTable) (ls : List Literal) : Prop :=
  ∀ before l after, ls = before ++ l :: after → t.Admits before l

namespace Formula

/-- The table has every variable that occurs, and each of its variables as often as it occurs. -/
structure Consistent (f : Formula) : Prop where
  var_lt : ∀ l ∈ f.literals, l.var < f.frequencies.size
  total_get : ∀ x < f.frequencies.size,
    (f.frequencies.get x).total = f.literals.countP fun l => l.var == x

/-- How a table contradicts the clauses: by its sum, or else by the first literal that finds no slot. -/
inductive Contradicts (f : Formula) : TableError → Prop
  | sum : f.frequencies.total ≠ f.literalCount →
    Contradicts f (.frequencyMismatch f.literalCount f.frequencies.total)
  | literal {before after : List Literal} {l : Literal} :
    f.frequencies.total = f.literalCount → f.literals = before ++ l :: after →
    f.frequencies.AdmitsAll before → ¬f.frequencies.Admits before l →
    Contradicts f (.slotOverflow l.var)

end Formula

namespace Packed

/-! ### Every access checked -/

namespace Guarded

/-- What ends the construction: a broken bound, or a table that contradicts the clauses. -/
abbrev Stop := Fault ⊕ TableError

/-- A step within bounds, or the bound it breaks. -/
def bounded {α : Type} (step : Except Fault α) : Except Stop α := step.mapError .inl

def write {α : Type} (table : Array α) (index : Nat) (a : α) : Except Fault (Array α) :=
  if index < table.size then .ok (table.setIfInBounds index a) else .error (.outOfRange index)

def leading {α : Type} (table : Array α) (n : Nat) : Except Fault (Array α) :=
  if n ≤ table.size then .ok (table.take n) else .error (.outOfRange n)

def minus (n k : Nat) : Except Fault Nat := if k ≤ n then .ok (n - k) else .error .underflow

/-- Every slot is to be written, from the first of each variable on. -/
def reserve (t : FrequencyTable) : Except Stop Filling := do
  let cursors ← bounded (leading (offsetsOf t) t.size)
  return { cursors, slots := Array.replicate t.total ⟨0, false⟩ }

/-- Puts a literal into the next free slot of its variable. Only the cursor may be missing. -/
def place (offsets : Array Nat) (s : Filling) (entry : Nat × Literal) : Except Stop Filling :=
  let (id, l) := entry
  match s.cursors[l.var]? with
  | none => .error (.inr (.slotOverflow l.var))
  | some slot => do
    let stop ← bounded (Fault.lookup offsets (l.var + 1))
    if slot < stop then
      let slots ← bounded (write s.slots slot ⟨id, l.polarity⟩)
      let cursors ← bounded (write s.cursors l.var (slot + 1))
      return { cursors, slots }
    else
      throw (.inr (.slotOverflow l.var))

/-- Passes a variable whose slots are all taken. -/
def pass (offsets : Array Nat) (cursor : Nat × Nat) : Except Stop Unit := do
  let (slot, x) := cursor
  let stop ← bounded (Fault.lookup offsets (x + 1))
  let missing ← bounded (minus stop slot)
  if missing ≠ 0 then
    throw (.inr (.slotUnderfill x missing))

def ofFormula (f : Formula) : Except Stop Packed := do
  let found := f.frequencies.total
  if found ≠ f.literalCount then
    throw (.inr (.frequencyMismatch f.literalCount found))
  let offsets := offsetsOf f.frequencies
  let s ← f.numbered.foldlM (place offsets) (← reserve f.frequencies)
  s.cursors.toList.zipIdx.forM (pass offsets)
  return { offsets, slots := s.slots }

variable {α : Type} {table : Array α} {index n k : Nat} {a : α} {f : Formula}

theorem bounded_lookup (h : table[index]? = some a) : bounded (Fault.lookup table index) = .ok a := by
  rw [Fault.lookup_eq_ok.2 h]
  rfl

theorem bounded_write (h : index < table.size) :
    bounded (write table index a) = .ok (table.setIfInBounds index a) := by
  rw [write, if_pos h]
  rfl

theorem bounded_minus (h : k ≤ n) : bounded (minus n k) = .ok (n - k) := by
  rw [minus, if_pos h]
  rfl

theorem reserve_eq (t : FrequencyTable) : reserve t = .ok (Packed.reserve t) := by
  have hle : t.size ≤ (offsetsOf t).size := by rw [size_offsetsOf]; omega
  have hcursors : (offsetsOf t).take t.size = (offsetsOf t).pop := by
    rw [Array.take_eq_extract]
    exact Array.extract_eq_pop (by rw [size_offsetsOf, Nat.add_sub_cancel])
  rw [reserve, leading, if_pos hle, hcursors]
  rfl

theorem ofFormula_eq (h : f.frequencies.total = f.literalCount) :
    ofFormula f = (do
      let s ← f.numbered.foldlM (place (offsetsOf f.frequencies)) (Packed.reserve f.frequencies)
      s.cursors.toList.zipIdx.forM (pass (offsetsOf f.frequencies))
      return { offsets := offsetsOf f.frequencies, slots := s.slots }) := by
  simp only [ofFormula, ne_eq, h, not_true_eq_false, if_false, reserve_eq]
  rfl

end Guarded

variable {t : FrequencyTable} {s : Filling} {f : Formula} {entries : List (Nat × Literal)}
  {ls before after : List Literal} {l : Literal} {e : TableError} {id x : Nat}

/-! ### Which literals find a slot -/

theorem admitsAll_nil : t.AdmitsAll [] := by
  intro before l after h
  simp at h

theorem admitsAll_concat : t.AdmitsAll (ls ++ [l]) ↔ t.AdmitsAll ls ∧ t.Admits ls l := by
  constructor
  · intro h
    constructor
    · intro before k after hls
      exact h before k (after ++ [l]) (by simp [hls])
    · exact h ls l [] rfl
  · rintro ⟨hls, hl⟩ before k after h
    rcases List.eq_nil_or_concat after with rfl | ⟨after, m, rfl⟩
    · obtain ⟨rfl, hk⟩ := List.append_inj' h rfl
      cases hk
      exact hl
    · rw [List.concat_eq_append, ← List.cons_append, ← List.append_assoc] at h
      exact hls before k after (List.append_inj' h rfl).1

theorem admitsAll_or_exists (t : FrequencyTable) (ls : List Literal) : t.AdmitsAll ls ∨
    ∃ before l after, ls = before ++ l :: after ∧ t.AdmitsAll before ∧ ¬t.Admits before l := by
  induction ls using List.reverseRecOn with
  | nil => exact .inl admitsAll_nil
  | append_singleton ls l ih =>
    rcases ih with hall | ⟨before, k, after, rfl, hall, hk⟩
    · by_cases hl : t.Admits ls l
      · exact .inl (admitsAll_concat.2 ⟨hall, hl⟩)
      · exact .inr ⟨ls, l, [], rfl, hall, hl⟩
    · exact .inr ⟨before, k, after ++ [l], by simp, hall, hk⟩

/-- Where the table agrees with the clauses, no literal is one too many. -/
theorem admitsAll_of_consistent (h : f.Consistent) : f.frequencies.AdmitsAll f.literals := by
  intro before l after hls
  have hlt := h.var_lt l (by simp [hls])
  refine ⟨hlt, ?_⟩
  rw [h.total_get _ hlt, hls, List.countP_append, List.countP_cons, if_pos (by simp)]
  omega

/-! ### The filling after some of the literals -/

/-- The cursors stand as many slots on as there were literals, and no further than the slots reach. -/
structure Placed (t : FrequencyTable) (ls : List Literal) (s : Filling) : Prop where
  var_lt : ∀ l ∈ ls, l.var < t.size
  countP_le : ∀ x, ls.countP (fun l => l.var == x) ≤ (t.get x).total
  size_slots : s.slots.size = t.total
  size_cursors : s.cursors.size = t.size
  cursor : ∀ x < t.size, s.cursors[x]? = some (offset t x + ls.countP fun l => l.var == x)

theorem placed_reserve (t : FrequencyTable) : Placed t [] (reserve t) where
  var_lt := by simp
  countP_le := by simp
  size_slots := Array.size_replicate
  size_cursors := size_cursors_reserve t
  cursor x hx := cursor_reserve hx

theorem Placed.put (h : Placed t ls s) (hl : t.Admits ls l) (o : Occurrence) :
    Placed t (ls ++ [l]) (s.put l.var (offset t l.var + ls.countP fun k => k.var == l.var) o) where
  var_lt k hk := by
    rcases List.mem_append.1 hk with hk | hk
    · exact h.var_lt k hk
    · cases List.mem_singleton.1 hk
      exact hl.1
  countP_le x := by
    have := h.countP_le x
    rw [List.countP_append, List.countP_singleton]
    by_cases hx : l.var = x
    · subst hx
      have := hl.2
      simp only [beq_self_eq_true, if_true]
      omega
    · simpa [hx] using this
  size_slots := by rw [Filling.put, Array.size_setIfInBounds, h.size_slots]
  size_cursors := by rw [Filling.put, Array.size_setIfInBounds, h.size_cursors]
  cursor x hx := by
    rw [List.countP_append, List.countP_singleton]
    by_cases hl' : l.var = x
    · subst hl'
      simp only [Filling.put, beq_self_eq_true, if_true]
      exact Array.getElem?_setIfInBounds_self_of_lt (h.size_cursors ▸ hx)
    · simp only [Filling.put, beq_eq_false_iff_ne.2 hl', Bool.false_eq_true, if_false, Nat.add_zero]
      exact (Array.getElem?_setIfInBounds_ne hl').trans (h.cursor x hx)

theorem Placed.place (h : Placed t ls s) (hl : t.Admits ls l) (id : Nat) :
    ∃ s', Packed.place (offsetsOf t) s (id, l) = .ok s' ∧
      Guarded.place (offsetsOf t) s (id, l) = .ok s' ∧ Placed t (ls ++ [l]) s' := by
  have hcursor := h.cursor l.var hl.1
  have hslot : offset t l.var + ls.countP (fun k => k.var == l.var) < s.slots.size := by
    rw [h.size_slots]
    exact offset_add_lt hl.1 hl.2
  have hfree := Nat.add_lt_add_left hl.2 (offset t l.var)
  refine ⟨_, ?_, ?_, h.put hl ⟨id, l.polarity⟩⟩
  · simp only [Packed.place, hcursor, getD_offsetsOf_succ hl.1, if_pos hfree]
  · simp only [Guarded.place, hcursor, Guarded.bounded_lookup (getElem?_offsetsOf_succ hl.1)]
    change (if _ < _ then _ else _) = _
    rw [if_pos hfree, Guarded.bounded_write hslot,
      Guarded.bounded_write (h.size_cursors ▸ hl.1 : l.var < s.cursors.size)]
    rfl

/-- A literal that finds no slot is refused, and no slot is touched. -/
theorem Placed.place_error (h : Placed t ls s) (hl : ¬t.Admits ls l) (id : Nat) :
    Packed.place (offsetsOf t) s (id, l) = .error (.slotOverflow l.var) ∧
      Guarded.place (offsetsOf t) s (id, l) = .error (.inr (.slotOverflow l.var)) := by
  by_cases hx : l.var < t.size
  · have hcursor := h.cursor l.var hx
    have hfull : ¬offset t l.var + ls.countP (fun k => k.var == l.var) <
        offset t l.var + (t.get l.var).total := fun hfree => hl ⟨hx, by omega⟩
    constructor
    · simp only [Packed.place, hcursor, getD_offsetsOf_succ hx, if_neg hfull]
    · simp only [Guarded.place, hcursor, Guarded.bounded_lookup (getElem?_offsetsOf_succ hx)]
      change (if _ < _ then _ else _) = _
      rw [if_neg hfull]
      rfl
  · have hnone : s.cursors[l.var]? = none :=
      Array.getElem?_eq_none (h.size_cursors ▸ Nat.le_of_not_lt hx)
    constructor
    · simp only [Packed.place, hnone]
    · simp only [Guarded.place, hnone]

/-- Literals that all find slots are placed one after another. -/
theorem exists_placed (entries : List (Nat × Literal)) (h : t.AdmitsAll (entries.map Prod.snd)) :
    ∃ s, entries.foldlM (place (offsetsOf t)) (reserve t) = .ok s ∧
      entries.foldlM (Guarded.place (offsetsOf t)) (reserve t) = .ok s ∧
      Placed t (entries.map Prod.snd) s := by
  induction entries using List.reverseRecOn with
  | nil => exact ⟨reserve t, rfl, rfl, placed_reserve t⟩
  | append_singleton entries entry ih =>
    obtain ⟨id, l⟩ := entry
    rw [List.map_append, List.map_singleton, admitsAll_concat] at h
    obtain ⟨s, hs, hguarded, hplaced⟩ := ih h.1
    obtain ⟨s', hs', hguarded', hplaced'⟩ := hplaced.place h.2 id
    refine ⟨s', ?_, ?_, ?_⟩
    · rw [List.foldlM_append, hs]
      exact Sequence.foldlM_cons_ok hs'
    · rw [List.foldlM_append, hguarded]
      exact Sequence.foldlM_cons_ok hguarded'
    · rw [List.map_append, List.map_singleton]
      exact hplaced'

theorem foldlM_place_error (h : entries.map Prod.snd = before ++ l :: after)
    (hbefore : t.AdmitsAll before) (hl : ¬t.Admits before l) :
    entries.foldlM (place (offsetsOf t)) (reserve t) = .error (.slotOverflow l.var) ∧
      entries.foldlM (Guarded.place (offsetsOf t)) (reserve t) =
        .error (.inr (.slotOverflow l.var)) := by
  obtain ⟨first, rest, rfl, rfl, hrest⟩ := List.map_eq_append_iff.1 h
  obtain ⟨⟨id, k⟩, rest, rfl, rfl, -⟩ := List.map_eq_cons_iff.1 hrest
  obtain ⟨s, hs, hguarded, hplaced⟩ := exists_placed first hbefore
  obtain ⟨herror, herror'⟩ := hplaced.place_error hl id
  constructor
  · rw [List.foldlM_append, hs]
    exact Sequence.foldlM_cons_error herror
  · rw [List.foldlM_append, hguarded]
    exact Sequence.foldlM_cons_error herror'

/-! ### The sum leaves no slot free -/

/-- As many literals as slots, none of them refused, take every slot. -/
theorem Placed.countP_eq (h : Placed t ls s) (hlength : t.total = ls.length) (hx : x < t.size) :
    ls.countP (fun l => l.var == x) = (t.get x).total := by
  have hsum : ∑ x ∈ Finset.range t.size, ls.countP (fun l => l.var == x) =
      ∑ x ∈ Finset.range t.size, (t.get x).total := by
    rw [FrequencyTable.sum_countP h.var_lt, ← hlength, FrequencyTable.total_eq_sum]
  exact (Finset.sum_eq_sum_iff_of_le fun x _ => h.countP_le x).1 hsum x (Finset.mem_range.2 hx)

theorem Placed.cursor_full (h : Placed t ls s) (hlength : t.total = ls.length) {slot : Nat}
    (hslot : s.cursors[x]? = some slot) :
    x < t.size ∧ slot = offset t x + (t.get x).total := by
  have hx : x < t.size := h.size_cursors ▸ (Array.getElem?_eq_some_iff.1 hslot).1
  have := h.cursor x hx
  rw [h.countP_eq hlength hx, hslot] at this
  exact ⟨hx, Option.some.inj this⟩

/-- The last pass over the variables finds nothing to report, and takes no more off an end than there is. -/
theorem Placed.forM_pass (h : Placed t ls s) (hlength : t.total = ls.length) :
    s.cursors.toList.zipIdx.forM (Guarded.pass (offsetsOf t)) = .ok () := by
  have hpass : ∀ cursor ∈ s.cursors.toList.zipIdx, Guarded.pass (offsetsOf t) cursor = .ok () := by
    rintro ⟨slot, x⟩ hcursor
    rw [List.mk_mem_zipIdx_iff_getElem?, Array.getElem?_toList] at hcursor
    obtain ⟨hx, rfl⟩ := h.cursor_full hlength hcursor
    simp only [Guarded.pass, Guarded.bounded_lookup (getElem?_offsetsOf_succ hx)]
    change (Guarded.bounded (Guarded.minus _ _) >>= fun missing => _) = _
    rw [Guarded.bounded_minus (Nat.le_refl _), Nat.sub_self]
    rfl
  exact Sequence.forM_eq_ok hpass

theorem Placed.underfilled?_eq_none (h : Placed t ls s) (hlength : t.total = ls.length) :
    underfilled? (missing (offsetsOf t) s) = none := by
  rw [underfilled?, Option.map_eq_none_iff, List.find?_eq_none]
  rintro ⟨count, x⟩ hcount
  rw [List.mk_mem_zipIdx_iff_getElem?, missing, List.getElem?_map, List.getElem?_zipIdx] at hcount
  obtain ⟨⟨slot, y⟩, hslot, rfl⟩ := Option.map_eq_some_iff.1 hcount
  obtain ⟨slot, hslot', heq⟩ := Option.map_eq_some_iff.1 hslot
  cases heq
  rw [Array.getElem?_toList] at hslot'
  obtain ⟨hx, rfl⟩ := h.cursor_full hlength hslot'
  simp [getD_offsetsOf_succ hx]

/-! ### Consistent tables and all others -/

theorem total_of_consistent (h : f.Consistent) : f.frequencies.total = f.literalCount := by
  rw [FrequencyTable.total_eq_sum, Formula.literalCount_eq, ← FrequencyTable.sum_countP h.var_lt]
  exact Finset.sum_congr rfl fun x hx => h.total_get x (Finset.mem_range.1 hx)

theorem not_contradicts_of_consistent (h : f.Consistent) : ¬f.Contradicts e := by
  intro he
  cases he with
  | sum hsum => exact hsum (total_of_consistent h)
  | literal _ hls _ hl => exact hl (admitsAll_of_consistent h _ _ _ hls)

/-- The clauses end up where the table has room for each literal and for no more. -/
theorem consistent_of_admitsAll (htotal : f.frequencies.total = f.literalCount)
    (h : f.frequencies.AdmitsAll f.literals) : f.Consistent := by
  rw [← Formula.map_snd_numbered] at h
  obtain ⟨s, -, -, hplaced⟩ := exists_placed f.numbered h
  rw [Formula.map_snd_numbered] at hplaced
  constructor
  · exact hplaced.var_lt
  · intro x hx
    exact (hplaced.countP_eq (htotal.trans Formula.literalCount_eq) hx).symm

theorem ofFormula_of_consistent (h : f.Consistent) :
    ∃ o, ofFormula f = .ok o ∧ Guarded.ofFormula f = .ok o := by
  have htotal := total_of_consistent h
  have hall := admitsAll_of_consistent h
  rw [← Formula.map_snd_numbered] at hall
  obtain ⟨s, hs, hguarded, hplaced⟩ := exists_placed f.numbered hall
  rw [Formula.map_snd_numbered] at hplaced
  have hlength := htotal.trans Formula.literalCount_eq
  refine ⟨⟨offsetsOf f.frequencies, s.slots⟩, ?_, ?_⟩
  · simp only [ofFormula, ne_eq, htotal, not_true_eq_false, if_false]
    refine Fault.bind_eq_ok.2 ⟨s, hs, ?_⟩
    simp only [hplaced.underfilled?_eq_none hlength]
    rfl
  · rw [Guarded.ofFormula_eq htotal]
    exact Fault.bind_eq_ok.2 ⟨s, hguarded, Fault.bind_eq_ok.2 ⟨(), hplaced.forM_pass hlength, rfl⟩⟩

theorem ofFormula_of_contradicts (h : f.Contradicts e) :
    ofFormula f = .error e ∧ Guarded.ofFormula f = .error (.inr e) := by
  cases h with
  | sum hsum =>
    constructor
    · simp only [ofFormula, ne_eq, hsum, not_false_eq_true, if_true]
      rfl
    · simp only [Guarded.ofFormula, ne_eq, hsum, not_false_eq_true, if_true]
      rfl
  | literal htotal hls hbefore hl =>
    rw [← Formula.map_snd_numbered] at hls
    obtain ⟨herror, herror'⟩ := foldlM_place_error hls hbefore hl
    constructor
    · simp only [ofFormula, ne_eq, htotal, not_true_eq_false, if_false, herror]
      rfl
    · rw [Guarded.ofFormula_eq htotal, herror']
      rfl

/-- A table is consistent with the clauses or contradicts them. -/
theorem consistent_or_contradicts (f : Formula) : f.Consistent ∨ ∃ e, f.Contradicts e := by
  by_cases htotal : f.frequencies.total = f.literalCount
  · rcases admitsAll_or_exists f.frequencies f.literals with
      hall | ⟨before, l, after, hls, hbefore, hl⟩
    · exact .inl (consistent_of_admitsAll htotal hall)
    · exact .inr ⟨_, .literal htotal hls hbefore hl⟩
  · exact .inr ⟨_, .sum htotal⟩

/-- On any table the occurrences are found exactly if it is consistent with the clauses, and the error is the
one by which it contradicts them, which is never a slot left free. With every index and every subtraction
checked the answer is the same, and no check fails. -/
theorem ofFormula_of_any_table (f : Formula) :
    (Guarded.ofFormula f).map unpack = (Occurrences.ofFormula f).mapError .inr ∧
      ((∃ o, Occurrences.ofFormula f = .ok o) ↔ f.Consistent) ∧
      (∀ e, Occurrences.ofFormula f = .error e ↔ f.Contradicts e) ∧
      ∀ x missing, Occurrences.ofFormula f ≠ .error (.slotUnderfill x missing) := by
  have herror : ∀ {e}, f.Contradicts e → Occurrences.ofFormula f = .error e := by
    intro e he
    rw [← map_unpack_ofFormula, (ofFormula_of_contradicts he).1]
    rfl
  rcases consistent_or_contradicts f with h | ⟨e, he⟩
  · obtain ⟨o, ho, hguarded⟩ := ofFormula_of_consistent h
    have hok : Occurrences.ofFormula f = .ok o.unpack := by
      rw [← map_unpack_ofFormula, ho]
      rfl
    rw [hguarded, hok]
    refine ⟨rfl, iff_of_true ⟨_, rfl⟩ h, fun e => ?_, by simp⟩
    exact iff_of_false (by simp) (not_contradicts_of_consistent h)
  · have hnot : ¬f.Consistent := fun h => not_contradicts_of_consistent h he
    rw [(ofFormula_of_contradicts he).2, herror he]
    refine ⟨rfl, iff_of_false (by simp) hnot, fun e' => ?_, fun x missing h => ?_⟩
    · constructor
      · intro h
        cases h
        exact he
      · intro he'
        rw [← herror he, herror he']
    · cases h
      cases he

end Packed

end ClauseSearch
