import ClauseSearch.Proofs.Ranking
import ClauseSearch.Proofs.Occurrences

/-! The occurrences of all variables in one array. A first pass adds the frequencies up, so that each variable
has a range of slots; a second one reads the clauses and puts each literal into the next free slot of its
variable. This is what the rows of occurrences come to, on any formula and with the same errors: the row of a
variable is what its range holds up to the cursor, and has room for what remains of the range. -/

namespace ClauseSearch

/-- The slots of all variables, with the slot where each variable begins and where the last one ends. -/
structure Packed where
  offsets : Array Nat := #[]
  slots : Array Occurrence := #[]

namespace Packed

/-- The slots while they are filled, with the next free one of each variable. -/
structure Filling where
  cursors : Array Nat
  slots : Array Occurrence

/-- Where the slots of each variable begin, and last their number. -/
def offsetsOf (t : FrequencyTable) : Array Nat :=
  (Formula.totalsFrom 0 (t.toList.map Frequency.total)).toArray

/-- Every slot is to be written. -/
def reserve (t : FrequencyTable) : Filling where
  cursors := (offsetsOf t).pop
  slots := Array.replicate t.total ⟨0, false⟩

/-- Writes a slot of a variable, after which the next slot is free. -/
def Filling.put (s : Filling) (x slot : Nat) (o : Occurrence) : Filling where
  cursors := s.cursors.setIfInBounds x (slot + 1)
  slots := s.slots.setIfInBounds slot o

/-- Puts a literal into the next free slot of its variable, which ends where the next one begins. -/
def place (offsets : Array Nat) (s : Filling) (entry : Nat × Literal) : Except TableError Filling :=
  let (id, l) := entry
  match s.cursors[l.var]? with
  | none => .error (.slotOverflow l.var)
  | some slot =>
    if slot < offsets.getD (l.var + 1) 0 then .ok (s.put l.var slot ⟨id, l.polarity⟩)
    else .error (.slotOverflow l.var)

def missing (offsets : Array Nat) (s : Filling) : List Nat :=
  s.cursors.toList.zipIdx.map fun (slot, x) => offsets.getD (x + 1) 0 - slot

/-- The first variable with a free slot. -/
def underfilled? (missing : List Nat) : Option TableError :=
  (missing.zipIdx.find? fun (count, _) => count != 0).map fun (count, x) => .slotUnderfill x count

def ofFormula (f : Formula) : Except TableError Packed := do
  let found := f.frequencies.total
  if found ≠ f.literalCount then
    throw (.frequencyMismatch f.literalCount found)
  let offsets := offsetsOf f.frequencies
  let s ← f.numbered.foldlM (place offsets) (reserve f.frequencies)
  match underfilled? (missing offsets s) with
  | some e => throw e
  | none => return { offsets, slots := s.slots }

/-- The occurrences of a variable, none outside the offsets. -/
def row (o : Packed) (x : Nat) : List Occurrence :=
  match o.offsets[x]?, o.offsets[x + 1]? with
  | some start, some stop => (o.slots.extract start stop).toList
  | _, _ => []

def size (o : Packed) : Nat := o.slots.size

def unpack (o : Packed) : Occurrences := ⟨((List.range (o.offsets.size - 1)).map o.row).toArray⟩

variable {t : FrequencyTable} {rows : Occurrences.Rows} {s : Filling} {f : Formula} {o : Packed}
  {entries : List (Nat × Literal)} {entry : Nat × Literal} {x y n : Nat}

/-! ### Offsets -/

def offset (t : FrequencyTable) (x : Nat) : Nat := ∑ y ∈ Finset.range x, (t.get y).total

theorem offset_succ (t : FrequencyTable) (x : Nat) :
    offset t (x + 1) = offset t x + (t.get x).total := Finset.sum_range_succ _ _

theorem offset_mono (h : x ≤ y) : offset t x ≤ offset t y :=
  monotone_nat_of_le_succ (fun x => by rw [offset_succ]; omega) h

theorem offset_size : offset t t.size = t.total := FrequencyTable.total_eq_sum.symm

theorem getElem?_totalsFrom (l : List Nat) (n x : Nat) : (Formula.totalsFrom n l)[x]? =
    if x ≤ l.length then some (n + ∑ i ∈ Finset.range x, l[i]?.getD 0) else none := by
  induction l generalizing n x with
  | nil => cases x <;> simp [Formula.totalsFrom]
  | cons k l ih =>
    cases x with
    | zero => simp [Formula.totalsFrom]
    | succ x =>
      rw [Formula.totalsFrom, List.getElem?_cons_succ, ih, List.length_cons, Finset.sum_range_succ']
      simp only [List.getElem?_cons_succ, List.getElem?_cons_zero, Option.getD_some,
        Nat.add_le_add_iff_right, Nat.add_assoc, Nat.add_comm k]

theorem getElem?_offsetsOf (t : FrequencyTable) (x : Nat) :
    (offsetsOf t)[x]? = if x ≤ t.size then some (offset t x) else none := by
  rw [offsetsOf, List.getElem?_toArray, getElem?_totalsFrom, List.length_map, Array.length_toList,
    Nat.zero_add, offset]
  congr 3
  funext i
  rw [List.getElem?_map, Array.getElem?_toList, FrequencyTable.get, Array.getD_eq_getD_getElem?]
  cases t[i]? <;> rfl

theorem length_totalsFrom (l : List Nat) (n : Nat) : (Formula.totalsFrom n l).length = l.length + 1 := by
  induction l generalizing n with
  | nil => rfl
  | cons k l ih => exact congrArg (· + 1) (ih (n + k))

theorem size_offsetsOf (t : FrequencyTable) : (offsetsOf t).size = t.size + 1 := by
  rw [offsetsOf, List.size_toArray, length_totalsFrom, List.length_map, Array.length_toList]

theorem getElem?_offsetsOf_succ (h : x < t.size) :
    (offsetsOf t)[x + 1]? = some (offset t x + (t.get x).total) := by
  rw [getElem?_offsetsOf, if_pos (Nat.succ_le_of_lt h), offset_succ]

theorem getD_offsetsOf_succ (h : x < t.size) :
    (offsetsOf t).getD (x + 1) 0 = offset t x + (t.get x).total := by
  rw [Array.getD_eq_getD_getElem?, getElem?_offsetsOf_succ h, Option.getD_some]

theorem offset_add_lt {i : Nat} (hx : x < t.size) (hi : i < (t.get x).total) :
    offset t x + i < t.total := by
  have := offset_mono (t := t) (Nat.succ_le_of_lt hx)
  rw [offset_succ, offset_size] at this
  omega

/-- Slots of two variables are apart. -/
theorem offset_add_ne {i j : Nat} (h : x ≠ y) (hi : i < (t.get x).total) (hj : j < (t.get y).total) :
    offset t x + i ≠ offset t y + j := by
  have hx := offset_succ t x
  have hy := offset_succ t y
  rcases Nat.lt_or_gt_of_ne h with hlt | hlt
  · have := offset_mono (t := t) (show x + 1 ≤ y from hlt)
    omega
  · have := offset_mono (t := t) (show y + 1 ≤ x from hlt)
    omega

theorem size_cursors_reserve (t : FrequencyTable) : (reserve t).cursors.size = t.size := by
  rw [reserve, Array.size_pop, size_offsetsOf, Nat.add_sub_cancel]

/-- At first the next free slot of a variable is where it begins. -/
theorem cursor_reserve (h : x < t.size) : (reserve t).cursors[x]? = some (offset t x) := by
  rw [reserve, Array.getElem?_pop, size_offsetsOf, Nat.add_sub_cancel, if_pos h, getElem?_offsetsOf,
    if_pos h.le]

/-! ### Rows and slots -/

/-- A row is what the slots of its variable hold up to the cursor, and has room for the rest of them. -/
structure Matches (t : FrequencyTable) (s : Filling) (x : Nat) (row : BoundedStack Occurrence) :
    Prop where
  room : row.size + row.room = (t.get x).total
  cursor : s.cursors[x]? = some (offset t x + row.size)
  held : ∀ i < row.size, s.slots[offset t x + i]? = row.toList[i]?

/-- The rows match the slots. -/
structure Fills (t : FrequencyTable) (rows : Occurrences.Rows) (s : Filling) : Prop where
  size_rows : rows.size = t.size
  size_cursors : s.cursors.size = t.size
  size_slots : s.slots.size = t.total
  row : ∀ x row, rows[x]? = some row → Matches t s x row

theorem fills_reserve (t : FrequencyTable) : Fills t (Occurrences.reserve t) (reserve t) where
  size_rows := Array.size_map
  size_cursors := size_cursors_reserve t
  size_slots := Array.size_replicate
  row x row hrow := by
    rw [Occurrences.reserve, Array.getElem?_map] at hrow
    obtain ⟨f, hf, rfl⟩ := Option.map_eq_some_iff.1 hrow
    have hlt : x < t.size := (Array.getElem?_eq_some_iff.1 hf).1
    refine ⟨?_, cursor_reserve hlt, fun i hi => absurd hi (Nat.not_lt_zero i)⟩
    simp [FrequencyTable.get, Array.getD_eq_getD_getElem?, hf, BoundedStack.empty, BoundedStack.size]

theorem Fills.lt_size (h : Fills t rows s) {row : BoundedStack Occurrence} (hrow : rows[x]? = some row) :
    x < t.size := h.size_rows ▸ (Array.getElem?_eq_some_iff.1 hrow).1

theorem Fills.cursor_eq_none (h : Fills t rows s) (hrow : rows[x]? = none) : s.cursors[x]? = none := by
  rw [Array.getElem?_eq_none_iff, h.size_cursors, ← h.size_rows]
  exact Array.getElem?_eq_none_iff.1 hrow

/-- An item on top of a row is the item in the next slot of its variable. -/
theorem Matches.put {row : BoundedStack Occurrence} (h : Matches t s x row) (hfree : 0 < row.room)
    (hslot : offset t x + row.size < s.slots.size) (o : Occurrence) :
    Matches t (s.put x (offset t x + row.size) o) x ⟨o :: row.items, row.room - 1⟩ where
  room := by
    have hroom := h.room
    simp only [BoundedStack.size, List.length_cons] at hroom ⊢
    omega
  cursor := Array.getElem?_setIfInBounds_self_of_lt (Array.getElem?_eq_some_iff.1 h.cursor).1
  held i hi := by
    have hlist : BoundedStack.toList ⟨o :: row.items, row.room - 1⟩ = row.toList ++ [o] := by
      simp [BoundedStack.toList]
    have hlength : row.toList.length = row.size := List.length_reverse
    rw [hlist, Filling.put]
    rcases Nat.lt_succ_iff_lt_or_eq.1 (show i < row.size + 1 from hi) with hbelow | rfl
    · rw [Array.getElem?_setIfInBounds_ne (by omega), h.held i hbelow,
        List.getElem?_append_left (hlength ▸ hbelow)]
    · rw [Array.getElem?_setIfInBounds_self_of_lt hslot, ← hlength, List.getElem?_concat_length]

/-- A slot of one variable lies in the range of no other. -/
theorem Matches.put_ne {row : BoundedStack Occurrence} (h : Matches t s y row) (hne : x ≠ y) {i : Nat}
    (hi : i < (t.get x).total) (o : Occurrence) : Matches t (s.put x (offset t x + i) o) y row where
  room := h.room
  cursor := (Array.getElem?_setIfInBounds_ne hne).trans h.cursor
  held j hj := by
    have hroom := h.room
    exact (Array.getElem?_setIfInBounds_ne (offset_add_ne hne hi (by omega))).trans (h.held j hj)

theorem Fills.put (h : Fills t rows s) {row : BoundedStack Occurrence} (hrow : rows[x]? = some row)
    (hfree : 0 < row.room) (o : Occurrence) :
    Fills t (rows.setIfInBounds x ⟨o :: row.items, row.room - 1⟩)
      (s.put x (offset t x + row.size) o) where
  size_rows := by rw [Array.size_setIfInBounds, h.size_rows]
  size_cursors := by rw [Filling.put, Array.size_setIfInBounds, h.size_cursors]
  size_slots := by rw [Filling.put, Array.size_setIfInBounds, h.size_slots]
  row y row' hrow' := by
    have hmatches := h.row x row hrow
    have hroom := hmatches.room
    by_cases hy : x = y
    · subst hy
      rw [Array.getElem?_setIfInBounds_self_of_lt (Array.getElem?_eq_some_iff.1 hrow).1] at hrow'
      cases hrow'
      refine hmatches.put hfree ?_ o
      rw [h.size_slots]
      exact offset_add_lt (h.lt_size hrow) (by omega)
    · rw [Array.getElem?_setIfInBounds_ne hy] at hrow'
      exact (h.row y row' hrow').put_ne hy (by omega) o

/-- A literal is put into its row exactly if it is put into a slot, and they match again. -/
theorem Fills.place (h : Fills t rows s) (entry : Nat × Literal) :
    (∃ rows' s', Occurrences.place rows entry = .ok rows' ∧
      Packed.place (offsetsOf t) s entry = .ok s' ∧ Fills t rows' s') ∨
    ∃ e, Occurrences.place rows entry = .error e ∧ Packed.place (offsetsOf t) s entry = .error e := by
  obtain ⟨id, l⟩ := entry
  cases hrow : rows[l.var]? with
  | none =>
    have hout := h.cursor_eq_none hrow
    exact .inr ⟨.slotOverflow l.var, by simp [Occurrences.place, hrow], by simp [Packed.place, hout]⟩
  | some row =>
    obtain ⟨hroom, hcursor, -⟩ := h.row _ _ hrow
    have hend := getD_offsetsOf_succ (h.lt_size hrow)
    by_cases hfree : 0 < row.room
    · have hpush : row.push? ⟨id, l.polarity⟩ = some ⟨⟨id, l.polarity⟩ :: row.items, row.room - 1⟩ :=
        BoundedStack.push?_eq_some.2 ⟨hfree, rfl⟩
      refine .inl ⟨_, _, ?_, ?_, h.put hrow hfree ⟨id, l.polarity⟩⟩
      · simp only [Occurrences.place, hrow, Option.bind_some, hpush]
      · simp only [Packed.place, hcursor, hend]
        exact if_pos (by omega)
    · have hpush : row.push? ⟨id, l.polarity⟩ = none :=
        BoundedStack.push?_eq_none.2 (by rw [BoundedStack.capacity]; omega)
      refine .inr ⟨.slotOverflow l.var, ?_, ?_⟩
      · simp only [Occurrences.place, hrow, Option.bind_some, hpush]
      · simp only [Packed.place, hcursor, hend]
        exact if_neg (by omega)

/-- To fill the rows is to fill the slots, and both fail at the same literal. -/
theorem Fills.foldlM_place (h : Fills t rows s) (entries : List (Nat × Literal)) :
    (∃ rows' s', entries.foldlM Occurrences.place rows = .ok rows' ∧
      entries.foldlM (Packed.place (offsetsOf t)) s = .ok s' ∧ Fills t rows' s') ∨
    ∃ e, entries.foldlM Occurrences.place rows = .error e ∧
      entries.foldlM (Packed.place (offsetsOf t)) s = .error e := by
  induction entries generalizing rows s with
  | nil => exact .inl ⟨rows, s, rfl, rfl, h⟩
  | cons entry entries ih =>
    rcases h.place entry with ⟨rows', s', hrows, hslots, h'⟩ | ⟨e, hrows, hslots⟩
    · rw [Sequence.foldlM_cons_ok hrows, Sequence.foldlM_cons_ok hslots]
      exact ih h'
    · exact .inr ⟨e, Sequence.foldlM_cons_error hrows, Sequence.foldlM_cons_error hslots⟩

/-! ### Full rows -/

theorem Fills.missing_eq (h : Fills t rows s) :
    missing (offsetsOf t) s = rows.toList.map (·.room) := by
  refine List.ext_getElem? fun x => ?_
  rw [missing, List.getElem?_map, List.getElem?_zipIdx, List.getElem?_map, Array.getElem?_toList,
    Array.getElem?_toList]
  cases hrow : rows[x]? with
  | none =>
    rw [h.cursor_eq_none hrow]
    rfl
  | some row =>
    obtain ⟨hroom, hcursor, -⟩ := h.row x row hrow
    rw [hcursor, Option.map_some, Option.map_some, Option.map_some]
    dsimp only
    rw [Nat.zero_add, getD_offsetsOf_succ (h.lt_size hrow)]
    congr 1
    omega

theorem finish_eq (rows : Occurrences.Rows) : Occurrences.finish rows =
    (underfilled? (rows.toList.map (·.room))).elim (.ok ⟨rows.map (·.toList)⟩) .error := by
  have hfind : (rows.toList.map (·.room)).zipIdx.find? (fun entry => entry.1 != 0) =
      (rows.toList.zipIdx.find? fun entry => entry.1.room != 0).map
        (Prod.map (·.room) id) := by
    rw [List.zipIdx_map, List.find?_map]
    rfl
  unfold Occurrences.finish underfilled?
  rw [hfind]
  cases rows.toList.zipIdx.find? fun entry => entry.1.room != 0 with
  | none => rfl
  | some entry => rfl

theorem underfilled?_eq_none {counts : List Nat} (h : underfilled? counts = none) :
    ∀ count ∈ counts, count = 0 := by
  intro count hcount
  obtain ⟨x, hx, rfl⟩ := List.getElem_of_mem hcount
  rw [underfilled?, Option.map_eq_none_iff, List.find?_eq_none] at h
  have := h (counts[x], x) (by rw [List.mk_mem_zipIdx_iff_getElem?]; exact List.getElem?_eq_getElem hx)
  simpa using this

/-- The slots of a variable whose row is full hold the row. -/
theorem Matches.row_eq {row : BoundedStack Occurrence} (h : Matches t s x row) (hx : x < t.size)
    (hfull : row.room = 0) : Packed.row ⟨offsetsOf t, s.slots⟩ x = row.toList := by
  have hstart : (offsetsOf t)[x]? = some (offset t x) := by rw [getElem?_offsetsOf, if_pos hx.le]
  have hstop : (offsetsOf t)[x + 1]? = some (offset t x + row.size) := by
    rw [getElem?_offsetsOf_succ hx, ← h.room, hfull, Nat.add_zero]
  have hlength : row.toList.length = row.size := List.length_reverse
  simp only [Packed.row, hstart, hstop]
  refine List.ext_getElem? fun i => ?_
  rw [Array.getElem?_toList, Array.getElem?_extract]
  by_cases hi : i < row.size
  · have hheld := h.held i hi
    have hslot : offset t x + i < s.slots.size := by
      rw [List.getElem?_eq_getElem (hlength ▸ hi)] at hheld
      exact (Array.getElem?_eq_some_iff.1 hheld).1
    rw [if_pos (by omega), hheld]
  · rw [if_neg (by omega), List.getElem?_eq_none (by omega)]

theorem row_eq_nil (h : o.offsets.size ≤ x + 1) : o.row x = [] := by
  rw [row, Array.getElem?_eq_none h]
  cases o.offsets[x]? <;> rfl

theorem row_unpack (o : Packed) (x : Nat) : o.unpack.row x = o.row x := by
  rw [Occurrences.row, unpack, Array.getD_eq_getD_getElem?, List.getElem?_toArray, List.getElem?_map]
  rcases Nat.lt_or_ge x (o.offsets.size - 1) with hx | hx
  · rw [List.getElem?_range hx]
    rfl
  · rw [List.getElem?_eq_none (by simpa using hx), row_eq_nil (by omega)]
    rfl

/-- Where every row is full, the slots are the rows. -/
theorem Fills.unpack_eq (h : Fills t rows s) (hfull : ∀ row ∈ rows, row.room = 0) :
    unpack ⟨offsetsOf t, s.slots⟩ = ⟨rows.map (·.toList)⟩ := by
  have hsize : (offsetsOf t).size - 1 = rows.size := by
    rw [size_offsetsOf, h.size_rows, Nat.add_sub_cancel]
  refine congrArg Occurrences.mk (Array.ext_getElem? fun x => ?_)
  rw [List.getElem?_toArray, List.getElem?_map, Array.getElem?_map]
  dsimp only
  rw [hsize]
  cases hrow : rows[x]? with
  | none =>
    rw [List.getElem?_eq_none (by simpa using Array.getElem?_eq_none_iff.1 hrow)]
    rfl
  | some row =>
    have hlt : x < rows.size := (Array.getElem?_eq_some_iff.1 hrow).1
    rw [List.getElem?_range hlt, Option.map_some, Option.map_some,
      (h.row x row hrow).row_eq (h.size_rows ▸ hlt) (hfull row (Array.mem_of_getElem? hrow))]

/-- The slots can be filled exactly if the rows can, and then every row is full; they fail alike. -/
theorem ofFormula_cases (f : Formula) :
    (∃ rows s, Fills f.frequencies rows s ∧ (∀ row ∈ rows, row.room = 0) ∧
      f.frequencies.total = f.literalCount ∧
      ofFormula f = .ok ⟨offsetsOf f.frequencies, s.slots⟩ ∧
      Occurrences.ofFormula f = .ok ⟨rows.map (·.toList)⟩) ∨
    ∃ e, ofFormula f = .error e ∧ Occurrences.ofFormula f = .error e := by
  unfold ofFormula Occurrences.ofFormula
  by_cases htotal : f.frequencies.total = f.literalCount
  · simp only [htotal, ne_eq, not_true_eq_false, if_false]
    dsimp only [bind, Except.bind]
    rcases (fills_reserve f.frequencies).foldlM_place f.numbered with
      ⟨rows, s, hrows, hslots, hfills⟩ | ⟨e, hrows, hslots⟩
    · rw [hrows, hslots]
      dsimp only
      rw [finish_eq, hfills.missing_eq]
      cases hunder : underfilled? (rows.toList.map (·.room)) with
      | some e => exact .inr ⟨e, rfl, rfl⟩
      | none =>
        refine .inl ⟨rows, s, hfills, fun row hrow => ?_, trivial, rfl, rfl⟩
        exact underfilled?_eq_none hunder _ (List.mem_map_of_mem (Array.mem_toList_iff.2 hrow))
    · rw [hrows, hslots]
      exact .inr ⟨e, rfl, rfl⟩
  · simp only [ne_eq, htotal, not_false_eq_true, if_true]
    exact .inr ⟨_, rfl, rfl⟩

/-- Unpacked, the slots are the rows of occurrences, on any formula and with the same errors. -/
theorem map_unpack_ofFormula (f : Formula) : (ofFormula f).map unpack = Occurrences.ofFormula f := by
  rcases ofFormula_cases f with ⟨rows, s, hfills, hfull, -, hslots, hrows⟩ | ⟨e, hslots, hrows⟩
  · rw [hslots, hrows, ← hfills.unpack_eq hfull]
    rfl
  · rw [hslots, hrows]
    rfl

/-- There is one slot for each literal, and one offset more than there are variables in the table. -/
theorem size_of_ofFormula (h : ofFormula f = .ok o) :
    o.offsets.size = f.frequencies.size + 1 ∧ o.size = f.literalCount := by
  rcases ofFormula_cases f with ⟨rows, s, hfills, -, htotal, hslots, -⟩ | ⟨e, hslots, -⟩
  · rw [h, Except.ok.injEq] at hslots
    subst hslots
    exact ⟨size_offsetsOf _, hfills.size_slots.trans htotal⟩
  · rw [h] at hslots
    exact absurd hslots (by simp)

theorem size_unpack (hsize : o.offsets.size = n + 1) (hls : ∀ l ∈ f.literals, l.var < n)
    (hrow : ∀ x, o.row x = Occurrences.rowOf f.numbered x) : o.unpack.size = f.literalCount := by
  rw [Occurrences.size, Sequence.foldl_add_eq_sum, unpack, hsize, Nat.add_sub_cancel, List.map_map]
  change ∑ x ∈ Finset.range n, (o.row x).length = _
  rw [Formula.literalCount_eq, ← FrequencyTable.sum_countP hls]
  refine Finset.sum_congr rfl fun x _ => ?_
  rw [hrow, Occurrences.length_rowOf, Formula.map_snd_numbered]

/-- A formula that was arranged has its occurrences, packed or row by row, one for each literal: those of a
variable are its literals as they stand in the clauses, in order and as often. No frequency exceeds the number
of literals, and the formula can be put in the order of its frequencies. -/
theorem occurrences_of_arranged (h : f.Arranged) :
    ∃ o, ofFormula f = .ok o ∧ Occurrences.ofFormula f = .ok o.unpack ∧
      o.size = f.literalCount ∧ o.unpack.size = f.literalCount ∧
      (∀ x, o.row x = Occurrences.rowOf f.numbered x ∧
        o.unpack.row x = Occurrences.rowOf f.numbered x) ∧
      (∀ x, (f.frequencies.get x).total ≤ f.literalCount) ∧
      ∃ g, f.toRanks (.byFrequency f.frequencies) = .ok g ∧ g.Arranged := by
  have hcounts := h.counted.counts
  obtain ⟨rows, hrows, hrow⟩ := Occurrences.ofFormula_eq_ok hcounts
  obtain ⟨o, ho, rfl⟩ := Fault.map_eq_ok.1 ((map_unpack_ofFormula f).trans hrows)
  obtain ⟨hoffsets, hsize⟩ := size_of_ofFormula ho
  have hpacked : ∀ x, o.row x = Occurrences.rowOf f.numbered x := fun x =>
    (row_unpack o x).symm.trans (hrow x)
  obtain ⟨g, hg, -⟩ := h.counted.order
  refine ⟨o, ho, hrows, hsize, size_unpack hoffsets (fun _ => hcounts.var_lt) hpacked,
    fun x => ⟨hpacked x, hrow x⟩, fun x => ?_, g, hg, h.order hg⟩
  rw [hcounts.total_get, Formula.literalCount_eq]
  exact List.countP_le_length

/-- Variable 1 stands in a clause twice, variable 4 is only declared, and variable 9 is beyond the table. -/
theorem occurrences_of_arranged_duplicate : ∃ f o, f.Arranged ∧
    f.clauses = #[[⟨1, true⟩, ⟨2, false⟩, ⟨1, true⟩], [⟨2, true⟩, ⟨1, false⟩]] ∧
    ofFormula f = .ok o ∧ o.size = 5 ∧ o.row 1 = [⟨0, true⟩, ⟨0, true⟩, ⟨1, false⟩] ∧
    o.row 2 = [⟨0, false⟩, ⟨1, true⟩] ∧ o.row 4 = [] ∧ o.row 9 = [] := by
  have h : Formula.Arranged _ :=
    .settle (.add (.add (.declared ⟨4, 2⟩)
      (rfl : Formula.add _ [1, -2, 1] = .ok _)) (rfl : Formula.add _ [2, -1] = .ok _))
  obtain ⟨o, ho, -, hsize, -, hrow, -⟩ := occurrences_of_arranged h
  refine ⟨_, o, h, rfl, ho, hsize, ?_, ?_, ?_, ?_⟩
  · exact (hrow 1).1.trans rfl
  · exact (hrow 2).1.trans rfl
  · exact (hrow 4).1.trans rfl
  · exact (hrow 9).1.trans rfl

end Packed

end ClauseSearch
