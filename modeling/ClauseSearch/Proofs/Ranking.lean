import ClauseSearch.Proofs.FormulaStore
import Mathlib.Data.List.Range

/-! The two tables of a ranking are inverse to each other: each variable of `1..n` has a rank of its own in
`1..n`, and the place at that rank leads back to it. So a formula on ranks has the clauses of the formula
as given with every variable renamed, and the frequencies by rank count its literals. A formula whose table
counts its literals can be put in order at any time, also while it still grows. -/

namespace ClauseSearch

namespace Ranking

variable {α : Type} {table : Array α} {entries : List (Nat × α)} {x k n : Nat} {a : α}

/-! ### Filling a table -/

/-- The table with entries written one after another. -/
def fill (table : Array α) (entries : List (Nat × α)) : Array α :=
  entries.foldl (fun table entry => table.setIfInBounds entry.1 entry.2) table

@[simp] theorem size_fill : (fill table entries).size = table.size := by
  induction entries generalizing table with
  | nil => rfl
  | cons entry entries ih =>
    change (fill (table.setIfInBounds entry.1 entry.2) entries).size = table.size
    rw [ih, Array.size_setIfInBounds]

theorem getElem?_fill_of_not_mem (h : x ∉ entries.map Prod.fst) :
    (fill table entries)[x]? = table[x]? := by
  induction entries generalizing table with
  | nil => rfl
  | cons entry entries ih =>
    simp only [List.map_cons, List.mem_cons, not_or] at h
    have := @ih (table.setIfInBounds entry.1 entry.2) h.2
    rwa [Array.getElem?_setIfInBounds_ne (Ne.symm h.1)] at this

/-- Where no two entries share an index, each can be read back. -/
theorem getElem?_fill (hentries : (entries.map Prod.fst).Nodup) (hx : x < table.size)
    (h : (x, a) ∈ entries) : (fill table entries)[x]? = some a := by
  induction entries generalizing table with
  | nil => exact absurd h (by simp)
  | cons entry entries ih =>
    rw [List.map_cons, List.nodup_cons] at hentries
    rcases List.mem_cons.1 h with rfl | h
    · change (fill (table.setIfInBounds x a) entries)[x]? = some a
      rw [getElem?_fill_of_not_mem hentries.1, Array.getElem?_setIfInBounds_self_of_lt hx]
    · exact @ih (table.setIfInBounds entry.1 entry.2) hentries.2 (by simpa using hx) h

/-! ### Ranks and places -/

variable {r : Ranking}

/-- The rank of a variable, 0 for what is no variable. -/
def rankOf (r : Ranking) (x : Nat) : Nat := r.ranks[x]?.getD 0

/-- The place at a rank, the top place where there is none. -/
def placeAt (r : Ranking) (k : Nat) : Place := r.places[k]?.getD top

def varAt (r : Ranking) (k : Nat) : Nat := (r.placeAt k).var

def renamed (r : Ranking) (l : Literal) : Literal := { l with var := r.rankOf l.var }

/-- Ranks and places are inverse to each other on `1..n`, and no rank outside is pure. -/
structure Inverse (r : Ranking) (n : Nat) : Prop where
  size_ranks : r.ranks.size = n + 1
  size_places : r.places.size = n + 1
  top_impure : (r.placeAt 0).isPure = false
  rankOf_mem : ∀ x, 0 < x → x ≤ n → 0 < r.rankOf x ∧ r.rankOf x ≤ n
  varAt_mem : ∀ k, 0 < k → k ≤ n → 0 < r.varAt k ∧ r.varAt k ≤ n
  varAt_rankOf : ∀ x, 0 < x → x ≤ n → r.varAt (r.rankOf x) = x
  rankOf_varAt : ∀ k, 0 < k → k ≤ n → r.rankOf (r.varAt k) = k

theorem rank_eq_ok (h : x < r.ranks.size) : r.rank x = .ok (r.rankOf x) :=
  Fault.lookup_eq_ok.2 (by simp [rankOf, h])

theorem place_eq_ok (h : k < r.places.size) : r.place k = .ok (r.placeAt k) :=
  Fault.lookup_eq_ok.2 (by simp [placeAt, h])

theorem Inverse.rank_eq_ok (h : r.Inverse n) (hx : x ≤ n) : r.rank x = .ok (r.rankOf x) :=
  Ranking.rank_eq_ok (by rw [h.size_ranks]; omega)

theorem Inverse.place_eq_ok (h : r.Inverse n) (hk : k ≤ n) : r.place k = .ok (r.placeAt k) :=
  Ranking.place_eq_ok (by rw [h.size_places]; omega)

theorem Inverse.rankOf_inj (h : r.Inverse n) {y : Nat} (hx : 0 < x) (hxn : x ≤ n) (hy : 0 < y)
    (hyn : y ≤ n) (heq : r.rankOf x = r.rankOf y) : x = y := by
  rw [← h.varAt_rankOf x hx hxn, heq, h.varAt_rankOf y hy hyn]

theorem toRanked_eq_ok (h : r.Inverse n) {l : Literal} (hl : l.var ≤ n) :
    r.toRanked l = .ok (r.renamed l) := by
  rw [toRanked, h.rank_eq_ok hl]
  rfl

theorem mem_pureRanks (h : r.Inverse n) :
    k ∈ r.pureRanks ↔ (0 < k ∧ k ≤ n) ∧ (r.placeAt k).isPure = true := by
  simp only [pureRanks, List.mem_map, List.mem_filter, Prod.exists, exists_eq_right,
    List.mk_mem_zipIdx_iff_getElem?, Array.getElem?_toList]
  constructor
  · rintro ⟨place, hplace, hpure⟩
    have hat : r.placeAt k = place := by simp [placeAt, hplace]
    have hk : k < r.places.size := (Array.getElem?_eq_some_iff.1 hplace).1
    refine ⟨⟨Nat.pos_of_ne_zero fun h0 => ?_, ?_⟩, by rw [hat, hpure]⟩
    · rw [h0] at hat
      simp [← hat, h.top_impure] at hpure
    · rw [h.size_places] at hk
      omega
  · rintro ⟨⟨-, hk⟩, hpure⟩
    have hlt : k < r.places.size := by
      rw [h.size_places]
      omega
    exact ⟨r.placeAt k, by simp [placeAt, hlt], hpure⟩

theorem inverse_identity (n : Nat) : (identity n).Inverse n := by
  have hrank : ∀ x, x ≤ n → (identity n).rankOf x = x := fun x hx => by
    simp [rankOf, identity, Nat.lt_succ_of_le hx]
  have hplace : ∀ k, k ≤ n → (identity n).placeAt k = ⟨k, true, false⟩ := fun k hk => by
    simp [placeAt, identity, Nat.lt_succ_of_le hk]
  have hvar : ∀ k, k ≤ n → (identity n).varAt k = k := fun k hk => by rw [varAt, hplace k hk]
  exact
    { size_ranks := by simp [identity]
      size_places := by simp [identity]
      top_impure := by rw [hplace 0 (Nat.zero_le n)]
      rankOf_mem := fun x hx hn => by rw [hrank x hn]; exact ⟨hx, hn⟩
      varAt_mem := fun k hk hn => by rw [hvar k hn]; exact ⟨hk, hn⟩
      varAt_rankOf := fun x _ hn => by rw [hrank x hn, hvar x hn]
      rankOf_varAt := fun k _ hn => by rw [hvar k hn, hrank k hn] }

/-! ### The order by frequency -/

variable {t : FrequencyTable}

theorem order_perm : (order t).Perm (List.range' 1 (t.size - 1)) := List.mergeSort_perm _ _

theorem length_order : (order t).length = t.size - 1 := by
  rw [order_perm.length_eq, List.length_range']

theorem nodup_order : (order t).Nodup := order_perm.nodup_iff.2 List.nodup_range'

theorem mem_order : x ∈ order t ↔ 0 < x ∧ x < t.size := by
  rw [order_perm.mem_iff, List.mem_range'_1]
  omega

theorem positions_eq_fill {l : List Nat} :
    positions n l = fill (Array.replicate (n + 1) 0) (l.zipIdx 1) := rfl

/-- The variable at position `i` of the order has rank `i + 1`. -/
theorem rankOf_byFrequency {i : Nat} (hi : i < (order t).length) :
    (byFrequency t).rankOf (order t)[i] = i + 1 := by
  have hmem := mem_order.1 (List.getElem_mem hi)
  have hread : (byFrequency t).ranks[(order t)[i]]? = some (i + 1) := by
    simp only [byFrequency, positions_eq_fill]
    apply getElem?_fill
    · rw [List.zipIdx_map_fst]
      exact nodup_order
    · rw [Array.size_replicate]
      omega
    · rw [List.mk_mem_zipIdx_iff_le_and_getElem?_sub]
      exact ⟨Nat.le_add_left 1 i, by simp [hi]⟩
  simp [rankOf, hread]

theorem placeAt_byFrequency {i : Nat} (hi : i < (order t).length) :
    (byFrequency t).placeAt (i + 1) =
      ⟨(order t)[i], (t.get (order t)[i]).preferred, (t.get (order t)[i]).isPure⟩ := by
  simp [placeAt, byFrequency, hi]

theorem inverse_byFrequency (hn : t.size = n + 1) : (byFrequency t).Inverse n := by
  have hlength : (order t).length = n := by
    rw [length_order]
    omega
  have hvar : ∀ i (hi : i < (order t).length), (byFrequency t).varAt (i + 1) = (order t)[i] :=
    fun i hi => by rw [varAt, placeAt_byFrequency hi]
  have hindex : ∀ x, 0 < x → x ≤ n → ∃ i, ∃ hi : i < (order t).length, (order t)[i] = x :=
    fun x hx hxn => List.mem_iff_getElem.1 (mem_order.2 ⟨hx, by omega⟩)
  refine
    { size_ranks := by simp [byFrequency, positions_eq_fill, hn]
      size_places := by simp [byFrequency, hlength]
      top_impure := rfl
      rankOf_mem := fun x hx hxn => ?_
      varAt_mem := fun k hk hkn => ?_
      varAt_rankOf := fun x hx hxn => ?_
      rankOf_varAt := fun k hk hkn => ?_ }
  · obtain ⟨i, hi, rfl⟩ := hindex x hx hxn
    rw [rankOf_byFrequency hi]
    omega
  · obtain ⟨i, rfl⟩ : ∃ i, k = i + 1 := ⟨k - 1, by omega⟩
    have hi : i < (order t).length := by omega
    rw [hvar i hi]
    have := mem_order.1 (List.getElem_mem hi)
    omega
  · obtain ⟨i, hi, rfl⟩ := hindex x hx hxn
    rw [rankOf_byFrequency hi, hvar i hi]
  · obtain ⟨i, rfl⟩ : ∃ i, k = i + 1 := ⟨k - 1, by omega⟩
    have hi : i < (order t).length := by omega
    rw [hvar i hi, rankOf_byFrequency hi]

theorem placeAt_byFrequency_eq (hn : t.size = n + 1) (hk : 0 < k) (hkn : k ≤ n) :
    (byFrequency t).placeAt k =
      ⟨(byFrequency t).varAt k, (t.get ((byFrequency t).varAt k)).preferred,
        (t.get ((byFrequency t).varAt k)).isPure⟩ := by
  obtain ⟨i, rfl⟩ : ∃ i, k = i + 1 := ⟨k - 1, by omega⟩
  have hi : i < (order t).length := by
    rw [length_order]
    omega
  rw [varAt, placeAt_byFrequency hi]

end Ranking

/-! ### Formulas on ranks -/

namespace Formula

variable {f : Formula} {r : Ranking} {n k : Nat} {t : FrequencyTable} {ls : List Literal}

theorem rankTable_eq_ok (h : r.Inverse n) (ht : t.size = n + 1) :
    rankTable r t = .ok (Ranking.fill (Array.replicate t.size {})
      ((List.range' 1 n).map fun x => (r.rankOf x, t.get x))) := by
  have hsteps : ∀ (l : List Nat) (ranked : FrequencyTable), (∀ x ∈ l, 0 < x ∧ x ≤ n) →
      ranked.size = t.size →
      l.foldlM (fun (ranked : FrequencyTable) x => do
        let rank ← r.rank x
        if rank < ranked.size then
          return ranked.setIfInBounds rank (t.get x)
        else
          throw (Fault.outOfRange rank)) ranked =
        .ok (Ranking.fill ranked (l.map fun x => (r.rankOf x, t.get x))) := by
    intro l
    induction l with
    | nil => exact fun _ _ _ => rfl
    | cons x l ih =>
      intro ranked hl hsize
      obtain ⟨hx, hxn⟩ := hl x List.mem_cons_self
      have hlt : r.rankOf x < ranked.size := by
        have := (h.rankOf_mem x hx hxn).2
        omega
      rw [Sequence.foldlM_cons_ok (t := ranked.setIfInBounds (r.rankOf x) (t.get x))]
      · exact ih _ (fun y hy => hl y (List.mem_cons_of_mem x hy)) (by simpa using hsize)
      · rw [h.rank_eq_ok hxn]
        exact if_pos hlt
  have hrange : t.size - 1 = n := by omega
  rw [rankTable, hrange]
  refine hsteps _ _ (fun x hx => ?_) (by simp)
  rw [List.mem_range'_1] at hx
  omega

theorem count_map_renamed (h : r.Inverse n) (hls : ∀ l ∈ ls, 0 < l.var ∧ l.var ≤ n) {x : Nat}
    (hx : 0 < x) (hxn : x ≤ n) (b : Bool) :
    (ls.map r.renamed).count ⟨r.rankOf x, b⟩ = ls.count ⟨x, b⟩ := by
  rw [List.count, List.count, List.countP_map]
  refine List.countP_congr fun l hl => ?_
  obtain ⟨hpos, hle⟩ := hls l hl
  obtain ⟨y, c⟩ := l
  simp only [Function.comp_apply, Ranking.renamed, beq_iff_eq, Literal.mk.injEq]
  refine and_congr_left fun _ => ⟨fun heq => ?_, fun heq => by rw [heq]⟩
  exact h.rankOf_inj hpos hle hx hxn heq

/-- The frequencies by rank count the literals on ranks. -/
theorem counts_rankTable (h : r.Inverse n) (ht : t.size = n + 1) (hcounts : t.Counts ls)
    (hls : ∀ l ∈ ls, 0 < l.var ∧ l.var ≤ n) :
    ∃ ranked, rankTable r t = .ok ranked ∧ ranked.size = n + 1 ∧
      ranked.Counts (ls.map r.renamed) := by
  refine ⟨_, rankTable_eq_ok h ht, by simp [ht], fun k => ?_⟩
  set entries := (List.range' 1 n).map fun x => (r.rankOf x, t.get x) with hentries
  have hfst : entries.map Prod.fst = (List.range' 1 n).map r.rankOf := by
    simp [hentries, Function.comp_def]
  by_cases hk : 0 < k ∧ k ≤ n
  · obtain ⟨hvar, hvarn⟩ := h.varAt_mem k hk.1 hk.2
    have hrank := h.rankOf_varAt k hk.1 hk.2
    have hread : (Ranking.fill (Array.replicate t.size {}) entries)[k]? =
        some (t.get (r.varAt k)) := by
      refine Ranking.getElem?_fill ?_ (by simp only [Array.size_replicate]; omega) ?_
      · rw [hfst]
        refine List.Nodup.map_on (fun x hx y hy heq => ?_) List.nodup_range'
        rw [List.mem_range'_1] at hx hy
        exact h.rankOf_inj (by omega) (by omega) (by omega) (by omega) heq
      · refine List.mem_map.2 ⟨r.varAt k, ?_, by rw [hrank]⟩
        rw [List.mem_range'_1]
        omega
    rw [FrequencyTable.get, Array.getD_eq_getD_getElem?, hread, Option.getD_some,
      hcounts (r.varAt k), ← count_map_renamed h hls hvar hvarn true,
      ← count_map_renamed h hls hvar hvarn false, hrank]
  · have hno : k ∉ entries.map Prod.fst := by
      rw [hfst, List.mem_map]
      rintro ⟨x, hx, rfl⟩
      rw [List.mem_range'_1] at hx
      exact hk (h.rankOf_mem x (by omega) (by omega))
    have hzero : ∀ b, (ls.map r.renamed).count ⟨k, b⟩ = 0 := by
      refine fun b => List.count_eq_zero.2 fun hmem => ?_
      obtain ⟨l, hl, heq⟩ := List.mem_map.1 hmem
      have := h.rankOf_mem l.var (hls l hl).1 (hls l hl).2
      rw [show r.rankOf l.var = k from congrArg Literal.var heq] at this
      exact hk this
    rw [FrequencyTable.get, Array.getD_eq_getD_getElem?, Ranking.getElem?_fill_of_not_mem hno,
      hzero, hzero, Array.getElem?_replicate]
    split <;> rfl

theorem literals_map {g : Formula} {h : Literal → Literal}
    (hg : g.clauses = f.clauses.map (List.map h)) : g.literals = f.literals.map h := by
  simp [literals, hg, List.map_flatten]

/-- A formula on ranks: the clauses renamed, and a table that counts them. The table need not reach to every
variable, but it must reach to those that occur. -/
theorem toRanks_eq_ok (h : r.Inverse n) (hls : ∀ l ∈ f.literals, 0 < l.var ∧ l.var ≤ n)
    (hsize : f.frequencies.size = n + 1) (hcounts : f.frequencies.Counts f.literals) :
    ∃ g, f.toRanks r = .ok g ∧ g.variableCount = f.variableCount ∧ g.declared = f.declared ∧
      g.clauses = f.clauses.map (List.map r.renamed) ∧
      g.frequencies.size = n + 1 ∧ g.frequencies.Counts g.literals := by
  obtain ⟨ranked, hranked, hrankedSize, hrankedCounts⟩ := counts_rankTable h hsize hcounts hls
  have hclauses : (f.clauses.mapM fun c => c.mapM r.toRanked) =
      .ok (f.clauses.map (List.map r.renamed)) := by
    rw [Array.mapM_eq_mapM_toList, Sequence.mapM_eq_ok (g := List.map r.renamed)]
    · rw [← Array.toList_map]
      rfl
    · intro c hc
      refine Sequence.mapM_eq_ok fun l hl => Ranking.toRanked_eq_ok h (hls l ?_).2
      exact List.mem_flatten.2 ⟨c, hc, hl⟩
  refine ⟨{ f with clauses := f.clauses.map (List.map r.renamed), frequencies := ranked }, ?_, rfl,
    rfl, rfl, hrankedSize, ?_⟩
  · rw [toRanks, hclauses]
    change (rankTable r f.frequencies >>= fun frequencies => _) = _
    rw [hranked]
    rfl
  · rw [literals_map (f := f) rfl]
    exact hrankedCounts

/-! ### Formulas in any order -/

variable {g : Formula} {ints : List Int} {id : Nat}

/-- Formulas that additions lead to, where at any time between the frequencies may be settled and the
variables put in the order of their frequencies. -/
inductive Arranged : Formula → Prop
  | empty : Arranged {}
  | declared (d : Declaration) : Arranged (.ofDeclaration d)
  | add {f g : Formula} {ints : List Int} {id : Nat} :
    Arranged f → f.add ints = .ok (id, g) → Arranged g
  | settle {f : Formula} : Arranged f → Arranged f.settle
  | order {f g : Formula} :
    Arranged f → f.toRanks (.byFrequency f.frequencies) = .ok g → Arranged g

/-- The table counts the literals, none of which is on variable 0. -/
structure Counted (f : Formula) : Prop where
  pos : ∀ l ∈ f.literals, 0 < l.var
  table_pos : 0 < f.frequencies.size
  counts : f.frequencies.Counts f.literals

theorem Stored.counted (h : f.Stored) : f.Counted :=
  ⟨fun _ hl => (h.ranged.literal hl).1, h.table_pos, h.counts⟩

theorem counted_ofDeclaration (d : Declaration) : (ofDeclaration d).Counted where
  pos := by simp [literals, ofDeclaration]
  table_pos := by simp [ofDeclaration]
  counts := counts_ofDeclaration d

theorem Counted.add (h : f.Counted) (hadd : f.add ints = .ok (id, g)) : g.Counted := by
  obtain ⟨-, -, c, hc, rfl⟩ := store_of_add hadd
  refine ⟨fun l hl => ?_, Nat.lt_of_lt_of_le h.table_pos FrequencyTable.le_size_foldl_record, ?_⟩
  · rw [literals_store, List.mem_append] at hl
    exact hl.elim (h.pos l) fun hl => (ranged_of_literals hc hl).1.1
  · rw [literals_store]
    exact h.counts.foldl_record

theorem Counted.settle (h : f.Counted) : f.settle.Counted where
  pos := h.pos
  table_pos := by
    rw [Formula.settle, FrequencyTable.size_grow]
    exact Nat.lt_of_lt_of_le h.table_pos (Nat.le_max_right _ _)
  counts x := FrequencyTable.get_grow.trans (h.counts x)

/-- A formula whose table counts its literals can be put in the order of its frequencies. -/
theorem Counted.order (h : f.Counted) :
    ∃ g, f.toRanks (.byFrequency f.frequencies) = .ok g ∧ g.Counted := by
  obtain ⟨n, hn⟩ : ∃ n, f.frequencies.size = n + 1 := Nat.exists_eq_succ_of_ne_zero h.table_pos.ne'
  have hinverse := Ranking.inverse_byFrequency hn
  have hls : ∀ l ∈ f.literals, 0 < l.var ∧ l.var ≤ n := fun l hl =>
    ⟨h.pos l hl, Nat.le_of_lt_succ (lt_of_lt_of_eq (h.counts.var_lt hl) hn)⟩
  obtain ⟨g, hg, -, -, hclauses, hsize, hcounts⟩ := toRanks_eq_ok hinverse hls hn h.counts
  refine ⟨g, hg, fun l hl => ?_, by omega, hcounts⟩
  rw [literals_map hclauses] at hl
  obtain ⟨k, hk, rfl⟩ := List.mem_map.1 hl
  exact (hinverse.rankOf_mem k.var (hls k hk).1 (hls k hk).2).1

theorem Arranged.counted (h : f.Arranged) : f.Counted := by
  induction h with
  | empty => exact stored_empty.counted
  | declared d => exact counted_ofDeclaration d
  | add _ hadd ih => exact ih.add hadd
  | settle _ ih => exact ih.settle
  | order _ hg ih =>
    obtain ⟨g, hg', hcounted⟩ := ih.order
    obtain rfl : g = _ := Except.ok.inj (hg'.symm.trans hg)
    exact hcounted

end Formula

end ClauseSearch
