import ClauseSearch.Dimacs.Reader
import ClauseSearch.Proofs.Sequence
import ClauseSearch.Proofs.Status

/-! What a formula has stored after any additions. Every literal is on a variable within the count, and the
table of frequencies counts the literals of each variable exactly; the same holds of a formula read
from bytes, since reading adds one clause after another. -/

namespace ClauseSearch

/-! ### Counting literals -/

namespace FrequencyTable

variable {t : FrequencyTable} {l : Literal} {ls c : List Literal} {x n : Nat}

/-- The table counts the literals of each variable in the list. -/
def Counts (t : FrequencyTable) (ls : List Literal) : Prop :=
  ∀ x, t.get x = ⟨ls.count ⟨x, true⟩, ls.count ⟨x, false⟩⟩

theorem size_grow : (grow n t).size = max n t.size := by
  simp only [grow, Array.size_append, Array.size_replicate]
  omega

theorem get_grow : (grow n t).get x = t.get x := by
  simp only [get, grow, Array.getD_eq_getD_getElem?, Array.getElem?_append, Array.getElem?_replicate]
  split
  · rfl
  · rename_i hx
    rw [Array.getElem?_eq_none (Nat.le_of_not_lt hx)]
    split <;> rfl

theorem size_record : (t.record l).size = max (l.var + 1) t.size := by
  simp [record, size_grow]

theorem get_record : (t.record l).get x = if x = l.var then (t.get x).count l.polarity else t.get x := by
  have hlt : l.var < (grow (l.var + 1) t).size := by
    rw [size_grow]
    omega
  by_cases hx : x = l.var
  · subst hx
    rw [if_pos rfl, ← get_grow (n := l.var + 1) (t := t)]
    simp [record, get, Array.getD_eq_getD_getElem?, Array.getElem_modify, hlt]
  · rw [if_neg hx, ← get_grow (n := l.var + 1) (t := t)]
    simp [record, get, Array.getD_eq_getD_getElem?, Array.getElem?_modify, Ne.symm hx]

theorem Counts.record (h : t.Counts ls) : (t.record l).Counts (ls ++ [l]) := by
  intro x
  rw [get_record, h x]
  obtain ⟨y, b⟩ := l
  by_cases hx : x = y
  · subst hx
    cases b <;> simp [Frequency.count, List.count_append]
  · cases b <;> simp [hx, Ne.symm hx, List.count_append]

theorem Counts.foldl_record (h : t.Counts ls) :
    (c.foldl FrequencyTable.record t).Counts (ls ++ c) := by
  induction c generalizing t ls with
  | nil => simpa using h
  | cons l c ih =>
    have := ih (h.record (l := l))
    rwa [List.append_assoc] at this

theorem le_size_foldl_record : t.size ≤ (c.foldl FrequencyTable.record t).size := by
  induction c generalizing t with
  | nil => exact Nat.le_refl _
  | cons l c ih => exact Nat.le_trans (by rw [size_record]; omega) (ih (t := t.record l))

theorem size_foldl_record_le (hc : ∀ l ∈ c, l.var < n) (ht : t.size ≤ n) :
    (c.foldl FrequencyTable.record t).size ≤ n := by
  induction c generalizing t with
  | nil => exact ht
  | cons l c ih =>
    have hl := hc l List.mem_cons_self
    exact ih (t := t.record l) (fun k hk => hc k (List.mem_cons_of_mem l hk))
      (by rw [size_record]; omega)

theorem Counts.var_lt (h : t.Counts ls) (hl : l ∈ ls) : l.var < t.size := by
  by_contra hx
  have hget := h l.var
  rw [get, Array.getD_eq_getD_getElem?, Array.getElem?_eq_none (Nat.le_of_not_lt hx)] at hget
  have hpos := List.count_pos_iff.2 hl
  obtain ⟨x, b⟩ := l
  simp only [Option.getD_none, Frequency.mk.injEq] at hget
  cases b
  · rw [← hget.2] at hpos
    exact absurd hpos (Nat.lt_irrefl 0)
  · rw [← hget.1] at hpos
    exact absurd hpos (Nat.lt_irrefl 0)

end FrequencyTable

/-! ### Stored formulas -/

namespace Formula

variable {f g : Formula} {c : Clause} {ints : List Int} {id : Nat}

/-- Formulas that additions lead to, with or without a declaration before them. -/
inductive Built : Formula → Prop
  | empty : Built {}
  | declared {d : Declaration} : d.variables ≤ greatestVariable → Built (.ofDeclaration d)
  | add {f g : Formula} {ints : List Int} {id : Nat} :
    Built f → f.add ints = .ok (id, g) → Built g

/-- The clauses and the counts kept beside them agree. -/
structure Stored (f : Formula) : Prop where
  ranged : f.Ranged
  variableCount_le : f.variableCount ≤ greatestVariable
  declared : ∀ d ∈ f.declared, d.variables = f.variableCount
  table_pos : 0 < f.frequencies.size
  table_size : f.frequencies.size ≤ f.variableCount + 1
  counts : f.frequencies.Counts f.literals

theorem literal_eq_ok {declared : Option Declaration} {n : Int} {l : Literal}
    (h : literal declared n = .ok l) :
    Literal.ofInt? n = some l ∧ ∀ d ∈ declared, l.var ≤ d.variables := by
  unfold literal at h
  split at h
  · exact absurd h (by simp)
  · rename_i k hk
    split at h
    · cases h
      exact ⟨hk, by simp⟩
    · split at h
      · exact absurd h (by simp)
      · cases h
        refine ⟨hk, fun d hd => ?_⟩
        cases hd
        omega

theorem toInt_of_literals {declared : Option Declaration} {ints : List Int} {c : Clause}
    (h : List.Forall₂ (fun n l => literal declared n = .ok l) ints c) :
    c.map Literal.toInt = ints := by
  induction h with
  | nil => rfl
  | cons hl _ ih => rw [List.map_cons, ih, Literal.toInt_of_ofInt? (literal_eq_ok hl).1]

theorem store_of_add (h : f.add ints = .ok (id, g)) :
    id = f.clauses.size ∧ f.clauses.size < clauseLimit ∧
      ∃ c, List.Forall₂ (fun n l => literal f.declared n = .ok l) ints c ∧ g = f.store c := by
  obtain ⟨c, hc, h⟩ := Fault.bind_eq_ok.1 h
  split at h
  · rename_i hlt
    obtain ⟨rfl, rfl⟩ := Prod.mk.inj (Fault.pure_eq_ok.1 h)
    exact ⟨rfl, hlt, c, Sequence.forall₂_of_mapM hc, rfl⟩
  · exact absurd h (by simp [throw, throwThe, MonadExceptOf.throw])

theorem le_foldl_max {c : List Literal} {n : Nat} :
    n ≤ c.foldl (fun count l => max count l.var) n := by
  induction c generalizing n with
  | nil => exact Nat.le_refl n
  | cons l c ih => exact Nat.le_trans (Nat.le_max_left n l.var) ih

theorem var_le_foldl_max {c : List Literal} {n : Nat} {l : Literal} (hl : l ∈ c) :
    l.var ≤ c.foldl (fun count l => max count l.var) n := by
  induction c generalizing n with
  | nil => exact absurd hl (by simp)
  | cons k c ih =>
    rcases List.mem_cons.1 hl with rfl | hl
    · exact Nat.le_trans (Nat.le_max_right n l.var) le_foldl_max
    · exact ih hl

theorem foldl_max_le {c : List Literal} {n m : Nat} (hn : n ≤ m) (hc : ∀ l ∈ c, l.var ≤ m) :
    c.foldl (fun count l => max count l.var) n ≤ m := by
  induction c generalizing n with
  | nil => exact hn
  | cons l c ih =>
    exact ih (Nat.max_le.2 ⟨hn, hc l List.mem_cons_self⟩) fun k hk =>
      hc k (List.mem_cons_of_mem l hk)

theorem literals_store : (f.store c).literals = f.literals ++ c := by
  simp [literals, store]

/-- Storing admitted literals keeps clauses and counts in agreement. -/
theorem Stored.store (h : f.Stored) (hpos : ∀ l ∈ c, 0 < l.var ∧ l.var ≤ greatestVariable)
    (hdeclared : ∀ d ∈ f.declared, ∀ l ∈ c, l.var ≤ d.variables) : (f.store c).Stored where
  ranged := by
    intro d hd
    rcases Array.mem_push.1 hd with hd | rfl
    · exact fun l hl => ⟨(h.ranged d hd l hl).1, Nat.le_trans (h.ranged d hd l hl).2 le_foldl_max⟩
    · exact fun l hl => ⟨(hpos l hl).1, var_le_foldl_max hl⟩
  variableCount_le := foldl_max_le h.variableCount_le fun l hl => (hpos l hl).2
  declared d hd := by
    have heq := h.declared d hd
    refine Nat.le_antisymm (heq.symm ▸ le_foldl_max) ?_
    exact foldl_max_le (Nat.le_of_eq heq.symm) (hdeclared d hd)
  table_pos := Nat.lt_of_lt_of_le h.table_pos FrequencyTable.le_size_foldl_record
  table_size :=
    FrequencyTable.size_foldl_record_le (fun _ hl => Nat.lt_succ_of_le (var_le_foldl_max hl))
      (Nat.le_trans h.table_size (Nat.succ_le_succ le_foldl_max))
  counts := by
    rw [literals_store]
    exact h.counts.foldl_record

theorem stored_empty : Stored {} where
  ranged := by simp [Ranged]
  variableCount_le := Nat.zero_le _
  declared := by simp
  table_pos := by simp
  table_size := by simp
  counts x := by
    rcases x with _ | x <;> simp [FrequencyTable.get, literals]

theorem counts_ofDeclaration (d : Declaration) :
    (ofDeclaration d).frequencies.Counts (ofDeclaration d).literals := by
  intro x
  simp only [FrequencyTable.get, ofDeclaration, literals, Array.getD_eq_getD_getElem?,
    Array.getElem?_replicate]
  split <;> rfl

theorem stored_ofDeclaration {d : Declaration} (h : d.variables ≤ greatestVariable) :
    (ofDeclaration d).Stored where
  ranged := by simp [Ranged, ofDeclaration]
  variableCount_le := h
  declared := by simp [ofDeclaration]
  table_pos := by simp [ofDeclaration]
  table_size := by
    simp only [ofDeclaration, Array.size_replicate]
    omega
  counts := counts_ofDeclaration d

/-- The literals of a clause that is added lie within the variables and within the declaration. -/
theorem ranged_of_literals {declared : Option Declaration}
    (h : List.Forall₂ (fun n l => literal declared n = .ok l) ints c) {l : Literal} (hl : l ∈ c) :
    (0 < l.var ∧ l.var ≤ greatestVariable) ∧ ∀ d ∈ declared, l.var ≤ d.variables := by
  obtain ⟨i, hi, rfl⟩ := List.mem_iff_getElem.1 hl
  have hlit := literal_eq_ok ((List.forall₂_iff_get.1 h).2 i (h.length_eq ▸ hi) hi)
  exact ⟨(Literal.var_of_ofInt? hlit.1).2, hlit.2⟩

theorem Stored.add (h : f.Stored) (hadd : f.add ints = .ok (id, g)) : g.Stored := by
  obtain ⟨-, -, c, hc, rfl⟩ := store_of_add hadd
  exact h.store (fun l hl => (ranged_of_literals hc hl).1) fun d hd l hl =>
    (ranged_of_literals hc hl).2 d hd

theorem Built.stored (h : f.Built) : f.Stored := by
  induction h with
  | empty => exact stored_empty
  | declared hd => exact stored_ofDeclaration hd
  | add _ hadd ih => exact ih.add hadd

/-! ### Settling -/

theorem Stored.size_settle (h : f.Stored) : f.settle.frequencies.size = f.variableCount + 1 := by
  have := h.table_size
  simp only [settle, FrequencyTable.size_grow]
  omega

theorem Stored.counts_settle (h : f.Stored) : f.settle.frequencies.Counts f.literals := by
  intro x
  rw [← h.counts x]
  exact FrequencyTable.get_grow

end Formula

/-! ### Formulas read from bytes -/

namespace Dimacs

theorem nat?_le {limit n : Nat} {cs : List Char} (h : Numeral.nat? limit cs = some n) :
    n ≤ limit := by
  simpa using (Option.filter_eq_some_iff.1 h).2

theorem variables_le_of_declaration? {details : List UInt8} {d : Declaration}
    (h : declaration? details = some d) : d.variables ≤ greatestVariable := by
  unfold declaration? at h
  split at h
  · obtain ⟨n, hn, h⟩ := Option.bind_eq_some_iff.1 h
    obtain ⟨m, -, h⟩ := Option.bind_eq_some_iff.1 h
    cases h
    exact nat?_le hn
  · exact absurd h (by simp)

theorem variables_le_of_findProblem {read number : Nat} {lines rest : List (List UInt8)}
    {d : Declaration} (h : findProblem read lines = .ok (d, number, rest)) :
    d.variables ≤ greatestVariable := by
  induction lines generalizing read with
  | nil => exact absurd h (by simp [findProblem])
  | cons line lines ih =>
    unfold findProblem at h
    split at h
    · exact ih h
    · split at h
      · exact absurd h (by simp)
      · rename_i hd
        cases h
        exact variables_le_of_declaration? hd

theorem built_close {state next : Progress} {line : Nat} (hs : state.formula.Built)
    (h : state.close line = .ok next) : next.formula.Built := by
  unfold Progress.close at h
  split at h
  · rename_i hadd
    cases h
    exact hs.add hadd
  · exact absurd h (by simp)
  · exact absurd h (by simp)

theorem built_readWords {state next : Progress} {line : Nat} {words : List (List Char)}
    (hs : state.formula.Built) (h : readWords line words state = .ok next) :
    next.formula.Built := by
  induction words generalizing state with
  | nil =>
    cases h
    exact hs
  | cons word words ih =>
    unfold readWords at h
    split at h
    · exact absurd h (by simp)
    · split at h
      · split at h
        · rename_i hclose
          exact ih (built_close hs hclose) h
        · exact absurd h (by simp)
      · exact @ih { state with pending := _ :: state.pending } hs h

theorem built_readBody {state next : Progress} {read last : Nat} {lines : List (List UInt8)}
    (hs : state.formula.Built) (h : readBody read lines state = .ok (next, last)) :
    next.formula.Built := by
  induction lines generalizing read state with
  | nil =>
    cases h
    exact hs
  | cons line lines ih =>
    unfold readBody at h
    split at h
    · exact absurd h (by simp)
    · split at h
      · cases h
        exact hs
      · exact ih hs h
      · exact absurd h (by simp)
      · split at h
        · rename_i hwords
          exact ih (built_readWords hs hwords) h
        · exact absurd h (by simp)

/-- Reading is a declaration followed by additions. -/
theorem built_read {bytes : List UInt8} {f : Formula} (h : Dimacs.read bytes = .ok f) : f.Built := by
  obtain ⟨⟨d, number, rest⟩, hproblem, h⟩ := Fault.bind_eq_ok.1 h
  obtain ⟨⟨state, last⟩, hbody, h⟩ := Fault.bind_eq_ok.1 h
  have hstate := built_readBody (.declared (variables_le_of_findProblem hproblem)) hbody
  have hcount : ∀ final : Progress, final.formula.Built →
      (if final.formula.clauseCount = d.clauses then pure final.formula
        else throw (.clauseCount d.clauses final.formula.clauseCount) : Except ReadError Formula) =
          .ok f → f.Built := by
    intro final hfinal h
    split at h
    · cases h
      exact hfinal
    · exact absurd h (by simp [throw, throwThe, MonadExceptOf.throw])
  dsimp only at h
  split at h
  · exact hcount state hstate h
  · obtain ⟨final, hclose, h⟩ := Fault.bind_eq_ok.1 h
    exact hcount final (built_close hstate hclose) h

end Dimacs

end ClauseSearch
