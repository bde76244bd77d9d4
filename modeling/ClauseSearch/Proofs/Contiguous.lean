import ClauseSearch.Proofs.InPlace
import ClauseSearch.Proofs.Packed

/-! A formula in arrays that grow side by side. The literals of all clauses stand one after another in one array,
a second one holds the offset at which each clause begins and last the one where the final clause ends, and the
table of frequencies lies beside them. Adding a clause, settling the frequencies and putting the literals on ranks
change these arrays in place, and come to the layout of what they come to on clauses. -/

namespace ClauseSearch

/-- Clauses one after another, from each offset to the next one. -/
structure Contiguous where
  declared : Option Declaration := none
  variableCount : Nat := 0
  offsets : Array Nat := #[0]
  literals : Array Literal := #[]
  frequencies : FrequencyTable := #[{}]

/-- The clauses of a formula one after another. -/
def Formula.contiguous (f : Formula) : Contiguous where
  declared := f.declared
  variableCount := f.variableCount
  offsets := f.offsets.toArray
  literals := f.literals.toArray
  frequencies := f.frequencies

namespace Contiguous

def ofDeclaration (d : Declaration) : Contiguous where
  declared := some d
  variableCount := d.variables
  frequencies := Array.replicate (min d.variables Formula.declaredSlots + 1) {}

def clauseCount (s : Contiguous) : Nat := s.offsets.size - 1

/-- The literals from the offset of a clause to the next one. -/
def clause? (s : Contiguous) (id : Nat) : Option Clause :=
  match s.offsets[id]?, s.offsets[id + 1]? with
  | some start, some stop => some (s.literals.extract start stop).toList
  | _, _ => none

def countLiteral (s : Contiguous) (l : Literal) : Contiguous :=
  { s with variableCount := max s.variableCount l.var, frequencies := s.frequencies.record l }

def append (s : Contiguous) (c : Clause) : Contiguous :=
  let literals := s.literals ++ c.toArray
  { s with literals, offsets := s.offsets.push literals.size }

/-- Adds a clause in place: reads the integers, counts the literals, and then appends them. -/
def add (ints : List Int) : Changing Contiguous AddError Nat := do
  let c ← ofExcept (ints.mapM (Formula.literal (← get).declared))
  let id := (← get).clauseCount
  if id < Formula.clauseLimit then
    c.forM fun l => modify (·.countLiteral l)
    modify (·.append c)
    return id
  else
    throw .clausesExhausted

def settle (s : Contiguous) : Contiguous :=
  { s with frequencies := s.frequencies.grow (s.variableCount + 1) }

/-- Puts each literal on the rank of its variable, and then the frequencies. -/
def toRanks (s : Contiguous) (r : Ranking) : Except Fault Contiguous := do
  let literals ← s.literals.mapM r.toRanked
  let frequencies ← Formula.rankTable r s.frequencies
  return { s with literals, frequencies }

variable {f g : Formula} {r : Ranking} {cs ds : List Clause} {c : Clause}

/-! ### Offsets -/

theorem totalsFrom_concat (n : Nat) (ks : List Nat) (k : Nat) :
    Formula.totalsFrom n (ks ++ [k]) = Formula.totalsFrom n ks ++ [n + ks.sum + k] := by
  induction ks generalizing n with
  | nil => simp [Formula.totalsFrom]
  | cons m ks ih => simp [Formula.totalsFrom, ih, Nat.add_assoc]

theorem le_of_mem_totalsFrom {n m : Nat} {ks : List Nat} (h : m ∈ Formula.totalsFrom n ks) :
    n ≤ m := by
  induction ks generalizing n with
  | nil =>
    rw [List.mem_singleton.1 h]
  | cons k ks ih =>
    rcases List.mem_cons.1 h with rfl | h
    · exact Nat.le_refl m
    · have := ih h
      omega

theorem pairwise_totalsFrom (n : Nat) (ks : List Nat) :
    (Formula.totalsFrom n ks).Pairwise (· ≤ ·) := by
  induction ks generalizing n with
  | nil => exact List.pairwise_singleton _ _
  | cons k ks ih =>
    apply List.Pairwise.cons _ (ih (n + k))
    intro m hm
    have := le_of_mem_totalsFrom hm
    omega

theorem getLast?_totalsFrom (n : Nat) (ks : List Nat) :
    (Formula.totalsFrom n ks).getLast? = some (n + ks.sum) := by
  induction ks using List.reverseRecOn with
  | nil => rfl
  | append_singleton ks k _ =>
    rw [totalsFrom_concat, List.getLast?_concat, List.sum_append, List.sum_singleton, Nat.add_assoc]

theorem size_offsets (f : Formula) : f.contiguous.offsets.size = f.clauses.size + 1 := by
  show f.offsets.toArray.size = _
  rw [List.size_toArray, Formula.offsets, Packed.length_totalsFrom, List.length_map,
    Array.length_toList]

theorem clauseCount_contiguous (f : Formula) : f.contiguous.clauseCount = f.clauses.size := by
  rw [clauseCount, size_offsets, Nat.add_sub_cancel]

/-- The literals of a clause lie between its offset and the next one, whatever stands before the clauses. -/
theorem extract_flatten (before : List Literal) {id : Nat} (hid : cs[id]? = some c) :
    ∃ start stop, (Formula.totalsFrom before.length (cs.map List.length))[id]? = some start ∧
      (Formula.totalsFrom before.length (cs.map List.length))[id + 1]? = some stop ∧
      ((before ++ cs.flatten).take stop).drop start = c := by
  induction cs generalizing before id with
  | nil => exact absurd hid (by simp)
  | cons d cs ih =>
    cases id with
    | zero =>
      obtain rfl : d = c := by simpa using hid
      have hstop : (Formula.totalsFrom (before.length + d.length) (cs.map List.length))[0]? =
          some (before.length + d.length) := by
        cases cs <;> rfl
      refine ⟨before.length, before.length + d.length, rfl, hstop, ?_⟩
      rw [List.flatten_cons, ← List.append_assoc, ← List.length_append, List.take_left, List.drop_left]
    | succ id =>
      have hnext := ih (before ++ d) (by simpa using hid)
      rw [List.length_append] at hnext
      simpa [Formula.totalsFrom] using hnext

theorem clause?_contiguous (f : Formula) (id : Nat) : f.contiguous.clause? id = f.clause? id := by
  rw [Formula.clause?, ← Array.getElem?_toList]
  cases hid : f.clauses.toList[id]? with
  | some c =>
    obtain ⟨start, stop, hstart, hstop, hslice⟩ := extract_flatten [] hid
    have hstart' : f.contiguous.offsets[id]? = some start := List.getElem?_toArray.trans hstart
    have hstop' : f.contiguous.offsets[id + 1]? = some stop := List.getElem?_toArray.trans hstop
    simp only [clause?, hstart', hstop']
    rw [Array.toList_extract, List.extract_eq_take_drop, ← List.drop_take]
    exact congrArg some hslice
  | none =>
    have hout : f.contiguous.offsets[id + 1]? = none := by
      rw [List.getElem?_eq_none_iff, Array.length_toList] at hid
      rw [Array.getElem?_eq_none_iff, size_offsets]
      omega
    simp only [clause?, hout]
    cases f.contiguous.offsets[id]? <;> rfl

/-! ### Adding and settling -/

theorem contiguous_empty : ({} : Formula).contiguous = {} := rfl

theorem contiguous_ofDeclaration (d : Declaration) :
    (Formula.ofDeclaration d).contiguous = .ofDeclaration d := rfl

theorem contiguous_settle (f : Formula) : f.settle.contiguous = f.contiguous.settle := rfl

theorem foldl_countLiteral (s : Contiguous) (c : Clause) : c.foldl countLiteral s =
    { s with variableCount := c.foldl (fun count l => max count l.var) s.variableCount,
             frequencies := c.foldl FrequencyTable.record s.frequencies } := by
  induction c generalizing s with
  | nil => rfl
  | cons l c ih => rw [List.foldl_cons, ih]; rfl

theorem contiguous_store (f : Formula) (c : Clause) :
    (f.store c).contiguous = (c.foldl countLiteral f.contiguous).append c := by
  have hoffsets : (f.store c).offsets = f.offsets ++ [f.literals.length + c.length] := by
    simp only [Formula.offsets, Formula.store, Array.toList_push, List.map_append, List.map_cons,
      List.map_nil]
    rw [totalsFrom_concat, Nat.zero_add, Formula.literals, List.length_flatten]
  rw [foldl_countLiteral, Formula.contiguous, Formula.literals_store, hoffsets]
  simp [Formula.contiguous, Formula.store, append]

/-- To add a clause to the arrays is to add it to the formula, whether it is accepted or refused. -/
theorem on_add (f : Formula) (ints : List Int) : (add ints).on f.contiguous =
    (((Formula.addInPlace ints).on f).1, ((Formula.addInPlace ints).on f).2.contiguous) := by
  have hdeclared : f.contiguous.declared = f.declared := rfl
  rw [Formula.on_addInPlace]
  unfold add Formula.add
  rw [Changing.on_get_bind, hdeclared]
  cases hc : ints.mapM (Formula.literal f.declared) with
  | error e => exact Changing.on_bind_error rfl
  | ok c =>
    have hread : (ofExcept (.ok c) : Changing Contiguous AddError Clause).on f.contiguous =
        (.ok c, f.contiguous) := rfl
    rw [Changing.on_bind_ok hread, Changing.on_get_bind, clauseCount_contiguous]
    by_cases hlimit : f.clauses.size < Formula.clauseLimit
    · simp only [hlimit, if_true]
      rw [Changing.on_bind_ok (Changing.on_forM_modify _ c f.contiguous), Changing.on_modify_bind,
        Changing.on_pure, ← contiguous_store]
      rfl
    · simp only [bind, Except.bind, hlimit, if_false]
      rfl

/-! ### Ranks -/

theorem lengths_of_mapM {f : Literal → Except Fault Literal} (h : cs.mapM (List.mapM f) = .ok ds) :
    ds.map List.length = cs.map List.length := by
  have hclauses := Sequence.forall₂_of_mapM h
  clear h
  induction hclauses with
  | nil => rfl
  | cons hc _ ih => rw [List.map_cons, List.map_cons, Sequence.length_of_mapM hc, ih]

/-- To put the arrays on ranks is to put the formula on ranks, with the same faults. -/
theorem toRanks_contiguous (f : Formula) (r : Ranking) :
    f.contiguous.toRanks r = (f.toRanks r).map Formula.contiguous := by
  have hliterals : f.contiguous.literals.mapM r.toRanked =
      ((f.clauses.toList.mapM (List.mapM r.toRanked)).map List.flatten).map List.toArray := by
    rw [Array.mapM_eq_mapM_toList]
    show (f.literals.mapM r.toRanked).map List.toArray = _
    rw [Formula.literals, Sequence.mapM_flatten]
  rw [toRanks, Formula.toRanks, hliterals, Array.mapM_eq_mapM_toList]
  cases hclauses : f.clauses.toList.mapM (List.mapM r.toRanked) with
  | error fault => rfl
  | ok ds =>
    cases htable : Formula.rankTable r f.frequencies with
    | error fault =>
      simp only [Formula.contiguous, Except.map, bind, Except.bind, htable]
      rfl
    | ok frequencies =>
      have hoffsets : Formula.totalsFrom 0 (f.clauses.toList.map List.length) =
          Formula.totalsFrom 0 (ds.map List.length) := by
        rw [lengths_of_mapM hclauses]
      simp only [Formula.contiguous, Formula.offsets, hoffsets, Except.map, bind, Except.bind, htable]
      rfl

end Contiguous

end ClauseSearch
