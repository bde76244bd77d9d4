import ClauseSearch.Proofs.Contiguous

/-! How a formula grows under calls that add clauses, accepted or refused, and settle the frequencies, in any order.
The arrays stay what the clauses accepted so far make of them: a clause is found under its number whatever came
after it, each occurrence is counted once, and the table of frequencies reaches to every variable that occurs and
not beyond the count of variables. A call is refused for its first integer that is no literal, and then nothing
is changed. -/

namespace ClauseSearch

/-! ### Calls -/

section

variable {σ τ : Type} {add : List Int → Changing σ AddError Nat} {settle : σ → σ} {start : σ}
  {add' : List Int → Changing τ AddError Nat} {settle' : τ → τ}

/-- What calls lead to from a start: whether the frequencies have been settled, the clauses accepted so far with
the numbers they were given, and the state. -/
inductive Called {σ : Type} (add : List Int → Changing σ AddError Nat) (settle : σ → σ) (start : σ) :
    Bool → List (Nat × List Int) → σ → Prop
  | start : Called add settle start false [] start
  | accept {settled : Bool} {accepted : List (Nat × List Int)} {s t : σ} {ints : List Int} {id : Nat}
      (h : Called add settle start settled accepted s) (ht : (add ints).on s = (.ok id, t)) :
      Called add settle start settled (accepted ++ [(id, ints)]) t
  | refuse {settled : Bool} {accepted : List (Nat × List Int)} {s t : σ} {ints : List Int}
      {reason : AddError} (h : Called add settle start settled accepted s)
      (ht : (add ints).on s = (.error reason, t)) : Called add settle start settled accepted t
  | settle {settled : Bool} {accepted : List (Nat × List Int)} {s : σ}
      (h : Called add settle start settled accepted s) :
      Called add settle start true accepted (settle s)

/-- Where each call on an image is the image of the call, the images of the states reached are reached. -/
theorem Called.of_image {image : σ → τ} {settled : Bool} {accepted : List (Nat × List Int)} {t : τ}
    (hadd : ∀ s ints, (add' ints).on (image s) = (((add ints).on s).1, image ((add ints).on s).2))
    (hsettle : ∀ s, settle' (image s) = image (settle s))
    (h : Called add' settle' (image start) settled accepted t) :
    ∃ s, Called add settle start settled accepted s ∧ t = image s := by
  induction h with
  | start => exact ⟨start, .start, rfl⟩
  | accept _ ht ih =>
    obtain ⟨s, hs, rfl⟩ := ih
    rw [hadd] at ht
    obtain ⟨hanswer, rfl⟩ := Prod.mk.inj ht
    exact ⟨_, .accept hs (Prod.ext hanswer rfl), rfl⟩
  | refuse _ ht ih =>
    obtain ⟨s, hs, rfl⟩ := ih
    rw [hadd] at ht
    obtain ⟨hanswer, rfl⟩ := Prod.mk.inj ht
    exact ⟨_, .refuse hs (Prod.ext hanswer rfl), rfl⟩
  | settle _ ih =>
    obtain ⟨s, hs, rfl⟩ := ih
    exact ⟨_, .settle hs, hsettle s⟩

end

/-! ### Tables and counts -/

theorem FrequencyTable.size_foldl_record {t : FrequencyTable} {c : Clause} {n : Nat}
    (ht : t.size = n + 1) :
    (c.foldl FrequencyTable.record t).size = c.foldl (fun count l => max count l.var) n + 1 := by
  induction c generalizing t n with
  | nil => exact ht
  | cons l c ih =>
    rw [List.foldl_cons, List.foldl_cons]
    apply ih
    rw [size_record, ht]
    omega

namespace Formula

variable {f g : Formula} {declared : Option Declaration} {settled : Bool} {ints : List Int}
  {accepted : List (Nat × List Int)} {id : Nat}

theorem greatestVar_eq_foldl (f : Formula) :
    f.greatestVar = f.literals.foldl (fun count l => max count l.var) 0 := by
  rw [greatestVar]
  cases f.literals with
  | nil => rfl
  | cons l ls => simp only [List.map_cons, List.max?_cons', List.foldl_map, Option.getD_some,
      List.foldl_cons, Nat.zero_max]

theorem greatestVar_store (f : Formula) (c : Clause) :
    (f.store c).greatestVar = c.foldl (fun count l => max count l.var) f.greatestVar := by
  rw [greatestVar_eq_foldl, greatestVar_eq_foldl, literals_store, List.foldl_append]

/-! ### Refusals -/

/-- Why an integer is no literal under a declaration. -/
inductive Refused (declared : Option Declaration) : Int → AddError → Prop
  | zero : Refused declared 0 .zeroLiteral
  /-- The magnitude lies above the greatest variable, whatever is declared. -/
  | exhausted {n : Int} (h : greatestVariable < n.natAbs) : Refused declared n .variablesExhausted
  /-- There is such a variable, but it was not declared. -/
  | undeclared {n : Int} {d : Declaration} (hd : declared = some d) (h : d.variables < n.natAbs)
      (hle : n.natAbs ≤ greatestVariable) :
      Refused declared n (.undeclaredVariable n.natAbs d.variables)

theorem literal_eq_error {n : Int} {reason : AddError} (h : Refused declared n reason) :
    literal declared n = .error reason := by
  cases h with
  | zero => rfl
  | exhausted h =>
    have hn : n ≠ 0 := by omega
    rw [literal, Literal.ofInt?_eq_none.2 (.inr h)]
    simp [hn]
  | undeclared hd h hle =>
    subst hd
    have hn : ¬ (n = 0 ∨ greatestVariable < n.natAbs) := by omega
    rw [literal, Literal.ofInt?, if_neg hn]
    exact if_pos h

theorem exists_literal_of_not_refused {n : Int} (h : ∀ reason, ¬ Refused declared n reason) :
    ∃ l, literal declared n = .ok l := by
  have hzero : n ≠ 0 := by
    rintro rfl
    exact h _ .zero
  have hle : n.natAbs ≤ greatestVariable := by
    by_contra hgt
    exact h _ (.exhausted (by omega))
  have hn : ¬ (n = 0 ∨ greatestVariable < n.natAbs) := by omega
  rw [literal, Literal.ofInt?, if_neg hn]
  cases hd : declared with
  | none => exact ⟨_, rfl⟩
  | some d =>
    have hvar : ¬ d.variables < n.natAbs := fun hgt => h _ (.undeclared hd hgt hle)
    exact ⟨_, if_neg hvar⟩

/-- The first integer that is no literal decides why a clause is refused. -/
theorem add_of_refused {before after : List Int} {n : Int} {reason : AddError}
    (hbefore : ∀ m ∈ before, ∀ reason, ¬ Refused f.declared m reason)
    (hn : Refused f.declared n reason) : f.add (before ++ n :: after) = .error reason := by
  rw [add, Sequence.mapM_of_error (fun m hm => exists_literal_of_not_refused (hbefore m hm))
    (literal_eq_error hn)]
  rfl

/-- A clause of literals is accepted under the next number, as long as there is one. -/
theorem add_of_admitted (h : ∀ n ∈ ints, ∀ reason, ¬ Refused f.declared n reason) :
    if f.clauses.size < clauseLimit then ∃ g, f.add ints = .ok (f.clauses.size, g)
    else f.add ints = .error .clausesExhausted := by
  obtain ⟨c, hc⟩ := Sequence.exists_mapM.2 fun n hn => exists_literal_of_not_refused (h n hn)
  rw [add, hc]
  split
  · exact ⟨f.store c, rfl⟩
  · rfl

/-! ### What was taken -/

def opened : Option Declaration → Formula
  | none => {}
  | some d => .ofDeclaration d

/-- The formula holds the clauses accepted, under the declaration it was opened with. -/
structure Taken (declared : Option Declaration) (settled : Bool) (accepted : List (Nat × List Int))
    (f : Formula) : Prop where
  stored : f.Stored
  declaredAs : f.declared = declared
  numbers : accepted.map Prod.fst = List.range f.clauses.size
  clauses : f.clauses.toList.map (List.map Literal.toInt) = accepted.map Prod.snd
  undeclared : declared = none → f.variableCount = f.greatestVar
  settled_size : settled = true → f.frequencies.size = f.variableCount + 1

theorem Taken.clauses_size (h : f.Taken declared settled accepted) :
    f.clauses.size = accepted.length := by
  have hlength := congrArg List.length h.numbers
  rwa [List.length_map, List.length_range, eq_comm] at hlength

theorem taken_opened (hd : ∀ d ∈ declared, d.variables ≤ greatestVariable) :
    (opened declared).Taken declared false [] := by
  cases declared with
  | none => exact ⟨stored_empty, rfl, rfl, rfl, fun _ => rfl, by simp⟩
  | some d => exact ⟨stored_ofDeclaration (hd d rfl), rfl, rfl, rfl, by simp, by simp⟩

theorem Taken.add (h : f.Taken declared settled accepted) (hadd : f.add ints = .ok (id, g)) :
    g.Taken declared settled (accepted ++ [(id, ints)]) := by
  have hstored := h.stored.add hadd
  obtain ⟨rfl, -, c, hc, rfl⟩ := store_of_add hadd
  exact
    { stored := hstored
      declaredAs := h.declaredAs
      numbers := by
        rw [List.map_append, h.numbers, store, Array.size_push, List.range_succ]
        rfl
      clauses := by
        simp only [store, Array.toList_push, List.map_append, h.clauses, List.map_cons, List.map_nil,
          toInt_of_literals hc]
      undeclared := fun hnone => by
        rw [greatestVar_store, ← h.undeclared hnone]
        rfl
      settled_size := fun hsettled => FrequencyTable.size_foldl_record (h.settled_size hsettled) }

theorem Taken.settle (h : f.Taken declared settled accepted) : f.settle.Taken declared true accepted :=
  { h with
    stored :=
      { h.stored with
        table_pos := by
          rw [h.stored.size_settle]
          exact Nat.succ_pos _
        table_size := Nat.le_of_eq h.stored.size_settle
        counts := h.stored.counts_settle }
    settled_size := fun _ => h.stored.size_settle }

theorem taken_of_called (hd : ∀ d ∈ declared, d.variables ≤ greatestVariable)
    (h : Called addInPlace settle (opened declared) settled accepted f) :
    f.Taken declared settled accepted := by
  induction h with
  | start => exact taken_opened hd
  | accept _ ht ih =>
    rename_i s t ints id _
    rw [on_addInPlace] at ht
    cases hadd : s.add ints with
    | error reason => simp [hadd, Except.map] at ht
    | ok added =>
      rw [hadd] at ht
      obtain ⟨hid, rfl⟩ := Prod.mk.inj ht
      cases hid
      exact ih.add hadd
  | refuse _ ht ih =>
    rename_i s t ints reason _
    rw [on_addInPlace] at ht
    cases hadd : s.add ints with
    | error reason =>
      rw [hadd] at ht
      obtain ⟨-, rfl⟩ := Prod.mk.inj ht
      exact ih
    | ok added => simp [hadd, Except.map] at ht
  | settle _ ih => exact ih.settle

end Formula

/-! ### The arrays -/

namespace Contiguous

variable {f : Formula} {declared : Option Declaration} {settled : Bool}
  {accepted : List (Nat × List Int)} {s : Contiguous}

def opened : Option Declaration → Contiguous
  | none => {}
  | some d => .ofDeclaration d

theorem contiguous_opened (declared : Option Declaration) :
    (Formula.opened declared).contiguous = opened declared := by
  cases declared with
  | none => exact contiguous_empty
  | some d => exact contiguous_ofDeclaration d

/-- The arrays are what the clauses accepted make of them. -/
structure Consistent (declared : Option Declaration) (settled : Bool)
    (accepted : List (Nat × List Int)) (s : Contiguous) : Prop where
  declaredAs : s.declared = declared
  offsets_first : s.offsets[0]? = some 0
  offsets_le : s.offsets.toList.Pairwise (· ≤ ·)
  offsets_size : s.offsets.size = accepted.length + 1
  offsets_last : s.offsets.back? = some s.literals.size
  /-- The literals are those of the clauses, and there are no others. -/
  literals : s.literals.toList.map Literal.toInt = (accepted.map Prod.snd).flatten
  /-- The clause accepted after `k` others got the number `k`, and is found under it. -/
  clause : ∀ k id ints, accepted[k]? = some (id, ints) →
    id = k ∧ ∃ c, s.clause? id = some c ∧ c.map Literal.toInt = ints
  counts : ∀ x, s.frequencies.get x =
    ⟨s.literals.toList.count ⟨x, true⟩, s.literals.toList.count ⟨x, false⟩⟩
  variableCount_declared : ∀ d ∈ declared, s.variableCount = d.variables
  variableCount_undeclared :
    declared = none → s.variableCount = (s.literals.toList.map Literal.var).max?.getD 0
  var_lt : ∀ l ∈ s.literals, l.var < s.frequencies.size
  table_le : s.frequencies.size ≤ s.variableCount + 1
  table_settled : settled = true → s.frequencies.size = s.variableCount + 1

theorem consistent_contiguous (h : f.Taken declared settled accepted) :
    f.contiguous.Consistent declared settled accepted := by
  have hoffsets : f.contiguous.offsets.toList = Formula.totalsFrom 0 (f.clauses.toList.map List.length) :=
    rfl
  have hliterals : f.contiguous.literals.toList = f.clauses.toList.flatten := rfl
  exact
    { declaredAs := h.declaredAs
      offsets_first := by
        rw [← Array.getElem?_toList, hoffsets]
        cases f.clauses.toList <;> rfl
      offsets_le := pairwise_totalsFrom 0 _
      offsets_size := by rw [size_offsets, h.clauses_size]
      offsets_last := by
        rw [← Array.getLast?_toList, hoffsets, getLast?_totalsFrom, ← Array.length_toList, hliterals,
          List.length_flatten, Nat.zero_add]
      literals := by rw [hliterals, List.map_flatten, h.clauses]
      clause := fun k id ints hk => by
        have hid := congrArg (·[k]?) h.numbers
        have hclause := congrArg (·[k]?) h.clauses
        simp only [List.getElem?_map, hk, Option.map_some] at hid hclause
        obtain ⟨_, rfl⟩ := List.getElem?_eq_some_iff.1 hid.symm
        rw [List.getElem_range]
        obtain ⟨c, hc, hints⟩ := Option.map_eq_some_iff.1 hclause
        rw [Array.getElem?_toList] at hc
        exact ⟨rfl, c, (clause?_contiguous f _).trans hc, hints⟩
      counts := h.stored.counts
      variableCount_declared := fun d hd => (h.stored.declared d (h.declaredAs ▸ hd)).symm
      variableCount_undeclared := h.undeclared
      var_lt := fun l hl => h.stored.counts.var_lt (Array.mem_toList_iff.2 hl)
      table_le := h.stored.table_size
      table_settled := h.settled_size }

/-- Whatever clauses were offered and however often the frequencies were settled, the arrays hold the clauses
accepted and nothing else. The next clause is refused, without a change, for its first integer that is no literal,
or where no number is left for it. -/
theorem consistent_of_called (hd : ∀ d ∈ declared, d.variables ≤ greatestVariable)
    (h : Called add settle (opened declared) settled accepted s) :
    s.Consistent declared settled accepted ∧
      (∀ before n after reason, (∀ m ∈ before, ∀ reason, ¬ Formula.Refused declared m reason) →
        Formula.Refused declared n reason → (add (before ++ n :: after)).on s = (.error reason, s)) ∧
      (∀ ints, (∀ n ∈ ints, ∀ reason, ¬ Formula.Refused declared n reason) →
        if accepted.length < Formula.clauseLimit then ∃ t, (add ints).on s = (.ok accepted.length, t)
        else (add ints).on s = (.error .clausesExhausted, s)) ∧
      ∃ f : Formula,
        Called Formula.addInPlace Formula.settle (Formula.opened declared) settled accepted f ∧
          s = f.contiguous := by
  rw [← contiguous_opened] at h
  obtain ⟨f, hf, rfl⟩ := h.of_image on_add fun f => (contiguous_settle f).symm
  have htaken := Formula.taken_of_called hd hf
  refine ⟨consistent_contiguous htaken, fun before n after reason hbefore hn => ?_,
    fun ints hints => ?_, f, hf, rfl⟩
  · rw [on_add, Formula.on_addInPlace,
      Formula.add_of_refused (by rwa [htaken.declaredAs]) (by rwa [htaken.declaredAs])]
    rfl
  · have hadd := Formula.add_of_admitted (f := f) (by rwa [htaken.declaredAs])
    rw [htaken.clauses_size] at hadd
    split at hadd
    · rename_i hlt
      obtain ⟨g, hg⟩ := hadd
      rw [if_pos hlt, on_add, Formula.on_addInPlace, hg]
      exact ⟨g.contiguous, rfl⟩
    · rename_i hge
      rw [if_neg hge, on_add, Formula.on_addInPlace, hadd]
      rfl

/-- A clause twice, an empty one between, and one refused for a variable that was not declared. -/
theorem consistent_duplicates :
    ∃ s : Contiguous, s.offsets = #[0, 2, 2, 4] ∧ s.frequencies = #[{}, ⟨2, 2⟩, {}, {}] ∧
      s.Consistent (some ⟨3, 9⟩) true [(0, [1, -1]), (1, []), (2, [1, -1])] ∧
      (add [2, 4, 0]).on s = (.error (.undeclaredVariable 4 3), s) := by
  have hcalled : Called add settle (opened (some ⟨3, 9⟩)) true [(0, [1, -1]), (1, []), (2, [1, -1])]
      { declared := some ⟨3, 9⟩, variableCount := 3, offsets := #[0, 2, 2, 4],
        literals := #[⟨1, true⟩, ⟨1, false⟩, ⟨1, true⟩, ⟨1, false⟩],
        frequencies := #[{}, ⟨2, 2⟩, {}, {}] } := by
    have hfirst : Called add settle (opened (some ⟨3, 9⟩)) false [(0, [1, -1])] _ := .accept .start rfl
    have hrefused := @Called.refuse _ _ _ _ _ _ _ _ [4, 2] _ hfirst rfl
    have hempty : Called add settle (opened (some ⟨3, 9⟩)) true [(0, [1, -1]), (1, [])] _ :=
      .accept hrefused.settle rfl
    exact hempty.accept rfl
  have hlimit : ∀ d ∈ some (⟨3, 9⟩ : Declaration), d.variables ≤ greatestVariable := by decide
  obtain ⟨hs, hrefused, -⟩ := consistent_of_called hlimit hcalled
  have htwo : ∀ m ∈ [(2 : Int)], ∀ reason, ¬ Formula.Refused (some ⟨3, 9⟩) m reason := by
    intro m hm reason hreason
    obtain rfl := List.mem_singleton.1 hm
    cases hreason with
    | exhausted h => exact absurd h (by decide)
    | undeclared hd h =>
      cases hd
      exact absurd h (by decide)
  have hfour : Formula.Refused (some ⟨3, 9⟩) 4 (.undeclaredVariable 4 3) :=
    .undeclared rfl (by decide) (by decide)
  exact ⟨_, rfl, rfl, hs, hrefused [2] 4 [0] _ htwo hfour⟩

end Contiguous

end ClauseSearch
