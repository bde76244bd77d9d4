import ClauseSearch.Proofs.FormulaStore
import ClauseSearch.Proofs.Grammar

/-! The reader accepts exactly the DIMACS form, and the formula that it returns holds what the form says.
Between the lines and the clauses stands the sequence of integers: the reader takes them over one at a time
and keeps those since the last zero, and this is the sequence cut at each zero. -/

namespace ClauseSearch

namespace Formula

variable {f g : Formula} {c : List Int} {clauses : List (List Int)} {d : Declaration}

/-! ### Clauses added under a declaration -/

/-- The formula with one more clause, if it is not refused. -/
def extended? (f : Formula) (c : List Int) : Option Formula := (f.add c).toOption.map Prod.snd

theorem extended?_eq_some : f.extended? c = some g ↔ ∃ id, f.add c = .ok (id, g) := by
  unfold extended?
  cases f.add c with
  | error e => simp [Except.toOption]
  | ok added => obtain ⟨id, h⟩ := added; simp [Except.toOption]

/-- Under a declaration the refused integers are zero and those beyond the declared variables. -/
theorem exists_literal (hd : d.variables ≤ greatestVariable) {n : Int} :
    (∃ l, literal (some d) n = .ok l) ↔ n ≠ 0 ∧ n.natAbs ≤ d.variables := by
  constructor
  · rintro ⟨l, hl⟩
    obtain ⟨hint, hdeclared⟩ := literal_eq_ok hl
    obtain ⟨hvar, hpos, -⟩ := Literal.var_of_ofInt? hint
    have := hdeclared d rfl
    omega
  · rintro ⟨hzero, hle⟩
    have hint : ¬ (n = 0 ∨ greatestVariable < n.natAbs) := by omega
    refine ⟨⟨n.natAbs, decide (0 < n)⟩, ?_⟩
    rw [literal, Literal.ofInt?, if_neg hint]
    exact if_neg (Nat.not_lt.2 hle)

theorem exists_extended? (hf : f.declared = some d) (hd : d.variables ≤ greatestVariable) :
    (∃ g, f.extended? c = some g) ↔
      (∀ n ∈ c, n ≠ 0 ∧ n.natAbs ≤ d.variables) ∧ f.clauses.size < clauseLimit := by
  simp only [extended?_eq_some, ← exists_literal hd, ← hf, ← Sequence.exists_mapM]
  constructor
  · rintro ⟨g, id, hadd⟩
    obtain ⟨ls, hls, -⟩ := Fault.bind_eq_ok.1 hadd
    exact ⟨⟨ls, hls⟩, (store_of_add hadd).2.1⟩
  · rintro ⟨⟨ls, hls⟩, hsize⟩
    exact ⟨f.store ls, f.clauses.size, Fault.bind_eq_ok.2 ⟨ls, hls, if_pos hsize⟩⟩

theorem contents_of_extended? (h : f.extended? c = some g) : g.declared = f.declared ∧
    g.clauses.toList.map (List.map Literal.toInt) =
      f.clauses.toList.map (List.map Literal.toInt) ++ [c] := by
  obtain ⟨id, hadd⟩ := extended?_eq_some.1 h
  obtain ⟨-, -, ls, hls, rfl⟩ := store_of_add hadd
  simp [store, toInt_of_literals hls]

theorem contents_of_foldlM (h : clauses.foldlM extended? f = some g) : g.declared = f.declared ∧
    g.clauses.toList.map (List.map Literal.toInt) =
      f.clauses.toList.map (List.map Literal.toInt) ++ clauses := by
  induction clauses generalizing f with
  | nil =>
    cases h
    simp
  | cons c clauses ih =>
    obtain ⟨mid, hmid, h⟩ := Option.bind_eq_some_iff.1 h
    obtain ⟨hdeclared, hclauses⟩ := ih h
    obtain ⟨hdeclared', hclauses'⟩ := contents_of_extended? hmid
    exact ⟨hdeclared.trans hdeclared', by rw [hclauses, hclauses', List.append_assoc]; rfl⟩

theorem size_of_extended? (h : f.extended? c = some g) : g.clauses.size = f.clauses.size + 1 := by
  simpa using congrArg List.length (contents_of_extended? h).2

theorem clauseCount_of_foldlM (h : clauses.foldlM extended? (.ofDeclaration d) = some g) :
    g.clauseCount = clauses.length := by
  have hsize := congrArg List.length (contents_of_foldlM h).2
  simp only [List.length_append, List.length_map, Array.length_toList] at hsize
  exact hsize.trans (Nat.zero_add _)

/-- Clauses are added exactly if each one is admissible and they are not too many. -/
theorem exists_foldlM_extended? (hf : f.declared = some d) (hd : d.variables ≤ greatestVariable)
    (hsize : f.clauses.size ≤ clauseLimit) : (∃ g, clauses.foldlM extended? f = some g) ↔
      (∀ c ∈ clauses, ∀ n ∈ c, n ≠ 0 ∧ n.natAbs ≤ d.variables) ∧
        f.clauses.size + clauses.length ≤ clauseLimit := by
  induction clauses generalizing f with
  | nil => exact iff_of_true ⟨f, rfl⟩ ⟨by simp, hsize⟩
  | cons c clauses ih =>
    have hstep : ∀ {mid}, f.extended? c = some mid → mid.declared = some d ∧
        mid.clauses.size = f.clauses.size + 1 := fun h =>
      ⟨(contents_of_extended? h).1.trans hf, size_of_extended? h⟩
    rw [List.forall_mem_cons, List.length_cons]
    constructor
    · rintro ⟨g, h⟩
      obtain ⟨mid, hmid, h⟩ := Option.bind_eq_some_iff.1 h
      obtain ⟨hdeclared, hgrown⟩ := hstep hmid
      obtain ⟨hc, hroom⟩ := (exists_extended? hf hd).1 ⟨mid, hmid⟩
      obtain ⟨hclauses, hle⟩ := (ih hdeclared (by omega)).1 ⟨g, h⟩
      exact ⟨⟨hc, hclauses⟩, by omega⟩
    · rintro ⟨⟨hc, hclauses⟩, hle⟩
      obtain ⟨mid, hmid⟩ := (exists_extended? hf hd).2 ⟨hc, by omega⟩
      obtain ⟨hdeclared, hgrown⟩ := hstep hmid
      obtain ⟨g, h⟩ := (ih hdeclared (by omega)).2 ⟨hclauses, by omega⟩
      exact ⟨g, Option.bind_eq_some_iff.2 ⟨mid, hmid, h⟩⟩

end Formula

namespace Dimacs

variable {bytes line : List UInt8} {ls : List (List UInt8)} {d : Declaration} {ints : List Int}
  {clauses : List (List Int)} {state t : Progress} {f : Formula} {number read : Nat}

/-! ### The sequence of integers -/

theorem close_eq_ok : state.close number = .ok t ↔
    ∃ f, state.formula.extended? state.pending.reverse = some f ∧ t = { formula := f } := by
  simp only [Formula.extended?_eq_some]
  unfold Progress.close
  constructor
  · intro h
    split at h
    · rename_i id f hadd
      exact ⟨f, ⟨id, hadd⟩, (Except.ok.inj h).symm⟩
    · exact absurd h (by simp)
    · exact absurd h (by simp)
  · rintro ⟨f, ⟨id, hadd⟩, rfl⟩
    rw [hadd]

/-- Takes an integer over: a zero ends the clause that is pending, and any other integer joins it. -/
def Progress.take? (state : Progress) (n : Int) : Option Progress :=
  if n = 0 then (state.formula.extended? state.pending.reverse).map fun f => { formula := f }
  else some { state with pending := n :: state.pending }

theorem take?_zero (number : Nat) : state.take? 0 = some t ↔ state.close number = .ok t := by
  rw [close_eq_ok, Progress.take?, if_pos rfl, Option.map_eq_some_iff]
  simp only [eq_comm]

theorem readWords_cons {word : List Char} {words : List (List Char)} {n : Int}
    (hword : integer? word = some n) : readWords number (word :: words) state = .ok t ↔
      ∃ mid, state.take? n = some mid ∧ readWords number words mid = .ok t := by
  rw [readWords, hword]
  by_cases hn : n = 0
  · subst hn
    simp only [if_true, take?_zero number]
    cases hclose : state.close number with
    | ok mid => simp
    | error e => simp
  · simp [Progress.take?, hn]

theorem readWords_eq_ok {words : List (List Char)} : readWords number words state = .ok t ↔
    ∃ ints, List.Forall₂ (fun word n => integer? word = some n) words ints ∧
      ints.foldlM Progress.take? state = some t := by
  induction words generalizing state with
  | nil =>
    rw [readWords, Except.ok.injEq]
    constructor
    · rintro rfl
      exact ⟨[], .nil, rfl⟩
    · rintro ⟨ints, ⟨⟩, h⟩
      exact Option.some.inj h
  | cons word words ih =>
    cases hword : integer? word with
    | none =>
      refine iff_of_false (by simp [readWords, hword]) ?_
      rintro ⟨ints, hints, -⟩
      cases hints with
      | cons hn _ => exact absurd (hword.symm.trans hn) (by simp)
    | some n =>
      rw [readWords_cons hword]
      simp only [ih]
      constructor
      · rintro ⟨mid, hmid, ints, hints, h⟩
        exact ⟨n :: ints, .cons hword hints, Option.bind_eq_some_iff.2 ⟨mid, hmid, h⟩⟩
      · rintro ⟨_, hints, h⟩
        cases hints with
        | cons hn hints =>
          obtain rfl := Option.some.inj (hword.symm.trans hn)
          obtain ⟨mid, hmid, h⟩ := Option.bind_eq_some_iff.1 h
          exact ⟨mid, hmid, _, hints, h⟩

/-- Integers taken over from a state are the clauses ended and the integers pending, in the order read. -/
theorem foldlM_take? (state : Progress) (h : 0 ∉ state.pending) : ints.foldlM Progress.take? state = some t ↔
    ∃ closed, (state.pending.reverse ++ ints).splitOn 0 = closed ++ [t.pending.reverse] ∧
      closed.foldlM Formula.extended? state.formula = some t.formula := by
  -- What is pending has no zero, so the next zero among the integers still to come ends the first piece.
  induction ints generalizing state with
  | nil =>
    have hsplit : state.pending.reverse.splitOn 0 = [state.pending.reverse] :=
      List.splitOn_eq_singleton (by simpa using h)
    rw [List.append_nil, hsplit]
    constructor
    · intro hstate
      cases hstate
      exact ⟨[], rfl, rfl⟩
    · rintro ⟨closed, hclosed, hformula⟩
      obtain ⟨rfl, hpending⟩ := List.append_inj' ((List.nil_append _).trans hclosed) rfl
      rw [List.cons.injEq, List.reverse_inj] at hpending
      cases state
      cases t
      cases hformula
      cases hpending.1
      rfl
  | cons n ints ih =>
    by_cases hn : n = 0
    · subst hn
      rw [List.splitOn_append_cons_self_of_not_mem (by simpa using h)]
      have hrest : ∀ f, ints.foldlM Progress.take? { formula := f } = some t ↔ _ := fun f =>
        ih { formula := f } (by simp)
      constructor
      · intro htaken
        obtain ⟨mid, hmid, htaken⟩ := Option.bind_eq_some_iff.1 htaken
        rw [Progress.take?, if_pos rfl] at hmid
        obtain ⟨f, hf, rfl⟩ := Option.map_eq_some_iff.1 hmid
        obtain ⟨closed, hclosed, hformula⟩ := (hrest f).1 htaken
        refine ⟨state.pending.reverse :: closed, congrArg _ hclosed, ?_⟩
        exact Option.bind_eq_some_iff.2 ⟨f, hf, hformula⟩
      · rintro ⟨closed, hclosed, hformula⟩
        cases closed with
        | nil => exact absurd (List.cons.inj hclosed).2 (List.splitOn_ne_nil 0 ints)
        | cons c closed =>
          obtain ⟨rfl, hlater⟩ := List.cons.inj hclosed
          obtain ⟨f, hf, hformula⟩ := Option.bind_eq_some_iff.1 hformula
          refine Option.bind_eq_some_iff.2 ⟨{ formula := f }, ?_, (hrest f).2 ⟨closed, hlater, hformula⟩⟩
          rw [Progress.take?, if_pos rfl, hf]
          rfl
    · have hpush : (n :: state.pending).reverse ++ ints = state.pending.reverse ++ n :: ints := by simp
      have hkeep : 0 ∉ n :: state.pending := by simp [h, Ne.symm hn]
      rw [List.foldlM_cons, Progress.take?, if_neg hn, Option.bind_eq_bind, Option.bind_some,
        ih { state with pending := n :: state.pending } hkeep, hpush]

/-- The formula with the clause that is pending, if there is one. -/
def Progress.ended? (state : Progress) : Option Formula :=
  if state.pending = [] then some state.formula
  else state.formula.extended? state.pending.reverse

/-- Integers taken over from the first one on are the clauses that they are cut into. -/
theorem exists_ended? {start : Formula} :
    (∃ t, ints.foldlM Progress.take? { formula := start } = some t ∧ t.ended? = some f) ↔
      ∃ clauses, CutAtZeros ints clauses ∧ clauses.foldlM Formula.extended? start = some f := by
  simp only [foldlM_take? { formula := start } (by simp), List.reverse_nil, List.nil_append]
  constructor
  · rintro ⟨t, ⟨closed, hsplit, hclosed⟩, hended⟩
    refine ⟨_, ⟨closed, t.pending.reverse, hsplit, rfl⟩, ?_⟩
    unfold Progress.ended? at hended
    split at hended
    · rename_i hpending
      rw [if_pos (by simpa using hpending), hclosed, hended]
    · rename_i hpending
      rw [if_neg (by simpa using hpending), List.foldlM_append, hclosed]
      simpa using hended
  · rintro ⟨_, ⟨closed, rest, hsplit, rfl⟩, hadded⟩
    split at hadded
    · rename_i hrest
      exact ⟨{ formula := f }, ⟨closed, by simpa [hrest] using hsplit, hadded⟩, rfl⟩
    · rename_i hrest
      rw [List.foldlM_append] at hadded
      obtain ⟨mid, hclosed, hlast⟩ := Option.bind_eq_some_iff.1 hadded
      refine ⟨{ formula := mid, pending := rest.reverse }, ⟨closed, by simpa using hsplit, hclosed⟩, ?_⟩
      rw [Progress.ended?, if_neg (by simpa using hrest), List.reverse_reverse]
      simpa using hlast

/-! ### The lines -/

theorem exists_readBody : (∃ last, readBody read ls state = .ok (t, last)) ↔
    ∃ ints, Body ls ints ∧ ints.foldlM Progress.take? state = some t := by
  induction ls generalizing read state with
  | nil =>
    constructor
    · rintro ⟨last, h⟩
      cases h
      exact ⟨[], .nil, rfl⟩
    · rintro ⟨ints, ⟨⟩, h⟩
      cases h
      exact ⟨read, rfl⟩
  | cons line ls ih =>
    unfold readBody
    cases htext : Utf8.strict? line with
    | none =>
      refine iff_of_false (by simp) ?_
      rintro ⟨ints, hbody, -⟩
      rcases body_cons_iff.1 hbody with ⟨h, -⟩ | ⟨first, -, h, -, -⟩ <;>
      · obtain ⟨text, hread⟩ := h.readable
        exact absurd (htext.symm.trans hread) (by simp)
    | some text =>
      simp only [head?_trimStart, body_cons_iff, ends_iff htext, entry_iff htext, words_eq_tokens]
      -- The first character decides what the line is: the end, a comment, an announcement or words.
      split
      · rename_i hend
        simp [hend]
      · rename_i hc
        simp [hc, ih]
      · rename_i hp
        simp [hp]
      · rename_i hend hc hp
        constructor
        · rintro ⟨last, h⟩
          split at h
          · rename_i mid hmid
            obtain ⟨first, hfirst, htaken⟩ := readWords_eq_ok.1 hmid
            obtain ⟨more, hbody, hmore⟩ := ih.1 ⟨last, h⟩
            refine ⟨first ++ more, .inr ⟨first, more, .inr ⟨hc, hp, hend, hfirst⟩, hbody, rfl⟩, ?_⟩
            rw [List.foldlM_append, htaken]
            exact hmore
          · exact absurd h (by simp)
        · rintro ⟨_, ⟨h, -⟩ | ⟨first, more, ⟨h, -⟩ | ⟨-, -, -, hfirst⟩, hbody, rfl⟩, htaken⟩
          · exact absurd h hend
          · exact absurd h hc
          · rw [List.foldlM_append] at htaken
            obtain ⟨mid, hmid, hmore⟩ := Option.bind_eq_some_iff.1 htaken
            rw [readWords_eq_ok.2 ⟨first, hfirst, hmid⟩]
            exact ih.2 ⟨more, hbody, hmore⟩

/-- The steps of the reading: what is pending after the last line is ended, and the clauses are counted. -/
theorem read_eq_ok_iff_steps : Dimacs.read bytes = .ok f ↔ ∃ d number rest state last,
    findProblem 0 (lines bytes) = .ok (d, number, rest) ∧
    readBody number rest { formula := .ofDeclaration d } = .ok (state, last) ∧
    state.ended? = some f ∧ f.clauseCount = d.clauses := by
  have hcount : ∀ {d : Declaration} (final : Progress),
      (if final.formula.clauseCount = d.clauses then pure final.formula
        else throw (.clauseCount d.clauses final.formula.clauseCount) : Except ReadError Formula) =
          .ok f ↔ final.formula = f ∧ f.clauseCount = d.clauses := by
    intro d final
    split
    · rename_i h
      rw [Fault.pure_eq_ok]
      exact ⟨fun hf => ⟨hf, hf ▸ h⟩, And.left⟩
    · rename_i h
      refine iff_of_false (by simp [throw, throwThe, MonadExceptOf.throw]) ?_
      rintro ⟨rfl, hf⟩
      exact h hf
  constructor
  · intro h
    obtain ⟨⟨d, number, rest⟩, hproblem, h⟩ := Fault.bind_eq_ok.1 h
    obtain ⟨⟨state, last⟩, hbody, h⟩ := Fault.bind_eq_ok.1 h
    refine ⟨d, number, rest, state, last, hproblem, hbody, ?_⟩
    dsimp only at h
    split at h
    · rename_i hpending
      obtain ⟨hf, hclauses⟩ := (hcount state).1 h
      refine ⟨?_, hclauses⟩
      rw [Progress.ended?, if_pos (List.isEmpty_iff.1 hpending), hf]
    · rename_i hpending
      obtain ⟨final, hclose, h⟩ := Fault.bind_eq_ok.1 h
      obtain ⟨hf, hclauses⟩ := (hcount final).1 h
      obtain ⟨g, hg, rfl⟩ := close_eq_ok.1 hclose
      refine ⟨?_, hclauses⟩
      rw [Progress.ended?, if_neg fun hnil => hpending (List.isEmpty_iff.2 hnil), hg]
      exact congrArg some hf
  · rintro ⟨d, number, rest, state, last, hproblem, hbody, hended, hclauses⟩
    refine Fault.bind_eq_ok.2 ⟨(d, number, rest), hproblem, ?_⟩
    refine Fault.bind_eq_ok.2 ⟨(state, last), hbody, ?_⟩
    dsimp only
    unfold Progress.ended? at hended
    split at hended
    · rename_i hpending
      rw [if_pos (List.isEmpty_iff.2 hpending)]
      exact (hcount state).2 ⟨Option.some.inj hended, hclauses⟩
    · rename_i hpending
      rw [if_neg fun hnil => hpending (List.isEmpty_iff.1 hnil)]
      refine Fault.bind_eq_ok.2 ⟨{ formula := f }, close_eq_ok.2 ⟨f, hended, rfl⟩, ?_⟩
      exact (hcount { formula := f }).2 ⟨rfl, hclauses⟩

/-- What is read is determined by the layout of the lines: its clauses are added under its declaration. -/
theorem read_eq_ok : Dimacs.read bytes = .ok f ↔ ∃ d clauses, Layout (lines bytes) d clauses ∧
    clauses.foldlM Formula.extended? (.ofDeclaration d) = some f ∧ f.clauseCount = d.clauses := by
  rw [read_eq_ok_iff_steps]
  constructor
  · rintro ⟨d, number, rest, state, last, hproblem, hbody, hended, hcount⟩
    obtain ⟨before, problem, hlines, hbefore, hproblem⟩ := exists_findProblem.1 ⟨number, hproblem⟩
    obtain ⟨ints, hbody, htaken⟩ := exists_readBody.1 ⟨last, hbody⟩
    obtain ⟨clauses, hclauses, hadded⟩ := exists_ended?.1 ⟨state, htaken, hended⟩
    exact ⟨d, clauses, ⟨before, problem, rest, ints, hlines, hbefore, hproblem, hbody, hclauses⟩, hadded,
      hcount⟩
  · rintro ⟨d, clauses, ⟨before, problem, rest, ints, hlines, hbefore, hproblem, hbody, hclauses⟩, hadded,
      hcount⟩
    obtain ⟨number, hproblem⟩ := exists_findProblem.2 ⟨before, problem, hlines, hbefore, hproblem⟩
    obtain ⟨state, htaken, hended⟩ := exists_ended?.2 ⟨clauses, hclauses, hadded⟩
    obtain ⟨last, hbody⟩ := exists_readBody.2 ⟨ints, hbody, htaken⟩
    exact ⟨d, number, rest, state, last, hproblem, hbody, hended, hcount⟩

theorem zero_notMem_of_mem_splitOn {c : List Int} (h : c ∈ ints.splitOn 0) : 0 ∉ c := by
  induction ints generalizing c with
  | nil =>
    rw [List.splitOn_nil, List.mem_singleton] at h
    simp [h]
  | cons n ints ih =>
    obtain ⟨first, rest, hsplit⟩ := List.exists_cons_of_ne_nil (List.splitOn_ne_nil 0 ints)
    rw [hsplit] at ih
    rw [List.splitOn_cons_eq_if_modifyHead, hsplit] at h
    split at h
    · rcases List.mem_cons.1 h with rfl | h
      · exact List.not_mem_nil
      · exact ih h
    · rename_i hn
      rcases List.mem_cons.1 h with rfl | h
      · have hzero : 0 ≠ n := fun heq => hn (by simp [heq])
        exact List.not_mem_cons_of_ne_of_not_mem hzero (ih List.mem_cons_self)
      · exact ih (List.mem_cons_of_mem first h)

theorem zero_notMem_of_cutAtZeros (h : CutAtZeros ints clauses) : ∀ c ∈ clauses, 0 ∉ c := by
  obtain ⟨closed, rest, hsplit, rfl⟩ := h
  intro c hc
  have hmem : c ∈ ints.splitOn 0 := by
    rw [hsplit]
    split at hc
    · exact List.mem_append_left _ hc
    · exact hc
  exact zero_notMem_of_mem_splitOn hmem

theorem layout_splitOn : Layout (bytes.splitOn 10) d clauses ↔ Layout (lines bytes) d clauses := by
  rcases splitOn_eq_lines bytes with h | h
  · rw [h]
  · rw [h, layout_append_nil]

theorem Layout.variables_le (h : Layout ls d clauses) : d.variables ≤ greatestVariable := by
  obtain ⟨before, problem, body, ints, -, -, hproblem, -⟩ := h
  obtain ⟨details, first, second, more, -, -, hvariables, -⟩ := hproblem.counts
  exact nat?_le hvariables

theorem Layout.zero_notMem (h : Layout ls d clauses) : ∀ c ∈ clauses, 0 ∉ c := by
  obtain ⟨before, problem, body, ints, -, -, -, -, hclauses⟩ := h
  exact zero_notMem_of_cutAtZeros hclauses

/-- What is read has the form, and holds the clauses of the form under its declaration. -/
theorem form_of_read (h : Dimacs.read bytes = .ok f) : ∃ d clauses, Form bytes d clauses ∧
    clauses.length ≤ Formula.clauseLimit ∧ f.declared = some d ∧ f.variableCount = d.variables ∧
    f.clauses.toList.map (List.map Literal.toInt) = clauses := by
  obtain ⟨d, clauses, hlayout, hadded, hcount⟩ := read_eq_ok.1 h
  obtain ⟨hints, hlimit⟩ := (Formula.exists_foldlM_extended? rfl hlayout.variables_le
    (Nat.zero_le _)).1 ⟨f, hadded⟩
  obtain ⟨hdeclared, hclauses⟩ := Formula.contents_of_foldlM hadded
  have hstored := (built_read h).stored
  have hlength : f.clauseCount = clauses.length := Formula.clauseCount_of_foldlM hadded
  refine ⟨d, clauses, ⟨layout_splitOn.2 hlayout, hlength.symm.trans hcount, ?_⟩, ?_, hdeclared,
    (hstored.declared d hdeclared).symm, hclauses⟩
  · exact fun c hc n hn => (hints c hc n hn).2
  · exact Nat.le_trans (Nat.le_add_left _ _) hlimit

theorem Form.exists_read (h : Form bytes d clauses) (hlimit : clauses.length ≤ Formula.clauseLimit) :
    ∃ f, Dimacs.read bytes = .ok f := by
  have hlayout := layout_splitOn.1 h.layout
  have hints : ∀ c ∈ clauses, ∀ n ∈ c, n ≠ 0 ∧ n.natAbs ≤ d.variables := fun c hc n hn =>
    ⟨fun hzero => hlayout.zero_notMem c hc (hzero ▸ hn), h.declared c hc n hn⟩
  obtain ⟨f, hadded⟩ := (Formula.exists_foldlM_extended? (f := .ofDeclaration d) rfl
    hlayout.variables_le (Nat.zero_le _)).2 ⟨hints, (Nat.zero_add _).symm ▸ hlimit⟩
  have hlength := Formula.clauseCount_of_foldlM hadded
  exact ⟨f, read_eq_ok.2 ⟨d, clauses, hlayout, hadded, hlength.trans h.count⟩⟩

/-- Bytes are read exactly if they have the DIMACS form and clause numbers suffice, and the formula read has
the variables and the clauses of the form. -/
theorem read_iff_form (bytes : List UInt8) :
    ((∃ f, Dimacs.read bytes = .ok f) ↔
      ∃ d clauses, Form bytes d clauses ∧ clauses.length ≤ Formula.clauseLimit) ∧
    ∀ f d clauses, Dimacs.read bytes = .ok f → Form bytes d clauses → f.declared = some d ∧
      f.variableCount = d.variables ∧ f.clauses.toList.map (List.map Literal.toInt) = clauses := by
  refine ⟨⟨?_, ?_⟩, fun f d clauses h hform => ?_⟩
  · rintro ⟨f, h⟩
    obtain ⟨d, clauses, hform, hlimit, -⟩ := form_of_read h
    exact ⟨d, clauses, hform, hlimit⟩
  · rintro ⟨d, clauses, hform, hlimit⟩
    exact hform.exists_read hlimit
  · obtain ⟨d', clauses', hform', -, hcontents⟩ := form_of_read h
    obtain ⟨rfl, rfl⟩ := hform.unique hform'
    exact hcontents

theorem read_iff_form_comment_within_clause :
    Form ("p cnf 2 1\n1\nc 3\n-2".toList.map fun c => c.val.toUInt8) ⟨2, 1⟩ [[1, -2]] := by
  have h := read_iff_form ("p cnf 2 1\n1\nc 3\n-2".toList.map fun c => c.val.toUInt8)
  obtain ⟨d, clauses, hform, -⟩ := h.1.1 ⟨_, rfl⟩
  obtain ⟨hd, -, hclauses⟩ := h.2 _ d clauses rfl hform
  cases hd
  cases hclauses
  exact hform

end Dimacs

end ClauseSearch
