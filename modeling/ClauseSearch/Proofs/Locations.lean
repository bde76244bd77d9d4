import ClauseSearch.Proofs.Reading

/-! The line that an error names. The reader goes from line to line and carries the integers since the last
zero with it, without the lines they stand on. An error about a line or a word shows where it is met. A variable
that was not declared shows only where its clause ends, so the error names the line of the zero, or the last
line read where the zero is missing; the integer may stand on an earlier line. -/

namespace ClauseSearch

namespace Formula

variable {f : Formula} {d : Declaration} {c : List Int} {var declared : Nat}

theorem natAbs_le_of_literal {n : Int} {l : Literal} (h : literal (some d) n = .ok l) :
    n.natAbs ≤ d.variables := by
  obtain ⟨hint, hdeclared⟩ := literal_eq_ok h
  obtain ⟨hvar, -, -⟩ := Literal.var_of_ofInt? hint
  have := hdeclared d rfl
  omega

theorem undeclared_of_literal {n : Int}
    (h : literal (some d) n = .error (.undeclaredVariable var declared)) :
    declared = d.variables ∧ n.natAbs = var ∧ d.variables < var := by
  unfold literal at h
  split at h
  · split at h <;> exact absurd h (by simp)
  · rename_i l hint
    obtain ⟨hvar, -, -⟩ := Literal.var_of_ofInt? hint
    dsimp only at h
    split at h
    · rename_i hlt
      cases h
      exact ⟨rfl, hvar.symm, hlt⟩
    · exact absurd h (by simp)

/-- A clause is refused for its first variable beyond those declared. -/
theorem undeclared_of_add (hf : f.declared = some d)
    (h : f.add c = .error (.undeclaredVariable var declared)) : declared = d.variables ∧
      ∃ front k back, c = front ++ k :: back ∧ (∀ n ∈ front, n.natAbs ≤ d.variables) ∧
        k.natAbs = var ∧ d.variables < var := by
  rw [add, hf] at h
  rcases Fault.bind_eq_error.1 h with h | ⟨ls, -, h⟩
  · obtain ⟨front, k, back, rfl, hfront, hk⟩ := Sequence.exists_of_mapM_error h
    obtain ⟨rfl, hvar, hlt⟩ := undeclared_of_literal hk
    refine ⟨rfl, front, k, back, rfl, fun n hn => ?_, hvar, hlt⟩
    obtain ⟨l, hl⟩ := hfront n hn
    exact natAbs_le_of_literal hl
  · split at h <;> exact absurd h (by simp [pure, Except.pure, throw, throwThe, MonadExceptOf.throw])

end Formula

namespace Dimacs

def ReadError.line? : ReadError → Option Nat
  | problemSpecification line | misplacedProblem line | unreadable line | notInteger line _
  | undeclaredVariable line _ _ => some line
  | noFile | missingProblem | clauseCount _ _ | refused _ => none

/-- A line of the body that is no comment, no announcement and no end, with its words. -/
def Worded (line : List UInt8) (words : List (List Char)) : Prop :=
  ∃ text, Utf8.strict? line = some text ∧ leading? text ≠ some 'c' ∧ leading? text ≠ some 'p' ∧
    leading? text ≠ some '%' ∧ tokens text = words

/-- Words read as integers. -/
def Integers (words : List (List Char)) (ints : List Int) : Prop :=
  List.Forall₂ (fun word n => integer? word = some n) words ints

/-- After the line that announces the counts and some lines of the body, all of them comments or integers:
the integers seen, each with the number of its line, the number of lines, and the lines that follow. -/
inductive Passed (ls : List (List UInt8)) (d : Declaration) :
    List (Nat × Int) → Nat → List (List UInt8) → Prop
  | problem {before rest : List (List UInt8)} {line : List UInt8} :
    ls = before ++ line :: rest → (∀ other ∈ before, ¬ Announces other) → Header line d →
    Passed ls d [] (before.length + 1) rest
  | entry {seen : List (Nat × Int)} {number : Nat} {line : List UInt8} {rest : List (List UInt8)}
    {ints : List Int} : Passed ls d seen number (line :: rest) → Entry line ints →
    Passed ls d (seen ++ ints.map fun n => (number + 1, n)) (number + 1) rest

/-- Among integers with the numbers of their lines, the first one beyond the declared variables stands on
line `m`, and no zero follows it. -/
def Undeclared (d : Declaration) (seen : List (Nat × Int)) (m var : Nat) : Prop :=
  ∃ front k back, seen = front ++ (m, k) :: back ∧ (∀ p ∈ front, p.2.natAbs ≤ d.variables) ∧
    (∀ p ∈ back, p.2 ≠ 0) ∧ k.natAbs = var ∧ d.variables < var

/-- Where the line lies that an error names, and what shows there. -/
inductive Located (ls : List (List UInt8)) : Nat → ReadError → Prop
  /-- The first line that announces counts, and its counts cannot be read. -/
  | problemSpecification {before rest : List (List UInt8)} {line : List UInt8} :
    ls = before ++ line :: rest → (∀ other ∈ before, ¬ Announces other) → Announces line →
    (∀ d, ¬ Header line d) → Located ls (before.length + 1) (.problemSpecification (before.length + 1))
  /-- The first line of the body that is no text. -/
  | unreadable {d : Declaration} {seen : List (Nat × Int)} {number : Nat} {line : List UInt8}
    {rest : List (List UInt8)} : Passed ls d seen number (line :: rest) → Utf8.strict? line = none →
    Located ls (number + 1) (.unreadable (number + 1))
  /-- A line of the body that begins with `p`. -/
  | misplacedProblem {d : Declaration} {seen : List (Nat × Int)} {number : Nat} {line : List UInt8}
    {rest : List (List UInt8)} {text : List Char} : Passed ls d seen number (line :: rest) →
    Utf8.strict? line = some text → leading? text = some 'p' →
    Located ls (number + 1) (.misplacedProblem (number + 1))
  /-- The first word of the body that is no integer. -/
  | notInteger {d : Declaration} {seen : List (Nat × Int)} {number : Nat} {line : List UInt8}
    {rest : List (List UInt8)} {words more : List (List Char)} {word : List Char} {ints : List Int} :
    Passed ls d seen number (line :: rest) → Worded line (words ++ word :: more) → Integers words ints →
    integer? word = none → Located ls (number + 1) (.notInteger (number + 1) word)
  /-- The zero that ends the clause of a variable that was not declared. -/
  | closed {d : Declaration} {seen : List (Nat × Int)} {number m var : Nat} {line : List UInt8}
    {rest : List (List UInt8)} {words more : List (List Char)} {word : List Char} {ints : List Int} :
    Passed ls d seen number (line :: rest) → Worded line (words ++ word :: more) → Integers words ints →
    integer? word = some 0 → Undeclared d (seen ++ ints.map fun n => (number + 1, n)) m var →
    Located ls (number + 1) (.undeclaredVariable (number + 1) var d.variables)
  /-- The last line read, where that clause has no zero: the last of all, or the one that ends the formula. -/
  | unclosed {d : Declaration} {seen : List (Nat × Int)} {number m var last : Nat}
    {rest : List (List UInt8)} : Passed ls d seen number rest →
    (rest = [] ∧ last = number ∨ ∃ line more, rest = line :: more ∧ Ends line ∧ last = number + 1) →
    Undeclared d seen m var → Located ls last (.undeclaredVariable last var d.variables)

/-- Among the words of the line there is an integer of the magnitude. -/
def Mentions (ls : List (List UInt8)) (number var : Nat) : Prop :=
  0 < number ∧ ∃ line words word n, ls[number - 1]? = some line ∧ Worded line words ∧ word ∈ words ∧
    integer? word = some n ∧ n.natAbs = var

/-- No clause goes on from one line of the body to the next. -/
def Unspread (ls : List (List UInt8)) : Prop :=
  ∀ d seen number rest, Passed ls d seen number rest → ∀ p ∈ seen.getLast?, p.2 = 0

variable {bytes line : List UInt8} {ls rest : List (List UInt8)} {d : Declaration} {ints done : List Int}
  {seen : List (Nat × Int)} {state s t : Progress} {e : ReadError} {number read last m var n : Nat}
  {words : List (List Char)} {text : List Char}

/-! ### The announcement -/

theorem number_of_findProblem (h : findProblem read ls = .ok (d, number, rest)) :
    ∃ before problem, ls = before ++ problem :: rest ∧ (∀ line ∈ before, ¬ Announces line) ∧
      Header problem d ∧ number = read + before.length + 1 := by
  have hcount : number + rest.length = read + ls.length := by
    induction ls generalizing read with
    | nil => exact absurd h (by simp [findProblem])
    | cons line ls ih =>
      rw [findProblem] at h
      split at h
      · have := ih h
        simp only [List.length_cons]
        omega
      · split at h
        · exact absurd h (by simp)
        · cases h
          simp only [List.length_cons]
          omega
  obtain ⟨before, problem, rfl, hbefore, hproblem⟩ := exists_findProblem.1 ⟨number, h⟩
  refine ⟨before, problem, rfl, hbefore, hproblem, ?_⟩
  rw [List.length_append, List.length_cons] at hcount
  omega

theorem findProblem_eq_error (h : findProblem read ls = .error e) : e = .missingProblem ∨
    ∃ before line rest, ls = before ++ line :: rest ∧ (∀ other ∈ before, ¬ Announces other) ∧
      Announces line ∧ (∀ d, ¬ Header line d) ∧ e = .problemSpecification (read + before.length + 1) := by
  induction ls generalizing read with
  | nil =>
    cases h
    exact .inl rfl
  | cons line ls ih =>
    rw [findProblem] at h
    split at h
    · rename_i hskip
      rcases ih h with rfl | ⟨before, problem, rest, rfl, hbefore, hline, hcounts, rfl⟩
      · exact .inl rfl
      · refine .inr ⟨line :: before, problem, rest, rfl, ?_, hline, hcounts, ?_⟩
        · exact List.forall_mem_cons.2 ⟨announcement?_eq_none.1 hskip, hbefore⟩
        · rw [List.length_cons, Nat.add_right_comm read, Nat.add_assoc read]
    · rename_i details hdetails
      obtain ⟨hannounces, hfollows⟩ := announcement?_eq_some.1 hdetails
      split at h
      · rename_i hnone
        cases h
        refine .inr ⟨[], line, ls, rfl, by simp, hannounces, fun d hheader => ?_, rfl⟩
        obtain ⟨details', first, second, more, hfollows', hcounts⟩ := hheader.counts
        have hdetails : details = details' := Option.some.inj
          ((afterMark?_eq_some.2 hfollows).symm.trans (afterMark?_eq_some.2 hfollows'))
        subst hdetails
        exact absurd (declaration?_eq_some.2 ⟨first, second, more, hcounts⟩) (by simp [hnone])
      · exact absurd h (by simp)

/-! ### The lines passed -/

theorem worded_of (htext : Utf8.strict? line = some text) (hc : leading? text ≠ some 'c')
    (hp : leading? text ≠ some 'p') (hend : leading? text ≠ some '%') : Worded line (tokens text) :=
  ⟨text, htext, hc, hp, hend, rfl⟩

theorem Integers.exists_word (h : Integers words ints) {k : Int} (hk : k ∈ ints) :
    ∃ word ∈ words, integer? word = some k := by
  obtain ⟨i, hi, rfl⟩ := List.getElem_of_mem hk
  have hlength := h.length_eq
  exact ⟨words[i], List.getElem_mem _, h.get (by omega) hi⟩

theorem Passed.variables_le (h : Passed ls d seen number rest) : d.variables ≤ greatestVariable := by
  induction h with
  | problem _ _ hproblem =>
    obtain ⟨details, first, second, more, -, -, hvariables, -⟩ := hproblem.counts
    exact nat?_le hvariables
  | entry _ _ ih => exact ih

theorem Passed.drop_eq (h : Passed ls d seen number rest) : ls.drop number = rest := by
  induction h with
  | problem hls => rw [hls, List.drop_append]; simp
  | entry _ _ ih => rw [← List.drop_drop, ih, List.drop_one, List.tail_cons]

theorem Passed.getElem? (h : Passed ls d seen number (line :: rest)) : ls[number]? = some line := by
  rw [← List.head?_drop, h.drop_eq, List.head?_cons]

theorem Passed.mentions_next (h : Passed ls d seen number (line :: rest)) {more : List (List Char)}
    (hline : Worded line (words ++ more)) (hints : Integers words ints) {k : Int} (hk : k ∈ ints) :
    Mentions ls (number + 1) k.natAbs := by
  obtain ⟨word, hword, hint⟩ := hints.exists_word hk
  exact ⟨Nat.succ_pos _, line, _, word, k, h.getElem?, hline, List.mem_append_left _ hword, hint, rfl⟩

/-- Each integer seen stands on the line it is numbered with. -/
theorem Passed.mentions (h : Passed ls d seen number rest) :
    ∀ p ∈ seen, p.1 ≤ number ∧ Mentions ls p.1 p.2.natAbs := by
  induction h with
  | problem => simp
  | entry h hline ih =>
    intro p hp
    rcases List.mem_append.1 hp with hp | hp
    · obtain ⟨hle, hmentions⟩ := ih p hp
      exact ⟨Nat.le_succ_of_le hle, hmentions⟩
    · obtain ⟨k, hk, rfl⟩ := List.mem_map.1 hp
      obtain ⟨text, htext⟩ := hline.readable
      rcases (entry_iff htext).1 hline with ⟨-, rfl⟩ | ⟨hc, hlead, hend, hints⟩
      · exact absurd hk List.not_mem_nil
      · have hworded := worded_of htext hc hlead hend
        rw [← List.append_nil (tokens text)] at hworded
        exact ⟨Nat.le_refl _, h.mentions_next hworded hints hk⟩

/-- Where each line of integers ends with a zero, no clause goes on to the next line. -/
theorem unspread_of_lines (h : ∀ line ∈ ls, ∀ ints, Entry line ints → ∀ n ∈ ints.getLast?, n = 0) :
    Unspread ls := by
  intro d seen number rest hp
  induction hp with
  | problem => simp
  | @entry seen number line rest ints hp hline ih =>
    have hmem : line ∈ ls := List.mem_of_getElem? hp.getElem?
    rw [List.getLast?_append, List.getLast?_map]
    cases hlast : ints.getLast? with
    | none => exact ih
    | some n =>
      intro p hp
      cases hp
      exact h line hmem ints hline n hlast

/-! ### The integers since the last zero -/

/-- What was read of a body: clauses of declared variables, and the integers that are pending. -/
structure Carried (d : Declaration) (done : List Int) (s : Progress) : Prop where
  declared : s.formula.declared = some d
  nonzero : 0 ∉ s.pending
  split : ∃ front, done = front ++ s.pending.reverse ∧ ∀ n ∈ front, n.natAbs ≤ d.variables

theorem Carried.take (h : Carried d done s) (hd : d.variables ≤ greatestVariable) {k : Int}
    (hk : s.take? k = some t) : Carried d (done ++ [k]) t := by
  obtain ⟨front, rfl, hfront⟩ := h.split
  unfold Progress.take? at hk
  split at hk
  · rename_i hzero
    subst hzero
    obtain ⟨f, hf, rfl⟩ := Option.map_eq_some_iff.1 hk
    obtain ⟨hints, -⟩ := (Formula.exists_extended? h.declared hd).1 ⟨f, hf⟩
    refine ⟨(Formula.contents_of_extended? hf).1.trans h.declared, by simp,
      front ++ s.pending.reverse ++ [0], by simp, fun n hn => ?_⟩
    rcases List.mem_append.1 hn with hn | hn
    · rcases List.mem_append.1 hn with hn | hn
      · exact hfront n hn
      · exact (hints n hn).2
    · rw [List.mem_singleton.1 hn]
      exact Nat.zero_le _
  · rename_i hzero
    cases hk
    refine ⟨h.declared, ?_, front, by simp, hfront⟩
    simpa [Ne.symm hzero] using h.nonzero

theorem Carried.foldlM (h : Carried d done s) (hd : d.variables ≤ greatestVariable)
    (hints : ints.foldlM Progress.take? s = some t) : Carried d (done ++ ints) t := by
  induction ints generalizing done s with
  | nil =>
    cases hints
    rwa [List.append_nil]
  | cons k ints ih =>
    obtain ⟨mid, hmid, hints⟩ := Option.bind_eq_some_iff.1 hints
    rw [List.append_cons]
    exact ih (h.take hd hmid) hints

/-- The integers seen lead to the state. -/
def Leads (d : Declaration) (seen : List (Nat × Int)) (s : Progress) : Prop :=
  (seen.map Prod.snd).foldlM Progress.take? { formula := .ofDeclaration d } = some s

theorem Leads.carried (h : Leads d seen s) (hd : d.variables ≤ greatestVariable) :
    Carried d (seen.map Prod.snd) s := by
  have hstart : Carried d [] { formula := .ofDeclaration d } := ⟨rfl, by simp, [], rfl, by simp⟩
  exact hstart.foldlM hd h

theorem Leads.append (h : Leads d seen s) (number : Nat)
    (hints : ints.foldlM Progress.take? s = some t) :
    Leads d (seen ++ ints.map fun n => (number, n)) t := by
  have hsnd : (ints.map fun n => (number, n)).map Prod.snd = ints := by
    rw [List.map_map]
    exact List.map_id ints
  rw [Leads, List.map_append, hsnd, List.foldlM_append, h]
  exact hints

/-- A clause that is refused with a line has a variable that was not declared, the first one seen. -/
theorem undeclared_of_close (h : Leads d seen s) (hd : d.variables ≤ greatestVariable)
    (hclose : s.close number = .error e) (hn : e.line? = some n) :
    n = number ∧ ∃ m var, e = .undeclaredVariable number var d.variables ∧ Undeclared d seen m var := by
  obtain ⟨hdeclared, hnonzero, front, hsplit, hfront⟩ := h.carried hd
  unfold Progress.close at hclose
  split at hclose
  · exact absurd hclose (by simp)
  · rename_i var declared hadd
    cases hclose
    obtain ⟨rfl, before, k, back, hpending, hbefore, hvar, hlt⟩ :=
      Formula.undeclared_of_add hdeclared hadd
    rw [hpending, ← List.append_assoc] at hsplit
    obtain ⟨seen₁, tail, rfl, hseen₁, htail⟩ := List.map_eq_append_iff.1 hsplit
    obtain ⟨⟨m, _⟩, seen₂, rfl, rfl, hseen₂⟩ := List.map_eq_cons_iff.1 htail
    refine ⟨(Option.some.inj hn).symm, m, var, rfl, seen₁, _, seen₂, rfl, fun p hp => ?_, fun p hp => ?_,
      hvar, hlt⟩
    · have hmem : p.2 ∈ front ++ before := hseen₁ ▸ List.mem_map_of_mem hp
      rcases List.mem_append.1 hmem with hmem | hmem
      · exact hfront _ hmem
      · exact hbefore _ hmem
    · have hmem : p.2 ∈ s.pending.reverse := by
        rw [hpending, ← hseen₂]
        exact List.mem_append_right _ (List.mem_cons_of_mem _ (List.mem_map_of_mem hp))
      intro hzero
      rw [hzero, List.mem_reverse] at hmem
      exact hnonzero hmem
  · cases hclose
    exact absurd hn (by simp [ReadError.line?])

/-! ### Errors in the body -/

/-- Words are read up to the first that is no integer, or up to a zero whose clause is refused. -/
def Stuck (number : Nat) (words : List (List Char)) (s : Progress) (e : ReadError) : Prop :=
  ∃ front word back ints mid, words = front ++ word :: back ∧ Integers front ints ∧
    ints.foldlM Progress.take? s = some mid ∧
    (integer? word = none ∧ e = .notInteger number word ∨
      integer? word = some 0 ∧ mid.close number = .error e)

/-- A word that is taken over joins those in front of the word at fault. -/
theorem Stuck.cons {word : List Char} {k : Int} (h : Stuck number words t e)
    (hword : integer? word = some k) (hk : s.take? k = some t) : Stuck number (word :: words) s e := by
  obtain ⟨front, word', back, ints, mid, rfl, hfront, hints, hlast⟩ := h
  exact ⟨word :: front, word', back, k :: ints, mid, rfl, .cons hword hfront,
    Option.bind_eq_some_iff.2 ⟨t, hk, hints⟩, hlast⟩

theorem stuck_of_readWords (h : readWords number words s = .error e) : Stuck number words s e := by
  induction words generalizing s with
  | nil => exact absurd h (by simp [readWords])
  | cons word words ih =>
    rw [readWords] at h
    split at h
    · rename_i hnone
      cases h
      exact ⟨[], word, words, [], s, rfl, .nil, rfl, .inl ⟨hnone, rfl⟩⟩
    · rename_i k hk
      split at h
      · rename_i hzero
        subst hzero
        split at h
        · rename_i mid hmid
          exact (ih h).cons hk ((take?_zero number).2 hmid)
        · rename_i hclose
          cases h
          exact ⟨[], word, words, [], s, rfl, .nil, rfl, .inr ⟨hk, hclose⟩⟩
      · rename_i hzero
        exact (ih h).cons hk (by rw [Progress.take?, if_neg hzero])

/-- An error of the body that names a line shows on it. -/
theorem located_of_readBody (hp : Passed ls d seen number rest) (hs : Leads d seen s)
    (h : readBody number rest s = .error e) (hn : e.line? = some n) : Located ls n e := by
  induction rest generalizing seen number s with
  | nil => exact absurd h (by simp [readBody])
  | cons line rest ih =>
    rw [readBody] at h
    split at h
    · rename_i hnone
      cases h
      cases hn
      exact .unreadable hp hnone
    · rename_i text htext
      rw [head?_trimStart] at h
      split at h
      · exact absurd h (by simp)
      · rename_i hc
        refine ih (hp.entry ((entry_iff htext).2 (.inl ⟨hc, rfl⟩))) ?_ h
        rwa [List.map_nil, List.append_nil]
      · rename_i hlead
        cases h
        cases hn
        exact .misplacedProblem hp htext hlead
      · rename_i hend hc hlead
        have hworded := worded_of htext hc hlead hend
        rw [words_eq_tokens] at h
        split at h
        · rename_i mid hmid
          obtain ⟨ints, hints, htaken⟩ := readWords_eq_ok.1 hmid
          exact ih (hp.entry ((entry_iff htext).2 (.inr ⟨hc, hlead, hend, hints⟩)))
            (hs.append (number + 1) htaken) h
        · rename_i herror
          cases h
          obtain ⟨front, word, back, ints, mid, hwords, hfront, htaken, hlast⟩ :=
            stuck_of_readWords herror
          rcases hlast with ⟨hword, rfl⟩ | ⟨hword, hclose⟩
          · cases hn
            exact .notInteger hp (hwords ▸ hworded) hfront hword
          · obtain ⟨rfl, m, var, rfl, hundeclared⟩ :=
              undeclared_of_close (hs.append (number + 1) htaken) hp.variables_le hclose hn
            exact .closed hp (hwords ▸ hworded) hfront hword hundeclared

theorem passed_of_readBody (hp : Passed ls d seen number rest) (hs : Leads d seen s)
    (h : readBody number rest s = .ok (t, last)) : ∃ seen number rest, Passed ls d seen number rest ∧
      Leads d seen t ∧
      (rest = [] ∧ last = number ∨ ∃ line more, rest = line :: more ∧ Ends line ∧ last = number + 1) := by
  induction rest generalizing seen number s with
  | nil =>
    cases h
    exact ⟨seen, _, [], hp, hs, .inl ⟨rfl, rfl⟩⟩
  | cons line rest ih =>
    rw [readBody] at h
    split at h
    · exact absurd h (by simp)
    · rename_i text htext
      rw [head?_trimStart] at h
      split at h
      · rename_i hend
        cases h
        exact ⟨seen, number, _, hp, hs, .inr ⟨line, rest, rfl, (ends_iff htext).2 hend, rfl⟩⟩
      · rename_i hc
        refine ih (hp.entry ((entry_iff htext).2 (.inl ⟨hc, rfl⟩))) ?_ h
        rwa [List.map_nil, List.append_nil]
      · exact absurd h (by simp)
      · rename_i hend hc hlead
        rw [words_eq_tokens] at h
        split at h
        · rename_i mid hmid
          obtain ⟨ints, hints, htaken⟩ := readWords_eq_ok.1 hmid
          exact ih (hp.entry ((entry_iff htext).2 (.inr ⟨hc, hlead, hend, hints⟩)))
            (hs.append (number + 1) htaken) h
        · exact absurd h (by simp)

/-! ### Errors of the whole -/

theorem located_of_read (h : Dimacs.read bytes = .error e) (hn : e.line? = some n) :
    Located (lines bytes) n e := by
  rcases Fault.bind_eq_error.1 h with h | ⟨⟨d, number, rest⟩, hproblem, h⟩
  · rcases findProblem_eq_error h with rfl | ⟨before, line, rest, hls, hbefore, hline, hcounts, rfl⟩
    · exact absurd hn (by simp [ReadError.line?])
    · rw [Nat.zero_add] at hn ⊢
      cases hn
      exact .problemSpecification hls hbefore hline hcounts
  · obtain ⟨before, problem, hls, hbefore, hheader, rfl⟩ := number_of_findProblem hproblem
    rw [Nat.zero_add] at h
    have hp : Passed (lines bytes) d [] (before.length + 1) rest := .problem hls hbefore hheader
    have hs : Leads d [] { formula := .ofDeclaration d } := rfl
    have not_counted : ∀ final : Progress,
        (if final.formula.clauseCount = d.clauses then pure final.formula
          else throw (.clauseCount d.clauses final.formula.clauseCount) : Except ReadError Formula) ≠
            .error e := by
      intro final hcount
      split at hcount
      · exact absurd hcount (by simp [pure, Except.pure])
      · cases hcount
        exact absurd hn (by simp [ReadError.line?])
    rcases Fault.bind_eq_error.1 h with h | ⟨⟨t, last⟩, hbody, h⟩
    · exact located_of_readBody hp hs h hn
    · obtain ⟨seen, number, rest, hp, ht, hlast⟩ := passed_of_readBody hp hs hbody
      dsimp only at h
      split at h
      · exact absurd h (not_counted t)
      · rcases Fault.bind_eq_error.1 h with h | ⟨final, -, h⟩
        · obtain ⟨rfl, m, var, rfl, hundeclared⟩ := undeclared_of_close ht hp.variables_le h hn
          exact .unclosed hp hlast hundeclared
        · exact absurd h (not_counted final)

theorem Undeclared.lt (h : Undeclared d seen m var) : d.variables < var := by
  obtain ⟨-, -, -, -, -, -, -, hlt⟩ := h
  exact hlt

theorem Undeclared.exists_mem (h : Undeclared d seen m var) : ∃ k, (m, k) ∈ seen ∧ k.natAbs = var := by
  obtain ⟨front, k, back, rfl, -, -, hvar, -⟩ := h
  exact ⟨k, by simp, hvar⟩

/-- Where a zero is the last integer before those of a line, the one that is not declared is among these. -/
theorem Undeclared.mem_fresh {fresh : List (Nat × Int)} (h : Undeclared d (seen ++ fresh) m var)
    (hseen : ∀ p ∈ seen.getLast?, p.2 = 0) : ∃ k, (m, k) ∈ fresh ∧ k.natAbs = var := by
  obtain ⟨front, k, back, hsplit, -, hback, hvar, hlt⟩ := h
  rcases List.append_eq_append_iff.1 hsplit with ⟨mid, -, rfl⟩ | ⟨mid, rfl, hmid⟩
  · exact ⟨k, by simp, hvar⟩
  · cases mid with
    | nil =>
      rw [List.nil_append] at hmid
      exact ⟨k, hmid ▸ List.mem_cons_self, hvar⟩
    | cons p mid =>
      obtain ⟨rfl, rfl⟩ := List.cons.inj hmid
      have hlast : ((m, k) :: mid).getLast (List.cons_ne_nil _ _) ∈
          (front ++ (m, k) :: mid).getLast? := by
        rw [Option.mem_def, List.getLast?_append_of_ne_nil _ (List.cons_ne_nil _ _)]
        exact List.getLast?_eq_some_getLast (List.cons_ne_nil _ _)
      have hzero := hseen _ hlast
      rcases List.mem_cons.1 (List.getLast_mem (List.cons_ne_nil (m, k) mid)) with heq | hmem
      · rw [heq] at hzero
        simp only at hzero
        omega
      · exact absurd hzero (hback _ (List.mem_append_left _ hmem))

/-- An error that names a line lies there. A variable beyond those declared stands on that line or before it,
with no zero in between, and on the line itself where no clause goes on from line to line. -/
theorem line_of_error (h : Dimacs.read bytes = .error e) (hn : e.line? = some n) :
    Located (lines bytes) n e ∧ ∀ var declared, e = .undeclaredVariable n var declared →
      declared < var ∧ (∃ m ≤ n, Mentions (lines bytes) m var) ∧
        (Unspread (lines bytes) → Mentions (lines bytes) n var) := by
  have hlocated := located_of_read h hn
  refine ⟨hlocated, fun var declared he => ?_⟩
  subst he
  cases hlocated with
  | @closed d seen number m var _ _ words more word ints hp hline hints _ hundeclared =>
    have hnext : ∀ {m k}, (m, k) ∈ ints.map (fun n => (number + 1, n)) →
        m = number + 1 ∧ Mentions (lines bytes) (number + 1) k.natAbs := by
      intro m k hmem
      obtain ⟨n, hn, heq⟩ := List.mem_map.1 hmem
      cases heq
      exact ⟨rfl, hp.mentions_next hline hints hn⟩
    refine ⟨hundeclared.lt, ?_, fun hunspread => ?_⟩
    · obtain ⟨k, hmem, rfl⟩ := hundeclared.exists_mem
      rcases List.mem_append.1 hmem with hmem | hmem
      · obtain ⟨hle, hmentions⟩ := hp.mentions _ hmem
        exact ⟨m, Nat.le_succ_of_le hle, hmentions⟩
      · obtain ⟨rfl, hmentions⟩ := hnext hmem
        exact ⟨number + 1, Nat.le_refl _, hmentions⟩
    · obtain ⟨k, hmem, rfl⟩ := hundeclared.mem_fresh (hunspread d seen number _ hp)
      exact (hnext hmem).2
  | @unclosed d seen number m var last rest hp hlast hundeclared =>
    refine ⟨hundeclared.lt, ?_, fun hunspread => ?_⟩
    · obtain ⟨k, hmem, rfl⟩ := hundeclared.exists_mem
      obtain ⟨hle, hmentions⟩ := hp.mentions _ hmem
      refine ⟨m, ?_, hmentions⟩
      rcases hlast with ⟨-, rfl⟩ | ⟨-, -, -, -, rfl⟩
      · exact hle
      · exact Nat.le_succ_of_le hle
    · rw [← List.append_nil seen] at hundeclared
      obtain ⟨k, hmem, -⟩ := hundeclared.mem_fresh (hunspread d seen number rest hp)
      exact absurd hmem List.not_mem_nil

theorem line_of_error_two_literals :
    Mentions (lines ("p cnf 2 1\n1 3 0\n".toList.map fun c => c.val.toUInt8)) 2 3 := by
  have hread : Dimacs.read ("p cnf 2 1\n1 3 0\n".toList.map fun c => c.val.toUInt8) =
      .error (.undeclaredVariable 2 3 2) := rfl
  have h := line_of_error hread rfl
  apply (h.2 3 2 rfl).2.2
  apply unspread_of_lines
  have hlines : lines ("p cnf 2 1\n1 3 0\n".toList.map fun c => c.val.toUInt8) =
      ["p cnf 2 1".toList.map fun c => c.val.toUInt8, "1 3 0".toList.map fun c => c.val.toUInt8] := rfl
  rw [hlines]
  intro line hline ints hentry
  rcases List.mem_pair.1 hline with rfl | rfl
  · -- a problem line is no line of integers
    have htext : Utf8.strict? ("p cnf 2 1".toList.map fun c => c.val.toUInt8) = some "p cnf 2 1".toList := rfl
    rcases (entry_iff htext).1 hentry with ⟨hc, -⟩ | ⟨-, hlead, -⟩
    · exact absurd hc (by decide)
    · exact absurd rfl hlead
  · have htext : Utf8.strict? ("1 3 0".toList.map fun c => c.val.toUInt8) = some "1 3 0".toList := rfl
    have hints : Integers (tokens "1 3 0".toList) [1, 3, 0] := .cons rfl (.cons rfl (.cons rfl .nil))
    rw [hentry.unique ((entry_iff htext).2 (.inr ⟨by decide, by decide, by decide, hints⟩))]
    simp

/-- The formula ends on line 3, which the error names, and the variable stands on line 2. -/
theorem line_without_variable : ¬ ∀ bytes n var declared,
    Dimacs.read bytes = .error (.undeclaredVariable n var declared) → Mentions (lines bytes) n var := by
  intro h
  obtain ⟨-, line, words, word, k, hline, ⟨text, htext, -, -, hend, -⟩, -⟩ :=
    h ("p cnf 2 1\n1 3\n%\n".toList.map fun c => c.val.toUInt8) 3 3 2 rfl
  cases hline
  cases htext
  exact hend rfl

end Dimacs

end ClauseSearch
