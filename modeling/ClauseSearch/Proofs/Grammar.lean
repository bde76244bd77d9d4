import ClauseSearch.Dimacs.Reader
import ClauseSearch.Proofs.Encoding
import Mathlib.Data.List.Forall2

/-! The DIMACS form of a formula, stated over whole lines and over the whole sequence of integers. The bytes
are cut at each line feed. The first line that announces the counts divides what is skipped from the body,
the body reaches up to a line that ends the formula or to the end, and the integers of the body, whatever
lines they stand on, are cut at each zero. -/

namespace ClauseSearch.Dimacs

variable {bytes line details : List UInt8} {ls : List (List UInt8)} {text : List Char} {d : Declaration}
  {clauses : List (List Int)} {ints : List Int}

/-! ### The form -/

/-- The nonempty pieces between white space. -/
def tokens (text : List Char) : List (List Char) :=
  (text.splitOnP Blank.isBlank).filter fun piece => !piece.isEmpty

/-- The first character that is no white space. -/
def leading? (text : List Char) : Option Char := text.find? fun c => !Blank.isBlank c

/-- The mark of the announcement stands in the line, and the first byte that is no white space is not `c`. -/
structure Announces (line : List UInt8) : Prop where
  marked : problemMark <:+: line
  unremarked : ∃ b, (line.find? fun b => !Blank.isBlankByte b) = some b ∧ b ≠ 99

/-- The details follow the first place in the line where the mark stands. -/
def FollowsMark (line details : List UInt8) : Prop :=
  ∃ front, line = front ++ (problemMark ++ details) ∧
    ∀ front' details', line = front' ++ (problemMark ++ details') → front.length ≤ front'.length

/-- A line that announces the counts, which are the first two words after the mark. -/
structure Header (line : List UInt8) (d : Declaration) : Prop extends Announces line where
  counts : ∃ details first second more, FollowsMark line details ∧
    tokens (Utf8.lossy details) = first :: second :: more ∧
    Numeral.nat? greatestVariable first = some d.variables ∧
    Numeral.nat? greatestCount second = some d.clauses

/-- A line of the body with the integers in it: a comment, or words that are integers. -/
inductive Entry : List UInt8 → List Int → Prop
  | comment {text : List Char} (hc : leading? text = some 'c') :
    Entry (text.flatMap String.utf8EncodeChar) []
  | words {text : List Char} {ints : List Int} (hc : leading? text ≠ some 'c')
      (hp : leading? text ≠ some 'p') (hend : leading? text ≠ some '%')
      (hints : List.Forall₂ (fun word n => integer? word = some n) (tokens text) ints) :
    Entry (text.flatMap String.utf8EncodeChar) ints

/-- A line that ends the formula. -/
inductive Ends : List UInt8 → Prop
  | mark {text : List Char} (h : leading? text = some '%') : Ends (text.flatMap String.utf8EncodeChar)

/-- The clauses are the integers between zeros, and those after the last zero if there are any. -/
def CutAtZeros (ints : List Int) (clauses : List (List Int)) : Prop :=
  ∃ closed rest, ints.splitOn 0 = closed ++ [rest] ∧
    clauses = if rest = [] then closed else closed ++ [rest]

/-- The integers on the lines up to one that ends the formula, or on all of them. -/
inductive Body : List (List UInt8) → List Int → Prop
  | nil : Body [] []
  | ends {line : List UInt8} {rest : List (List UInt8)} (h : Ends line) : Body (line :: rest) []
  | entry {line : List UInt8} {rest : List (List UInt8)} {ints more : List Int} (h : Entry line ints)
      (hrest : Body rest more) : Body (line :: rest) (ints ++ more)

/-- Lines with the counts that they announce and the clauses that follow. -/
def Layout (ls : List (List UInt8)) (d : Declaration) (clauses : List (List Int)) : Prop :=
  ∃ before problem body ints, ls = before ++ problem :: body ∧
    (∀ line ∈ before, ¬ Announces line) ∧ Header problem d ∧ Body body ints ∧ CutAtZeros ints clauses

/-- Bytes that hold clauses under a declaration which agrees with them. -/
structure Form (bytes : List UInt8) (d : Declaration) (clauses : List (List Int)) : Prop where
  layout : Layout (bytes.splitOn 10) d clauses
  count : clauses.length = d.clauses
  declared : ∀ c ∈ clauses, ∀ n ∈ c, n.natAbs ≤ d.variables

/-! ### Pieces of text -/

theorem words_eq_tokens (text : List Char) : Blank.words text = tokens text := by
  have hpieces : Blank.pieces text = text.splitOnP Blank.isBlank := by
    induction text with
    | nil => rfl
    | cons c text ih =>
      change Blank.consPiece c (Blank.pieces text) = _
      rw [ih, List.splitOnP_cons_eq_if_modifyHead]
      obtain ⟨piece, rest, h⟩ := List.exists_cons_of_ne_nil (List.splitOnP_ne_nil Blank.isBlank text)
      rw [h]
      rfl
  rw [Blank.words, hpieces, tokens]

theorem head?_trimStart (text : List Char) : (Blank.trimStart text).head? = leading? text := by
  induction text with
  | nil => rfl
  | cons c text ih =>
    unfold Blank.trimStart leading? at ih ⊢
    rw [List.dropWhile_cons, List.find?_cons]
    cases Blank.isBlank c with
    | true => exact ih
    | false => rfl

/-- Where the bytes end in a line feed, cutting at line feeds gives one more line than there is. -/
theorem splitOn_eq_lines (bytes : List UInt8) :
    bytes.splitOn 10 = lines bytes ∨ bytes.splitOn 10 = lines bytes ++ [[]] := by
  induction bytes with
  | nil => exact .inr rfl
  | cons b bytes ih =>
    change _ = consLine b (lines bytes) ∨ _ = consLine b (lines bytes) ++ [[]]
    rw [List.splitOn_cons_eq_if_modifyHead]
    cases hlines : lines bytes with
    | nil =>
      rw [hlines] at ih
      have hsplit : bytes.splitOn 10 = [[]] := ih.resolve_left (List.splitOn_ne_nil 10 bytes)
      rw [hsplit]
      by_cases hb : b = 10
      · exact .inr (by simp [hb, consLine])
      · exact .inl (by simp [hb, consLine])
    | cons line rest =>
      rw [hlines] at ih
      rcases ih with h | h
      · refine .inl ?_
        rw [h]
        by_cases hb : b = 10 <;> simp [hb, consLine]
      · refine .inr ?_
        rw [h]
        by_cases hb : b = 10 <;> simp [hb, consLine]

/-! ### The lines of the body -/

theorem Entry.readable (h : Entry line ints) : ∃ text, Utf8.strict? line = some text := by
  cases h with
  | comment | words => exact ⟨_, Utf8.strict?_eq_some.2 rfl⟩

theorem Ends.readable (h : Ends line) : ∃ text, Utf8.strict? line = some text := by
  cases h with
  | mark => exact ⟨_, Utf8.strict?_eq_some.2 rfl⟩

theorem ends_iff (htext : Utf8.strict? line = some text) : Ends line ↔ leading? text = some '%' := by
  constructor
  · rintro ⟨h⟩
    rw [Utf8.strict?_eq_some.2 rfl, Option.some.injEq] at htext
    rwa [← htext]
  · intro h
    rw [← Utf8.strict?_eq_some.1 htext]
    exact .mark h

theorem entry_iff (htext : Utf8.strict? line = some text) : Entry line ints ↔
    (leading? text = some 'c' ∧ ints = []) ∨
    (leading? text ≠ some 'c' ∧ leading? text ≠ some 'p' ∧ leading? text ≠ some '%' ∧
      List.Forall₂ (fun word n => integer? word = some n) (tokens text) ints) := by
  constructor
  · intro h
    cases h with
    | comment hc =>
      rw [Utf8.strict?_eq_some.2 rfl, Option.some.injEq] at htext
      exact .inl ⟨htext ▸ hc, rfl⟩
    | words hc hp hend hints =>
      rw [Utf8.strict?_eq_some.2 rfl, Option.some.injEq] at htext
      exact htext ▸ .inr ⟨hc, hp, hend, hints⟩
  · rw [← Utf8.strict?_eq_some.1 htext]
    rintro (⟨hc, rfl⟩ | ⟨hc, hp, hend, hints⟩)
    · exact .comment hc
    · exact .words hc hp hend hints

theorem body_cons_iff : Body (line :: ls) ints ↔ (Ends line ∧ ints = []) ∨
    ∃ first more, Entry line first ∧ Body ls more ∧ ints = first ++ more := by
  constructor
  · intro h
    cases h with
    | ends h => exact .inl ⟨h, rfl⟩
    | entry h hrest => exact .inr ⟨_, _, h, hrest, rfl⟩
  · rintro (⟨h, rfl⟩ | ⟨first, more, h, hrest, rfl⟩)
    · exact .ends h
    · exact .entry h hrest

theorem not_announces_nil : ¬ Announces [] := fun h => absurd (List.infix_nil.1 h.marked) (by decide)

theorem body_singleton_nil : Body [[]] ints ↔ ints = [] := by
  have htext : Utf8.strict? [] = some [] := rfl
  rw [body_cons_iff, ends_iff htext]
  constructor
  · rintro (⟨-, h⟩ | ⟨first, more, hentry, ⟨⟩, rfl⟩)
    · exact h
    · rcases (entry_iff htext).1 hentry with ⟨h, -⟩ | ⟨-, -, -, ⟨⟩⟩
      · exact absurd h (by simp [leading?])
      · rfl
  · rintro rfl
    refine .inr ⟨[], [], (entry_iff htext).2 (.inr ?_), .nil, rfl⟩
    exact ⟨by simp [leading?], by simp [leading?], by simp [leading?], .nil⟩

/-- An empty line after the last changes nothing. -/
theorem body_append_nil : Body (ls ++ [[]]) ints ↔ Body ls ints := by
  induction ls generalizing ints with
  | nil =>
    rw [List.nil_append, body_singleton_nil]
    constructor
    · rintro rfl
      exact .nil
    · rintro ⟨⟩
      rfl
  | cons line ls ih => simp only [List.cons_append, body_cons_iff, ih]

theorem layout_append_nil : Layout (ls ++ [[]]) d clauses ↔ Layout ls d clauses := by
  constructor
  · rintro ⟨before, problem, body, ints, hls, hbefore, hproblem, hbody, hclauses⟩
    rcases List.eq_nil_or_concat body with rfl | ⟨body, last, rfl⟩
    · obtain ⟨-, hlast⟩ := List.append_inj' hls rfl
      obtain ⟨rfl, -⟩ := List.cons.inj hlast
      exact absurd hproblem.toAnnounces not_announces_nil
    · rw [List.concat_eq_append] at hls hbody
      rw [← List.cons_append, ← List.append_assoc] at hls
      obtain ⟨rfl, hlast⟩ := List.append_inj' hls rfl
      obtain ⟨rfl, -⟩ := List.cons.inj hlast
      exact ⟨before, problem, body, ints, rfl, hbefore, hproblem, body_append_nil.1 hbody, hclauses⟩
  · rintro ⟨before, problem, body, ints, rfl, hbefore, hproblem, hbody, hclauses⟩
    exact ⟨before, problem, body ++ [[]], ints, by simp, hbefore, hproblem, body_append_nil.2 hbody,
      hclauses⟩

/-! ### The announcement -/

theorem followsMark_cons_of_mark {b : UInt8} {rest : List UInt8} (h : problemMark <+: b :: rest) :
    FollowsMark (b :: rest) details ↔ details = (b :: rest).drop problemMark.length := by
  obtain ⟨tail, htail⟩ := h
  constructor
  · rintro ⟨front, hline, hfirst⟩
    have hfront : front = [] := List.eq_nil_of_length_eq_zero (Nat.le_zero.1 (hfirst [] tail htail.symm))
    rw [hline, hfront, List.nil_append, List.drop_left]
  · rintro rfl
    refine ⟨[], ?_, fun _ _ _ => Nat.zero_le _⟩
    rw [← htail, List.drop_left, List.nil_append]

theorem followsMark_cons {b : UInt8} {rest : List UInt8} (h : ¬ problemMark <+: b :: rest) :
    FollowsMark (b :: rest) details ↔ FollowsMark rest details := by
  have hfront : ∀ {front tail}, b :: rest = front ++ (problemMark ++ tail) →
      ∃ front', front = b :: front' ∧ rest = front' ++ (problemMark ++ tail) := by
    intro front tail heq
    cases front with
    | nil => exact absurd ⟨tail, heq.symm⟩ h
    | cons b' front' =>
      obtain ⟨rfl, hrest⟩ := List.cons.inj heq
      exact ⟨front', rfl, hrest⟩
  constructor
  · rintro ⟨front, hline, hfirst⟩
    obtain ⟨front, rfl, hrest⟩ := hfront hline
    refine ⟨front, hrest, fun front' details' hline' => ?_⟩
    exact Nat.le_of_succ_le_succ (hfirst (b :: front') details' (by rw [hline', List.cons_append]))
  · rintro ⟨front, hrest, hfirst⟩
    refine ⟨b :: front, by rw [hrest, List.cons_append], fun front' details' hline' => ?_⟩
    obtain ⟨front', rfl, hrest'⟩ := hfront hline'
    exact Nat.succ_le_succ (hfirst front' details' hrest')

theorem afterMark?_eq_some : afterMark? line = some details ↔ FollowsMark line details := by
  induction line with
  | nil =>
    refine iff_of_false (by simp [afterMark?]) fun ⟨front, hline, _⟩ => ?_
    simp [problemMark] at hline
  | cons b rest ih =>
    rw [afterMark?]
    split
    · rename_i h
      rw [followsMark_cons_of_mark (List.isPrefixOf_iff_prefix.1 h), Option.some.injEq, eq_comm]
    · rename_i h
      rw [followsMark_cons (fun hmark => h (List.isPrefixOf_iff_prefix.2 hmark)), ih]

theorem exists_afterMark? (h : problemMark <:+: line) : ∃ details, afterMark? line = some details := by
  induction line with
  | nil => exact absurd (List.infix_nil.1 h) (by decide)
  | cons b rest ih =>
    rw [afterMark?]
    split
    · exact ⟨_, rfl⟩
    · rename_i hstart
      refine ih ((List.infix_cons_iff.1 h).resolve_left fun hmark => hstart ?_)
      exact List.isPrefixOf_iff_prefix.2 hmark

theorem announcement?_eq_some :
    announcement? line = some details ↔ Announces line ∧ FollowsMark line details := by
  unfold announcement?
  constructor
  · intro h
    split at h
    · exact absurd h (by simp)
    · rename_i b hb
      split at h
      · exact absurd h (by simp)
      · rename_i hne
        have hfollows := afterMark?_eq_some.1 h
        have ⟨front, hline, _⟩ := hfollows
        refine ⟨⟨⟨front, details, ?_⟩, b, hb, hne⟩, hfollows⟩
        rw [hline, List.append_assoc]
  · rintro ⟨⟨-, b, hb, hne⟩, hfollows⟩
    rw [hb]
    simp only [hne, if_false]
    exact afterMark?_eq_some.2 hfollows

theorem announcement?_eq_none : announcement? line = none ↔ ¬ Announces line := by
  rw [Option.eq_none_iff_forall_ne_some]
  constructor
  · intro h hline
    obtain ⟨details, hdetails⟩ := exists_afterMark? hline.marked
    exact h details (announcement?_eq_some.2 ⟨hline, afterMark?_eq_some.1 hdetails⟩)
  · intro h details hdetails
    exact h (announcement?_eq_some.1 hdetails).1

theorem declaration?_eq_some : declaration? details = some d ↔
    ∃ first second more, tokens (Utf8.lossy details) = first :: second :: more ∧
      Numeral.nat? greatestVariable first = some d.variables ∧
      Numeral.nat? greatestCount second = some d.clauses := by
  unfold declaration?
  rw [words_eq_tokens]
  constructor
  · intro h
    split at h
    · rename_i first second more hwords
      obtain ⟨n, hn, h⟩ := Option.bind_eq_some_iff.1 h
      obtain ⟨m, hm, h⟩ := Option.bind_eq_some_iff.1 h
      cases h
      exact ⟨first, second, more, hwords, hn, hm⟩
    · exact absurd h (by simp)
  · rintro ⟨first, second, more, hwords, hn, hm⟩
    rw [hwords]
    simp only [hn, hm]
    rfl

/-- The counts are found exactly if some line announces them and the first such line holds them. -/
theorem exists_findProblem {read : Nat} {rest : List (List UInt8)} :
    (∃ number, findProblem read ls = .ok (d, number, rest)) ↔
      ∃ before problem, ls = before ++ problem :: rest ∧ (∀ line ∈ before, ¬ Announces line) ∧
        Header problem d := by
  induction ls generalizing read with
  | nil => simp [findProblem]
  | cons line ls ih =>
    unfold findProblem
    cases hline : announcement? line with
    | none =>
      have hskip := announcement?_eq_none.1 hline
      rw [ih]
      constructor
      · rintro ⟨before, problem, rfl, hbefore, hproblem⟩
        exact ⟨line :: before, problem, rfl, List.forall_mem_cons.2 ⟨hskip, hbefore⟩, hproblem⟩
      · rintro ⟨before, problem, hls, hbefore, hproblem⟩
        cases before with
        | nil =>
          obtain ⟨rfl, -⟩ := List.cons.inj hls
          exact absurd hproblem.toAnnounces hskip
        | cons _ before =>
          obtain ⟨rfl, rfl⟩ := List.cons.inj hls
          exact ⟨before, problem, rfl, (List.forall_mem_cons.1 hbefore).2, hproblem⟩
    | some details =>
      obtain ⟨hannounces, hfollows⟩ := announcement?_eq_some.1 hline
      constructor
      · rintro ⟨number, h⟩
        simp only at h
        split at h
        · exact absurd h (by simp)
        · rename_i hd
          cases h
          obtain ⟨first, second, more, hcounts⟩ := declaration?_eq_some.1 hd
          exact ⟨[], line, rfl, by simp, hannounces, details, first, second, more, hfollows, hcounts⟩
      · rintro ⟨before, problem, hls, hbefore, hproblem⟩
        cases before with
        | cons _ before =>
          obtain ⟨rfl, -⟩ := List.cons.inj hls
          exact absurd hannounces (hbefore _ List.mem_cons_self)
        | nil =>
          obtain ⟨rfl, rfl⟩ := List.cons.inj hls
          obtain ⟨details', first, second, more, hfollows', hcounts⟩ := hproblem.counts
          have hdetails : details = details' := Option.some.inj
            ((afterMark?_eq_some.2 hfollows).symm.trans (afterMark?_eq_some.2 hfollows'))
          subst hdetails
          have hd := declaration?_eq_some.2 ⟨first, second, more, hcounts⟩
          exact ⟨read + 1, by simp only [hd]⟩

/-! ### The form is unambiguous -/

theorem Entry.not_ends (h : Entry line ints) : ¬ Ends line := by
  intro hends
  obtain ⟨text, htext⟩ := h.readable
  have hmark := (ends_iff htext).1 hends
  rcases (entry_iff htext).1 h with ⟨hc, -⟩ | ⟨-, -, hend, -⟩
  · exact absurd (hmark.symm.trans hc) (by simp)
  · exact hend hmark

theorem Entry.unique {ints' : List Int} (h : Entry line ints) (h' : Entry line ints') : ints = ints' := by
  obtain ⟨text, htext⟩ := h.readable
  rcases (entry_iff htext).1 h with ⟨hc, rfl⟩ | ⟨hne, -, -, hints⟩
  · rcases (entry_iff htext).1 h' with ⟨-, rfl⟩ | ⟨hne, -⟩
    · rfl
    · exact absurd hc hne
  · rcases (entry_iff htext).1 h' with ⟨hc, -⟩ | ⟨-, -, -, hints'⟩
    · exact absurd hc hne
    · refine List.right_unique_forall₂' (fun word n n' hn hn' => ?_) hints hints'
      exact Option.some.inj (hn.symm.trans hn')

theorem Body.unique {ints' : List Int} (h : Body ls ints) (h' : Body ls ints') : ints = ints' := by
  induction h generalizing ints' with
  | nil =>
    cases h'
    rfl
  | ends h =>
    cases h' with
    | ends => rfl
    | entry h' => exact absurd h h'.not_ends
  | entry h _ ih =>
    cases h' with
    | ends h' => exact absurd h' h.not_ends
    | entry h' hrest' => rw [h.unique h', ih hrest']

theorem CutAtZeros.unique {clauses' : List (List Int)} (h : CutAtZeros ints clauses)
    (h' : CutAtZeros ints clauses') : clauses = clauses' := by
  obtain ⟨closed, rest, hsplit, rfl⟩ := h
  obtain ⟨closed', rest', hsplit', rfl⟩ := h'
  obtain ⟨rfl, hrest⟩ := List.append_inj' (hsplit.symm.trans hsplit') rfl
  rw [List.singleton_inj.1 hrest]

/-- Lines have one layout at most. -/
theorem Layout.unique {d' : Declaration} {clauses' : List (List Int)} (h : Layout ls d clauses)
    (h' : Layout ls d' clauses') : d = d' ∧ clauses = clauses' := by
  obtain ⟨before, problem, body, ints, hls, hbefore, hproblem, hbody, hclauses⟩ := h
  obtain ⟨before', problem', body', ints', hls', hbefore', hproblem', hbody', hclauses'⟩ := h'
  have ⟨number, hfound⟩ : ∃ number, findProblem 0 ls = .ok (d, number, body) :=
    exists_findProblem.2 ⟨before, problem, hls, hbefore, hproblem⟩
  obtain ⟨number', hfound'⟩ := exists_findProblem.2 ⟨before', problem', hls', hbefore', hproblem'⟩
  cases hfound.symm.trans hfound'
  cases hbody.unique hbody'
  exact ⟨rfl, hclauses.unique hclauses'⟩

theorem Form.unique {d' : Declaration} {clauses' : List (List Int)} (h : Form bytes d clauses)
    (h' : Form bytes d' clauses') : d = d' ∧ clauses = clauses' :=
  h.layout.unique h'.layout

end ClauseSearch.Dimacs
