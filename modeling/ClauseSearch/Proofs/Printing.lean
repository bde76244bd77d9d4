import ClauseSearch.Proofs.Occurrences
import ClauseSearch.Proofs.Reading

/-! Formulas printed and read back. The clauses are printed one after another under the line that announces
the counts. Between two words may stand any spaces and line feeds, whole lines may be comments, and the zero
of the last clause may be left out unless the clause is empty: what is read is the formula printed. -/

namespace ClauseSearch

/-! ### Numerals -/

namespace Numeral

/-- A character that occurs in a written integer. -/
def IsFigure (c : Char) : Prop := c = '-' ∨ ∃ d < 10, c = digit d

theorem isFigure_of_mem_digits {n : Nat} {c : Char} (h : c ∈ digits n) : IsFigure c := by
  obtain ⟨d, hd, rfl⟩ := mem_digits h
  exact .inr ⟨d, hd, rfl⟩

theorem isFigure_of_mem_ofInt {n : Int} {c : Char} (h : c ∈ ofInt n) : IsFigure c := by
  cases n with
  | ofNat n => exact isFigure_of_mem_digits h
  | negSucc n =>
    rcases List.mem_cons.1 h with rfl | h
    · exact .inl rfl
    · exact isFigure_of_mem_digits h

/-- What is no white space, no sign and no letter that means something is so for every figure. -/
theorem IsFigure.spec {c : Char} (h : IsFigure c) : Blank.isBlank c = false ∧
    c ≠ '+' ∧ c ≠ 'c' ∧ c ≠ 'p' ∧ c ≠ '%' := by
  rcases h with rfl | ⟨d, hd, rfl⟩
  · decide
  · revert d
    decide

theorem ofInt_ne_nil (n : Int) : ofInt n ≠ [] := by
  cases n with
  | ofNat n => exact digits_ne_nil n
  | negSucc n => simp [ofInt]

theorem digits_head {n : Nat} : ∃ c cs, digits n = c :: cs ∧ c ≠ '+' ∧ c ≠ '-' := by
  obtain ⟨c, cs, h⟩ := List.exists_cons_of_ne_nil (digits_ne_nil n)
  obtain ⟨d, hd, rfl⟩ := mem_digits (h ▸ List.mem_cons_self : c ∈ digits n)
  refine ⟨_, cs, h, ?_⟩
  clear h
  revert d
  decide

theorem nat?_digits {limit n : Nat} (h : n ≤ limit) : nat? limit (digits n) = some n := by
  obtain ⟨c, cs, hdigits, hplus, -⟩ := digits_head (n := n)
  have hvalue := unsigned?_digits n
  unfold nat?
  rw [hdigits] at hvalue ⊢
  split
  · rename_i heq
    exact absurd (List.cons.inj heq).1 hplus
  · simpa [hvalue] using h

theorem int?_ofInt {least greatest n : Int} (hl : least ≤ n) (hg : n ≤ greatest) :
    int? least greatest (ofInt n) = some n := by
  have hfilter : (some n).filter (fun n => decide (least ≤ n) && decide (n ≤ greatest)) = some n := by
    simp [hl, hg]
  cases n with
  | ofNat n =>
    obtain ⟨c, cs, hdigits, hplus, hminus⟩ := digits_head (n := n)
    have hvalue := unsigned?_digits n
    unfold int?
    rw [ofInt, hdigits]
    rw [hdigits] at hvalue
    split
    · rename_i heq
      exact absurd (List.cons.inj heq).1 hminus
    · rename_i heq
      exact absurd (List.cons.inj heq).1 hplus
    · rw [hvalue]
      exact hfilter
  | negSucc n =>
    unfold int?
    simp only [ofInt, unsigned?_digits]
    exact hfilter

end Numeral

namespace Dimacs

variable {d : Declaration} {text word : List Char} {ws : List (List Char)} {ints : List Int}
  {clauses : List Clause}

/-! ### Printed text -/

/-- Words in order with spaces around them, at least one between two. -/
inductive Spaced : List (List Char) → List Char → Prop
  | nil : Spaced [] []
  | space {ws : List (List Char)} {text : List Char} (h : Spaced ws text) : Spaced ws (' ' :: text)
  | last (word : List Char) : Spaced [word] word
  | word (word : List Char) {ws : List (List Char)} {text : List Char} (h : Spaced ws text) :
    Spaced (word :: ws) (word ++ ' ' :: text)

/-- A line among the clauses with the words on it: a comment, which has none, or words between spaces. -/
inductive Written : List Char → List (List Char) → Prop
  | comment {text : List Char} (h : '\n' ∉ text) : Written ('c' :: text) []
  | words {text : List Char} {ws : List (List Char)} (h : Spaced ws text) : Written text ws

def announcement (d : Declaration) : List Char :=
  "p cnf".toList ++ ' ' :: (Numeral.digits d.variables ++ ' ' :: Numeral.digits d.clauses)

/-- The words of clauses as they are printed one by one, each with its zero. -/
def printedWords (clauses : List Clause) : List (List Char) :=
  clauses.flatMap fun c => tokens (Clause.dimacs true c).toList

/-- Clauses printed below the line that announces the counts, on lines however the words fall on them. A
last clause that is not empty may lack its zero. -/
def Printed (d : Declaration) (clauses : List Clause) (text : List Char) : Prop :=
  ∃ ls wss, text = ['\n'].intercalate (announcement d :: ls) ∧ List.Forall₂ Written ls wss ∧
    (wss.flatten = printedWords clauses ∨
      ∃ before c, clauses = before ++ [c] ∧ c ≠ [] ∧
        wss.flatten ++ [Numeral.digits 0] = printedWords clauses)

/-! ### Words -/

theorem tokens_cons_of_blank {c : Char} (hc : Blank.isBlank c = true) (text : List Char) :
    tokens (c :: text) = tokens text := by
  rw [tokens, List.splitOnP_cons_eq_if_modifyHead, if_pos hc]
  rfl

theorem tokens_of_word (hne : word ≠ []) (hword : ∀ c ∈ word, Blank.isBlank c = false) :
    tokens word = [word] := by
  rw [tokens, List.splitOnP_eq_singleton hword]
  simp [hne]

theorem tokens_append_cons (hne : word ≠ []) (hword : ∀ c ∈ word, Blank.isBlank c = false) {c : Char}
    (hc : Blank.isBlank c = true) (text : List Char) : tokens (word ++ c :: text) = word :: tokens text := by
  rw [tokens, List.splitOnP_append_cons_of_forall_mem hword c hc]
  simp [hne, tokens]

/-- Words of figures between spaces are found again. -/
theorem Spaced.tokens_eq (h : Spaced ws text)
    (hws : ∀ w ∈ ws, w ≠ [] ∧ ∀ c ∈ w, Numeral.IsFigure c) : tokens text = ws := by
  induction h with
  | nil => rfl
  | space _ ih => rw [tokens_cons_of_blank (by decide), ih hws]
  | last word =>
    obtain ⟨hne, hword⟩ := hws word List.mem_cons_self
    exact tokens_of_word hne fun c hc => (hword c hc).spec.1
  | word word _ ih =>
    obtain ⟨hne, hword⟩ := hws word List.mem_cons_self
    rw [tokens_append_cons hne (fun c hc => (hword c hc).spec.1) (by decide),
      ih fun w hw => hws w (List.mem_cons_of_mem _ hw)]

theorem Spaced.leading?_eq (h : Spaced ws text)
    (hws : ∀ w ∈ ws, w ≠ [] ∧ ∀ c ∈ w, Numeral.IsFigure c) :
    leading? text = none ∨ ∃ c, leading? text = some c ∧ Numeral.IsFigure c := by
  have hfirst : ∀ {word tail : List Char}, (word ≠ [] ∧ ∀ c ∈ word, Numeral.IsFigure c) →
      ∃ c, leading? (word ++ tail) = some c ∧ Numeral.IsFigure c := by
    rintro word tail ⟨hne, hword⟩
    obtain ⟨c, cs, rfl⟩ := List.exists_cons_of_ne_nil hne
    have hc := hword c List.mem_cons_self
    refine ⟨c, ?_, hc⟩
    rw [leading?, List.cons_append, List.find?_cons_of_pos (by simp [hc.spec.1])]
  induction h with
  | nil => exact .inl rfl
  | space _ ih => exact ih hws
  | last word => exact .inr (by simpa using @hfirst word [] (hws word List.mem_cons_self))
  | word word _ _ => exact .inr (hfirst (hws word List.mem_cons_self))

theorem newline_ne {c : Char} (h : Numeral.IsFigure c) : '\n' ≠ c := by
  rintro rfl
  exact absurd h.spec.1 (by decide)

theorem Spaced.newline_notMem (h : Spaced ws text)
    (hws : ∀ w ∈ ws, ∀ c ∈ w, Numeral.IsFigure c) : '\n' ∉ text := by
  have hword : ∀ {word : List Char}, (∀ c ∈ word, Numeral.IsFigure c) → '\n' ∉ word :=
    fun hfigures hmem => newline_ne (hfigures _ hmem) rfl
  induction h with
  | nil => exact List.not_mem_nil
  | space _ ih => exact List.not_mem_cons_of_ne_of_not_mem (by decide) (ih hws)
  | last word => exact hword (hws word List.mem_cons_self)
  | word word _ ih =>
    obtain ⟨hfirst, hrest⟩ := List.forall_mem_cons.1 hws
    rw [List.mem_append, not_or]
    exact ⟨hword hfirst, List.not_mem_cons_of_ne_of_not_mem (by decide) (ih hrest)⟩

theorem spaced_unwords : Spaced ws (Blank.unwords ws) := by
  induction ws with
  | nil => exact .nil
  | cons word ws ih =>
    cases ws with
    | nil =>
      rw [Blank.unwords, List.intercalate_singleton]
      exact .last word
    | cons next ws =>
      rw [Blank.unwords, List.intercalate_cons_cons, List.append_assoc]
      exact .word word ih

theorem words_eq_map (c : Clause) :
    Clause.words true c = (c.map Literal.toInt ++ [0]).map Numeral.ofInt := by
  simp [Clause.words, Numeral.ofInt]

theorem isFigure_of_mem_map_ofInt {w : List Char} (h : w ∈ ints.map Numeral.ofInt) :
    w ≠ [] ∧ ∀ c ∈ w, Numeral.IsFigure c := by
  obtain ⟨n, -, rfl⟩ := List.mem_map.1 h
  exact ⟨Numeral.ofInt_ne_nil n, fun c hc => Numeral.isFigure_of_mem_ofInt hc⟩

/-- A printed clause has the integers of its literals for words, and a zero. -/
theorem tokens_dimacs (c : Clause) : tokens (Clause.dimacs true c).toList =
    (c.map Literal.toInt ++ [0]).map Numeral.ofInt := by
  rw [Clause.dimacs, String.toList_ofList, words_eq_map]
  exact spaced_unwords.tokens_eq fun w hw => isFigure_of_mem_map_ofInt hw

theorem printedWords_eq (clauses : List Clause) : printedWords clauses =
    (clauses.flatMap fun c => c.map Literal.toInt ++ [0]).map Numeral.ofInt := by
  simp only [printedWords, tokens_dimacs, List.map_flatMap]

/-! ### Bytes -/

theorem lossy_encode (text : List Char) : Utf8.lossy (text.flatMap String.utf8EncodeChar) = text := by
  have hstrict : Utf8.strict? (text.flatMap String.utf8EncodeChar) = some text :=
    Utf8.strict?_eq_some.2 rfl
  have hdecode : ∀ {chars : List (Option Char)} {text : List Char}, chars.mapM id = some text →
      chars.map (·.getD '\uFFFD') = text := by
    intro chars
    induction chars with
    | nil =>
      intro text h
      cases h
      rfl
    | cons c chars ih =>
      intro text h
      rw [List.mapM_cons] at h
      obtain ⟨c', hc, h⟩ := Option.bind_eq_some_iff.1 h
      obtain ⟨more, hmore, h⟩ := Option.bind_eq_some_iff.1 h
      cases h
      rw [List.map_cons, ih hmore, show c = some c' from hc]
      rfl
  exact hdecode hstrict

theorem ten_mem_encode {c : Char} (h : 10 ∈ String.utf8EncodeChar c) : c = '\n' := by
  have hten : ∀ {m : Nat}, (10 : UInt8) = UInt8.ofNat m → m < 256 → m = 10 := by
    intro m heq hlt
    have hnat := congrArg UInt8.toNat heq
    rw [UInt8.toNat_ofNat'] at hnat
    change 10 = m % 256 at hnat
    omega
  simp only [String.utf8EncodeChar] at h
  -- every byte of a longer encoding is 128 at least
  split at h
  · have hval : c.val.toNat = 10 := hten (List.mem_singleton.1 h) (by omega)
    exact Char.ext (UInt32.toNat_inj.1 hval)
  · exfalso
    split at h
    · simp only [List.mem_cons, List.not_mem_nil, or_false] at h
      rcases h with h | h <;> have := hten h (by omega) <;> omega
    · split at h <;> simp only [List.mem_cons, List.not_mem_nil, or_false] at h
      · rcases h with h | h | h <;> have := hten h (by omega) <;> omega
      · rcases h with h | h | h | h <;> have := hten h (by omega) <;> omega

theorem encode_intercalate (ls : List (List Char)) :
    (['\n'].intercalate ls).flatMap String.utf8EncodeChar =
      [10].intercalate (ls.map fun line => line.flatMap String.utf8EncodeChar) := by
  induction ls with
  | nil => rfl
  | cons line ls ih =>
    cases ls with
    | nil => simp
    | cons next ls =>
      rw [List.intercalate_cons_cons, List.flatMap_append, List.flatMap_append, ih]
      simp only [List.map_cons, List.intercalate_cons_cons]
      rfl

/-- Lines of text are the lines of its bytes. -/
theorem splitOn_encode {ls : List (List Char)} (hls : ∀ line ∈ ls, '\n' ∉ line) (hne : ls ≠ []) :
    ((['\n'].intercalate ls).flatMap String.utf8EncodeChar).splitOn 10 =
      ls.map fun line => line.flatMap String.utf8EncodeChar := by
  rw [encode_intercalate]
  refine List.splitOn_intercalate 10 (fun bytes hbytes hten => ?_) (by simpa using hne)
  obtain ⟨line, hline, rfl⟩ := List.mem_map.1 hbytes
  obtain ⟨c, hc, hten⟩ := List.mem_flatMap.1 hten
  exact hls line hline (ten_mem_encode hten ▸ hc)

/-! ### Lines -/

theorem newline_notMem_announcement : '\n' ∉ announcement d := by
  have hdigits : ∀ n, '\n' ∉ Numeral.digits n := fun n hmem =>
    newline_ne (Numeral.isFigure_of_mem_digits hmem) rfl
  simp [announcement, hdigits]

theorem newline_notMem_of_written {ls : List (List Char)} {wss : List (List (List Char))}
    (h : List.Forall₂ Written ls wss) (hws : ∀ w ∈ wss.flatten, ∀ c ∈ w, Numeral.IsFigure c) :
    ∀ line ∈ ls, '\n' ∉ line := by
  induction h with
  | nil => simp
  | cons hline _ ih =>
    rw [List.flatten_cons, List.forall_mem_append] at hws
    refine List.forall_mem_cons.2 ⟨?_, ih hws.2⟩
    cases hline with
    | comment hcomment => exact List.not_mem_cons_of_ne_of_not_mem (by decide) hcomment
    | words hspaced => exact hspaced.newline_notMem hws.1

theorem header_announcement (hvariables : d.variables ≤ greatestVariable)
    (hclauses : d.clauses ≤ greatestCount) :
    Header ((announcement d).flatMap String.utf8EncodeChar) d := by
  let details := ' ' :: (Numeral.digits d.variables ++ ' ' :: Numeral.digits d.clauses)
  have hline : (announcement d).flatMap String.utf8EncodeChar =
      problemMark ++ details.flatMap String.utf8EncodeChar := by
    rw [announcement, List.flatMap_append]
    rfl
  have htokens : tokens details = [Numeral.digits d.variables, Numeral.digits d.clauses] :=
    Spaced.tokens_eq (.space (.word _ (.last _))) <| by
      simp only [List.mem_cons, List.not_mem_nil, or_false, forall_eq_or_imp, forall_eq]
      exact ⟨⟨Numeral.digits_ne_nil _, fun c => Numeral.isFigure_of_mem_digits⟩,
        Numeral.digits_ne_nil _, fun c => Numeral.isFigure_of_mem_digits⟩
  rw [hline]
  refine ⟨⟨⟨[], _, rfl⟩, 112, rfl, by decide⟩, _, _, _, [], ⟨[], rfl, fun _ _ _ => Nat.zero_le _⟩, ?_,
    Numeral.nat?_digits hvariables, Numeral.nat?_digits hclauses⟩
  rw [lossy_encode, htokens]

theorem integer?_ofInt {n : Int} (h : n.natAbs ≤ greatestVariable) :
    integer? (Numeral.ofInt n) = some n := by
  have hle : n.natAbs ≤ 2147483647 := h
  exact Numeral.int?_ofInt (by omega) (by omega)

theorem Written.entry {line : List Char} (h : Written line (ints.map Numeral.ofInt))
    (hints : ∀ n ∈ ints, n.natAbs ≤ greatestVariable) :
    Entry (line.flatMap String.utf8EncodeChar) ints := by
  generalize hws : ints.map Numeral.ofInt = ws at h
  cases h with
  | comment =>
    obtain rfl : ints = [] := List.map_eq_nil_iff.1 hws
    exact .comment rfl
  | words h =>
    subst hws
    have hfigures : ∀ w ∈ ints.map Numeral.ofInt, w ≠ [] ∧ ∀ c ∈ w, Numeral.IsFigure c :=
      fun w hw => isFigure_of_mem_map_ofInt hw
    have hleading : ∀ c, leading? line = some c → Numeral.IsFigure c := by
      intro c hc
      rcases h.leading?_eq hfigures with hnone | ⟨c', hc', hfigure⟩
      · simp [hnone] at hc
      · obtain rfl : c' = c := Option.some.inj (hc'.symm.trans hc)
        exact hfigure
    refine .words (fun hc => ?_) (fun hp => ?_) (fun hend => ?_) ?_
    · exact (hleading _ hc).spec.2.2.1 rfl
    · exact (hleading _ hp).spec.2.2.2.1 rfl
    · exact (hleading _ hend).spec.2.2.2.2 rfl
    · rw [h.tokens_eq hfigures, List.forall₂_map_left_iff, List.forall₂_same]
      exact fun n hn => integer?_ofInt (hints n hn)

/-- Lines whose words together are those of integers are a body with these integers. -/
theorem body_of_written {ls : List (List Char)} {wss : List (List (List Char))}
    (h : List.Forall₂ Written ls wss) (hwords : wss.flatten = ints.map Numeral.ofInt)
    (hints : ∀ n ∈ ints, n.natAbs ≤ greatestVariable) :
    Body (ls.map fun line => line.flatMap String.utf8EncodeChar) ints := by
  induction h generalizing ints with
  | nil =>
    obtain rfl : ints = [] := List.map_eq_nil_iff.1 hwords.symm
    exact .nil
  | cons hline _ ih =>
    rw [List.flatten_cons, eq_comm, List.map_eq_append_iff] at hwords
    obtain ⟨first, more, rfl, rfl, hmore⟩ := hwords
    obtain ⟨hfirst, hrest⟩ := List.forall_mem_append.1 hints
    exact .entry (hline.entry hfirst) (ih hmore.symm hrest)

/-! ### Clauses -/

theorem splitOn_closed {clauses : List (List Int)} (h : ∀ c ∈ clauses, 0 ∉ c) (rest : List Int) :
    ((clauses.flatMap fun c => c ++ [0]) ++ rest).splitOn 0 = clauses ++ rest.splitOn 0 := by
  induction clauses with
  | nil => rfl
  | cons c clauses ih =>
    obtain ⟨hc, hclauses⟩ := List.forall_mem_cons.1 h
    rw [List.flatMap_cons, List.append_assoc, List.append_assoc, List.singleton_append,
      List.splitOn_append_cons_self_of_not_mem hc, ih hclauses, List.cons_append]

theorem cutAtZeros_closed {clauses : List (List Int)} (h : ∀ c ∈ clauses, 0 ∉ c) :
    CutAtZeros (clauses.flatMap fun c => c ++ [0]) clauses := by
  refine ⟨clauses, [], ?_, by simp⟩
  have hsplit := splitOn_closed h []
  rwa [List.append_nil] at hsplit

/-- The zero of a last clause that is not empty may be missing. -/
theorem cutAtZeros_open {clauses : List (List Int)} {c : List Int} (h : ∀ c ∈ clauses, 0 ∉ c)
    (hc : 0 ∉ c) (hne : c ≠ []) :
    CutAtZeros ((clauses.flatMap fun c => c ++ [0]) ++ c) (clauses ++ [c]) := by
  refine ⟨clauses, c, ?_, by simp [hne]⟩
  rw [splitOn_closed h, List.splitOn_eq_singleton hc]

/-- The words of a printed text are integers that are cut into the clauses. -/
theorem exists_ints_of_printed {wss : List (List (List Char))}
    (h : wss.flatten = printedWords clauses ∨ ∃ before c, clauses = before ++ [c] ∧ c ≠ [] ∧
      wss.flatten ++ [Numeral.digits 0] = printedWords clauses)
    (hints : ∀ c ∈ clauses.map (List.map Literal.toInt), ∀ n ∈ c,
      n ≠ 0 ∧ n.natAbs ≤ greatestVariable) :
    ∃ ints : List Int, wss.flatten = ints.map Numeral.ofInt ∧
      CutAtZeros ints (clauses.map (List.map Literal.toInt)) ∧
      ∀ n ∈ ints, n.natAbs ≤ greatestVariable := by
  have hzero : ∀ c ∈ clauses.map (List.map Literal.toInt), 0 ∉ c := fun c hc h => (hints c hc 0 h).1 rfl
  have hclosed : ∀ {cs : List (List Int)}, (∀ c ∈ cs, ∀ n ∈ c, n ≠ 0 ∧ n.natAbs ≤ greatestVariable) →
      ∀ n ∈ cs.flatMap fun c => c ++ [0], n.natAbs ≤ greatestVariable := by
    intro cs hcs n hn
    obtain ⟨c, hc, hn⟩ := List.mem_flatMap.1 hn
    rcases List.mem_append.1 hn with hn | hn
    · exact (hcs c hc n hn).2
    · simp [List.mem_singleton.1 hn]
  rw [printedWords_eq, ← List.flatMap_map (List.map Literal.toInt) fun c => c ++ [(0 : Int)]] at h
  rcases h with h | ⟨before, c, rfl, hne, h⟩
  · exact ⟨_, h, cutAtZeros_closed hzero, hclosed hints⟩
  · rw [List.map_append, List.map_singleton] at hints hzero h ⊢
    obtain ⟨hbefore, hlast⟩ := List.forall_mem_append.1 hints
    obtain ⟨hzeros, hzero⟩ := List.forall_mem_append.1 hzero
    rw [List.forall_mem_singleton] at hlast hzero
    refine ⟨(before.map (List.map Literal.toInt)).flatMap (fun c => c ++ [0]) ++ c.map Literal.toInt, ?_,
      cutAtZeros_open hzeros hzero (by simpa using hne), ?_⟩
    · rw [List.flatMap_append, List.flatMap_singleton, ← List.append_assoc, List.map_append] at h
      exact List.append_cancel_right h
    · exact List.forall_mem_append.2 ⟨hclosed hbefore, fun n hn => (hlast n hn).2⟩

/-- A printed text lays out the clauses under the counts. -/
theorem Printed.layout (h : Printed d clauses text) (hvariables : d.variables ≤ greatestVariable)
    (hclauses : d.clauses ≤ greatestCount)
    (hints : ∀ c ∈ clauses.map (List.map Literal.toInt), ∀ n ∈ c,
      n ≠ 0 ∧ n.natAbs ≤ greatestVariable) :
    Layout (lines (text.flatMap String.utf8EncodeChar)) d (clauses.map (List.map Literal.toInt)) := by
  obtain ⟨ls, wss, rfl, hlines, hwords⟩ := h
  obtain ⟨ints, hflatten, hcut, hrange⟩ := exists_ints_of_printed hwords hints
  have hnewline : ∀ line ∈ announcement d :: ls, '\n' ∉ line := by
    refine List.forall_mem_cons.2 ⟨newline_notMem_announcement, newline_notMem_of_written hlines ?_⟩
    exact fun w hw => (isFigure_of_mem_map_ofInt (hflatten ▸ hw)).2
  rw [← layout_splitOn, splitOn_encode hnewline (by simp)]
  exact ⟨[], _, _, ints, rfl, by simp, header_announcement hvariables hclauses,
    body_of_written hlines hflatten hrange, hcut⟩

/-- Printing and reading are inverse. Clauses on the declared variables, added one after another, make a
formula, and every text in which they are printed is read as this formula. -/
theorem read_of_printed {d : Declaration} {clauses : List (List Int)}
    (hvariables : d.variables ≤ greatestVariable) (hcount : d.clauses = clauses.length)
    (hlimit : clauses.length < Formula.clauseLimit)
    (hints : ∀ c ∈ clauses, ∀ n ∈ c, n ≠ 0 ∧ n.natAbs ≤ d.variables) :
    ∃ f, clauses.foldlM Formula.extended? (.ofDeclaration d) = some f ∧
      f.clauses.toList.map (List.map Literal.toInt) = clauses ∧
      ∀ text, Printed d f.clauses.toList text →
        Dimacs.read (text.flatMap String.utf8EncodeChar) = .ok f ∧
          summary f = ⟨d.variables, clauses.length, clauses.length, clauses.flatten.length⟩ := by
  obtain ⟨f, hadded⟩ := (Formula.exists_foldlM_extended? (f := .ofDeclaration d) rfl hvariables
    (Nat.zero_le _)).2 ⟨hints, by simpa [Formula.ofDeclaration] using hlimit.le⟩
  obtain ⟨hdeclared, hclauses⟩ := Formula.contents_of_foldlM hadded
  replace hclauses : f.clauses.toList.map (List.map Literal.toInt) = clauses := hclauses
  have hlength : f.clauseCount = clauses.length := Formula.clauseCount_of_foldlM hadded
  refine ⟨f, hadded, hclauses, fun text htext => ⟨?_, ?_⟩⟩
  · have hgreatest : d.clauses ≤ greatestCount := by
      have : Formula.clauseLimit ≤ greatestCount := by decide
      omega
    have hlayout := htext.layout hvariables hgreatest (by
      rw [hclauses]
      exact fun c hc n hn => ⟨(hints c hc n hn).1, (hints c hc n hn).2.trans hvariables⟩)
    rw [hclauses] at hlayout
    exact read_eq_ok.2 ⟨d, clauses, hlayout, hadded, hlength.trans hcount.symm⟩
  · have hliterals : f.literalCount = clauses.flatten.length := by
      rw [Formula.literalCount_eq, Formula.literals, ← hclauses, ← List.map_flatten, List.length_map]
    rw [summary, hdeclared, hlength, hliterals, ← hcount]
    rfl

/-- An empty clause, a clause over three lines with a comment within, and a last clause without its zero. -/
theorem read_of_printed_across_lines : ∃ f,
    Dimacs.read ("p cnf 3 3\n0 1\nc é\n  -2\n\n0 3  3\n-3 ".toList.flatMap String.utf8EncodeChar) = .ok f ∧
      f.clauses.toList.map (List.map Literal.toInt) = [[], [1, -2], [3, 3, -3]] ∧
      summary f = ⟨3, 3, 3, 5⟩ := by
  obtain ⟨f, -, hclauses, hread⟩ := @read_of_printed ⟨3, 3⟩ [[], [1, -2], [3, 3, -3]] (by decide) rfl
    (by decide) (by decide)
  obtain ⟨before, last, hf, hbefore, hlast⟩ := List.map_eq_append_iff.1
    (show f.clauses.toList.map (List.map Literal.toInt) = [[], [1, -2]] ++ [[3, 3, -3]] from hclauses)
  obtain ⟨c, rfl, hc⟩ := List.map_eq_singleton_iff.1 hlast
  have hprinted : Printed ⟨3, 3⟩ f.clauses.toList "p cnf 3 3\n0 1\nc é\n  -2\n\n0 3  3\n-3 ".toList := by
    refine ⟨["0 1".toList, "c é".toList, "  -2".toList, [], "0 3  3".toList, "-3 ".toList],
      [[['0'], ['1']], [], [['-', '2']], [], [['0'], ['3'], ['3']], [['-', '3']]], by decide +kernel, ?_,
      .inr ⟨before, c, hf, ?_, ?_⟩⟩
    · exact .cons (.words (.word ['0'] (.last ['1']))) <| .cons (.comment (by decide)) <|
        .cons (.words (.space (.space (.last ['-', '2'])))) <| .cons (.words .nil) <|
        .cons (.words (.word ['0'] (.word ['3'] (.space (.last ['3']))))) <|
        .cons (.words (.word ['-', '3'] .nil)) .nil
    · rintro rfl
      simp at hc
    · rw [printedWords_eq, ← List.flatMap_map (List.map Literal.toInt) fun c => c ++ [(0 : Int)], hclauses]
      decide +kernel
  exact ⟨f, (hread _ hprinted).1, hclauses, (hread _ hprinted).2⟩

end Dimacs

end ClauseSearch
