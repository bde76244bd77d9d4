import ClauseSearch.Proofs.Lines

/-! Line feeds in what is printed. No line of a response holds one, whatever the arguments, the file and the
result of the solve: what a line takes from the path or from the file stands between quotes, where a line
feed is written as an escape. So the lines of the text printed are the lines of the response. -/

namespace ClauseSearch

/-- A text without a line feed. -/
def Unbroken (text : String) : Prop := '\n' ∉ text.toList

namespace Unbroken

variable {text name part : String} {parts : List (String × String)}

theorem ofList {cs : List Char} (h : '\n' ∉ cs) : Unbroken (String.ofList cs) := by
  rwa [Unbroken, String.toList_ofList]

theorem append_iff {a b : String} : Unbroken (a ++ b) ↔ Unbroken a ∧ Unbroken b := by
  simp only [Unbroken, String.toList_append, List.mem_append, not_or]

theorem append {a b : String} (ha : Unbroken a) (hb : Unbroken b) : Unbroken (a ++ b) :=
  append_iff.2 ⟨ha, hb⟩

theorem newline_notMem_intercalate {sep : List Char} {ls : List (List Char)} (hsep : '\n' ∉ sep)
    (h : ∀ line ∈ ls, '\n' ∉ line) : '\n' ∉ sep.intercalate ls := by
  induction ls with
  | nil => exact List.not_mem_nil
  | cons line ls ih =>
    obtain ⟨hline, hls⟩ := List.forall_mem_cons.1 h
    cases ls with
    | nil => simpa using hline
    | cons next ls =>
      rw [List.intercalate_cons_cons]
      simp [hline, hsep, ih hls]

theorem intercalate {sep : String} {texts : List String} (hsep : Unbroken sep)
    (h : ∀ text ∈ texts, Unbroken text) : Unbroken (sep.intercalate texts) := by
  rw [Unbroken, String.toList_intercalate]
  exact newline_notMem_intercalate hsep (List.forall_mem_map.2 h)

/-! ### Numbers and quoted text -/

theorem numeral (n : Int) : Unbroken (Numeral.text n) :=
  ofList fun h => Dimacs.newline_ne (Numeral.isFigure_of_mem_ofInt h) rfl

theorem number (n : Nat) : Unbroken (ErrorText.number n) := numeral n

theorem newline_notMem_hexDigits (n : Nat) : '\n' ∉ Quoted.hexDigits n := by
  induction n using Nat.strongRecOn with
  | ind n ih =>
    unfold Quoted.hexDigits
    split
    · simp
    · rename_i h
      simp [ih (n / 16) (by omega)]

theorem newline_notMem_encodeChar (c : Char) : '\n' ∉ Quoted.encodeChar c := by
  unfold Quoted.encodeChar
  split_ifs with hquote hnull htab hreturn hfeed hprintable
  · rcases hquote with rfl | rfl <;> decide
  · decide
  · decide
  · decide
  · decide
  · simpa using Ne.symm hfeed
  · simp [newline_notMem_hexDigits]

/-- Between quotes a line feed is written as an escape. -/
theorem encode (cs : List Char) : Unbroken (Quoted.encode cs) :=
  ofList (by simp [newline_notMem_encodeChar])

theorem withPoint (places units : Nat) : Unbroken (Fixed.withPoint places units) := by
  have hdigits : '\n' ∉ Numeral.digits units := fun h =>
    Dimacs.newline_ne (Numeral.isFigure_of_mem_digits h) rfl
  refine ofList fun h => ?_
  rcases List.mem_append.1 h with hwhole | hplaces
  · simpa [hdigits] using List.mem_of_mem_take hwhole
  · simpa [hdigits] using List.mem_of_mem_drop (List.mem_of_ne_of_mem (by decide) hplaces)

theorem ofFloat (places : Nat) (x : Float) : Unbroken (Fixed.ofFloat places x) := withPoint _ _

/-! ### Errors -/

theorem wrap (hname : Unbroken name) (hpart : Unbroken part) : Unbroken (ErrorText.wrap name part) :=
  ((hname.append (ofList (by decide))).append hpart).append (ofList (by decide))

theorem record (hname : Unbroken name) (hparts : ∀ part ∈ parts, Unbroken part.1 ∧ Unbroken part.2) :
    Unbroken (ErrorText.record name parts) := by
  refine .append (.append (.append hname (ofList (by decide))) ?_) (ofList (by decide))
  refine .intercalate (ofList (by decide)) (List.forall_mem_map.2 fun part hpart => ?_)
  obtain ⟨hkey, hvalue⟩ := hparts part hpart
  exact (hkey.append (ofList (by decide))).append hvalue

theorem numbered {key : String} {n : Nat} (hkey : Unbroken key)
    (hparts : ∀ part ∈ parts, Unbroken part.1 ∧ Unbroken part.2) :
    ∀ part ∈ (key, ErrorText.number n) :: parts, Unbroken part.1 ∧ Unbroken part.2 :=
  List.forall_mem_cons.2 ⟨⟨hkey, number n⟩, hparts⟩

theorem addError (e : AddError) : Unbroken e.text := by
  cases e with
  | undeclaredVariable var declared =>
    exact record (ofList (by decide))
      (numbered (ofList (by decide)) (numbered (ofList (by decide)) (List.forall_mem_nil _)))
  | zeroLiteral | variablesExhausted | clausesExhausted => exact ofList (by decide)

theorem tableError (e : TableError) : Unbroken e.text := by
  cases e with
  | slotOverflow var =>
    exact record (ofList (by decide)) (numbered (ofList (by decide)) (List.forall_mem_nil _))
  | frequencyMismatch | slotUnderfill =>
    exact record (ofList (by decide))
      (numbered (ofList (by decide)) (numbered (ofList (by decide)) (List.forall_mem_nil _)))

theorem searchError (e : SearchError) : Unbroken e.text := by
  cases e with
  | interrupted reason =>
    refine wrap (ofList (by decide)) ?_
    cases reason with
    | stopped | timeLimit => exact ofList (by decide)
  | variablesExhausted depth unsatisfied =>
    exact record (ofList (by decide))
      (numbered (ofList (by decide)) (numbered (ofList (by decide)) (List.forall_mem_nil _)))
  | assumptionConflict literal =>
    exact wrap (ofList (by decide)) (wrap (ofList (by decide)) (numeral _))

theorem readError (e : Dimacs.ReadError) : Unbroken e.text := by
  cases e with
  | noFile | missingProblem => exact wrap (ofList (by decide)) (ofList (by decide))
  | problemSpecification line | misplacedProblem line | unreadable line =>
    exact wrap (ofList (by decide)) (wrap (ofList (by decide)) (number line))
  | notInteger line word =>
    -- only here is a part of the file repeated
    have hword : ∀ part ∈ [("token", Quoted.encode word)], Unbroken part.1 ∧ Unbroken part.2 :=
      List.forall_mem_singleton.2 ⟨ofList (by decide), encode word⟩
    exact wrap (ofList (by decide)) (record (ofList (by decide)) (numbered (ofList (by decide)) hword))
  | undeclaredVariable line var declared =>
    exact wrap (ofList (by decide)) (record (ofList (by decide)) (numbered (ofList (by decide))
      (numbered (ofList (by decide)) (numbered (ofList (by decide)) (List.forall_mem_nil _)))))
  | clauseCount expected found =>
    exact wrap (ofList (by decide)) (record (ofList (by decide))
      (numbered (ofList (by decide)) (numbered (ofList (by decide)) (List.forall_mem_nil _))))
  | refused reason => exact wrap (ofList (by decide)) (addError reason)

theorem sessionError (e : SessionError) : Unbroken e.text := by
  cases e with
  | add reason => exact wrap (ofList (by decide)) (addError reason)
  | table reason => exact wrap (ofList (by decide)) (tableError reason)
  | read reason => exact readError reason
  | search reason => exact wrap (ofList (by decide)) (searchError reason)
  | formulaPresent | solveComplete => exact wrap (ofList (by decide)) (ofList (by decide))

end Unbroken

/-! ### Lines -/

namespace CommandLine

variable {line last status path : String} {before : List String} {g : Given} {b b' : Bounds Nat}
  {solve : Session → Except Fault (Except SessionError Verdict × Session)}
  {result : Except Fault (Except SessionError Verdict × Session)}

theorem unbroken_modelLine (ints : List Int) : Unbroken (modelLine ints) := by
  refine .ofList (Unbroken.newline_notMem_intercalate (by decide) fun word hword hfeed => ?_)
  rw [List.mem_append, List.mem_cons, List.mem_map, List.mem_singleton] at hword
  rcases hword with (rfl | ⟨n, -, rfl⟩) | rfl
  · exact absurd hfeed (by decide)
  · exact Dimacs.newline_ne (Numeral.isFigure_of_mem_ofInt hfeed) rfl
  · exact Dimacs.newline_ne (Numeral.isFigure_of_mem_digits hfeed) rfl

theorem unbroken_countLine (n : Nat) : Unbroken (countLine n) := .append (.ofList (by decide)) (.number n)

theorem unbroken_of_mem_formulaLines {f : Formula} (h : line ∈ formulaLines f) : Unbroken line := by
  simp only [formulaLines, List.mem_cons, List.not_mem_nil, or_false] at h
  rcases h with rfl | rfl | rfl | rfl <;>
    exact .append (.append (.ofList (by decide)) (.number _)) (.ofList (by decide))

theorem unbroken_of_mem_tallyLines {t : Tally} (h : line ∈ tallyLines t) : Unbroken line := by
  have hdash : Unbroken "-" := .ofList (by decide)
  cases hmean : t.meanConflictDepth? with
  | none | some depth =>
    simp only [tallyLines, hmean, List.mem_cons, List.not_mem_nil, or_false] at h
    rcases h with rfl | rfl | rfl | rfl | rfl | rfl | rfl | rfl | rfl | rfl <;>
      refine .append (.ofList (by decide)) ?_ <;> simp [hdash, Unbroken.number, Unbroken.ofFloat]

theorem unbroken_of_mem_verdictLines {count : Option Nat} {models : List (List Int)}
    (hbefore : ∀ line ∈ before, Unbroken line) (hstatus : Unbroken status)
    (h : line ∈ verdictLines before status count models) : Unbroken line := by
  simp only [verdictLines, List.mem_append, List.mem_cons, List.mem_map] at h
  rcases h with h | rfl | ⟨n, -, rfl⟩ | ⟨ints, -, rfl⟩
  · exact hbefore line h
  · exact hstatus
  · exact unbroken_countLine n
  · exact unbroken_modelLine ints

theorem unbroken_of_mem_append_tallyLines {t : Tally} (hbefore : ∀ line ∈ before, Unbroken line) :
    ∀ line ∈ before ++ (if g.flags.contains .stats then tallyLines t else []), Unbroken line := by
  refine List.forall_mem_append.2 ⟨hbefore, fun line h => ?_⟩
  split at h
  · exact unbroken_of_mem_tallyLines h
  · simp at h

theorem unbroken_of_mem_append_singleton (hbefore : ∀ line ∈ before, Unbroken line)
    (hlast : Unbroken last) : ∀ line ∈ before ++ [last], Unbroken line :=
  List.forall_mem_append.2 ⟨hbefore, List.forall_mem_singleton.2 hlast⟩

theorem unbroken_of_mem_report (hbefore : ∀ line ∈ before, Unbroken line)
    (h : line ∈ (report g before result).lines) : Unbroken line := by
  unfold report at h
  split at h
  · exact hbefore line h
  · rename_i e _
    exact unbroken_of_mem_append_singleton hbefore (.append (.ofList (by decide)) (.sessionError e)) _ h
  · rename_i verdict s
    have hcounted := unbroken_of_mem_append_tallyLines (g := g) (t := s.tally) hbefore
    dsimp only at h
    split at h
    · rw [append_unsatisfiableLines] at h
      exact unbroken_of_mem_verdictLines hcounted (.ofList (by decide)) h
    · exact unbroken_of_mem_append_singleton hcounted (.ofList (by decide)) _ h
    · split at h
      · exact hcounted line h
      · exact unbroken_of_mem_append_singleton hcounted (.ofList (by decide)) _ h
      · rw [append_satisfiableLines] at h
        exact unbroken_of_mem_verdictLines hcounted (.ofList (by decide)) h

theorem eq_of_change_eq_error {s : Settings} {setting : Nat → Setting} {value : Option Nat}
    (h : change s b setting value = .error b') : b' = b := by
  unfold change at h
  split at h
  · simp at h
  · split at h
    · simp at h
    · exact (Except.error.inj h).symm

/-- The bounds that a value exceeds are those of a setting that takes a value. -/
theorem mem_of_settings_eq_error (h : settings g = .error b) :
    b ∈ [Settings.partitionDepthBounds, Settings.threadsBounds, Settings.stackSizeBounds] := by
  rcases Fault.bind_eq_error.1 h with hdepth | ⟨s, -, h⟩
  · simp [eq_of_change_eq_error hdepth]
  rcases Fault.bind_eq_error.1 h with hthreads | ⟨s, -, hstack⟩
  · simp [eq_of_change_eq_error hthreads]
  · simp [eq_of_change_eq_error hstack]

theorem unbroken_boundsLine (h : settings g = .error b) : Unbroken (boundsLine b) := by
  have hname : Unbroken b.name := by
    have hb := mem_of_settings_eq_error h
    simp only [List.mem_cons, List.not_mem_nil, or_false] at hb
    rcases hb with rfl | rfl | rfl <;> exact .ofList (by decide)
  simp only [boundsLine, Unbroken.append_iff, hname, Unbroken.number, and_true]
  exact ⟨⟨.ofList (by decide), .ofList (by decide)⟩, .ofList (by decide)⟩

theorem unbroken_of_mem_helpLines (h : line ∈ helpLines) : Unbroken line := by
  have hlines : ∀ line ∈ helpLines, Unbroken line := by
    simp only [helpLines, List.forall_mem_cons, Unbroken.append_iff]
    and_intros
    all_goals first | exact .ofList (by decide) | exact List.forall_mem_nil _
  exact hlines line h

theorem unbroken_of_mem_solveFile {source : Source} (h : line ∈ (solveFile solve path g source).lines) :
    Unbroken line := by
  have hreading : Unbroken ("c Reading DIMACS file from " ++ Quoted.encode path.toList) :=
    .append (.ofList (by decide)) (.encode _)
  unfold solveFile at h
  split at h
  · rename_i hbounds
    exact List.mem_singleton.1 h ▸ unbroken_boundsLine hbounds
  · dsimp only at h
    split at h
    · rename_i e _
      rcases List.mem_pair.1 h with rfl | rfl
      · exact hreading
      · exact .append (.ofList (by decide)) (.sessionError e)
    · refine unbroken_of_mem_report (List.forall_mem_cons.2 ⟨hreading, fun line hline => ?_⟩) h
      exact unbroken_of_mem_formulaLines hline

theorem unbroken_of_mem_respondWith {args : List String} {sources : String → Source}
    (h : line ∈ (respondWith solve args sources).lines) : Unbroken line := by
  unfold respondWith at h
  split at h
  · simp at h
  · exact unbroken_of_mem_helpLines h
  · exact List.mem_singleton.1 h ▸ .append (.ofList (by decide)) (.ofList (by decide))
  · exact unbroken_of_mem_solveFile h

end CommandLine

end ClauseSearch
