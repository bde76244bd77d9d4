import ClauseSearch.CommandLine.Run
import ClauseSearch.Proofs.Printing

/-! The lines of a response as a reader takes them. A line is known by how it begins, and no two kinds of lines
begin alike: the status, the models and the count of models are told from all other comments. The integers
of a model are read back from its line. -/

namespace ClauseSearch.CommandLine

variable {line head first : String} {before : List String} {ints : List Int} {s : Session}

/-! ### How lines begin -/

def starts (head line : String) : Bool := head.toList.isPrefixOf line.toList

/-- Whether neither of two texts begins with the other. -/
def unlike (first head : String) : Bool := !starts first head && !starts head first

/-- How the lines begin that a reader looks for, and those that report a failure of the solve. -/
def heads : List String :=
  ["s ", "v", "c Models", "c Model failed verification", "c Solve error"]

/-- How the other lines of a response begin. -/
def remarks : List String :=
  ["c Reading", "c Parse error", "c Expected", "c Added", "c Iterations", "c Unit propagations",
   "c Conflicts", "c Mean conflict depth", "c Clause tests", "c Solved subtrees", "c Searches",
   "c Decisions", "c Pure variables", "c Partitions"]

theorem starts_iff : starts head line = true ↔ head.toList <+: line.toList := List.isPrefixOf_iff_prefix

theorem starts_append (h : starts head first = true) (rest : String) :
    starts head (first ++ rest) = true := by
  rw [starts_iff] at h ⊢
  rw [String.toList_append]
  exact h.trans (List.prefix_append _ _)

theorem starts_eq_false (h : starts first line = true) (hunlike : unlike first head = true) :
    starts head line = false := by
  simp only [unlike, Bool.and_eq_true, Bool.not_eq_true', ← Bool.not_eq_true, starts_iff] at hunlike
  rw [starts_iff] at h
  rw [← Bool.not_eq_true, starts_iff]
  intro hhead
  rcases List.prefix_or_prefix_of_prefix h hhead with hless | hmore
  · exact hunlike.1 hless
  · exact hunlike.2 hmore

theorem unlike_of_remark : ∀ first ∈ remarks, ∀ head ∈ heads, unlike first head = true := by
  decide +kernel

/-- Whether a line is a comment on what was read or what was done. -/
def isRemark (line : String) : Bool := remarks.any fun first => starts first line

theorem starts_of_isRemark (h : isRemark line = true) (hhead : head ∈ heads) :
    starts head line = false := by
  obtain ⟨first, hfirst, hstarts⟩ := List.any_eq_true.1 h
  exact starts_eq_false hstarts (unlike_of_remark first hfirst head hhead)

/-- A text that begins like a remark makes one, whatever follows it. -/
theorem isRemark_append (h : isRemark first = true) (rest : String) :
    isRemark (first ++ rest) = true := by
  obtain ⟨remark, hremark, hstarts⟩ := List.any_eq_true.1 h
  exact List.any_eq_true.2 ⟨remark, hremark, starts_append hstarts rest⟩

/-! ### Models -/

/-- The integers of a line that shows a model: the words after the `v`, of which the last is a zero. -/
def shownInts? (line : String) : Option (List Int) :=
  match Dimacs.tokens line.toList with
  | ['v'] :: words => do
    let ints ← words.mapM Dimacs.integer?
    if ints.getLast? = some 0 then some ints.dropLast else none
  | _ => none

theorem toList_modelLine (ints : List Int) : (modelLine ints).toList =
    ['v'] ++ ' ' :: Blank.unwords ((ints ++ [0]).map Numeral.ofInt) := by
  have hwords : ['v'] :: ints.map Numeral.ofInt ++ [Numeral.digits 0] =
      ['v'] :: (ints ++ [0]).map Numeral.ofInt := by
    simp [Numeral.ofInt]
  obtain ⟨word, words, hcons⟩ := List.exists_cons_of_ne_nil
    (show (ints ++ [0]).map Numeral.ofInt ≠ [] by simp)
  rw [modelLine, String.toList_ofList, hwords, hcons, Blank.unwords, List.intercalate_cons_cons]
  simp [Blank.unwords]

/-- The integers of a model are read back from the line that shows it. -/
theorem shownInts?_modelLine (h : ∀ n ∈ ints, n.natAbs ≤ greatestVariable) :
    shownInts? (modelLine ints) = some ints := by
  have htokens : Dimacs.tokens (modelLine ints).toList =
      ['v'] :: (ints ++ [0]).map Numeral.ofInt := by
    have hmark : ∀ c ∈ ['v'], Blank.isBlank c = false := by
      intro c hc
      rw [List.mem_singleton.1 hc]
      decide
    rw [toList_modelLine, Dimacs.tokens_append_cons (by simp) hmark (by decide),
      Dimacs.spaced_unwords.tokens_eq fun w hw => Dimacs.isFigure_of_mem_map_ofInt hw]
  have hints : ((ints ++ [0]).map Numeral.ofInt).mapM Dimacs.integer? = some (ints ++ [0]) := by
    apply Sequence.mapM_map_eq_some
    intro n hn
    apply Dimacs.integer?_ofInt
    rcases List.mem_append.1 hn with hn | hn
    · exact h n hn
    · simp [List.mem_singleton.1 hn]
  simp only [shownInts?, htokens, hints]
  simp

example : shownInts? "v 1 -2 0" = some [1, -2] := by decide +kernel

/-! ### The lines of a response -/

theorem isRemark_of_mem_formulaLines {f : Formula} (h : line ∈ formulaLines f) :
    isRemark line = true := by
  simp only [formulaLines, List.mem_cons, List.not_mem_nil, or_false, String.append_assoc] at h
  rcases h with rfl | rfl | rfl | rfl <;> exact isRemark_append (by decide +kernel) _

theorem isRemark_of_mem_tallyLines {t : Tally} (h : line ∈ tallyLines t) : isRemark line = true := by
  simp only [tallyLines, List.mem_cons, List.not_mem_nil, or_false] at h
  rcases h with rfl | rfl | rfl | rfl | rfl | rfl | rfl | rfl | rfl | rfl <;>
    exact isRemark_append (by decide +kernel) _

theorem starts_countLine (n : Nat) : starts "c Models" (countLine n) = true :=
  starts_append (by decide +kernel) _

theorem starts_modelLine (ints : List Int) : starts "v" (modelLine ints) = true := by
  rw [starts_iff, toList_modelLine]
  exact List.prefix_append _ _

/-- Lines with a verdict: the status comes after remarks, and below it the count of models and the models
themselves, where they are asked for. -/
def verdictLines (before : List String) (status : String) (count : Option Nat)
    (models : List (List Int)) : List String :=
  before ++ status :: (count.toList.map countLine ++ models.map modelLine)

/-- A line that begins in one of the ways begins in that way only. -/
theorem starts_eq_decide (h : starts first line = true) (hfirst : first ∈ heads) (hhead : head ∈ heads) :
    starts head line = decide (head = first) := by
  by_cases heq : head = first
  · simpa [heq] using h
  · have hunlike : ∀ first ∈ heads, ∀ head ∈ heads, head ≠ first → unlike first head = true := by
      decide +kernel
    simpa [heq] using starts_eq_false h (hunlike first hfirst head hhead heq)

theorem filter_starts {lines : List String} (h : ∀ line ∈ lines, starts first line = true)
    (hfirst : first ∈ heads) (hhead : head ∈ heads) :
    lines.filter (starts head) = if head = first then lines else [] := by
  split
  · rename_i heq
    rw [heq]
    exact List.filter_eq_self.2 h
  · rename_i hne
    rw [List.filter_eq_nil_iff]
    intro line hline
    simp [starts_eq_decide (h line hline) hfirst hhead, hne]

/-- A reader finds the status, the count and the models by how their lines begin. -/
theorem filter_verdictLines {status : String} {count : Option Nat} {models : List (List Int)}
    (hbefore : ∀ line ∈ before, isRemark line = true) (hstatus : starts "s " status = true)
    (hhead : head ∈ heads) : (verdictLines before status count models).filter (starts head) =
      if head = "s " then [status]
      else if head = "c Models" then count.toList.map countLine
      else if head = "v" then models.map modelLine
      else [] := by
  have hremarks : before.filter (starts head) = [] := by
    rw [List.filter_eq_nil_iff]
    intro line hline
    simp [starts_of_isRemark (hbefore line hline) hhead]
  have hmarked : [status].filter (starts head) = if head = "s " then [status] else [] :=
    filter_starts (by simpa using hstatus) (by decide) hhead
  have hcount : (count.toList.map countLine).filter (starts head) =
      if head = "c Models" then count.toList.map countLine else [] :=
    filter_starts (by simp [starts_countLine]) (by decide) hhead
  have hmodels : (models.map modelLine).filter (starts head) =
      if head = "v" then models.map modelLine else [] :=
    filter_starts (by simp [starts_modelLine]) (by decide) hhead
  rw [verdictLines, List.filter_append, hremarks, List.nil_append, ← List.singleton_append,
    List.filter_append, List.filter_append, hmarked, hcount, hmodels]
  split_ifs <;> simp_all

/-- The models that are shown: all those kept where they are enumerated, and the first one otherwise. -/
def shownModels (s : Session) (showModels : Bool) : List (List Int) :=
  if showModels then
    if s.settings.enumerate then s.solutions.cubes.toList else s.solutions.model.toList
  else []

/-- The number of models, where they are enumerated. -/
def shownCount (s : Session) (count : Nat) : Option Nat :=
  if s.settings.enumerate then some count else none

theorem append_satisfiableLines (s : Session) (showModels : Bool) :
    before ++ satisfiableLines s showModels =
      verdictLines before "s SATISFIABLE" (shownCount s s.solutions.count) (shownModels s showModels) := by
  unfold satisfiableLines verdictLines shownCount shownModels
  split <;> split <;> simp

theorem append_unsatisfiableLines (s : Session) :
    before ++ unsatisfiableLines s = verdictLines before "s UNSATISFIABLE" (shownCount s 0) [] := by
  unfold unsatisfiableLines verdictLines shownCount
  split <;> simp

end ClauseSearch.CommandLine
