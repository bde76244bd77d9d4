import ClauseSearch.Proofs.Lifecycle
import ClauseSearch.Proofs.LineFeeds

/-! The command from the bytes of a file to the lines printed. Without a time limit the response says whether
the formula in the file is satisfiable, and its lines are the evidence: a model has a literal of every
clause, the count is the number of models, and the cubes shown divide the models. Verification never fails
and neither does the solve. -/

namespace ClauseSearch

open Search

variable {p : Prepared} {f : Formula} {w : Valuation} {leaves : List Valuation} {ints : List Int}

/-! ### Models and cubes -/

/-- Integers with one on each variable in order, and with a literal of every clause. -/
structure Formula.IsModel (f : Formula) (ints : List Int) : Prop where
  length : ints.length = f.variableCount
  entries : ∀ i (hi : i < ints.length), ints[i] = (i + 1 : Nat) ∨ ints[i] = -(i + 1 : Nat)
  clauses : ∀ c ∈ f.clauses, ∃ l ∈ c, l.toInt ∈ ints

/-- Cubes that no assignment has two of, and one of which it has exactly if it satisfies the formula. -/
structure Formula.Divided (f : Formula) (cubes : List (List Int)) : Prop where
  ranged : ∀ cube ∈ cubes, ∀ n ∈ cube, n ≠ 0 ∧ n.natAbs ≤ f.variableCount
  apart : cubes.Pairwise fun c d => ∀ a : Assignment, a.agrees c = true → a.agrees d = false
  covers : ∀ a : Assignment, f.holds a = true ↔ ∃ cube ∈ cubes, a.agrees cube = true

theorem Formula.IsModel.natAbs_le (h : f.IsModel ints) {n : Int} (hn : n ∈ ints) :
    n.natAbs ≤ f.variableCount := by
  obtain ⟨i, hi, rfl⟩ := List.getElem_of_mem hn
  have hlength := h.length
  rcases h.entries i hi with hentry | hentry <;> omega

theorem isModel_modelOf (hrenames : p.Renames f) (hf : f.Ranged) (hw : Solved p w) :
    f.IsModel (p.modelOf w) where
  length := (p.length_modelOf w).trans hrenames.variableCount
  entries i hi := by
    obtain ⟨b, hb⟩ := p.getElem_modelOf hi
    rw [hb]
    cases b with
    | true => exact .inl rfl
    | false => exact .inr rfl
  clauses c hc := by
    obtain ⟨n, hn, hmem⟩ := (accepts_modelOf hrenames hf hw).exists_mem hc
    obtain ⟨l, hl, rfl⟩ := List.mem_map.1 hn
    exact ⟨l, hl, hmem⟩

theorem Grounded.exists_model {o : Options} {verdict : Verdict} {found : Solutions}
    (h : Grounded p o leaves verdict found) (hverdict : verdict = .satisfiable) :
    ∃ w, Solved p w ∧ found.model = some (p.modelOf w) := by
  obtain ⟨w, rest, rfl⟩ := List.exists_cons_of_ne_nil (h.verdict.1 hverdict)
  exact ⟨w, h.solved w List.mem_cons_self, h.model⟩

theorem verify_modelOf (hp : p.Proper) (hrenames : p.Renames f) (hf : f.Ranged) (hw : Solved p w) :
    p.verify (p.modelOf w) = .ok true := by
  obtain ⟨accepted, hverify, hiff⟩ := Prepared.verify_iff hp hrenames hf (p.modelOf w)
  rw [hverify, hiff.2 (accepts_modelOf hrenames hf hw)]

theorem divided_cubes (hp : p.Proper) (hrenames : p.Renames f) (hf : f.Ranged)
    (hcover : Cover p leaves) : f.Divided (leaves.map p.cubeOf) := by
  have hagrees : ∀ w ∈ leaves, ∀ a : Assignment,
      a.agrees (p.cubeOf w) = w.admits (p.onRanks a) := fun w hw a =>
    Prepared.agrees_cubeOf_of_size hp (hcover.size w hw) a
  -- an assignment has at each rank the value of the variable there, and leaves are apart on ranks
  refine ⟨fun cube hcube => ?_, List.pairwise_map.2 ?_, fun a => ?_⟩
  · obtain ⟨w, hw, rfl⟩ := List.mem_map.1 hcube
    exact (accepts_cubeOf hrenames hf (hcover.solved w hw)).1
  · apply hcover.apart.imp_of_mem
    intro w w' hw hw' hapart a ha
    rw [hagrees w' hw']
    exact hapart _ ((hagrees w hw a).symm.trans ha)
  · rw [← Prepared.holds_onRanks hp hrenames hf, ← hcover.any_admits hp, List.any_eq_true]
    simp only [List.mem_map, exists_exists_and_eq_and]
    exact exists_congr fun w => and_congr_right fun hw => by rw [hagrees w hw]

theorem divided_nil (h : ¬ f.Satisfiable) : f.Divided [] where
  ranged := by simp
  apart := .nil
  covers a := by simpa using fun ha => h ⟨a, ha⟩

theorem count_of_cover (hp : p.Proper) (hrenames : p.Renames f) (hf : f.Ranged)
    (hcover : Cover p leaves) {o : Options} : (leaves.foldl (record p o) {}).count =
      min (countAssignments f.variableCount f.holds) Solutions.countLimit := by
  rw [count_foldl_record (Nat.zero_le _), ← countAssignments_any hcover.size hcover.apart,
    countAssignments_congr (hcover.any_admits hp), Prepared.countAssignments_eq hp hrenames hf]
  simp

theorem countAssignments_eq_zero (h : ¬ f.Satisfiable) :
    countAssignments f.variableCount f.holds = 0 := by
  rw [countAssignments, Finset.card_eq_zero, Finset.filter_eq_empty_iff]
  intro b _ hb
  exact h ⟨_, hb⟩

/-! ### Sessions -/

namespace Session

variable {s t : Session} {clauses : List (List Int)} {answer : Except SessionError Verdict} {verdict : Verdict}
  {solve : Session → Except Fault (Except SessionError Verdict × Session)}

/-- Ways to solve sessions: with the tasks one after another, or on workers side by side. -/
def Solver (solve : Session → Except Fault (Except SessionError Verdict × Session)) : Prop :=
  ∀ s, (∃ clock, solve s = s.solve clock) ∨ ∃ result, solve s = .ok result ∧ s.Solves result

/-- A session has the verdict on a formula, and what it has found bears it out. -/
structure Decides (t : Session) (f : Formula) (verdict : Verdict) : Prop where
  satisfiable : f.Satisfiable → verdict = .satisfiable
  unsatisfiable : ¬ f.Satisfiable → verdict = .unsatisfiable
  model : f.Satisfiable → ∃ model, t.solutions.model = some model ∧ f.IsModel model ∧
    t.verify model = .ok true
  count : t.settings.enumerate = true → t.solutions.count =
    min (countAssignments f.variableCount f.holds) Solutions.countLimit
  cubes : t.settings.enumerate = true → t.settings.keepModels = true →
    f.Divided t.solutions.cubes.toList

theorem Solver.exists_solves (hsolve : Solver solve) (h : s.Ready clauses)
    (hlimit : s.settings.limit? = none) : ∃ result, solve s = .ok result ∧ s.Solves result := by
  rcases hsolve s with ⟨clock, hclock⟩ | hworkers
  · obtain ⟨verdict, t, hresult⟩ := h.exists_solve hlimit clock
    exact ⟨_, hclock.trans hresult, solves_of_solve h hresult⟩
  · exact hworkers

/-- Solved without a time limit, a session decides the formula that it held. -/
theorem Ready.decides (h : s.Ready clauses) (hlimit : s.settings.limit? = none)
    (hsolve : s.Solves (answer, t)) :
    ∃ verdict, answer = .ok verdict ∧ t.settings = s.settings ∧ t.Decides s.formula verdict := by
  obtain ⟨p, start, workers, ended, outcome, -, hproper, hrenames, hdispatch, heq⟩ :=
    h.solved_of_solves hsolve
  obtain ⟨rfl, rfl⟩ := Prod.mk.inj heq
  have hranged := h.built.stored.ranged
  have hverdict : s.formula.Satisfiable ↔ outcome.verdict = .satisfiable :=
    (Prepared.satisfiable_iff hproper hrenames hranged).symm.trans
      (hdispatch.satisfiable_iff hproper hlimit)
  refine ⟨outcome.verdict, rfl, rfl, hverdict.1, fun hunsat => ?_, fun hsat => ?_, fun he => ?_,
    fun he hk => ?_⟩
  · -- nothing is left open without a time limit
    have hknown := hdispatch.verdict_ne_unknown hproper hlimit
    cases hfound : outcome.verdict with
    | satisfiable => exact absurd (hverdict.2 hfound) hunsat
    | unsatisfiable => rfl
    | unknown => exact absurd hfound hknown
  · obtain ⟨_, leaves, hresult, hgrounded, -⟩ := hdispatch.sound hproper
    obtain rfl := Except.ok.inj hresult
    obtain ⟨w, hw, hmodel⟩ := hgrounded.exists_model (hverdict.1 hsat)
    exact ⟨p.modelOf w, hmodel, isModel_modelOf hrenames hranged hw,
      (verify_of_problem rfl _).trans (verify_modelOf hproper hrenames hranged hw)⟩
  · obtain ⟨leaves, hcover, hfound⟩ := hdispatch.covered hproper hlimit he
    show outcome.solutions.count = _
    rw [hfound, count_of_cover hproper hrenames hranged hcover]
  · obtain ⟨leaves, hcover, hfound⟩ := hdispatch.covered hproper hlimit he
    show s.formula.Divided outcome.solutions.cubes.toList
    rw [hfound, cubes_foldl_record he hk]
    exact divided_cubes hproper hrenames hranged hcover

end Session

namespace CommandLine

variable {args : List String} {sources : String → Source} {path : String} {g : Given}
  {bytes : List UInt8} {before : List String} {s changed : Settings} {b : Bounds Nat}
  {setting : Nat → Setting} {value : Option Nat} {t : Session} {verdict : Verdict}
  {solve : Session → Except Fault (Except SessionError Verdict × Session)}

/-! ### Settings -/

/-- What the settings say of the models and the time. -/
def asked (s : Settings) : Bool × Bool × Duration := (s.enumerate, s.keepModels, s.timeLimit)

theorem asked_of_change (h : change s b setting value = .ok changed)
    (hset : ∀ n changed, s.set? (setting n) = some changed → asked changed = asked s) :
    asked changed = asked s := by
  unfold change at h
  split at h
  · rw [Except.ok.inj h]
  · split at h
    · rename_i hchanged
      rw [← Except.ok.inj h]
      exact hset _ _ hchanged
    · simp at h

theorem asked_settings (h : settings g = .ok s) : asked s =
    (g.flags.contains .all, g.flags.contains .models, ⟨(g.values.lookup .timeLimit).getD 0, 0⟩) := by
  obtain ⟨s₁, h₁, h⟩ := Fault.bind_eq_ok.1 h
  obtain ⟨s₂, h₂, h₃⟩ := Fault.bind_eq_ok.1 h
  rw [asked_of_change h₃, asked_of_change h₂, asked_of_change h₁]
  · rfl
  all_goals
    intro n changed hset
    obtain ⟨_, -, rfl⟩ := Option.map_eq_some_iff.1 hset
    rfl

theorem limit?_of_settings (h : settings g = .ok s)
    (hlimit : (g.values.lookup .timeLimit).getD 0 = 0) : s.limit? = none := by
  have htime : s.timeLimit = ⟨(g.values.lookup .timeLimit).getD 0, 0⟩ :=
    congrArg (fun asked => asked.2.2) (asked_settings h)
  rw [Settings.limit?, htime, hlimit]
  rfl

/-! ### Responses -/

theorem respondWith_of_error {e : Dimacs.ReadError} (hargs : readArguments args = .ok (.solve path g))
    (hbounds : settings g = .ok s) (hfile : sources path = .file bytes)
    (hread : Dimacs.read bytes = .error e) : respondWith solve args sources =
      { lines := ["c Reading DIMACS file from " ++ Quoted.encode path.toList,
          "c Parse error: " ++ (SessionError.read e).text]
        code := Code.failure } := by
  simp only [respondWith, hargs, solveFile, hbounds, hfile, readSource, Session.read, hread]
  rfl

theorem respondWith_of_ok (hargs : readArguments args = .ok (.solve path g))
    (hbounds : settings g = .ok s) (hfile : sources path = .file bytes)
    (hread : Dimacs.read bytes = .ok f) : respondWith solve args sources =
      report g (("c Reading DIMACS file from " ++ Quoted.encode path.toList) :: formulaLines f)
        (solve { settings := s, formula := f, phase := .input }) := by
  simp only [respondWith, hargs, solveFile, hbounds, hfile, readSource, Session.read, hread]
  rfl

/-- A session that decides a formula leads to lines with the verdict: its model passes verification. -/
theorem report_eq (h : t.Decides f verdict) (hbefore : ∀ line ∈ before, isRemark line = true) :
    ∃ before', (∀ line ∈ before', isRemark line = true) ∧
      (f.Satisfiable → report g before (.ok (.ok verdict, t)) =
        ⟨verdictLines before' "s SATISFIABLE" (shownCount t t.solutions.count)
          (shownModels t (!g.flags.contains .noModel)), Code.satisfiable, t.timedOut⟩) ∧
      (¬ f.Satisfiable → report g before (.ok (.ok verdict, t)) =
        ⟨verdictLines before' "s UNSATISFIABLE" (shownCount t 0) [], Code.unsatisfiable, t.timedOut⟩) := by
  refine ⟨before ++ if g.flags.contains .stats then tallyLines t.tally else [], ?_, ?_, ?_⟩
  · intro line hline
    rcases List.mem_append.1 hline with hline | hline
    · exact hbefore line hline
    · split at hline
      · exact isRemark_of_mem_tallyLines hline
      · simp at hline
  · intro hsat
    obtain ⟨model, hmodel, -, hverify⟩ := h.model hsat
    rw [h.satisfiable hsat, ← append_satisfiableLines]
    simp only [report, hmodel, Option.mapM_some, hverify]
    rfl
  · intro hunsat
    rw [h.unsatisfiable hunsat, ← append_unsatisfiableLines]
    rfl

/-! ### Certificates -/

/-- No line says that the solve failed or that a model did. -/
def Unfailed (lines : List String) : Prop := ∀ line ∈ lines,
  starts "c Model failed verification" line = false ∧ starts "c Solve error" line = false

/-- A response to the formula in a file, with the evidence that was asked for. -/
structure Certifies (g : Given) (f : Formula) (r : Response) : Prop where
  unfailed : Unfailed r.lines
  satisfiable : f.Satisfiable → r.code = Code.satisfiable ∧
    r.lines.filter (starts "s ") = ["s SATISFIABLE"]
  unsatisfiable : ¬ f.Satisfiable → r.code = Code.unsatisfiable ∧
    r.lines.filter (starts "s ") = ["s UNSATISFIABLE"]
  /-- The one line with a model shows one. -/
  model : r.code = Code.satisfiable → .all ∉ g.flags → .noModel ∉ g.flags →
    ∃ line ints, r.lines.filter (starts "v") = [line] ∧ shownInts? line = some ints ∧ f.IsModel ints
  count : .all ∈ g.flags → r.lines.filter (starts "c Models") =
    [countLine (min (countAssignments f.variableCount f.holds) Solutions.countLimit)]
  /-- The lines with models show cubes that divide them. -/
  cubes : .all ∈ g.flags → .models ∈ g.flags → .noModel ∉ g.flags →
    ∃ cubes, (r.lines.filter (starts "v")).mapM shownInts? = some cubes ∧ f.Divided cubes

section Verdict

variable {status : String} {count : Option Nat} {models : List (List Int)}
  (hbefore : ∀ line ∈ before, isRemark line = true) (hstatus : starts "s " status = true)

include hbefore hstatus in
theorem unfailed_verdictLines : Unfailed (verdictLines before status count models) := by
  have hverify : (verdictLines before status count models).filter
      (starts "c Model failed verification") = [] := by
    rw [filter_verdictLines hbefore hstatus (by decide)]
    rfl
  have hsolve : (verdictLines before status count models).filter (starts "c Solve error") = [] := by
    rw [filter_verdictLines hbefore hstatus (by decide)]
    rfl
  intro line hline
  rw [List.filter_eq_nil_iff] at hverify hsolve
  exact ⟨Bool.eq_false_of_not_eq_true (hverify line hline),
    Bool.eq_false_of_not_eq_true (hsolve line hline)⟩

include hbefore hstatus in
theorem filter_status :
    (verdictLines before status count models).filter (starts "s ") = [status] := by
  rw [filter_verdictLines hbefore hstatus (by decide)]
  rfl

include hbefore hstatus in
theorem filter_count : (verdictLines before status count models).filter (starts "c Models") =
    count.toList.map countLine := by
  rw [filter_verdictLines hbefore hstatus (by decide)]
  rfl

include hbefore hstatus in
theorem filter_models :
    (verdictLines before status count models).filter (starts "v") = models.map modelLine := by
  rw [filter_verdictLines hbefore hstatus (by decide)]
  rfl

end Verdict

section Certifies

variable (h : t.Decides f verdict) (hbefore : ∀ line ∈ before, isRemark line = true)
  (hall : t.settings.enumerate = g.flags.contains .all)

include h hbefore hall in
theorem certifies_of_satisfiable (hkept : t.settings.keepModels = g.flags.contains .models)
    (hle : f.variableCount ≤ greatestVariable) (hsat : f.Satisfiable) :
    Certifies g f ⟨verdictLines before "s SATISFIABLE" (shownCount t t.solutions.count)
      (shownModels t (!g.flags.contains .noModel)), Code.satisfiable, t.timedOut⟩ where
  unfailed := unfailed_verdictLines hbefore (by decide +kernel)
  satisfiable _ := ⟨rfl, filter_status hbefore (by decide +kernel)⟩
  unsatisfiable hunsat := absurd hsat hunsat
  model _ hone hshow := by
    obtain ⟨model, hmodel, hshown, -⟩ := h.model hsat
    refine ⟨modelLine model, model, ?_, ?_, hshown⟩
    · rw [filter_models hbefore (by decide +kernel)]
      simp [shownModels, hall, hone, hshow, hmodel]
    · exact shownInts?_modelLine fun n hn => (hshown.natAbs_le hn).trans hle
  count hmany := by
    have he : t.settings.enumerate = true := by simpa [hall] using hmany
    rw [filter_count hbefore (by decide +kernel), shownCount, if_pos he, h.count he]
    rfl
  cubes hmany hkeep hshow := by
    have he : t.settings.enumerate = true := by simpa [hall] using hmany
    have hcubes := h.cubes he (by simpa [hkept] using hkeep)
    have hshown : shownModels t (!g.flags.contains .noModel) = t.solutions.cubes.toList := by
      simp [shownModels, he, hshow]
    refine ⟨t.solutions.cubes.toList, ?_, hcubes⟩
    rw [filter_models hbefore (by decide +kernel), hshown]
    apply Sequence.mapM_map_eq_some
    intro cube hcube
    exact shownInts?_modelLine fun n hn => (hcubes.ranged cube hcube n hn).2.trans hle

include hbefore hall in
theorem certifies_of_unsatisfiable (hunsat : ¬ f.Satisfiable) :
    Certifies g f ⟨verdictLines before "s UNSATISFIABLE" (shownCount t 0) [], Code.unsatisfiable,
      t.timedOut⟩ where
  unfailed := unfailed_verdictLines hbefore (by decide +kernel)
  satisfiable hsat := absurd hsat hunsat
  unsatisfiable _ := ⟨rfl, filter_status hbefore (by decide +kernel)⟩
  model hcode := absurd hcode (show Code.unsatisfiable ≠ Code.satisfiable by decide)
  count hmany := by
    have he : t.settings.enumerate = true := by simpa [hall] using hmany
    rw [filter_count hbefore (by decide +kernel), shownCount, if_pos he,
      countAssignments_eq_zero hunsat]
    rfl
  cubes _ _ _ := by
    refine ⟨[], ?_, divided_nil hunsat⟩
    rw [filter_models hbefore (by decide +kernel)]
    rfl

include h hbefore hall in
theorem certifies_report (hkept : t.settings.keepModels = g.flags.contains .models)
    (hle : f.variableCount ≤ greatestVariable) :
    Certifies g f (report g before (.ok (.ok verdict, t))) := by
  obtain ⟨before', hbefore', hreport, hreport'⟩ := report_eq h hbefore
  by_cases hsat : f.Satisfiable
  · rw [hreport hsat]
    exact certifies_of_satisfiable h hbefore' hall hkept hle hsat
  · rw [hreport' hsat]
    exact certifies_of_unsatisfiable hbefore' hall hsat

end Certifies

section Respond

variable (hsolve : Session.Solver solve) (hargs : readArguments args = .ok (.solve path g))
  (hlimit : (g.values.lookup .timeLimit).getD 0 = 0) (hbounds : settings g = .ok s)
  (hfile : sources path = .file bytes)

include hargs hbounds hfile in
theorem failed_of_error (solve : Session → Except Fault (Except SessionError Verdict × Session))
    {e : Dimacs.ReadError} (hread : Dimacs.read bytes = .error e) :
    (respondWith solve args sources).code = Code.failure ∧
      Unfailed (respondWith solve args sources).lines := by
  rw [respondWith_of_error hargs hbounds hfile hread]
  refine ⟨rfl, fun line hline => ?_⟩
  have hremark : isRemark line = true := by
    rcases List.mem_pair.1 hline with rfl | rfl <;> exact isRemark_append (by decide +kernel) _
  exact ⟨starts_of_isRemark hremark (by decide), starts_of_isRemark hremark (by decide)⟩

include hsolve hargs hlimit hbounds hfile in
theorem certifies_of_read (hread : Dimacs.read bytes = .ok f) :
    Certifies g f (respondWith solve args sources) := by
  have hgiven : Session.Given { settings := s, formula := f, phase := .input } _ :=
    .read (.new s) (by rw [Session.read, hread]; rfl)
  have hready := hgiven.ready
  have htime := limit?_of_settings hbounds hlimit
  obtain ⟨⟨answer, t⟩, hsolved, hsolves⟩ := hsolve.exists_solves hready htime
  obtain ⟨verdict, rfl, hkept, hdecides⟩ := hready.decides htime hsolves
  obtain ⟨hall, hmodels, -⟩ : _ ∧ _ ∧ _ := by simpa [asked] using asked_settings hbounds
  rw [respondWith_of_ok hargs hbounds hfile hread, hsolved]
  refine certifies_report hdecides (List.forall_mem_cons.2 ⟨?_, fun line hline => ?_⟩) ?_ ?_
    hready.built.stored.variableCount_le
  · exact isRemark_append (by decide +kernel) _
  · exact isRemark_of_mem_formulaLines hline
  · rw [hkept]
    simpa using hall
  · rw [hkept]
    simpa using hmodels

end Respond

theorem Certifies.code_ne_failure {r : Response} (h : Certifies g f r) : r.code ≠ Code.failure := by
  by_cases hsat : f.Satisfiable
  · rw [(h.satisfiable hsat).1]
    decide
  · rw [(h.unsatisfiable hsat).1]
    decide

/-- Without a time limit the response is a certificate for the bytes of the file. The command fails exactly
where they cannot be read as a formula. Otherwise the code and the status say whether the clauses in the
file are satisfiable, and the count and the models shown, read back from their lines, are right; no line
says that a model fails verification or that the solve ends in an error. What is printed has these lines and
no others, since none holds a line feed. -/
theorem certificate_of_respond (hsolve : Session.Solver solve)
    (hargs : readArguments args = .ok (.solve path g))
    (hlimit : (g.values.lookup .timeLimit).getD 0 = 0) (hbounds : settings g = .ok s)
    (hfile : sources path = .file bytes) :
    ((respondWith solve args sources).code = Code.failure ↔ ∃ e, Dimacs.read bytes = .error e) ∧
    (∀ line ∈ (respondWith solve args sources).lines, Unbroken line) ∧
    Unfailed (respondWith solve args sources).lines ∧
    ∀ f, Dimacs.read bytes = .ok f → Certifies g f (respondWith solve args sources) ∧
      ∃ d clauses, Dimacs.Form bytes d clauses ∧ f.variableCount = d.variables ∧
        f.clauses.toList.map (List.map Literal.toInt) = clauses := by
  cases hread : Dimacs.read bytes with
  | error e =>
    obtain ⟨hcode, hlines⟩ := failed_of_error hargs hbounds hfile solve hread
    exact ⟨by simp [hcode], fun line => unbroken_of_mem_respondWith, hlines, by simp⟩
  | ok f =>
    have hcertifies := certifies_of_read hsolve hargs hlimit hbounds hfile hread
    obtain ⟨d, clauses, hform, -, -, hcount, hclauses⟩ := Dimacs.form_of_read hread
    refine ⟨by simp [hcertifies.code_ne_failure], fun line => unbroken_of_mem_respondWith,
      hcertifies.unfailed, fun f' hf' => ?_⟩
    obtain rfl := Except.ok.inj hf'
    exact ⟨hcertifies, d, clauses, hform, hcount, hclauses⟩

theorem certificate_of_respond_all_models : ∃ bytes r,
    bytes = ("p cnf 2 2\n1 2 0\n-1 0".toList.map fun c => c.val.toUInt8) ∧
    r = respond ["-am", "a"] (Function.const String (.file bytes)) (.standing ⟨.zero⟩ 0) ∧
      r.code = Code.satisfiable ∧ r.lines.filter (starts "s ") = ["s SATISFIABLE"] ∧
      r.lines.filter (starts "c Models") = [countLine 1] ∧ (∀ line ∈ r.lines, Unbroken line) ∧
      Unfailed r.lines := by
  have hsolve : Session.Solver fun s => s.solve (.standing ⟨.zero⟩ 0) := fun s => .inl ⟨_, rfl⟩
  have hargs : readArguments ["-am", "a"] = .ok (.solve "a" ⟨some "a", [.models, .all], []⟩) := rfl
  obtain ⟨-, hwhole, hlines, hread⟩ := certificate_of_respond hsolve hargs rfl rfl
    (rfl : Function.const String (Source.file _) "a" = .file
      ("p cnf 2 2\n1 2 0\n-1 0".toList.map fun c => c.val.toUInt8))
  obtain ⟨hcertifies, -⟩ := hread _ rfl
  obtain ⟨hcode, hstatus⟩ := hcertifies.satisfiable ⟨fun x => x == 2, by decide +kernel⟩
  refine ⟨_, _, rfl, rfl, hcode, hstatus, (hcertifies.count (by decide)).trans ?_, hwhole, hlines⟩
  exact congrArg (fun n => [countLine n]) (by decide +kernel)

end CommandLine

end ClauseSearch
