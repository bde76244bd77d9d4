import ClauseSearch.Proofs.Exhaustive
import ClauseSearch.Proofs.Sessions
import ClauseSearch.Proofs.Verification

/-! Models in the numbering of the clauses that a session was given. However its tasks are run and whenever
the time runs out, a solve reports a formula satisfiable exactly if it has a model to show, and the model
and the cubes kept satisfy the clauses as they were given. -/

namespace ClauseSearch

open Search

variable {p : Prepared} {f : Formula} {w : Valuation} {ints : List Int} {x : Nat} {b : Bool}

/-! ### Integers of a model -/

theorem Prepared.signed_natAbs (n : Int) : signed n.natAbs (decide (0 < n)) = n := by
  rcases lt_or_ge 0 n with hpos | hneg
  · simp only [signed, Literal.toInt, hpos, decide_true, if_true]
    exact Int.natAbs_of_nonneg hpos.le
  · simp only [signed, Literal.toInt, hneg.not_gt, decide_false, Bool.false_eq_true, if_false]
    exact neg_eq_iff_eq_neg.2 (Int.ofNat_natAbs_of_nonpos hneg)

theorem mem_of_lastSign (h : lastSign ints x = some b) : Prepared.signed x b ∈ ints := by
  obtain ⟨n, hfind, rfl⟩ := Option.map_eq_some_iff.1 h
  obtain rfl : n.natAbs = x := by simpa using List.find?_some hfind
  rw [Prepared.signed_natAbs]
  exact List.mem_reverse.1 (List.mem_of_find?_eq_some hfind)

theorem Prepared.length_modelOf (p : Prepared) (w : Valuation) :
    (p.modelOf w).length = p.variableCount := by simp [modelOf]

theorem Prepared.getElem_modelOf {i : Nat} (h : i < (p.modelOf w).length) :
    ∃ b, (p.modelOf w)[i] = signed (i + 1) b := by
  exact ⟨_, (List.getElem_map _).trans (by rw [List.getElem_range'_1, Nat.add_comm 1 i])⟩

theorem Formula.Accepts.exists_mem (h : f.Accepts ints) {c : Clause} (hc : c ∈ f.clauses) :
    ∃ n ∈ c.map Literal.toInt, n ∈ ints := by
  obtain ⟨l, hl, hsign⟩ := h.2 c hc
  exact ⟨l.toInt, List.mem_map_of_mem hl, mem_of_lastSign hsign⟩

theorem Grounded.exists_of_mem_cubes {o : Options} {leaves : List Valuation} {verdict : Verdict}
    {found : Solutions} (h : Grounded p o leaves verdict found) {cube : List Int}
    (hcube : cube ∈ found.cubes) : ∃ w ∈ leaves, cube = p.cubeOf w := by
  rw [h.found] at hcube
  suffices ∀ start : Solutions, cube ∈ (leaves.foldl (record p o) start).cubes →
      cube ∈ start.cubes ∨ ∃ w ∈ leaves, cube = p.cubeOf w by
    simpa using this {} hcube
  intro start
  clear h hcube
  induction leaves generalizing start with
  | nil => exact .inl
  | cons w leaves ih =>
    intro hmem
    rcases ih _ hmem with hmem | ⟨w', hw', rfl⟩
    · simp only [record] at hmem
      split at hmem
      · rcases Array.mem_push.1 hmem with hmem | rfl
        · exact .inl hmem
        · exact .inr ⟨w, List.mem_cons_self, rfl⟩
      · exact .inl hmem
    · exact .inr ⟨w', List.mem_cons_of_mem _ hw', rfl⟩

namespace Session

variable {s t : Session} {clauses : List (List Int)}
  {result : Except SessionError Verdict × Session}

/-! ### Solves -/

/-- The results of a solve whose tasks run on some number of workers side by side. -/
def Solves (s : Session) (result : Except SessionError Verdict × Session) : Prop :=
  ∃ solver start workers, s.solveWith solver = .ok result ∧
    ∀ p, Prepared.ofFormula s.formula s.settings.heuristic = .ok (.ok p) →
      ∃ ended found, solver p s.settings = .ok found ∧
        p.Dispatches s.settings start workers ended found

/-- To solve with the tasks one after another is to solve with them on workers. -/
theorem solves_of_solve (h : s.Ready clauses) {clock : Clock} (hsolve : s.solve clock = .ok result) :
    s.Solves result := by
  refine ⟨fun problem settings => problem.solve settings clock, clock.start, 1, hsolve, fun p hp => ?_⟩
  obtain ⟨hproper, -⟩ := Prepared.proper_of_ofFormula h.built.stored hp
  rw [solve, h.solveWith_eq_map hp] at hsolve
  obtain ⟨found, hfound, -⟩ := Fault.map_eq_ok.1 hsolve
  obtain ⟨ended, hdispatch⟩ := Prepared.dispatches_of_solve hproper Nat.one_pos hfound
  exact ⟨ended, found, hfound, hdispatch⟩

/-! ### Models -/

theorem value?_of_model {model : List Int} (h : t.solutions.model = some model) (x : Nat) :
    t.value? x = if x = 0 then none else model[x - 1]?.map fun n => decide (0 < n) := by
  simp [value?, h]

theorem verify_of_problem (h : t.problem = some p) (ints : List Int) : t.verify ints = p.verify ints := by
  rw [verify, h]

/-- However its tasks are run and whenever the time runs out, a solve ends in a verdict, and there is a
model exactly where it is that the clauses are satisfiable. The model has one integer for each variable
in order and satisfies every clause as it was given, verification accepts it and each cube kept, and the
value of a variable is the sign of its integer. -/
theorem models_of_given (h : s.Given clauses) (hsolve : s.Solves result) :
    ∃ verdict t, result = (.ok verdict, t) ∧ t.verdict = verdict ∧
      (t.solutions.model.isSome = true ↔ verdict = .satisfiable) ∧
      (∀ model, t.solutions.model = some model →
        model.length = s.formula.variableCount ∧
        (∀ i (hi : i < model.length), model[i] = (i + 1 : Nat) ∨ model[i] = -(i + 1 : Nat)) ∧
        (∀ c ∈ clauses, ∃ n ∈ c, n ∈ model) ∧
        t.verify model = .ok true ∧
        (∀ i (hi : i < model.length), t.value? (i + 1) = some (decide (0 < model[i]))) ∧
        ∀ x, x = 0 ∨ s.formula.variableCount < x → t.value? x = none) ∧
      ∀ cube ∈ t.solutions.cubes, t.verify cube = .ok true := by
  have hready := h.ready
  have hranged := hready.built.stored.ranged
  obtain ⟨p, hp, hproper, hrenames⟩ :=
    Prepared.ofFormula_eq_ok hready.built.stored s.settings.heuristic
  obtain ⟨solver, start, workers, hsolve, hdispatches⟩ := hsolve
  obtain ⟨ended, found, hfound, hdispatch⟩ := hdispatches p hp
  obtain ⟨outcome, leaves, rfl, hgrounded, -⟩ := hdispatch.sound hproper
  rw [hready.solveWith_eq_map hp, hfound] at hsolve
  obtain rfl := Except.ok.inj hsolve
  have hverify : ∀ ints, s.formula.Accepts ints → (s.solved p (.ok outcome)).2.verify ints = .ok true := by
    intro ints haccepts
    obtain ⟨accepted, hverify, hiff⟩ := Prepared.verify_iff hproper hrenames hranged ints
    rw [verify_of_problem rfl, hverify, hiff.2 haccepts]
  refine ⟨outcome.verdict, _, rfl, ?_, ?_, fun model hmodel => ?_, fun cube hcube => ?_⟩
  · show (Phase.ofVerdict outcome.verdict).verdict = _
    cases outcome.verdict <;> rfl
  · show outcome.solutions.model.isSome = true ↔ _
    rw [hgrounded.verdict, hgrounded.model, Option.isSome_map, List.isSome_head?]
  · have hvalue := value?_of_model hmodel
    change outcome.solutions.model = some model at hmodel
    rw [hgrounded.model] at hmodel
    obtain ⟨w, hw, rfl⟩ := Option.map_eq_some_iff.1 hmodel
    have haccepts := accepts_modelOf hrenames hranged
      (hgrounded.solved w (List.mem_of_mem_head? hw))
    have hlength : (p.modelOf w).length = s.formula.variableCount :=
      (p.length_modelOf w).trans hrenames.variableCount
    refine ⟨hlength, fun i hi => ?_, fun c hc => ?_, hverify _ haccepts, fun i hi => ?_, fun x hx => ?_⟩
    · obtain ⟨b, hb⟩ := p.getElem_modelOf hi
      rw [hb]
      cases b
      · exact .inr rfl
      · exact .inl rfl
    · rw [← hready.stored] at hc
      obtain ⟨d, hd, rfl⟩ := List.mem_map.1 hc
      exact haccepts.exists_mem (Array.mem_toList_iff.1 hd)
    · rw [hvalue, if_neg (Nat.succ_ne_zero i), Nat.add_sub_cancel, List.getElem?_eq_getElem hi]
      rfl
    · rw [hvalue]
      split
      · rfl
      · rw [List.getElem?_eq_none (by omega)]
        rfl
  · obtain ⟨w, hw, rfl⟩ := hgrounded.exists_of_mem_cubes hcube
    exact hverify _ (accepts_cubeOf hrenames hranged (hgrounded.solved w hw))

theorem models_of_given_two_clauses : ∃ s t : Session, ∃ model, s.Given [[1, 2], [-1]] ∧
    s.solve (.standing ⟨.zero⟩ 0) = .ok (.ok .satisfiable, t) ∧ t.solutions.model = some model ∧
      model.length = 2 ∧ t.verify model = .ok true := by
  have h : Given _ [[1, 2], [-1]] := .add (.add (.new {}) rfl) rfl
  obtain ⟨p, outcome, t, hp, hrenames, hanswers, hsolve, -⟩ :=
    h.ready.answers rfl (.inl ⟨.standing ⟨.zero⟩ 0, rfl⟩)
  have hsat : outcome.verdict = .satisfiable :=
    hanswers.satisfiable ((Prepared.satisfiable_iff hp hrenames h.ready.built.stored.ranged).2
      ⟨fun x => x == 2, by rw [h.ready.holds_eq]; decide⟩)
  rw [hsat] at hsolve
  obtain ⟨_, _, heq, -, hmodel, hmodels, -⟩ := models_of_given h (solves_of_solve h.ready hsolve)
  cases heq
  obtain ⟨model, hsome⟩ := Option.isSome_iff_exists.1 (hmodel.2 rfl)
  obtain ⟨hlength, -, -, hverify, -⟩ := hmodels model hsome
  exact ⟨_, t, model, h, hsolve, hsome, hlength, hverify⟩

end Session

end ClauseSearch
