import ClauseSearch.Proofs.Counting
import ClauseSearch.Proofs.FormulaStore
import ClauseSearch.Proofs.Solving
import ClauseSearch.Session

/-! Sessions from the clauses they were given to what they answer. A solve never meets a fault and never fails,
whatever its checks find. Without a time limit its verdict is whether some assignment satisfies the
clauses, and when it enumerates, its count is the number of such assignments and each is in one cube. -/

namespace ClauseSearch

def Assignment.satisfies (a : Assignment) (ints : List Int) : Bool :=
  ints.any fun n => a n.natAbs == decide (0 < n)

namespace Session

variable {s t : Session} {clauses : List (List Int)} {a : Assignment} {p : Prepared}
  {solver solver' : Prepared → Settings → Except Fault (Except SearchError Outcome)}
  {result : Except Fault (Except SessionError Verdict × Session)}

/-! ### What a session was given -/

/-- Sessions that no solve was begun in, each with the clauses that it was given. -/
inductive Given : Session → List (List Int) → Prop
  | new (settings : Settings) : Given { settings } []
  | set {s t : Session} {clauses : List (List Int)} {setting : Setting} (h : Given s clauses)
      (ht : s.set? setting = some t) : Given t clauses
  | add {s t : Session} {clauses : List (List Int)} {ints : List Int} {id : Nat} (h : Given s clauses)
      (ht : s.add ints = .ok (id, t)) : Given t (clauses ++ [ints])
  | read {s t : Session} {clauses : List (List Int)} {bytes : List UInt8} (h : Given s clauses)
      (ht : s.read bytes = .ok t) : Given t (t.formula.clauses.toList.map (List.map Literal.toInt))

/-- The session holds the clauses and can be solved. -/
structure Ready (s : Session) (clauses : List (List Int)) : Prop where
  built : s.formula.Built
  isOpen : s.phase.isOpen = true
  stored : s.formula.clauses.toList.map (List.map Literal.toInt) = clauses

theorem Given.ready (h : s.Given clauses) : s.Ready clauses := by
  induction h with
  | new settings => exact ⟨.empty, rfl, rfl⟩
  | set _ ht ih =>
    obtain ⟨settings, _, rfl⟩ := Option.map_eq_some_iff.1 ht
    exact { ih with }
  | add _ ht ih =>
    unfold Session.add at ht
    split at ht
    · split at ht
      · rename_i f hadd
        cases ht
        obtain ⟨-, -, c, hc, rfl⟩ := Formula.store_of_add hadd
        refine ⟨.add ih.built hadd, rfl, ?_⟩
        simp only [Formula.store, Array.toList_push, List.map_append, ih.stored, List.map_cons,
          List.map_nil, Formula.toInt_of_literals hc]
      · exact absurd ht (by simp)
    · exact absurd ht (by simp)
  | read _ ht _ =>
    unfold Session.read at ht
    split at ht
    · split at ht
      · rename_i f hread
        cases ht
        exact ⟨Dimacs.built_read hread, rfl, rfl⟩
      · exact absurd ht (by simp)
    · exact absurd ht (by simp)

theorem holds_eq_satisfies {n : Nat} {c : Clause} (hc : c.Within n) :
    Clause.holds a c = a.satisfies (c.map Literal.toInt) := by
  rw [Bool.eq_iff_iff, Clause.holds_iff, Assignment.satisfies, List.any_map, List.any_eq_true]
  refine exists_congr fun l => and_congr_right fun hl => ?_
  rw [Function.comp_apply, beq_iff_eq]
  change _ ↔ a (Prepared.signed l.var l.polarity).natAbs =
    decide (0 < Prepared.signed l.var l.polarity)
  rw [Prepared.natAbs_signed, Prepared.signed_pos (hc l hl).1]

/-- An assignment satisfies the formula exactly if it satisfies every clause given. -/
theorem Ready.holds_eq (h : s.Ready clauses) (a : Assignment) :
    s.formula.holds a = clauses.all a.satisfies := by
  rw [Bool.eq_iff_iff, Formula.holds_eq_true_iff, ← h.stored, List.all_map, List.all_eq_true]
  simp only [Array.mem_toList_iff]
  refine forall₂_congr fun c hc => ?_
  rw [holds_eq_satisfies (h.built.stored.ranged c hc), Function.comp_apply]

/-! ### Solves -/

def solved (s : Session) (p : Prepared) :
    Except SearchError Outcome → Except SessionError Verdict × Session
  | .error reason =>
    (.error (.search reason),
      { s with formula := {}, trace := #[], phase := .unknown, problem := some p })
  | .ok outcome =>
    (.ok outcome.verdict,
      { s with
        formula := {}
        phase := .ofVerdict outcome.verdict
        problem := some p
        tally := outcome.tally
        solutions := outcome.solutions
        trace := outcome.trace
        timedOut := outcome.timedOut })

theorem Ready.solveWith_eq_map (h : s.Ready clauses)
    (hp : Prepared.ofFormula s.formula s.settings.heuristic = .ok (.ok p))
    (solver : Prepared → Settings → Except Fault (Except SearchError Outcome)) :
    s.solveWith solver = (solver p s.settings).map (s.solved p) := by
  have hopen := h.isOpen
  unfold solveWith
  cases hphase : s.phase with
  | configuration | input =>
    simp only [hp, bind, Except.bind]
    cases solver p s.settings with
    | error fault => rfl
    | ok found => cases found <;> rfl
  | solving | satisfiable | unsatisfiable | unknown => simp [hphase, Phase.isOpen] at hopen

theorem Ready.solveWith_eq (h : s.Ready clauses) : ∃ p : Prepared, p.Proper ∧ p.Renames s.formula ∧
    ∀ solver outcome, solver p s.settings = .ok (.ok outcome) →
      ∃ t, s.solveWith solver = .ok (.ok outcome.verdict, t) ∧ t.solutions = outcome.solutions := by
  obtain ⟨p, hp, hproper, hrenames⟩ :=
    Prepared.ofFormula_eq_ok h.built.stored s.settings.heuristic
  refine ⟨p, hproper, hrenames, fun solver outcome hsolver => ?_⟩
  rw [h.solveWith_eq_map hp, hsolver]
  exact ⟨_, rfl, rfl⟩

theorem solveWith_congr (h : ∀ p, solver p s.settings = solver' p s.settings) :
    s.solveWith solver = s.solveWith solver' := by
  unfold solveWith
  simp only [h]

/-- The results of solves that have no time limit: the tasks run one after another, or in any schedule. -/
def SolvesTo (s : Session) (result : Except Fault (Except SessionError Verdict × Session)) : Prop :=
  (∃ clock, s.solve clock = result) ∨
    ∃ runTasks, Partition.UntimedSchedule runTasks ∧
      s.solveWith (Prepared.solveWith runTasks) = result

theorem SolvesTo.schedule (h : s.SolvesTo result) (hlimit : s.settings.limit? = none) :
    ∃ runTasks, Partition.UntimedSchedule runTasks ∧
      s.solveWith (Prepared.solveWith runTasks) = result := by
  rcases h with ⟨clock, rfl⟩ | hschedule
  · refine ⟨Partition.inTurn (clock.expired none), Partition.untimedSchedule_inTurn fun _ _ => rfl, ?_⟩
    refine solveWith_congr fun p => ?_
    simp only [Prepared.solve, Settings.deadline, hlimit]
    rfl
  · exact hschedule

/-- Without a time limit, a solve ends in a verdict that answers for the clauses given. -/
theorem Ready.answers (h : s.Ready clauses) (hlimit : s.settings.limit? = none)
    (hsolve : s.SolvesTo result) : ∃ (p : Prepared) (outcome : Outcome) (t : Session),
      p.Proper ∧ p.Renames s.formula ∧ p.Answers s.settings outcome ∧
      result = .ok (.ok outcome.verdict, t) ∧ t.solutions = outcome.solutions := by
  obtain ⟨runTasks, hschedule, rfl⟩ := hsolve.schedule hlimit
  obtain ⟨p, hp, hrenames, hsession⟩ := h.solveWith_eq
  obtain ⟨part, hsolves⟩ := Prepared.solveWith_spec hp s.settings
  obtain ⟨watches, huntimed, hrun⟩ := hschedule part
  obtain ⟨outcome, houtcome, hanswers⟩ := hsolves runTasks watches hrun
  obtain ⟨t, hresult, hfound⟩ := hsession (Prepared.solveWith runTasks) outcome houtcome
  exact ⟨p, outcome, t, hp, hrenames, hanswers huntimed, hresult, hfound⟩

/-- Without a time limit, the verdict of a solve is whether some assignment satisfies every clause given. -/
theorem verdict_of_given (h : s.Given clauses) (hlimit : s.settings.limit? = none)
    (hsolve : s.SolvesTo result) : ∃ verdict t, result = .ok (.ok verdict, t) ∧
      ((∃ a : Assignment, ∀ c ∈ clauses, a.satisfies c = true) → verdict = .satisfiable) ∧
      ((¬ ∃ a : Assignment, ∀ c ∈ clauses, a.satisfies c = true) → verdict = .unsatisfiable) := by
  obtain ⟨p, outcome, t, hp, hrenames, hanswers, hresult, -⟩ := h.ready.answers hlimit hsolve
  have hmodels : p.formula.Satisfiable ↔ ∃ a : Assignment, ∀ c ∈ clauses, a.satisfies c = true := by
    rw [Prepared.satisfiable_iff hp hrenames h.ready.built.stored.ranged]
    refine exists_congr fun a => ?_
    rw [h.ready.holds_eq, List.all_eq_true]
  rw [← hmodels]
  exact ⟨outcome.verdict, t, hresult, hanswers.satisfiable, hanswers.unsatisfiable⟩

theorem verdict_of_given_two_clauses : ∃ s t : Session, s.Given [[1, 2], [-1]] ∧
    s.solve (.standing ⟨.zero⟩ 0) = .ok (.ok .satisfiable, t) := by
  have h : Given _ [[1, 2], [-1]] := .add (.add (.new {}) rfl) rfl
  obtain ⟨verdict, t, hresult, hsat, -⟩ := verdict_of_given h rfl (.inl ⟨.standing ⟨.zero⟩ 0, rfl⟩)
  rw [hsat ⟨fun x => x == 2, by decide⟩] at hresult
  exact ⟨_, t, h, hresult⟩

/-- Enumerating without a time limit, a solve counts the assignments of the variables that satisfy every
clause given, up to the limit, and the cubes it keeps divide them. -/
theorem enumeration_of_given (h : s.Given clauses) (hlimit : s.settings.limit? = none)
    (he : s.settings.enumerate = true) (hsolve : s.SolvesTo result) :
    ∃ verdict t, result = .ok (.ok verdict, t) ∧
      t.solutions.count =
        min (countAssignments s.formula.variableCount fun a => clauses.all a.satisfies)
          Solutions.countLimit ∧
      (s.settings.keepModels = true → ∀ a : Assignment,
        (clauses.all a.satisfies = true → t.solutions.cubes.toList.countP a.agrees = 1) ∧
        ∀ cube ∈ t.solutions.cubes, a.agrees cube = true → clauses.all a.satisfies = true) := by
  obtain ⟨p, outcome, t, hp, hrenames, hanswers, hresult, hfound⟩ := h.ready.answers hlimit hsolve
  have hranged := h.ready.built.stored.ranged
  have hholds := h.ready.holds_eq
  obtain ⟨leaves, hcover, hleaves⟩ := hanswers.covered he
  refine ⟨outcome.verdict, t, hresult, ?_, fun hk a => ?_⟩
  · rw [hfound, hleaves, count_foldl_record (Nat.zero_le _), ← countAssignments_any hcover.size
      hcover.apart, countAssignments_congr (hcover.any_admits hp),
      Prepared.countAssignments_eq hp hrenames hranged, countAssignments_congr hholds]
    simp
  · have hcubes : t.solutions.cubes.toList = leaves.map p.cubeOf := by
      rw [hfound, hleaves, cubes_foldl_record he hk]
      simp
    have hagrees : ∀ w ∈ leaves, a.agrees (p.cubeOf w) = w.admits (p.onRanks a) := fun w hw =>
      Prepared.agrees_cubeOf hp (by simp [Valuation.variableCount, hcover.size w hw]) a
    have hmodel : p.formula.holds (p.onRanks a) = clauses.all a.satisfies := by
      rw [Prepared.holds_onRanks hp hrenames hranged, hholds]
    constructor
    · intro hsat
      rw [hcubes, List.countP_map, List.countP_congr fun w hw => by rw [Function.comp_apply, hagrees w hw]]
      exact countP_admits_eq_one hcover.apart (hcover.complete _ (hmodel.trans hsat))
    · intro cube hcube hcubea
      rw [← Array.mem_toList_iff, hcubes] at hcube
      obtain ⟨w, hw, rfl⟩ := List.mem_map.1 hcube
      rw [← hmodel]
      exact (hcover.solved w hw).holds hp (by rw [← hagrees w hw, hcubea])

theorem enumeration_of_given_one_clause : ∃ s t : Session, ∃ verdict, s.Given [[1, 2]] ∧
    s.solve (.standing ⟨.zero⟩ 0) = .ok (.ok verdict, t) ∧ t.solutions.count = 3 ∧
    ∀ a : Assignment, a.satisfies [1, 2] = true → t.solutions.cubes.toList.countP a.agrees = 1 := by
  have h : Given _ [[1, 2]] := .add (.new { enumerate := true, keepModels := true }) rfl
  obtain ⟨verdict, t, hresult, hcount, hcubes⟩ :=
    enumeration_of_given h rfl rfl (.inl ⟨.standing ⟨.zero⟩ 0, rfl⟩)
  have hmodels : countAssignments 2 (fun a => [[1, 2]].all a.satisfies) = 3 := by decide
  refine ⟨_, t, verdict, h, hresult, ?_, fun a ha => (hcubes rfl a).1 (by simp [ha])⟩
  rw [hcount]
  change min (countAssignments 2 fun a => [[1, 2]].all a.satisfies) Solutions.countLimit = 3
  rw [hmodels]
  rfl

/-- A solve meets no fault and does not fail, in any schedule and whatever its checks find; what the
deadline computes is not part of it. -/
theorem faultless_of_given (h : s.Given clauses) :
    (∀ runTasks, Partition.Schedule runTasks →
      ∃ verdict t, s.solveWith (Prepared.solveWith runTasks) = .ok (.ok verdict, t)) ∧
    ∀ clock deadline, s.settings.deadline clock.start = .ok deadline →
      ∃ verdict t, s.solve clock = .ok (.ok verdict, t) := by
  obtain ⟨p, hp, -, hsession⟩ := h.ready.solveWith_eq
  obtain ⟨part, hsolves⟩ := Prepared.solveWith_spec hp s.settings
  have hschedule : ∀ runTasks, Partition.Schedule runTasks →
      ∃ verdict t, s.solveWith (Prepared.solveWith runTasks) = .ok (.ok verdict, t) := by
    intro runTasks hrun
    obtain ⟨watches, hrun⟩ := hrun part
    obtain ⟨outcome, houtcome, -⟩ := hsolves runTasks watches hrun
    obtain ⟨t, hresult, -⟩ := hsession (Prepared.solveWith runTasks) outcome houtcome
    exact ⟨outcome.verdict, t, hresult⟩
  refine ⟨hschedule, fun clock deadline hdeadline => ?_⟩
  have hsame : s.solve clock =
      s.solveWith (Prepared.solveWith (Partition.inTurn (clock.expired deadline))) := by
    refine solveWith_congr fun p => ?_
    simp only [Prepared.solve, hdeadline]
    rfl
  rw [hsame]
  exact hschedule _ Partition.schedule_inTurn

theorem faultless_of_given_interrupted : ∃ s t : Session, ∃ verdict, s.Given [[1, 2], [-1, -2]] ∧
    s.solveWith (Prepared.solveUnder fun _ _ => some .timeLimit) = .ok (.ok verdict, t) := by
  have h : Given _ [[1, 2], [-1, -2]] := .add (.add (.new {}) rfl) rfl
  obtain ⟨verdict, t, hresult⟩ := (faultless_of_given h).1
    (Partition.runAll fun _ _ => some .timeLimit) fun _ => ⟨_, rfl⟩
  exact ⟨_, t, verdict, h, hresult⟩

end Session

end ClauseSearch
