import ClauseSearch.Proofs.Certificate

/-! The time limits that a solve can keep. Every span up to the greatest is accepted as a limit, but the clock has
fewer seconds than that: the solve adds the limit to the reading with which it begins, and the sum must be a
reading too. Where it is, the solve ends in a verdict; where it is not, the solve meets a fault before anything
is searched, on any formula. -/

namespace ClauseSearch

variable {settings : Settings} {start : Instant}

/-! ### Deadlines -/

theorem Duration.seconds_add (a b : Duration) : (a.add b).seconds =
    a.seconds + b.seconds + (a.nanoseconds + b.nanoseconds) / perSecond := by
  simp only [add, ofNanoseconds, toNanoseconds, perSecond]
  omega

/-- The clock can hold the reading a span later. -/
def Instant.Reaches (t : Instant) (d : Duration) : Prop :=
  t.sinceStart.seconds + d.seconds +
    (t.sinceStart.nanoseconds + d.nanoseconds) / Duration.perSecond ≤ lastSecond

instance (t : Instant) (d : Duration) : Decidable (t.Reaches d) := Nat.decLe _ _

/-- A span with more seconds than the clock can hold is out of reach from any reading. -/
theorem Instant.not_reaches {t : Instant} {d : Duration} (h : lastSecond < d.seconds) :
    ¬ t.Reaches d := fun hreaches =>
  absurd (Nat.le_trans (Nat.le_add_left _ _) (Nat.le_of_add_right_le hreaches)) (Nat.not_le.2 h)

theorem Instant.after?_eq (t : Instant) (d : Duration) :
    t.after? d = if t.Reaches d then some ⟨t.sinceStart.add d⟩ else none := by
  simp only [after?, Reaches, ← Duration.seconds_add]

/-- A solve that begins at an instant can keep the limit: there is none, or the clock reaches its end. -/
def Settings.Usable (settings : Settings) (start : Instant) : Prop :=
  settings.timeLimit = .zero ∨ start.Reaches settings.timeLimit

instance (settings : Settings) (start : Instant) : Decidable (settings.Usable start) :=
  inferInstanceAs (Decidable (_ ∨ _))

/-- The deadline of a solve computes exactly where the limit can be kept. -/
theorem Settings.deadline_eq (settings : Settings) (start : Instant) : settings.deadline start =
    if settings.Usable start then .ok (settings.limit?.map fun d => ⟨start.sinceStart.add d⟩)
    else .error .deadline := by
  by_cases hzero : settings.timeLimit = .zero
  · have hlimit : settings.limit? = none := by rw [limit?, hzero]; rfl
    rw [deadline, hlimit, if_pos (.inl hzero)]
    rfl
  · have hlimit : settings.limit? = some settings.timeLimit :=
      if_neg fun h => hzero (beq_iff_eq.1 h)
    rw [deadline, hlimit]
    dsimp only
    rw [Instant.after?_eq]
    by_cases hreaches : start.Reaches settings.timeLimit
    · rw [if_pos hreaches, if_pos (.inr hreaches)]
      rfl
    · rw [if_neg hreaches, if_neg (show ¬ settings.Usable start from not_or.2 ⟨hzero, hreaches⟩)]
      rfl

theorem Settings.deadline_of_usable (h : settings.Usable start) :
    ∃ deadline, settings.deadline start = .ok deadline := ⟨_, by rw [deadline_eq, if_pos h]⟩

theorem Settings.usable_of_deadline {deadline : Option Instant}
    (h : settings.deadline start = .ok deadline) : settings.Usable start := by
  by_contra hunusable
  rw [deadline_eq, if_neg hunusable] at h
  simp at h

/-! ### Solves -/

theorem Prepared.Dispatches.usable {p : Prepared} {workers : Nat} {ended : List TaskReport}
    {result : Except SearchError Outcome} (h : p.Dispatches settings start workers ended result) :
    settings.Usable start := by
  cases h with
  | atRoot hdeadline _ => exact Settings.usable_of_deadline hdeadline
  | onPool hdeadline _ _ _ _ => exact Settings.usable_of_deadline hdeadline

namespace Session

variable {s t : Session} {clauses : List (List Int)} {clock : Clock} {verdict : Verdict}

/-- A limit that cannot be kept is met before anything else is done with the prepared formula. -/
theorem Ready.solve_of_not_usable (h : s.Ready clauses) (hunusable : ¬ s.settings.Usable clock.start) :
    s.solve clock = .error .deadline := by
  obtain ⟨p, hp, -⟩ := Prepared.ofFormula_eq_ok h.built.stored s.settings.heuristic
  rw [solve, h.solveWith_eq_map hp, Prepared.solve, Settings.deadline_eq, if_neg hunusable]
  rfl

theorem Ready.exists_solve_of_usable (h : s.Ready clauses) (husable : s.settings.Usable clock.start) :
    ∃ verdict t, s.solve clock = .ok (.ok verdict, t) := by
  obtain ⟨p, hp, hproper, -⟩ := Prepared.ofFormula_eq_ok h.built.stored s.settings.heuristic
  obtain ⟨deadline, hdeadline⟩ := Settings.deadline_of_usable husable
  obtain ⟨outcome, hsolve⟩ := Prepared.exists_solve hproper hdeadline
  refine ⟨outcome.verdict, (s.solved p (.ok outcome)).2, ?_⟩
  rw [solve, h.solveWith_eq_map hp, hsolve]
  rfl

theorem Ready.exists_verified (h : s.Ready clauses) (hsolve : s.Solves (.ok .satisfiable, t)) :
    ∃ model, t.solutions.model = some model ∧ t.verify model = .ok true := by
  obtain ⟨p, start, workers, ended, outcome, -, hproper, hrenames, hdispatch, heq⟩ :=
    h.solved_of_solves hsolve
  obtain ⟨hverdict, rfl⟩ := Prod.mk.inj heq
  obtain ⟨_, leaves, hresult, hgrounded, -⟩ := hdispatch.sound hproper
  obtain rfl := Except.ok.inj hresult
  obtain ⟨w, hw, hmodel⟩ := hgrounded.exists_model (Except.ok.inj hverdict).symm
  exact ⟨p.modelOf w, hmodel, (verify_of_problem rfl _).trans
    (verify_modelOf hproper hrenames h.built.stored.ranged hw)⟩

end Session

namespace CommandLine

variable {s : Session} {t : Session} {clauses : List (List Int)} {clock : Clock} {verdict : Verdict}
  {settings : Settings} {args : List String} {sources : String → Source} {path : String} {g : Given}
  {bytes : List UInt8} {f : Formula} {before : List String}

theorem code_report_ne_fault (h : s.Ready clauses) (hsolve : s.Solves (.ok verdict, t)) :
    (report g before (.ok (.ok verdict, t))).code ≠ Code.fault := by
  cases verdict with
  | unsatisfiable => exact show Code.unsatisfiable ≠ Code.fault by decide
  | unknown => exact show Code.unknown ≠ Code.fault by decide
  | satisfiable =>
    obtain ⟨model, hmodel, hverify⟩ := h.exists_verified hsolve
    unfold report
    dsimp only
    rw [hmodel, Option.mapM_some, hverify]
    exact show Code.satisfiable ≠ Code.fault by decide

/-- The command ends in a fault exactly where its limit in seconds cannot be kept. -/
theorem code_respond_eq_fault_iff (hargs : readArguments args = .ok (.solve path g))
    (hbounds : CommandLine.settings g = .ok settings) (hfile : sources path = .file bytes)
    (hread : Dimacs.read bytes = .ok f) :
    (respond args sources clock).code = Code.fault ↔ ¬ settings.Usable clock.start := by
  have hgiven : Session.Given { settings, formula := f, phase := .input } _ :=
    .read (.new settings) (by rw [Session.read, hread]; rfl)
  rw [respond, respondWith_of_ok hargs hbounds hfile hread]
  by_cases husable : settings.Usable clock.start
  · obtain ⟨verdict, t, hsolve⟩ := hgiven.ready.exists_solve_of_usable husable
    rw [hsolve]
    exact iff_of_false (code_report_ne_fault hgiven.ready (Session.solves_of_solve hgiven.ready hsolve))
      (not_not.2 husable)
  · rw [hgiven.ready.solve_of_not_usable husable]
    exact iff_of_true rfl husable

end CommandLine

namespace Session

variable {s : Session} {clauses : List (List Int)}

/-- A session ends its solve in a verdict exactly if its limit can be kept, and meets a fault otherwise, also
where the tasks run on workers. The command adds its limit in seconds, and ends in a fault exactly if this
limit cannot be kept. -/
theorem solve_iff_usable (h : s.Given clauses) :
    (∀ clock, s.settings.Usable clock.start → ∃ verdict t, s.solve clock = .ok (.ok verdict, t)) ∧
    (∀ clock, ¬ s.settings.Usable clock.start → s.solve clock = .error .deadline) ∧
    (∀ start workers, 0 < workers → ((∃ p ended outcome,
      Prepared.ofFormula s.formula s.settings.heuristic = .ok (.ok p) ∧
        p.Dispatches s.settings start workers ended (.ok outcome)) ↔ s.settings.Usable start)) ∧
    ∀ args sources path g settings bytes f clock,
      CommandLine.readArguments args = .ok (.solve path g) → CommandLine.settings g = .ok settings →
      sources path = CommandLine.Source.file bytes → Dimacs.read bytes = .ok f →
      settings.timeLimit = ⟨(g.values.lookup .timeLimit).getD 0, 0⟩ ∧
      ((CommandLine.respond args sources clock).code = CommandLine.Code.fault ↔
        ¬ settings.Usable clock.start) := by
  refine ⟨fun clock => h.ready.exists_solve_of_usable, fun clock => h.ready.solve_of_not_usable,
    fun start workers hworkers => ⟨?_, fun husable => ?_⟩, ?_⟩
  · rintro ⟨p, ended, outcome, -, hdispatch⟩
    exact hdispatch.usable
  · obtain ⟨deadline, hdeadline⟩ := Settings.deadline_of_usable husable
    obtain ⟨p, ended, result, hp, hdispatch⟩ :=
      Prepared.exists_dispatches h.ready.built s.settings start hdeadline hworkers
    obtain ⟨hproper, -⟩ := Prepared.proper_of_ofFormula h.ready.built.stored hp
    obtain ⟨outcome, -, rfl, -⟩ := hdispatch.sound hproper
    exact ⟨p, ended, outcome, hp, hdispatch⟩
  · intro args sources path g settings bytes f clock hargs hbounds hfile hread
    exact ⟨congrArg (fun asked => asked.2.2) (CommandLine.asked_settings hbounds),
      CommandLine.code_respond_eq_fault_iff hargs hbounds hfile hread⟩

/-- From the second after the clock begins, its last second is too far. -/
theorem solve_iff_usable_last_second : ∃ s : Session, s.Given [[1, 2]] ∧
    s.settings.timeLimit = ⟨Instant.lastSecond, 0⟩ ∧
    (∃ verdict t, s.solve (.standing ⟨.zero⟩ 0) = .ok (.ok verdict, t)) ∧
    s.solve (.standing ⟨⟨1, 0⟩⟩ 0) = .error .deadline ∧
    (CommandLine.respond ["-t", "9223372036854775807", "a"]
      (Function.const String (.file ("p cnf 0 0".toList.map fun c => c.val.toUInt8)))
      (.standing ⟨⟨1, 0⟩⟩ 0)).code = CommandLine.Code.fault := by
  have h : Given _ [[1, 2]] := .add (.new { timeLimit := ⟨Instant.lastSecond, 0⟩ }) rfl
  obtain ⟨hverdict, hfault, -, hrespond⟩ := solve_iff_usable h
  have hargs : CommandLine.readArguments ["-t", "9223372036854775807", "a"] =
      .ok (.solve "a" ⟨some "a", [], [(.timeLimit, 9223372036854775807)]⟩) := rfl
  refine ⟨_, h, rfl, hverdict _ ?_, hfault _ ?_, ?_⟩
  · exact .inr (show Instant.Reaches ⟨.zero⟩ ⟨Instant.lastSecond, 0⟩ by decide)
  · exact not_or.2 ⟨show (⟨Instant.lastSecond, 0⟩ : Duration) ≠ .zero by decide,
      show ¬ Instant.Reaches ⟨⟨1, 0⟩⟩ ⟨Instant.lastSecond, 0⟩ by decide⟩
  · obtain ⟨-, hcode⟩ := hrespond _ (Function.const String (.file _)) _ _ _ _ _
      (.standing ⟨⟨1, 0⟩⟩ 0) hargs rfl rfl (rfl : Dimacs.read
        ("p cnf 0 0".toList.map fun c => c.val.toUInt8) = .ok _)
    refine hcode.2 (not_or.2 ⟨?_, ?_⟩)
    · exact show (⟨9223372036854775807, 0⟩ : Duration) ≠ .zero by decide
    · exact show ¬ Instant.Reaches ⟨⟨1, 0⟩⟩ ⟨9223372036854775807, 0⟩ by decide

/-- The greatest limit is accepted, and no solve can keep it: whenever it begins, it meets a fault. -/
theorem greatest_limit_unusable : ∃ s : Session, s.Given [[1, 2], [-1, -2]] ∧
    Settings.set? {} (.timeLimit .greatest) = some s.settings ∧
    ∀ clock, s.solve clock = .error .deadline := by
  have h : Given _ [[1, 2], [-1, -2]] :=
    .add (.add (@Given.set _ _ _ (.timeLimit .greatest) (.new {}) rfl) rfl) rfl
  refine ⟨_, h, rfl, fun clock => h.ready.solve_of_not_usable (not_or.2 ⟨?_, ?_⟩)⟩
  · exact show Duration.greatest ≠ .zero by decide
  · exact Instant.not_reaches (d := .greatest) (by decide)

end Session

end ClauseSearch
