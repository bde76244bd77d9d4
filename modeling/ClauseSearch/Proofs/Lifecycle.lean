import ClauseSearch.Proofs.InPlace
import ClauseSearch.Proofs.Models

/-! Sessions as a state machine. Clauses are taken in place until the first solve, a refused operation changes
nothing, and the solve is of the clauses given, in order. Without a time limit it ends in a verdict, and
whatever is done afterwards, the session keeps its verdict, what it has found and what it has counted; only
settings can still be changed, and they no longer matter. -/

namespace ClauseSearch

variable {p : Prepared} {settings changed : Settings} {setting : Setting}

/-! ### Settings -/

/-- Whether a setting leaves a solve without a time limit. -/
def Setting.untimed : Setting → Bool
  | .timeLimit limit => limit.isZero
  | _ => true

theorem Settings.limit?_of_set? (h : settings.set? setting = some changed)
    (hlimit : settings.limit? = none) (huntimed : setting.untimed = true) : changed.limit? = none := by
  cases setting with
  | timeLimit limit =>
    obtain ⟨value, hvalue, rfl⟩ := Option.map_eq_some_iff.1 h
    unfold Bounds.check? at hvalue
    split at hvalue
    · obtain rfl := Option.some.inj hvalue
      exact if_pos huntimed
    · simp at hvalue
  | traceDepth depth =>
    obtain rfl := Option.some.inj h
    exact hlimit
  | heuristic | pureLiterals | enumerate | keepModels | partitionDepth | threads | stackSize =>
    obtain ⟨_, _, rfl⟩ := Option.map_eq_some_iff.1 h
    exact hlimit

theorem Prepared.Dispatches.verdict_ne_unknown {start : Instant} {workers : Nat}
    {ended : List TaskReport} {outcome : Outcome} (hp : p.Proper) (hlimit : settings.limit? = none)
    (h : p.Dispatches settings start workers ended (.ok outcome)) : outcome.verdict ≠ .unknown := by
  intro hunknown
  obtain ⟨outcome', leaves, hresult, -, -, hopen, -⟩ := h.sound hp
  obtain rfl : outcome = outcome' := Except.ok.inj hresult
  obtain ⟨report, hreport, hending⟩ := hopen hunknown
  rcases h.cases hp with ⟨_, -, rfl, -⟩ | ⟨s, deadline, watches, reports, _, -, hrooted, hdeadline,
    hfollows, rfl, -⟩
  · simp at hreport
  · obtain rfl : none = deadline := by simpa [Settings.deadline, hlimit] using hdeadline
    have hsplits := Partition.splits_ofRoot (.ofSettings settings) settings.partitionDepth hp
      (hrooted.settled rfl)
    obtain ⟨task, htask, rfl⟩ := List.mem_map.1 hreport
    rw [List.mem_range] at htask
    obtain ⟨check, reason, hwatch, hreason⟩ := (hfollows.reported hsplits task htask).2.interrupted hending
    cases hreason
    exact absurd (hfollows.limited task htask check hwatch) (by simp)

theorem Prepared.Dispatches.satisfiable_iff {start : Instant} {workers : Nat}
    {ended : List TaskReport} {outcome : Outcome} (hp : p.Proper) (hlimit : settings.limit? = none)
    (h : p.Dispatches settings start workers ended (.ok outcome)) :
    p.formula.Satisfiable ↔ outcome.verdict = .satisfiable := by
  obtain ⟨outcome', leaves, hresult, hgrounded, hunsat, -⟩ := h.sound hp
  obtain rfl : outcome = outcome' := Except.ok.inj hresult
  refine ⟨fun hsat => ?_, hgrounded.satisfiable hp⟩
  cases hverdict : outcome.verdict with
  | satisfiable => rfl
  | unsatisfiable => exact absurd hsat (hunsat hverdict)
  | unknown => exact absurd hverdict (h.verdict_ne_unknown hp hlimit)

namespace Session

variable {s t u : Session} {clauses : List (List Int)} {answer : Except SessionError Verdict}

/-! ### Solves -/

/-- A session that can be solved takes over the outcome of its prepared formula. -/
theorem Ready.solved_of_solves (h : s.Ready clauses) (hsolve : s.Solves (answer, t)) :
    ∃ p start workers ended outcome, Prepared.ofFormula s.formula s.settings.heuristic = .ok (.ok p) ∧
      p.Proper ∧ p.Renames s.formula ∧ p.Dispatches s.settings start workers ended (.ok outcome) ∧
      (answer, t) = s.solved p (.ok outcome) := by
  obtain ⟨p, hp, hproper, hrenames⟩ :=
    Prepared.ofFormula_eq_ok h.built.stored s.settings.heuristic
  obtain ⟨solver, start, workers, hsolve, hdispatches⟩ := hsolve
  obtain ⟨ended, found, hfound, hdispatch⟩ := hdispatches p hp
  obtain ⟨outcome, -, rfl, -⟩ := hdispatch.sound hproper
  rw [h.solveWith_eq_map hp, hfound] at hsolve
  exact ⟨p, start, workers, ended, outcome, hp, hproper, hrenames, hdispatch,
    (Except.ok.inj hsolve).symm⟩

/-- A session with a verdict repeats it, however it would be solved. -/
theorem solveWith_of_verdict (h : s.phase = .satisfiable ∨ s.phase = .unsatisfiable)
    (solver : Prepared → Settings → Except Fault (Except SearchError Outcome)) :
    s.solveWith solver = .ok (.ok s.verdict, { s with trace := #[] }) := by
  rcases h with hphase | hphase <;> simp only [solveWith, hphase, verdict]

theorem repeated_of_solves (h : s.phase = .satisfiable ∨ s.phase = .unsatisfiable)
    (hsolve : s.Solves (answer, t)) : answer = .ok s.verdict ∧ t = { s with trace := #[] } := by
  obtain ⟨solver, start, workers, hsolve, -⟩ := hsolve
  rw [solveWith_of_verdict h, Except.ok.injEq, Prod.mk.injEq] at hsolve
  exact ⟨hsolve.1.symm, hsolve.2.symm⟩

theorem Ready.exists_solve (h : s.Ready clauses) (hlimit : s.settings.limit? = none) (clock : Clock) :
    ∃ verdict t, s.solve clock = .ok (.ok verdict, t) := by
  obtain ⟨_, outcome, t, -, -, -, hresult, -⟩ := h.answers hlimit (.inl ⟨clock, rfl⟩)
  exact ⟨outcome.verdict, t, hresult⟩

/-- To solve on one worker is to solve, also where the session has a verdict already. -/
theorem solves_of_built (hbuilt : s.formula.Built) (hlimit : s.settings.limit? = none) {clock : Clock}
    {result : Except SessionError Verdict × Session} (hsolve : s.solve clock = .ok result) :
    s.Solves result := by
  refine ⟨fun problem settings => problem.solve settings clock, clock.start, 1, hsolve, fun p hp => ?_⟩
  obtain ⟨hproper, -⟩ := Prepared.proper_of_ofFormula hbuilt.stored hp
  have hdeadline : s.settings.deadline clock.start = .ok none := by rw [Settings.deadline, hlimit]
  obtain ⟨outcome, houtcome⟩ := Prepared.exists_solve hproper hdeadline
  obtain ⟨ended, hdispatch⟩ := Prepared.dispatches_of_solve hproper Nat.one_pos houtcome
  exact ⟨ended, _, houtcome, hdispatch⟩

/-! ### Clauses taken -/

theorem add_eq_ok {ints : List Int} {id : Nat} (h : s.add ints = .ok (id, t)) :
    s.phase.isOpen = true ∧
      ∃ f, s.formula.add ints = .ok (id, f) ∧ t = { s with formula := f, phase := .input } := by
  unfold Session.add at h
  split at h
  · rename_i hopen
    split at h
    · rename_i id' f hadd
      obtain ⟨rfl, rfl⟩ := Prod.mk.inj (Except.ok.inj h)
      exact ⟨hopen, f, hadd, rfl⟩
    · simp at h
  · simp at h

theorem read_eq_ok {bytes : List UInt8} (h : s.read bytes = .ok t) :
    s.phase = .configuration ∧ s.formula.clauseCount = 0 ∧
      ∃ f, Dimacs.read bytes = .ok f ∧ t = { s with formula := f, phase := .input } := by
  unfold Session.read at h
  split at h
  · rename_i hempty
    split at h
    · rename_i f hread
      obtain rfl := Except.ok.inj h
      exact ⟨hempty.1, hempty.2, f, hread, rfl⟩
    · simp at h
  · simp at h

/-! ### Operations -/

/-- An operation on a session with its answer. -/
inductive Event where
  | set (setting : Setting) (taken : Bool)
  | add (ints : List Int) (answer : Except SessionError Nat)
  | read (bytes : List UInt8) (answer : Except SessionError Dimacs.Summary)
  | solve (answer : Except SessionError Verdict)
  /-- A question, which only reads the session. -/
  | ask

namespace Event

def given : Event → List (List Int)
  | add ints (.ok _) => [ints]
  | read bytes (.ok _) =>
    match Dimacs.read bytes with
    | .ok f => f.clauses.toList.map (List.map Literal.toInt)
    | .error _ => []
  | _ => []

/-- Whether clauses are taken, of which there may be none. -/
def gives : Event → Bool
  | add _ (.ok _) | read _ (.ok _) => true
  | _ => false

def refused : Event → Bool
  | set _ false | add _ (.error _) | read _ (.error _) => true
  | _ => false

def isSolve : Event → Bool
  | solve _ => true
  | _ => false

def untimed : Event → Bool
  | set setting true => setting.untimed
  | _ => true

theorem given_read {bytes : List UInt8} {f : Formula} (h : Dimacs.read bytes = .ok f)
    (counts : Dimacs.Summary) :
    given (.read bytes (.ok counts)) = f.clauses.toList.map (List.map Literal.toInt) := by
  rw [given, h]

end Event

variable {e : Event} {before events : List Event}

/-- What an operation does: clauses are taken in place. -/
inductive Step : Session → Event → Session → Prop
  | set {s t : Session} {setting : Setting} (h : s.set? setting = some t) : Step s (.set setting true) t
  | keep {s : Session} {setting : Setting} (h : s.set? setting = none) : Step s (.set setting false) s
  | add {s t : Session} {ints : List Int} {answer : Except SessionError Nat}
    (h : (addInPlace ints).on s = (answer, t)) : Step s (.add ints answer) t
  | read {s t : Session} {bytes : List UInt8} {answer : Except SessionError Dimacs.Summary}
    (h : (readInPlace bytes).on s = (answer, t)) : Step s (.read bytes answer) t
  | solve {s t : Session} {answer : Except SessionError Verdict} (h : s.Solves (answer, t)) :
    Step s (.solve answer) t
  | ask {s : Session} : Step s .ask s

theorem Step.byCases {motive : (s : Session) → (e : Event) → (t : Session) → Step s e t → Prop}
    (set : ∀ {s t setting} (h : s.set? setting = some t), motive s _ t (.set h))
    (keep : ∀ {s setting} (h : s.set? setting = none), motive s _ s (.keep h))
    (add : ∀ {s t ints id}, s.add ints = .ok (id, t) → ∀ h : Step s (.add ints (.ok id)) t,
      motive s _ t h)
    (notAdded : ∀ {s ints reason}, s.add ints = .error reason →
      ∀ h : Step s (.add ints (.error reason)) s, motive s _ s h)
    (read : ∀ {s t bytes}, s.read bytes = .ok t →
      ∀ h : Step s (.read bytes (.ok (Dimacs.summary t.formula))) t, motive s _ t h)
    (notRead : ∀ {s bytes reason}, s.read bytes = .error reason →
      ∀ h : Step s (.read bytes (.error reason)) s, motive s _ s h)
    (solve : ∀ {s t answer} (h : s.Solves (answer, t)), motive s _ t (.solve h))
    (ask : ∀ {s}, motive s .ask s .ask) (h : Step s e t) : motive s e t h := by
  cases h with
  | set h => exact set h
  | keep h => exact keep h
  | add h =>
    obtain ⟨id, rfl, hadd⟩ | ⟨reason, rfl, hadd, rfl⟩ := on_addInPlace_eq h
    · exact add hadd _
    · exact notAdded hadd _
  | read h =>
    obtain ⟨rfl, hread⟩ | ⟨reason, rfl, hread, rfl⟩ := on_readInPlace_eq h
    · exact read hread _
    · exact notRead hread _
  | solve h => exact solve h
  | ask => exact ask

inductive Run : Session → List Event → Session → Prop
  | nil {s : Session} : Run s [] s
  | cons {s t u : Session} {e : Event} {events : List Event} (h : Step s e t)
    (hrest : Run t events u) : Run s (e :: events) u

/-! ### After the verdict -/

/-- A session with a verdict changes in its settings and its trace at most. -/
theorem Step.of_verdict (h : Step s e t) (hphase : s.phase = .satisfiable ∨ s.phase = .unsatisfiable) :
    t = { s with settings := t.settings, trace := t.trace } ∧
      (∀ answer, e = .solve answer → answer = .ok s.verdict) ∧
      (∀ ints answer, e = .add ints answer → answer = .error .solveComplete) ∧
      ∀ bytes answer, e = .read bytes answer → answer = .error .formulaPresent := by
  have hadd : ∀ ints, s.add ints = .error .solveComplete := by
    intro ints
    rw [Session.add, if_neg]
    rcases hphase with h | h <;> simp [h, Phase.isOpen]
  have hread : ∀ bytes, s.read bytes = .error .formulaPresent := by
    intro bytes
    rw [Session.read, if_neg]
    rcases hphase with h | h <;> simp [h]
  cases h using Step.byCases with
  | set h =>
    obtain ⟨_, _, rfl⟩ := Option.map_eq_some_iff.1 h
    exact ⟨rfl, by simp, by simp, by simp⟩
  | keep | ask => exact ⟨rfl, by simp, by simp, by simp⟩
  | add h => simp [hadd] at h
  | read h => simp [hread] at h
  | notAdded h =>
    obtain rfl := Except.error.inj ((hadd _).symm.trans h)
    exact ⟨rfl, by simp, fun _ _ he => by cases he; rfl, by simp⟩
  | notRead h =>
    obtain rfl := Except.error.inj ((hread _).symm.trans h)
    exact ⟨rfl, by simp, by simp, fun _ _ he => by cases he; rfl⟩
  | solve h =>
    obtain ⟨rfl, rfl⟩ := repeated_of_solves hphase h
    exact ⟨rfl, fun _ he => by cases he; rfl, by simp, by simp⟩

/-- Nothing done after the verdict changes it or what was found, and each further solve repeats it. -/
theorem Run.of_verdict (h : Run s events t)
    (hphase : s.phase = .satisfiable ∨ s.phase = .unsatisfiable) :
    t = { s with settings := t.settings, trace := t.trace } ∧
      ∀ answer, .solve answer ∈ events → answer = .ok s.verdict := by
  induction h with
  | nil => exact ⟨rfl, by simp⟩
  | cons hstep _ ih =>
    obtain ⟨hsame, hsolve, -⟩ := hstep.of_verdict hphase
    have hphase' := hphase
    rw [hsame] at ih
    obtain ⟨hsame', hsolves⟩ := ih hphase'
    refine ⟨hsame', fun answer hmem => ?_⟩
    rcases List.mem_cons.1 hmem with hfirst | hlater
    · exact hsolve answer hfirst.symm
    · exact hsolves answer hlater

/-! ### Runs from a new session -/

/-- What holds of a session after the operations of a run without a time limit. -/
structure Kept (before : List Event) (s : Session) : Prop where
  untimed : s.settings.limit? = none
  built : s.formula.Built
  given : before.any Event.isSolve = false → s.Given (before.flatMap Event.given)
  solved : before.any Event.isSolve = true → s.phase = .satisfiable ∨ s.phase = .unsatisfiable

/-- What an operation does after the operations before it. -/
structure Conforms (before : List Event) (s : Session) (e : Event) (t : Session) : Prop where
  /-- An operation that is refused changes nothing. -/
  refused : e.refused = true → t = s
  /-- The phase moves from configuration to input where clauses are taken, and to a verdict by a solve. -/
  phase : t.phase = s.phase ∨ (s.phase = .configuration ∧ e.gives = true ∧ t.phase = .input) ∨
    ∃ verdict, verdict ≠ .unknown ∧ e = .solve (.ok verdict) ∧ s.phase.isOpen = true ∧
      t.phase = .ofVerdict verdict
  taken : e.gives = true → t.phase = .input
  /-- Until the first solve the formula holds the clauses given, in order, and a clause added gets their
  number for its own. -/
  given : before.any Event.isSolve = false →
    s.formula.clauses.toList.map (List.map Literal.toInt) = before.flatMap Event.given ∧
      ∀ ints id, e = .add ints (.ok id) → id = (before.flatMap Event.given).length
  /-- The first solve prepares this formula and ends in the verdict on it. -/
  solved : before.any Event.isSolve = false → ∀ answer, e = .solve answer → ∃ p verdict,
    Prepared.ofFormula s.formula s.settings.heuristic = .ok (.ok p) ∧ t.problem = some p ∧
      answer = .ok verdict ∧ t.phase = .ofVerdict verdict ∧
      ((∃ a : Assignment, ∀ c ∈ before.flatMap Event.given, a.satisfies c = true) ↔
        verdict = .satisfiable)
  /-- After it only settings change, besides the trace of the latest call to solve. -/
  closed : before.any Event.isSolve = true →
    t = { s with settings := t.settings, trace := t.trace } ∧
      (∀ answer, e = .solve answer → answer = .ok s.verdict) ∧
      (∀ ints answer, e = .add ints answer → answer = .error .solveComplete) ∧
      ∀ bytes answer, e = .read bytes answer → answer = .error .formulaPresent

theorem kept_new (hlimit : settings.limit? = none) : Kept [] { settings } where
  untimed := hlimit
  built := .empty
  given _ := .new settings
  solved h := by simp at h

section Kept

variable (hkept : Kept before s) (h : Step s e t)

include hkept h in
/-- The first solve has taken over the outcome of a dispatch, and a later one repeats its verdict. -/
theorem Kept.outcome_of_solve (he : e = .solve answer) :
    (∃ p start workers ended outcome,
      Prepared.ofFormula s.formula s.settings.heuristic = .ok (.ok p) ∧ p.Proper ∧
        p.Dispatches s.settings start workers ended (.ok outcome) ∧
        answer = .ok outcome.verdict ∧ t = (s.solved p (.ok outcome)).2) ∨
    before.any Event.isSolve = true ∧ answer = .ok s.verdict ∧ t = { s with trace := #[] } := by
  subst he
  cases h with
  | solve hsolves =>
    cases hany : before.any Event.isSolve with
    | true => exact .inr ⟨rfl, repeated_of_solves (hkept.solved hany) hsolves⟩
    | false =>
      obtain ⟨p, start, workers, ended, outcome, hp, hproper, -, hdispatch, heq⟩ :=
        (hkept.given hany).ready.solved_of_solves hsolves
      obtain ⟨rfl, rfl⟩ := Prod.mk.inj heq
      exact .inl ⟨p, start, workers, ended, outcome, hp, hproper, hdispatch, rfl, rfl⟩

theorem phase_ofVerdict {verdict : Verdict} (h : verdict ≠ .unknown) :
    Phase.ofVerdict verdict = .satisfiable ∨ Phase.ofVerdict verdict = .unsatisfiable := by
  cases verdict with
  | satisfiable => exact .inl rfl
  | unsatisfiable => exact .inr rfl
  | unknown => exact absurd rfl h

include hkept h in
/-- What holds of a session after a run holds after one more operation. -/
theorem Kept.step (huntimed : e.untimed = true) : Kept (before ++ [e]) t := by
  have hquiet : e.isSolve = false → (before ++ [e]).any Event.isSolve = before.any Event.isSolve := by
    intro hnot
    simp [hnot]
  have hgiven : ∀ cs, e.given = cs → (before ++ [e]).flatMap Event.given =
      before.flatMap Event.given ++ cs := by
    rintro _ rfl
    simp
  cases id h using Step.byCases with
  | set hset =>
    obtain ⟨changed, hchanged, rfl⟩ := Option.map_eq_some_iff.1 hset
    refine ⟨Settings.limit?_of_set? hchanged hkept.untimed huntimed, hkept.built, ?_, ?_⟩ <;>
      rw [hquiet rfl]
    · rw [hgiven [] rfl, List.append_nil]
      exact fun hany => .set (hkept.given hany) hset
    · exact hkept.solved
  | keep | notAdded | notRead | ask =>
    refine ⟨hkept.untimed, hkept.built, ?_, ?_⟩ <;> rw [hquiet rfl]
    · rw [hgiven [] rfl, List.append_nil]
      exact hkept.given
    · exact hkept.solved
  | add hadd =>
    obtain ⟨hopen, f, hf, rfl⟩ := add_eq_ok hadd
    refine ⟨hkept.untimed, hkept.built.add hf, ?_, fun hany => ?_⟩
    · rw [hquiet rfl, hgiven _ rfl]
      exact fun hany => .add (hkept.given hany) hadd
    · rw [hquiet rfl] at hany
      rcases hkept.solved hany with hphase | hphase <;> simp [hphase, Phase.isOpen] at hopen
  | read hread =>
    obtain ⟨hphase, hcount, f, hf, rfl⟩ := read_eq_ok hread
    have hnone : before.any Event.isSolve = false := by
      by_contra hany
      rcases hkept.solved (Bool.eq_true_of_not_eq_false hany) with h | h <;> simp [hphase] at h
    have hempty : before.flatMap Event.given = [] := by
      rw [← (hkept.given hnone).ready.stored]
      simpa [Formula.clauseCount] using hcount
    refine ⟨hkept.untimed, Dimacs.built_read hf, fun _ => ?_, fun hany => ?_⟩
    · rw [hgiven _ (Event.given_read hf _), hempty, List.nil_append]
      exact .read (hkept.given hnone) hread
    · rw [hquiet rfl, hnone] at hany
      simp at hany
  | solve hsolves =>
    have hany : ∀ answer, (before ++ [Event.solve answer]).any Event.isSolve = true := fun _ => by
      simp [Event.isSolve]
    rcases hkept.outcome_of_solve h rfl with ⟨p, start, workers, ended, outcome, -, hproper, hdispatch, -,
      rfl⟩ | ⟨hbefore, -, rfl⟩
    · refine ⟨hkept.untimed, .empty, fun hnone => ?_, fun _ => ?_⟩
      · simp [hany] at hnone
      · exact phase_ofVerdict (hdispatch.verdict_ne_unknown hproper hkept.untimed)
    · refine ⟨hkept.untimed, hkept.built, fun hnone => ?_, fun _ => hkept.solved hbefore⟩
      simp [hany] at hnone

include hkept h in
/-- The phase moves where clauses are taken and by the first solve. -/
theorem Kept.phase_of_step :
    t.phase = s.phase ∨ (s.phase = .configuration ∧ e.gives = true ∧ t.phase = .input) ∨
      ∃ verdict, verdict ≠ .unknown ∧ e = .solve (.ok verdict) ∧ s.phase.isOpen = true ∧
        t.phase = .ofVerdict verdict := by
  cases id h using Step.byCases with
  | set hset =>
    obtain ⟨_, _, rfl⟩ := Option.map_eq_some_iff.1 hset
    exact .inl rfl
  | keep | notAdded | notRead | ask => exact .inl rfl
  | add hadd =>
    obtain ⟨hopen, f, -, rfl⟩ := add_eq_ok hadd
    cases hphase : s.phase with
    | configuration => exact .inr (.inl ⟨rfl, rfl, rfl⟩)
    | input => exact .inl rfl
    | solving | satisfiable | unsatisfiable | unknown => simp [hphase, Phase.isOpen] at hopen
  | read hread =>
    obtain ⟨hphase, -, f, -, rfl⟩ := read_eq_ok hread
    exact .inr (.inl ⟨hphase, rfl, rfl⟩)
  | solve hsolves =>
    cases hany : before.any Event.isSolve with
    | true =>
      obtain ⟨-, rfl⟩ := repeated_of_solves (hkept.solved hany) hsolves
      exact .inl rfl
    | false =>
      have hready := (hkept.given hany).ready
      obtain ⟨p, start, workers, ended, outcome, -, hproper, -, hdispatch, heq⟩ :=
        hready.solved_of_solves hsolves
      obtain ⟨rfl, rfl⟩ := Prod.mk.inj heq
      exact .inr (.inr ⟨outcome.verdict, hdispatch.verdict_ne_unknown hproper hkept.untimed, rfl,
        hready.isOpen, rfl⟩)

include hkept h in
theorem Kept.verdict_of_solve (hany : before.any Event.isSolve = false) (he : e = .solve answer) :
    ∃ p verdict, Prepared.ofFormula s.formula s.settings.heuristic = .ok (.ok p) ∧ t.problem = some p ∧
      answer = .ok verdict ∧ t.phase = .ofVerdict verdict ∧
      ((∃ a : Assignment, ∀ c ∈ before.flatMap Event.given, a.satisfies c = true) ↔
        verdict = .satisfiable) := by
  subst he
  cases h with
  | solve hsolves =>
    have hready := (hkept.given hany).ready
    obtain ⟨p, start, workers, ended, outcome, hp, hproper, hrenames, hdispatch, heq⟩ :=
      hready.solved_of_solves hsolves
    obtain ⟨rfl, rfl⟩ := Prod.mk.inj heq
    refine ⟨p, outcome.verdict, hp, rfl, rfl, rfl, ?_⟩
    rw [← hdispatch.satisfiable_iff hproper hkept.untimed,
      Prepared.satisfiable_iff hproper hrenames hready.built.stored.ranged]
    refine exists_congr fun a => ?_
    rw [hready.holds_eq, List.all_eq_true]

include hkept h in
/-- Each operation of a run does what it should. -/
theorem Kept.conforms : Conforms before s e t where
  refused hrefused := by
    cases h using Step.byCases with
    | keep | notAdded | notRead | ask => rfl
    | set | add | read | solve => simp [Event.refused] at hrefused
  phase := hkept.phase_of_step h
  taken hgives := by
    cases h using Step.byCases with
    | add hadd =>
      obtain ⟨-, f, -, rfl⟩ := add_eq_ok hadd
      rfl
    | read hread =>
      obtain ⟨-, -, f, -, rfl⟩ := read_eq_ok hread
      rfl
    | set | keep | notAdded | notRead | solve | ask => simp [Event.gives] at hgives
  given hany := by
    have hstored := (hkept.given hany).ready.stored
    refine ⟨hstored, ?_⟩
    rintro ints id rfl
    cases h with
    | add hadd =>
      obtain ⟨_, heq, hadd⟩ | ⟨_, heq, -⟩ := on_addInPlace_eq hadd
      swap
      · cases heq
      cases heq
      obtain ⟨-, f, hf, -⟩ := add_eq_ok hadd
      rw [(Formula.store_of_add hf).1, ← hstored, List.length_map, Array.length_toList]
  solved hany answer he := hkept.verdict_of_solve h hany he
  closed hany := h.of_verdict (hkept.solved hany)

end Kept

theorem Run.kept (h : Run s events t) (hkept : Kept before s)
    (huntimed : ∀ e ∈ events, e.untimed = true) : Kept (before ++ events) t := by
  induction h generalizing before with
  | nil => rwa [List.append_nil]
  | cons hstep _ ih =>
    obtain ⟨hfirst, hrest⟩ := List.forall_mem_cons.1 huntimed
    rw [List.append_cons]
    exact ih (hkept.step hstep hfirst) hrest

theorem Kept.answer_eq (hkept : Kept before s) (h : Step s (.solve answer) t) : answer = .ok t.verdict := by
  rcases hkept.outcome_of_solve h rfl with ⟨p, _, _, _, outcome, -, -, -, rfl, rfl⟩ | ⟨-, rfl, rfl⟩
  · change _ = Except.ok (Phase.ofVerdict outcome.verdict).verdict
    cases outcome.verdict <;> rfl
  · rfl

theorem Kept.exists_solve (hkept : Kept before s) (clock : Clock) :
    ∃ verdict t, s.solve clock = .ok (.ok verdict, t) ∧ Step s (.solve (.ok verdict)) t := by
  suffices h : ∃ verdict t, s.solve clock = .ok (.ok verdict, t) by
    obtain ⟨verdict, t, hsolve⟩ := h
    exact ⟨verdict, t, hsolve, .solve (solves_of_built hkept.built hkept.untimed hsolve)⟩
  cases hany : before.any Event.isSolve with
  | true => exact ⟨s.verdict, { s with trace := #[] }, solveWith_of_verdict (hkept.solved hany) _⟩
  | false => exact (hkept.given hany).ready.exists_solve hkept.untimed clock

/-- Without a time limit every operation on a session does what it should, whatever was done before: an
operation that is refused changes nothing, and the first solve is of the clauses given, in order. After
it only settings change and each further solve repeats the verdict. A solve always ends. -/
theorem run_conforms (hlimit : settings.limit? = none) (huntimed : ∀ e ∈ before, e.untimed = true)
    (h : Run { settings } before s) :
    (∀ e t, Step s e t → Conforms before s e t) ∧
    (∀ answer t after u, Step s (.solve answer) t → Run t after u →
      u = { t with settings := u.settings, trace := u.trace } ∧
        ∀ again, .solve again ∈ after → again = answer) ∧
    ∀ clock, ∃ verdict t, s.solve clock = .ok (.ok verdict, t) ∧ Step s (.solve (.ok verdict)) t := by
  have hkept := h.kept (kept_new hlimit) huntimed
  refine ⟨fun _ _ hstep => hkept.conforms hstep, fun answer t after u hstep hafter => ?_, hkept.exists_solve⟩
  have hsolved := (hkept.step hstep rfl).solved (by simp [Event.isSolve])
  obtain ⟨hsame, hagain⟩ := hafter.of_verdict hsolved
  refine ⟨hsame, fun again hmem => ?_⟩
  rw [hagain again hmem, hkept.answer_eq hstep]

theorem run_conforms_solved_twice : ∃ s t u : Session, ∃ verdict,
    Run {} [.add [1, 0] (.error (.add .zeroLiteral)), .add [1] (.ok 0)] s ∧
      s.solve (.standing ⟨.zero⟩ 0) = .ok (.ok verdict, t) ∧
      t.solve (.standing ⟨.zero⟩ 0) = .ok (.ok verdict, u) ∧ u.solutions = t.solutions := by
  have hgiven : Run {} [.add [1, 0] (.error (.add .zeroLiteral)), .add [1] (.ok 0)] _ :=
    .cons (.add rfl) (.cons (.add rfl) .nil)
  obtain ⟨-, hlater, hends⟩ := run_conforms rfl (by simp [Event.untimed]) hgiven
  obtain ⟨verdict, t, hsolve, hfirst⟩ := hends (.standing ⟨.zero⟩ 0)
  have hsolved : Run {} [.add [1, 0] (.error (.add .zeroLiteral)), .add [1] (.ok 0),
      .solve (.ok verdict)] t := .cons (.add rfl) (.cons (.add rfl) (.cons hfirst .nil))
  obtain ⟨again, u, hsolve', hsecond⟩ :=
    (run_conforms rfl (by simp [Event.untimed]) hsolved).2.2 (.standing ⟨.zero⟩ 0)
  obtain ⟨hsame, hagain⟩ := hlater _ _ [.solve (.ok again)] u hfirst (.cons hsecond .nil)
  obtain rfl : again = verdict := Except.ok.inj (hagain _ (List.mem_singleton.2 rfl))
  exact ⟨_, t, u, again, hgiven, hsolve, hsolve', by rw [hsame]⟩

end Session

end ClauseSearch
