import ClauseSearch.Proofs.Lifecycle

/-! Verification before a solve and after it. Before a solve a session holds the clauses as they were given,
afterwards the formula on ranks, and either is asked about the same integers. Whatever the solve did, the
answers agree, and they are about the clauses as they were given. -/

namespace ClauseSearch

variable {f : Formula} {ints : List Int} {a : Assignment}

/-- An assignment that takes over the signs of accepted integers satisfies the formula. -/
theorem Formula.Accepts.holds (h : f.Accepts ints) (ha : ∀ x b, lastSign ints x = some b → a x = b) :
    f.holds a = true := by
  refine Formula.holds_eq_true_iff.2 fun c hc => Clause.holds_iff.2 ?_
  obtain ⟨l, hl, hsign⟩ := h.2 c hc
  exact ⟨l, hl, ha _ _ hsign⟩

namespace Session

variable {s t : Session} {clauses : List (List Int)} {p : Prepared}
  {solver : Prepared → Settings → Except Fault (Except SearchError Outcome)}
  {answer : Except SessionError Verdict}

theorem Given.problem_eq_none (h : s.Given clauses) : s.problem = none := by
  induction h with
  | new settings => rfl
  | set _ ht ih =>
    obtain ⟨settings, -, rfl⟩ := Option.map_eq_some_iff.1 ht
    exact ih
  | add _ ht ih =>
    obtain ⟨-, f, -, rfl⟩ := add_eq_ok ht
    exact ih
  | read _ ht ih =>
    obtain ⟨-, -, f, -, rfl⟩ := read_eq_ok ht
    exact ih

/-- However a solve ends, the session holds the prepared formula after it. -/
theorem Ready.exists_problem (h : s.Ready clauses) (hsolve : s.solveWith solver = .ok (answer, t)) :
    ∃ p : Prepared, p.Proper ∧ p.Renames s.formula ∧ t.problem = some p := by
  obtain ⟨p, hp, hproper, hrenames⟩ :=
    Prepared.ofFormula_eq_ok h.built.stored s.settings.heuristic
  rw [h.solveWith_eq_map hp] at hsolve
  obtain ⟨found, -, hsolved⟩ := Fault.map_eq_ok.1 hsolve
  refine ⟨p, hproper, hrenames, ?_⟩
  cases found with
  | error reason =>
    obtain ⟨-, rfl⟩ := Prod.mk.inj hsolved
    rfl
  | ok outcome =>
    obtain ⟨-, rfl⟩ := Prod.mk.inj hsolved
    rfl

theorem Ready.accepts_iff (h : s.Ready clauses) (ints : List Int) : s.formula.Accepts ints ↔
    (∀ n ∈ ints, n ≠ 0 ∧ n.natAbs ≤ s.formula.variableCount) ∧
      ∀ c ∈ clauses, ∃ n ∈ c, lastSign ints n.natAbs = some (decide (0 < n)) := by
  refine and_congr_right fun _ => ?_
  rw [← h.stored, List.forall_mem_map]
  simp only [Array.mem_toList_iff, List.mem_map, exists_exists_and_eq_and]
  refine forall₂_congr fun c hc => exists_congr fun l => and_congr_right fun hl => ?_
  change _ ↔ lastSign ints (Prepared.signed l.var l.polarity).natAbs =
    some (decide (0 < Prepared.signed l.var l.polarity))
  rw [Prepared.natAbs_signed, Prepared.signed_pos (h.built.stored.ranged c hc l hl).1]

/-- Integers are accepted before a solve exactly if they are accepted after it, however it was done and
however it ended: if they are on variables of the formula, and the last sign of each variable makes a
literal of each clause given true. Then every assignment with these signs satisfies the clauses. -/
theorem verify_iff_of_given (h : s.Given clauses) (hsolve : s.solveWith solver = .ok (answer, t))
    (ints : List Int) : ∃ accepted, s.verify ints = .ok accepted ∧ t.verify ints = .ok accepted ∧
      (accepted = true ↔ (∀ n ∈ ints, n ≠ 0 ∧ n.natAbs ≤ s.formula.variableCount) ∧
        ∀ c ∈ clauses, ∃ n ∈ c, lastSign ints n.natAbs = some (decide (0 < n))) ∧
      (accepted = true → ∀ a : Assignment, (∀ x b, lastSign ints x = some b → a x = b) →
        ∀ c ∈ clauses, a.satisfies c = true) := by
  have hready := h.ready
  have hranged := hready.built.stored.ranged
  obtain ⟨accepted, hbefore, hiff⟩ := Formula.verify_iff hranged ints
  obtain ⟨p, hproper, hrenames, hproblem⟩ := hready.exists_problem hsolve
  obtain ⟨accepted', hafter, hiff'⟩ := Prepared.verify_iff hproper hrenames hranged ints
  obtain rfl : accepted = accepted' := Bool.eq_iff_iff.2 (hiff.trans hiff'.symm)
  refine ⟨accepted, ?_, ?_, hiff.trans (hready.accepts_iff ints), fun haccepted a ha => ?_⟩
  · rw [verify, h.problem_eq_none, hbefore]
  · rw [verify_of_problem hproblem, hafter]
  · have hholds := (hiff.1 haccepted).holds ha
    rwa [hready.holds_eq, List.all_eq_true] at hholds

theorem verify_iff_of_given_both_signs : ∃ s t : Session, ∃ verdict, s.Given [[1, 2], [-1]] ∧
    s.solve (.standing ⟨.zero⟩ 0) = .ok (.ok verdict, t) ∧
    s.verify [1, -1, 2] = .ok true ∧ t.verify [1, -1, 2] = .ok true ∧
    s.verify [-1, 2, 1] = .ok false ∧ t.verify [-1, 2, 1] = .ok false := by
  have h : Given _ [[1, 2], [-1]] := .add (.add (.new {}) rfl) rfl
  obtain ⟨p, outcome, t, -, -, -, hsolve, -⟩ := h.ready.answers rfl (.inl ⟨.standing ⟨.zero⟩ 0, rfl⟩)
  obtain ⟨accepted, hbefore, hafter, hiff, -⟩ := verify_iff_of_given h hsolve [1, -1, 2]
  obtain ⟨refused, hbefore', hafter', hiff', -⟩ := verify_iff_of_given h hsolve [-1, 2, 1]
  obtain rfl : accepted = true := hiff.2 ⟨by decide, by decide⟩
  obtain rfl : refused = false := by
    rw [← Bool.not_eq_true, hiff']
    decide
  exact ⟨_, t, _, h, hsolve, hbefore, hafter, hbefore', hafter'⟩

end Session

end ClauseSearch
