import ClauseSearch.Search.State

/-! Unit propagation over the occurrences. A rank is taken from the queue and each clause it occurs in
that is not flagged yet is flagged if the occurrence is true, and read for its status otherwise. A
unit clause gives its literal's rank a value, and the rank joins the queue. A falsified clause ends
the propagation; what was derived until then is left to backtracking.

Every rank that joins the queue had no value, so the ranks waiting and the ranks without a value
together become one fewer with each rank taken: `pending` bounds the loop. -/

namespace ClauseSearch.Search

/-- Reads a clause for its status. The test is counted even where there is no such clause. -/
def examine (p : Prepared) (s : Search) (clause : Nat) : Except Fault ClauseStatus × Search :=
  ((Fault.lookup p.formula.clauses clause).bind (Clause.status s.valuation),
    { s with tally.clauseTests := s.tally.clauseTests + 1 })

/-- Makes the literal of a unit clause true. -/
def force (s : Search) (l : Literal) : Except Fault Search := do
  let s ← s.assign l.var l.polarity
  let assigned ← s.assigned.push (.forced l.var)
  let queue ← s.queue.push l.var
  return { s with assigned, queue, tally.unitPropagations := s.tally.unitPropagations + 1 }

/-- Reads a clause and draws the consequence: the clause itself if it is falsified. -/
def visit (p : Prepared) (s : Search) (clause : Nat) : Except Fault (Search × Option Nat) :=
  match s.examine p clause with
  | (.error fault, _) => .error fault
  | (.ok .satisfied, s) => (s.flag clause).map (·, none)
  | (.ok (.unit l), s) => ((s.force l).bind (·.flag clause)).map (·, none)
  | (.ok .falsified, s) => .ok (s, some clause)
  | (.ok .undecided, s) => .ok (s, none)

/-- Takes the rank that joined the queue last. -/
def pop? (s : Search) : Option (Nat × Search) :=
  s.queue.pop?.map fun (rank, queue) =>
    (rank, { s with queue, tally.iterations := s.tally.iterations + 1 })

/-- Goes through occurrences of a rank that has the value, up to a falsified clause. -/
def follow (p : Prepared) (value : Bool) :
    List Occurrence → Search → Except Fault (Search × Option Nat)
  | [], s => .ok (s, none)
  | o :: rest, s =>
    match s.flags[o.clause]? with
    | none => .error (.outOfRange o.clause)
    | some true => follow p value rest s
    | some false =>
      if o.polarity == value then
        match s.flag o.clause with
        | .error fault => .error fault
        | .ok s => follow p value rest s
      else
        match visit p s o.clause with
        | .ok (s, none) => follow p value rest s
        | stopped => stopped

def clearQueue (s : Search) : Search := { s with queue := s.queue.clear }

/-- Ranks waiting and ranks without a value. -/
def pending (s : Search) : Nat := s.queue.size + s.valuation.vacancies

/-! ### The bound of the loop -/

theorem pending_flag {s t : Search} {clause : Nat} (h : s.flag clause = .ok t) :
    t.pending = s.pending := by
  obtain ⟨marks, _, rfl⟩ := flag_eq_ok h
  rfl

theorem pending_force {s t : Search} {l : Literal} (h : s.force l = .ok t) :
    t.pending = s.pending := by
  obtain ⟨u, hassign, h⟩ := Fault.bind_eq_ok.1 h
  obtain ⟨assigned, _, h⟩ := Fault.bind_eq_ok.1 h
  obtain ⟨queue, hpush, h⟩ := Fault.bind_eq_ok.1 h
  obtain ⟨hslot, w, hw, rfl⟩ := assign_eq_ok hassign
  obtain ⟨_, rfl⟩ := BoundedStack.push_eq_ok.1 hpush
  obtain rfl := Fault.pure_eq_ok.1 h
  have hvacancies := Valuation.vacancies_write? hslot hw
  simp only [pending, BoundedStack.size, List.length_cons]
  omega

theorem pending_visit {p : Prepared} {s t : Search} {clause : Nat} {conflict : Option Nat}
    (h : visit p s clause = .ok (t, conflict)) : t.pending = s.pending := by
  unfold visit examine at h
  split at h
  · exact absurd h (by simp)
  · rename_i heq
    obtain ⟨_, rfl⟩ := Prod.mk.inj heq
    obtain ⟨u, hflag, hu⟩ := Fault.map_eq_ok.1 h
    obtain ⟨rfl, _⟩ := Prod.mk.inj hu
    rw [pending_flag hflag]
    rfl
  · rename_i heq
    obtain ⟨_, rfl⟩ := Prod.mk.inj heq
    obtain ⟨u, hu, heq⟩ := Fault.map_eq_ok.1 h
    obtain ⟨w, hforce, hflag⟩ := Fault.bind_eq_ok.1 hu
    obtain ⟨rfl, _⟩ := Prod.mk.inj heq
    rw [pending_flag hflag, pending_force hforce]
    rfl
  · rename_i heq
    obtain ⟨_, rfl⟩ := Prod.mk.inj heq
    obtain ⟨rfl, _⟩ := Prod.mk.inj (Except.ok.inj h)
    rfl
  · rename_i heq
    obtain ⟨_, rfl⟩ := Prod.mk.inj heq
    obtain ⟨rfl, _⟩ := Prod.mk.inj (Except.ok.inj h)
    rfl

theorem pending_follow {p : Prepared} {value : Bool} {os : List Occurrence} {s t : Search}
    {conflict : Option Nat} (h : follow p value os s = .ok (t, conflict)) :
    t.pending = s.pending := by
  induction os generalizing s with
  | nil =>
    simp only [follow, Except.ok.injEq, Prod.mk.injEq] at h
    rw [h.1]
  | cons o rest ih =>
    unfold follow at h
    split at h
    · exact absurd h (by simp)
    · exact ih h
    · split at h
      · split at h
        · exact absurd h (by simp)
        · rename_i hf
          rw [ih h, pending_flag hf]
      · split at h
        · rename_i hv
          rw [ih h, pending_visit hv]
        · exact pending_visit h

theorem pending_pop? {s t : Search} {rank : Nat} (h : s.pop? = some (rank, t)) :
    t.pending + 1 = s.pending := by
  obtain ⟨⟨r, queue⟩, hpop, heq⟩ := Option.map_eq_some_iff.1 h
  obtain ⟨hitems, _⟩ := BoundedStack.pop?_eq_some.1 hpop
  simp only [Prod.mk.injEq] at heq
  obtain ⟨rfl, rfl⟩ := heq
  simp only [pending, BoundedStack.size, hitems, List.length_cons]
  omega

/-! ### Propagation -/

/-- Takes ranks from the queue, the latest first, until none waits or a clause is falsified. -/
def propagate (p : Prepared) (s : Search) : Except Fault (Search × Option Nat) :=
  match _ : s.pop? with
  | none => .ok (s, none)
  | some (rank, taken) =>
    match taken.valuation.slots[rank]? with
    | none => .error (.outOfRange rank)
    | some none => .error (.unvalued rank)
    | some (some value) =>
      match _ : follow p value (p.occurrences.row rank) taken with
      | .error fault => .error fault
      | .ok (t, some clause) => .ok (t.clearQueue, some clause)
      | .ok (t, none) => propagate p t
termination_by s.pending
decreasing_by
  have htaken := pending_pop? ‹s.pop? = _›
  have hfollowed := pending_follow ‹follow _ _ _ _ = _›
  omega

/-- Visits each of the clauses that is not flagged, up to a falsified one. -/
def visitAll (p : Prepared) : List Nat → Search → Except Fault (Search × Option Nat)
  | [], s => .ok (s, none)
  | clause :: rest, s =>
    match s.flags[clause]? with
    | none => .error (.outOfRange clause)
    | some true => visitAll p rest s
    | some false =>
      match visit p s clause with
      | .ok (s, none) => visitAll p rest s
      | stopped => stopped

/-- Reads every clause not flagged and then propagates. A search begins so, where ranks have values
that never waited in the queue. -/
def propagateAll (p : Prepared) (s : Search) : Except Fault (Search × Option Nat) :=
  match visitAll p (List.range s.flags.size) s with
  | .error fault => .error fault
  | .ok (t, some clause) => .ok (t.clearQueue, some clause)
  | .ok (t, none) => propagate p t

end ClauseSearch.Search
