import ClauseSearch.Proofs.Prepared
import ClauseSearch.Search.State

/-! What the state of a search keeps from step to step: the counts are those of the valuation and the flags,
the logs and the queue name each rank and clause once, and only ranks with a value and clauses with a flag.
So each log has room for every entry that a step can add, the steps succeed, and what they come to is
again a state of this kind. -/

namespace ClauseSearch

/-! ### Counting by a list without repetition -/

def flagCount (flags : Array Bool) : Nat :=
  (List.range flags.size).countP fun c => flags[c]? == some true

theorem length_le_countP {α : Type} {l m : List α} {q : α → Bool} (hl : l.Nodup)
    (h : ∀ a ∈ l, a ∈ m ∧ q a = true) : l.length ≤ m.countP q := by
  rw [List.countP_eq_length_filter]
  exact (hl.subperm fun a ha => List.mem_filter.2 (h a ha)).length_le

theorem length_le_valuedCount {v : Valuation} {l : List Nat} (hl : l.Nodup)
    (h : ∀ x ∈ l, 0 < x ∧ v.value? x ≠ none) : l.length ≤ v.valuedCount := by
  refine length_le_countP hl fun x hx => ?_
  obtain ⟨hpos, hv⟩ := h x hx
  obtain ⟨b, hb⟩ := Option.ne_none_iff_exists'.1 hv
  exact ⟨(Valuation.mem_range_iff hpos).2 (Valuation.lt_size_of_value? hb), by simp [hb]⟩

theorem length_le_flagCount {flags : Array Bool} {l : List Nat} (hl : l.Nodup)
    (h : ∀ c ∈ l, flags[c]? = some true) : l.length ≤ flagCount flags := by
  refine length_le_countP hl fun c hc => ⟨?_, by simp [h c hc]⟩
  exact List.mem_range.2 (Array.getElem?_eq_some_iff.1 (h c hc)).1

theorem flagCount_le (flags : Array Bool) : flagCount flags ≤ flags.size := by
  simpa [flagCount] using
    List.countP_le_length (p := fun c => flags[c]? == some true) (l := List.range flags.size)

theorem getElem?_set_flag {flags : Array Bool} {c d : Nat} {b : Bool} (h : c < flags.size) :
    (flags.setIfInBounds c b)[d]? = if d = c then some b else flags[d]? := by
  by_cases hd : d = c
  · subst hd
    simp [h]
  · simp [hd, Array.getElem?_setIfInBounds_ne (Ne.symm hd)]

theorem flagCount_set {flags : Array Bool} {c : Nat} (h : flags[c]? = some false) :
    flagCount (flags.setIfInBounds c true) = flagCount flags + 1 := by
  have hlt := (Array.getElem?_eq_some_iff.1 h).1
  simp only [flagCount, Array.size_setIfInBounds]
  refine countP_eq_succ List.nodup_range (List.mem_range.2 hlt) (fun d hd => ?_) ?_ ?_
  · rw [getElem?_set_flag hlt, if_neg hd]
  · simp [hlt]
  · simp [h]

theorem flagCount_clear {flags : Array Bool} {c : Nat} (h : flags[c]? = some true) :
    flagCount (flags.setIfInBounds c false) + 1 = flagCount flags := by
  have hlt := (Array.getElem?_eq_some_iff.1 h).1
  simp only [flagCount, Array.size_setIfInBounds]
  symm
  refine countP_eq_succ List.nodup_range (List.mem_range.2 hlt) (fun d hd => ?_) ?_ ?_
  · rw [getElem?_set_flag hlt, if_neg hd]
  · simp [h]
  · simp [hlt]

namespace BoundedStack

variable {α : Type} {s t : BoundedStack α} {a : α}

/-- The stack with one more item, where there is room. -/
def pushed (s : BoundedStack α) (a : α) : BoundedStack α := ⟨a :: s.items, s.room - 1⟩

@[simp] theorem items_pushed : (s.pushed a).items = a :: s.items := rfl

theorem push_eq_pushed (h : s.size < s.capacity) : s.push a = .ok (s.pushed a) := by
  simp only [capacity] at h
  exact push_eq_ok.2 ⟨by omega, rfl⟩

theorem capacity_pushed (h : s.size < s.capacity) : (s.pushed a).capacity = s.capacity := by
  simp only [capacity, pushed, size, List.length_cons] at h ⊢
  omega

theorem ext_items (hitems : s.items = t.items) (hcapacity : s.capacity = t.capacity) : s = t := by
  obtain ⟨items, room⟩ := s
  obtain ⟨items', room'⟩ := t
  obtain rfl : items = items' := hitems
  simp only [capacity, size] at hcapacity
  congr 1
  omega

/-- Everything above the first item with the property is taken off, and that item with it. -/
theorem popThrough_eq {q : α → Bool} {above below : List α} (hs : s.items = above ++ a :: below)
    (habove : ∀ b ∈ above, q b = false) (ha : q a = true) :
    (s.popThrough q).1 = above ++ [a] ∧ (s.popThrough q).2.items = below := by
  have hsplit : ∀ l : List α, (∀ b ∈ l, q b = false) →
      splitThrough q (l ++ a :: below) = (l ++ [a], below) := by
    intro l hl
    induction l with
    | nil => simp [splitThrough, ha]
    | cons b l ih =>
      have hrest := ih fun c hc => hl c (List.mem_cons_of_mem b hc)
      simp [splitThrough, hl b List.mem_cons_self, hrest]
  simp [popThrough, hs, hsplit above habove]

theorem popThrough_eq_all {q : α → Bool} (h : ∀ a ∈ s.items, q a = false) :
    (s.popThrough q).1 = s.items ∧ (s.popThrough q).2.items = [] := by
  have hsplit : ∀ l : List α, (∀ a ∈ l, q a = false) → splitThrough q l = (l, []) := by
    intro l hl
    induction l with
    | nil => rfl
    | cons a l ih => simp [splitThrough, hl a, ih fun b hb => hl b (List.mem_cons_of_mem a hb)]
  simp [popThrough, hsplit s.items h]

theorem countP_popThrough (s : BoundedStack α) (q : α → Bool) :
    (s.popThrough q).2.items.countP q = s.items.countP q - 1 := by
  show (splitThrough q s.items).2.countP q = _
  induction s.items with
  | nil => rfl
  | cons a rest ih =>
    unfold splitThrough
    by_cases h : q a = true
    · simp [h]
    · simp [h, ih]

end BoundedStack

namespace Search

variable {p : Prepared} {s t : Search} {rank clause : Nat} {b : Bool} {l : Literal}
  {entries entries' : List Assigned} {marks marks' : List Mark}

/-! ### The invariant -/

def ranksOf (entries : List Assigned) : List Nat := entries.map Assigned.rank

def clausesOf (marks : List Mark) : List Nat := marks.filterMap Mark.clause?

@[simp] theorem ranksOf_cons {e : Assigned} : ranksOf (e :: entries) = e.rank :: ranksOf entries :=
  rfl

@[simp] theorem ranksOf_append : ranksOf (entries ++ entries') = ranksOf entries ++ ranksOf entries' :=
  List.map_append

@[simp] theorem clausesOf_level : clausesOf (.level :: marks) = clausesOf marks := rfl

@[simp] theorem clausesOf_clause : clausesOf (.clause clause :: marks) = clause :: clausesOf marks :=
  rfl

@[simp] theorem clausesOf_append : clausesOf (marks ++ marks') = clausesOf marks ++ clausesOf marks' :=
  List.filterMap_append

/-- Counts, logs and queue agree with the valuation and the flags. -/
structure Coherent (p : Prepared) (s : Search) : Prop where
  slots : s.valuation.slots.size = p.variableCount + 1
  top : s.valuation.value? 0 = some true
  valuedCount : s.valuedCount = s.valuation.valuedCount
  flags : s.flags.size = p.clauseCount
  flaggedCount : s.flaggedCount = flagCount s.flags
  logged_nodup : (ranksOf s.assigned.items).Nodup
  logged_valued : ∀ r ∈ ranksOf s.assigned.items, 0 < r ∧ s.valuation.value? r ≠ none
  marked_nodup : (clausesOf s.marks.items).Nodup
  marked_flagged : ∀ c ∈ clausesOf s.marks.items, s.flags[c]? = some true
  levels : s.marks.items.countP Mark.isLevel = s.assigned.items.countP Assigned.isDecision
  queue_nodup : s.queue.items.Nodup
  queue_valued : ∀ r ∈ s.queue.items, 0 < r ∧ s.valuation.value? r ≠ none
  queue_capacity : s.queue.capacity = p.variableCount
  assigned_capacity : s.assigned.capacity = p.variableCount
  marks_capacity : s.marks.capacity = p.clauseCount + p.variableCount

theorem Coherent.variableCount_eq (h : s.Coherent p) :
    s.valuation.variableCount = p.variableCount := by
  simp [Valuation.variableCount, h.slots]

theorem Coherent.lt_slots (h : s.Coherent p) (hr : rank ≤ p.variableCount) :
    rank < s.valuation.slots.size := by
  rw [h.slots]
  omega

theorem Coherent.rank_of_unvalued (h : s.Coherent p) (hlt : rank < s.valuation.slots.size)
    (hv : s.valuation.value? rank = none) : 0 < rank ∧ rank ≤ p.variableCount := by
  rw [h.slots] at hlt
  have hne : rank ≠ 0 := by
    rintro rfl
    simp [h.top] at hv
  omega

theorem Coherent.flag_eq (h : s.Coherent p) (hc : clause < p.clauseCount) :
    s.flags[clause]? = some true ∨ s.flags[clause]? = some false := by
  have hlt : clause < s.flags.size := by rwa [h.flags]
  rw [Array.getElem?_eq_getElem hlt]
  cases s.flags[clause] <;> simp

/-! ### Room in the logs -/

theorem length_eq_add (marks : List Mark) :
    marks.length = marks.countP Mark.isLevel + (clausesOf marks).length := by
  induction marks with
  | nil => rfl
  | cons m marks ih =>
    cases m with
    | level =>
      simp only [List.length_cons, List.countP_cons, Mark.isLevel, if_true, clausesOf_level, ih]
      omega
    | clause c =>
      simp only [List.length_cons, List.countP_cons, Mark.isLevel, Bool.false_eq_true, if_false,
        clausesOf_clause, ih]
      omega

theorem Coherent.size_assigned_le (h : s.Coherent p) : s.assigned.size ≤ s.valuation.valuedCount := by
  have := length_le_valuedCount h.logged_nodup h.logged_valued
  rwa [ranksOf, List.length_map] at this

theorem Coherent.levels_le (h : s.Coherent p) :
    s.marks.items.countP Mark.isLevel ≤ s.valuation.valuedCount := by
  rw [h.levels]
  exact Nat.le_trans List.countP_le_length h.size_assigned_le

theorem Coherent.room_queue (h : s.Coherent p) (hr : 0 < rank) (hn : rank ≤ p.variableCount)
    (hv : s.valuation.value? rank = none) : s.queue.size < s.queue.capacity := by
  have hle := length_le_valuedCount h.queue_nodup h.queue_valued
  have hlt := Valuation.valuedCount_lt hr (h.lt_slots hn) hv
  rw [h.variableCount_eq] at hlt
  rw [h.queue_capacity]
  exact Nat.lt_of_le_of_lt hle hlt

theorem Coherent.room_assigned (h : s.Coherent p) (hr : 0 < rank) (hn : rank ≤ p.variableCount)
    (hv : s.valuation.value? rank = none) : s.assigned.size < s.assigned.capacity := by
  have hlt := Valuation.valuedCount_lt hr (h.lt_slots hn) hv
  rw [h.variableCount_eq] at hlt
  rw [h.assigned_capacity]
  exact Nat.lt_of_le_of_lt h.size_assigned_le hlt

theorem Coherent.room_level (h : s.Coherent p) (hr : 0 < rank) (hn : rank ≤ p.variableCount)
    (hv : s.valuation.value? rank = none) : s.marks.size < s.marks.capacity := by
  have hlt := Valuation.valuedCount_lt hr (h.lt_slots hn) hv
  have hclauses := length_le_flagCount h.marked_nodup h.marked_flagged
  have hflags := flagCount_le s.flags
  have hlevels := h.levels_le
  rw [h.variableCount_eq] at hlt
  rw [h.flags] at hflags
  rw [h.marks_capacity, BoundedStack.size, length_eq_add]
  omega

theorem Coherent.room_clause (h : s.Coherent p) (hc : s.flags[clause]? = some false) :
    s.marks.size < s.marks.capacity := by
  have hnodup : (clause :: clausesOf s.marks.items).Nodup := by
    refine List.nodup_cons.2 ⟨fun hmem => ?_, h.marked_nodup⟩
    simp [h.marked_flagged clause hmem] at hc
  have hlt := (Array.getElem?_eq_some_iff.1 hc).1
  have hclauses : (clause :: clausesOf s.marks.items).length ≤
      flagCount (s.flags.setIfInBounds clause true) := by
    refine length_le_flagCount hnodup fun c hmem => ?_
    rw [getElem?_set_flag hlt]
    split
    · rfl
    · rename_i hne
      exact h.marked_flagged c ((List.mem_cons.1 hmem).resolve_left hne)
  have hflags := flagCount_le (s.flags.setIfInBounds clause true)
  have hlevels := h.levels_le
  have hvalued := Valuation.valuedCount_le (v := s.valuation)
  rw [h.variableCount_eq] at hvalued
  rw [Array.size_setIfInBounds, h.flags] at hflags
  rw [List.length_cons] at hclauses
  rw [h.marks_capacity, BoundedStack.size, length_eq_add]
  omega

/-! ### Steps -/

def valued (s : Search) (rank : Nat) (b : Bool) : Search :=
  { s with valuation := s.valuation.put rank (some b), valuedCount := s.valuedCount + 1 }

def holding (s : Search) (v : Valuation) : Search :=
  { s with valuation := v, valuedCount := v.valuedCount }

def flagged (s : Search) (clause : Nat) : Search :=
  { s with flags := s.flags.setIfInBounds clause true, flaggedCount := s.flaggedCount + 1,
           marks := s.marks.pushed (.clause clause) }

/-- The state with the value of a unit clause's literal forced. -/
def forced (s : Search) (l : Literal) : Search :=
  { s.valued l.var l.polarity with
    assigned := s.assigned.pushed (.forced l.var)
    queue := s.queue.pushed l.var
    tally.unitPropagations := s.tally.unitPropagations + 1 }

/-- The state with a decision begun. -/
def entered (s : Search) (rank : Nat) (b : Bool) : Search :=
  { s.valued rank b with
    marks := s.marks.pushed .level
    assigned := s.assigned.pushed (.decided rank)
    queue := s.queue.pushed rank
    tally.decisions := s.tally.decisions + 1 }

theorem assign_eq_ok_of_none (hr : rank < s.valuation.slots.size)
    (hv : s.valuation.value? rank = none) : s.assign rank b = .ok (s.valued rank b) := by
  have hslot : Fault.lookup s.valuation.slots rank = .ok none :=
    Fault.lookup_eq_ok.2 (hv ▸ Valuation.slots_eq_some hr)
  rw [assign, hslot]
  change ((Fault.outOfRange rank).orElse (s.valuation.write? rank (some b)) >>= fun v => _) = _
  rw [Valuation.write?_eq_put hr]
  rfl

theorem valued_of_assign (h : s.assign rank b = .ok t) :
    rank < s.valuation.slots.size ∧ s.valuation.value? rank = none ∧ t = s.valued rank b := by
  obtain ⟨hslot, w, hw, rfl⟩ := assign_eq_ok h
  have hlt := (Array.getElem?_eq_some_iff.1 hslot).1
  rw [Valuation.write?_eq_put hlt, Option.some.injEq] at hw
  exact ⟨hlt, Valuation.value?_of_slot hslot, by rw [← hw]; rfl⟩

theorem flag_eq_ok_of_false (h : s.Coherent p) (hc : s.flags[clause]? = some false) :
    s.flag clause = .ok (s.flagged clause) := by
  rw [flag, Fault.lookup_eq_ok.2 hc]
  change (s.marks.push (.clause clause) >>= fun marks => _) = _
  rw [BoundedStack.push_eq_pushed (h.room_clause hc)]
  rfl

theorem flagged_of_flag (h : s.flag clause = .ok t) : t = s.flagged clause := by
  obtain ⟨marks, hpush, rfl⟩ := flag_eq_ok h
  rw [(BoundedStack.push_eq_ok.1 hpush).2]
  rfl

theorem enter_eq_ok (h : s.Coherent p) (hr : 0 < rank) (hn : rank ≤ p.variableCount)
    (hv : s.valuation.value? rank = none) : s.enter rank b = .ok (s.entered rank b) := by
  rw [enter, BoundedStack.push_eq_pushed (h.room_level hr hn hv)]
  change (({ s with marks := s.marks.pushed .level } : Search).assign rank b >>= fun s => _) = _
  rw [assign_eq_ok_of_none (s := { s with marks := s.marks.pushed .level }) (h.lt_slots hn) hv]
  change (s.assigned.push (.decided rank) >>= fun assigned => _) = _
  rw [BoundedStack.push_eq_pushed (h.room_assigned hr hn hv)]
  change (s.queue.push rank >>= fun queue => _) = _
  rw [BoundedStack.push_eq_pushed (h.room_queue hr hn hv)]
  rfl

theorem entered_of_enter (h : s.enter rank b = .ok t) :
    rank < s.valuation.slots.size ∧ s.valuation.value? rank = none ∧ t = s.entered rank b := by
  obtain ⟨marks, hmarks, h⟩ := Fault.bind_eq_ok.1 h
  obtain ⟨u, hassign, h⟩ := Fault.bind_eq_ok.1 h
  obtain ⟨assigned, hassigned, h⟩ := Fault.bind_eq_ok.1 h
  obtain ⟨queue, hqueue, h⟩ := Fault.bind_eq_ok.1 h
  obtain ⟨hlt, hv, rfl⟩ := valued_of_assign hassign
  rw [(BoundedStack.push_eq_ok.1 hmarks).2] at hassigned hqueue h
  rw [(BoundedStack.push_eq_ok.1 hassigned).2, (BoundedStack.push_eq_ok.1 hqueue).2] at h
  exact ⟨hlt, hv, (Fault.pure_eq_ok.1 h).symm⟩

theorem Coherent.holding (h : s.Coherent p) {v : Valuation}
    (hsize : v.slots.size = s.valuation.slots.size) (hext : v.Extends s.valuation) :
    (s.holding v).Coherent p := by
  have hkeep : ∀ r, s.valuation.value? r ≠ none → v.value? r ≠ none :=
    fun r hr hnone => hr (hext.value?_eq_none hnone)
  exact
    { h with
      slots := by rw [← h.slots]; exact hsize
      top := hext 0 true h.top
      valuedCount := rfl
      logged_valued := fun r hr => ⟨(h.logged_valued r hr).1, hkeep r (h.logged_valued r hr).2⟩
      queue_valued := fun r hr => ⟨(h.queue_valued r hr).1, hkeep r (h.queue_valued r hr).2⟩ }

theorem Coherent.valued_eq (h : s.Coherent p) (hr : 0 < rank) (hn : rank ≤ p.variableCount)
    (hv : s.valuation.value? rank = none) :
    s.valued rank b = s.holding (s.valuation.put rank (some b)) := by
  simp only [Search.valued, Search.holding]
  rw [h.valuedCount, Valuation.valuedCount_put_some hr (h.lt_slots hn) hv]

theorem Coherent.valued (h : s.Coherent p) (hr : 0 < rank) (hn : rank ≤ p.variableCount)
    (hv : s.valuation.value? rank = none) : (s.valued rank b).Coherent p := by
  rw [h.valued_eq hr hn hv]
  exact h.holding Valuation.size_put (Valuation.extends_put hv)

theorem not_mem_of_valued {l : List Nat} (h : ∀ r ∈ l, 0 < r ∧ s.valuation.value? r ≠ none)
    (hv : s.valuation.value? rank = none) : rank ∉ l := fun hmem => (h rank hmem).2 hv

/-- A rank without a value gets one, is logged and waits; the marks may begin a decision with it. -/
theorem Coherent.logged {e : Assigned} {m : BoundedStack Mark} (h : s.Coherent p) (hr : 0 < e.rank)
    (hn : e.rank ≤ p.variableCount) (hv : s.valuation.value? e.rank = none)
    (hclauses : clausesOf m.items = clausesOf s.marks.items)
    (hlevels : m.items.countP Mark.isLevel = (e :: s.assigned.items).countP Assigned.isDecision)
    (hcapacity : m.capacity = s.marks.capacity) (tally : Tally) :
    Coherent p { s.valued e.rank b with
      assigned := s.assigned.pushed e, queue := s.queue.pushed e.rank, marks := m, tally } := by
  have hvalued := h.valued (b := b) hr hn hv
  have hself : (s.valuation.put e.rank (some b)).value? e.rank ≠ none := by
    rw [Valuation.value?_put_self (h.lt_slots hn)]
    simp
  exact
    { hvalued with
      logged_nodup := List.nodup_cons.2 ⟨not_mem_of_valued h.logged_valued hv, h.logged_nodup⟩
      logged_valued := List.forall_mem_cons.2 ⟨⟨hr, hself⟩, hvalued.logged_valued⟩
      marked_nodup := by rw [hclauses]; exact h.marked_nodup
      marked_flagged := by rw [hclauses]; exact h.marked_flagged
      levels := hlevels
      queue_nodup := List.nodup_cons.2 ⟨not_mem_of_valued h.queue_valued hv, h.queue_nodup⟩
      queue_valued := List.forall_mem_cons.2 ⟨⟨hr, hself⟩, hvalued.queue_valued⟩
      queue_capacity := by
        rw [← h.queue_capacity]
        exact BoundedStack.capacity_pushed (h.room_queue hr hn hv)
      assigned_capacity := by
        rw [← h.assigned_capacity]
        exact BoundedStack.capacity_pushed (h.room_assigned hr hn hv)
      marks_capacity := by rw [← h.marks_capacity]; exact hcapacity }

theorem Coherent.forced (h : s.Coherent p) (hr : 0 < l.var) (hn : l.var ≤ p.variableCount)
    (hv : s.valuation.value? l.var = none) : (s.forced l).Coherent p :=
  h.logged (e := .forced l.var) hr hn hv rfl h.levels rfl _

theorem Coherent.entered (h : s.Coherent p) (hr : 0 < rank) (hn : rank ≤ p.variableCount)
    (hv : s.valuation.value? rank = none) : (s.entered rank b).Coherent p := by
  refine h.logged (e := .decided rank) (m := s.marks.pushed .level) hr hn hv rfl ?_ ?_ _
  · rw [BoundedStack.items_pushed, List.countP_cons, List.countP_cons, h.levels]
    rfl
  · exact BoundedStack.capacity_pushed (h.room_level hr hn hv)

theorem Coherent.flagged (h : s.Coherent p) (hc : s.flags[clause]? = some false) :
    (s.flagged clause).Coherent p := by
  have hlt := (Array.getElem?_eq_some_iff.1 hc).1
  exact
    { h with
      flags := by simpa [Search.flagged] using h.flags
      flaggedCount := by
        simp only [Search.flagged]
        rw [h.flaggedCount, flagCount_set hc]
      marked_nodup := by
        refine List.nodup_cons.2 ⟨fun hmem => ?_, h.marked_nodup⟩
        simp [h.marked_flagged clause hmem] at hc
      marked_flagged := by
        intro c hmem
        simp only [Search.flagged]
        rw [getElem?_set_flag hlt]
        split
        · rfl
        · rename_i hne
          exact h.marked_flagged c ((List.mem_cons.1 hmem).resolve_left hne)
      levels := by
        rw [show (s.flagged clause).marks.items = .clause clause :: s.marks.items from rfl,
          List.countP_cons]
        exact h.levels
      marks_capacity := by
        rw [← h.marks_capacity]
        exact BoundedStack.capacity_pushed (h.room_clause hc) }

end Search

end ClauseSearch
