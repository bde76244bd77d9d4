import ClauseSearch.Fault
import Mathlib.Data.List.Forall2

/-! Steps that may fail, taken for each item of a list in turn: all succeed exactly if each one does, and
the results are those of the single steps. -/

namespace ClauseSearch.Sequence

variable {ε α β γ : Type}

theorem forall₂_of_mapM {f : α → Except ε β} {l : List α} {r : List β} (h : l.mapM f = .ok r) :
    List.Forall₂ (fun a b => f a = .ok b) l r := by
  induction l generalizing r with
  | nil =>
    rw [List.mapM_nil, Fault.pure_eq_ok] at h
    subst h
    exact .nil
  | cons a l ih =>
    rw [List.mapM_cons] at h
    obtain ⟨b, hb, h⟩ := Fault.bind_eq_ok.1 h
    obtain ⟨bs, hbs, h⟩ := Fault.bind_eq_ok.1 h
    rw [Fault.pure_eq_ok] at h
    subst h
    exact .cons hb (ih hbs)

theorem mapM_eq_ok {f : α → Except ε β} {g : α → β} {l : List α}
    (h : ∀ a ∈ l, f a = .ok (g a)) : l.mapM f = .ok (l.map g) := by
  induction l with
  | nil => rfl
  | cons a l ih =>
    rw [List.mapM_cons, h a List.mem_cons_self, ih fun b hb => h b (List.mem_cons_of_mem a hb)]
    rfl

theorem exists_mapM {f : α → Except ε β} {l : List α} :
    (∃ r, l.mapM f = .ok r) ↔ ∀ a ∈ l, ∃ b, f a = .ok b := by
  induction l with
  | nil => exact iff_of_true ⟨[], rfl⟩ (by simp)
  | cons a l ih =>
    rw [List.forall_mem_cons, ← ih, List.mapM_cons]
    constructor
    · rintro ⟨r, h⟩
      obtain ⟨b, hb, h⟩ := Fault.bind_eq_ok.1 h
      obtain ⟨bs, hbs, -⟩ := Fault.bind_eq_ok.1 h
      exact ⟨⟨b, hb⟩, bs, hbs⟩
    · rintro ⟨⟨b, hb⟩, bs, hbs⟩
      exact ⟨b :: bs, by rw [hb, hbs]; rfl⟩

theorem mapM_of_error {f : α → Except ε β} {before after : List α} {a : α} {e : ε}
    (hbefore : ∀ x ∈ before, ∃ b, f x = .ok b) (ha : f a = .error e) :
    (before ++ a :: after).mapM f = .error e := by
  induction before with
  | nil =>
    rw [List.nil_append, List.mapM_cons, ha]
    rfl
  | cons x before ih =>
    obtain ⟨b, hb⟩ := hbefore x List.mem_cons_self
    rw [List.cons_append, List.mapM_cons, hb, ih fun y hy => hbefore y (List.mem_cons_of_mem x hy)]
    rfl

/-- An error is that of the first item on which a step fails. -/
theorem exists_of_mapM_error {f : α → Except ε β} {l : List α} {e : ε} (h : l.mapM f = .error e) :
    ∃ before a after, l = before ++ a :: after ∧ (∀ x ∈ before, ∃ b, f x = .ok b) ∧ f a = .error e := by
  induction l with
  | nil => exact absurd h (by simp [pure, Except.pure])
  | cons a l ih =>
    rw [List.mapM_cons] at h
    rcases Fault.bind_eq_error.1 h with ha | ⟨b, hb, h⟩
    · exact ⟨[], a, l, rfl, by simp, ha⟩
    · rcases Fault.bind_eq_error.1 h with hl | ⟨bs, -, hpure⟩
      · obtain ⟨before, x, after, rfl, hbefore, hx⟩ := ih hl
        exact ⟨a :: before, x, after, rfl, List.forall_mem_cons.2 ⟨⟨b, hb⟩, hbefore⟩, hx⟩
      · exact absurd hpure (by simp [pure, Except.pure])

/-- To go through lists one after another is to go through all their items. -/
theorem mapM_flatten (f : α → Except ε β) (ls : List (List α)) :
    ls.flatten.mapM f = (ls.mapM (List.mapM f)).map List.flatten := by
  induction ls with
  | nil => rfl
  | cons l ls ih =>
    rw [List.flatten_cons, List.mapM_append, List.mapM_cons, ih]
    cases l.mapM f with
    | error e => rfl
    | ok r => cases ls.mapM (List.mapM f) <;> rfl

theorem length_of_mapM {f : α → Except ε β} {l : List α} {r : List β} (h : l.mapM f = .ok r) :
    r.length = l.length :=
  (forall₂_of_mapM h).length_eq.symm

theorem mapM_map_eq_some {f : α → β} {g : β → Option α} {l : List α} (h : ∀ a ∈ l, g (f a) = some a) :
    (l.map f).mapM g = some l := by
  induction l with
  | nil => rfl
  | cons a l ih =>
    obtain ⟨ha, hl⟩ := List.forall_mem_cons.1 h
    rw [List.map_cons, List.mapM_cons, ha, ih hl]
    rfl

theorem foldlM_cons_ok {f : γ → α → Except ε γ} {s t : γ} {a : α} {l : List α}
    (h : f s a = .ok t) : (a :: l).foldlM f s = l.foldlM f t := by
  rw [List.foldlM_cons, h]
  rfl

theorem foldlM_cons_error {f : γ → α → Except ε γ} {s : γ} {a : α} {l : List α} {e : ε}
    (h : f s a = .error e) : (a :: l).foldlM f s = .error e := by
  rw [List.foldlM_cons, h]
  rfl

theorem forM_eq_ok {f : α → Except ε PUnit} {l : List α} (h : ∀ a ∈ l, f a = .ok ⟨⟩) :
    l.forM f = .ok ⟨⟩ := by
  induction l with
  | nil => rfl
  | cons a l ih =>
    change (f a >>= fun _ => l.forM f) = _
    rw [h a List.mem_cons_self]
    exact ih fun b hb => h b (List.mem_cons_of_mem a hb)

end ClauseSearch.Sequence
