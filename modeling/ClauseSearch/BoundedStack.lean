import ClauseSearch.Fault

/-! A stack with a fixed capacity. The items lie top first beside the number of places still free, so
the capacity is the sum of the two and no operation changes it. -/

namespace ClauseSearch

structure BoundedStack (α : Type) where
  /-- The items, top first. -/
  items : List α
  /-- How many more items fit. -/
  room : Nat
  deriving Repr

namespace BoundedStack

variable {α : Type}

def empty (capacity : Nat) : BoundedStack α := ⟨[], capacity⟩

/-- How many bytes one block of memory may have: a distance within it is a signed word of 64 bits. -/
def blockLimit : Nat := 9223372036854775807

/-- An empty stack whose places, of so many bytes each, lie in one block of memory. -/
def reserve (itemBytes capacity : Nat) : Except Fault (BoundedStack α) :=
  if itemBytes * capacity ≤ blockLimit then .ok (empty capacity)
  else .error (.unaddressable capacity)

def size (s : BoundedStack α) : Nat := s.items.length

def capacity (s : BoundedStack α) : Nat := s.size + s.room

def isEmpty (s : BoundedStack α) : Bool := s.items.isEmpty

/-- The items from bottom to top. -/
def toList (s : BoundedStack α) : List α := s.items.reverse

/-- Puts an item on top: none on a full stack. -/
def push? (s : BoundedStack α) (a : α) : Option (BoundedStack α) :=
  match s.room with
  | 0 => none
  | room + 1 => some ⟨a :: s.items, room⟩

def push (s : BoundedStack α) (a : α) : Except Fault (BoundedStack α) :=
  match s.push? a with
  | some t => .ok t
  | none => .error (.full s.capacity)

def pop? (s : BoundedStack α) : Option (α × BoundedStack α) :=
  match s.items with
  | [] => none
  | a :: items => some (a, ⟨items, s.room + 1⟩)

def clear (s : BoundedStack α) : BoundedStack α := ⟨[], s.capacity⟩

/-- The longest part of a list that ends in the first item with the property, and the rest; the
whole list where no item has it. -/
def splitThrough (p : α → Bool) : List α → List α × List α
  | [] => ([], [])
  | a :: rest =>
    if p a then ([a], rest)
    else
      let (upTo, beyond) := splitThrough p rest
      (a :: upTo, beyond)

/-- Takes items off the stack down to and including the first with the property, top first. -/
def popThrough (s : BoundedStack α) (p : α → Bool) : List α × BoundedStack α :=
  let (taken, rest) := splitThrough p s.items
  (taken, ⟨rest, s.room + taken.length⟩)

/-! ### Capacity and contents -/

@[simp] theorem capacity_empty (n : Nat) : (empty n : BoundedStack α).capacity = n := by
  simp [capacity, size, empty]

@[simp] theorem items_clear (s : BoundedStack α) : s.clear.items = [] := rfl

@[simp] theorem capacity_clear (s : BoundedStack α) : s.clear.capacity = s.capacity := by
  simp [capacity, size, clear]

theorem push?_eq_some {s t : BoundedStack α} {a : α} :
    s.push? a = some t ↔ 0 < s.room ∧ t = ⟨a :: s.items, s.room - 1⟩ := by
  unfold push?
  split <;> simp_all [eq_comm]

theorem push_eq_ok {s t : BoundedStack α} {a : α} :
    s.push a = .ok t ↔ 0 < s.room ∧ t = ⟨a :: s.items, s.room - 1⟩ := by
  rw [← push?_eq_some]
  unfold push
  split <;> simp_all

theorem push?_eq_none {s : BoundedStack α} {a : α} : s.push? a = none ↔ s.size = s.capacity := by
  unfold push? capacity
  split <;> simp_all

theorem pop?_eq_some {s t : BoundedStack α} {a : α} :
    s.pop? = some (a, t) ↔ s.items = a :: t.items ∧ t.room = s.room + 1 := by
  obtain ⟨items, room⟩ := t
  unfold pop?
  split <;> simp_all [eq_comm, and_assoc]

theorem capacity_pop? {s t : BoundedStack α} {a : α} (h : s.pop? = some (a, t)) :
    t.capacity = s.capacity := by
  obtain ⟨hitems, hroom⟩ := pop?_eq_some.1 h
  simp only [capacity, size, hitems, hroom, List.length_cons]
  omega

theorem splitThrough_append (p : α → Bool) (l : List α) :
    (splitThrough p l).1 ++ (splitThrough p l).2 = l := by
  induction l with
  | nil => rfl
  | cons a rest ih =>
    unfold splitThrough
    split <;> simp_all

theorem items_popThrough (s : BoundedStack α) (p : α → Bool) :
    (s.popThrough p).1 ++ (s.popThrough p).2.items = s.items :=
  splitThrough_append p s.items

theorem capacity_popThrough (s : BoundedStack α) (p : α → Bool) :
    (s.popThrough p).2.capacity = s.capacity := by
  have h := congrArg List.length (splitThrough_append p s.items)
  simp only [List.length_append] at h
  simp only [popThrough, capacity, size]
  omega

end BoundedStack

end ClauseSearch
