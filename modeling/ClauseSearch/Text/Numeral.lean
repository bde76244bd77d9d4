/-! Decimal numerals: a nonempty run of the digits 0 to 9, with one optional sign before it. Leading
zeros are read and never written, and what is written is read back. -/

namespace ClauseSearch.Numeral

def digit (d : Nat) : Char := Char.ofNat (48 + d)

/-- The value of a digit, none for any other character. -/
def digitValue? (c : Char) : Option Nat :=
  if 48 ≤ c.toNat ∧ c.toNat < 58 then some (c.toNat - 48) else none

/-- The digits of a number without leading zeros. -/
def digits (n : Nat) : List Char :=
  if n < 10 then [digit n] else digits (n / 10) ++ [digit (n % 10)]

def ofInt : Int → List Char
  | .ofNat n => digits n
  | .negSucc n => '-' :: digits (n + 1)

def text (n : Int) : String := String.ofList (ofInt n)

/-- The number that digits stand for when they follow the digits of `n`. -/
def extend? (n : Nat) : List Char → Option Nat
  | [] => some n
  | c :: cs => (digitValue? c).bind fun d => extend? (10 * n + d) cs

/-- A nonempty run of digits. -/
def unsigned? : List Char → Option Nat
  | [] => none
  | cs => extend? 0 cs

/-- A number up to `limit`; one plus sign may stand before the digits. -/
def nat? (limit : Nat) (cs : List Char) : Option Nat :=
  let digits := match cs with
    | '+' :: rest => rest
    | _ => cs
  (unsigned? digits).filter (· ≤ limit)

/-- An integer between `least` and `greatest`; one plus or minus sign may stand before the digits. -/
def int? (least greatest : Int) (cs : List Char) : Option Int :=
  let value : Option Int := match cs with
    | '-' :: rest => (unsigned? rest).map fun n => -(n : Int)
    | '+' :: rest => (unsigned? rest).map Int.ofNat
    | _ => (unsigned? cs).map Int.ofNat
  value.filter fun n => least ≤ n && n ≤ greatest

/-! ### Reading what was written -/

theorem digitValue?_digit {d : Nat} (h : d < 10) : digitValue? (digit d) = some d := by
  match d, h with
  | 0, _ | 1, _ | 2, _ | 3, _ | 4, _ | 5, _ | 6, _ | 7, _ | 8, _ | 9, _ => decide

theorem extend?_append (n : Nat) (as bs : List Char) :
    extend? n (as ++ bs) = (extend? n as).bind fun m => extend? m bs := by
  induction as generalizing n with
  | nil => rfl
  | cons c cs ih =>
    simp only [List.cons_append, extend?, Option.bind_assoc]
    congr 1
    funext d
    exact ih _

theorem extend?_digits (n : Nat) : extend? 0 (digits n) = some n := by
  induction n using Nat.strongRecOn with
  | ind n ih =>
    unfold digits
    split
    · rename_i h
      simp [extend?, digitValue?_digit h]
    · rename_i h
      rw [extend?_append, ih (n / 10) (by omega)]
      simp only [Option.bind_some, extend?, digitValue?_digit (Nat.mod_lt n (by decide)),
        Option.some.injEq]
      omega

theorem digits_ne_nil (n : Nat) : digits n ≠ [] := by
  unfold digits
  split <;> simp

theorem unsigned?_digits (n : Nat) : unsigned? (digits n) = some n := by
  have h := digits_ne_nil n
  unfold unsigned?
  split
  · contradiction
  · exact extend?_digits n

/-- Every character of a written number is one of the ten digits. -/
theorem mem_digits {n : Nat} {c : Char} (h : c ∈ digits n) : ∃ d, d < 10 ∧ c = digit d := by
  induction n using Nat.strongRecOn with
  | ind n ih =>
    unfold digits at h
    split at h
    · rename_i hn
      exact ⟨n, hn, by simpa using h⟩
    · rename_i hn
      rcases List.mem_append.1 h with h | h
      · exact ih (n / 10) (by omega) h
      · exact ⟨n % 10, Nat.mod_lt n (by decide), by simpa using h⟩

end ClauseSearch.Numeral
