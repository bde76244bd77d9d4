import ClauseSearch.Text.Numeral

/-! Numbers with a fixed number of decimal places. The exact value is rounded to the nearest multiple of
the last place, and a value halfway between two of them goes to the even one. -/

namespace ClauseSearch.Fixed

/-- The integer nearest to a quotient, the even one if two are. -/
def roundHalfEven (num den : Nat) : Nat :=
  let q := num / den
  let twice := 2 * (num % den)
  if den < twice ∨ (twice = den ∧ q % 2 = 1) then q + 1 else q

/-- A number of units of the last place, with the point before the last `places` digits. -/
def withPoint (places units : Nat) : String :=
  let digits := Numeral.digits units
  let padded := List.replicate (places + 1 - digits.length) '0' ++ digits
  let whole := padded.length - places
  String.ofList (padded.take whole ++ '.' :: padded.drop whole)

/-- A finite double that is not negative as the quotient of two numbers. -/
def quotient (x : Float) : Nat × Nat :=
  let bits := x.toBits.toNat
  let exponent := (bits >>> 52) % 2048
  let fraction := bits % (1 <<< 52)
  let mantissa := if exponent = 0 then fraction else (1 <<< 52) + fraction
  let shift := max exponent 1
  if 1075 ≤ shift then (mantissa <<< (shift - 1075), 1) else (mantissa, 1 <<< (1075 - shift))

/-- A finite double that is not negative with a fixed number of places. -/
def ofFloat (places : Nat) (x : Float) : String :=
  let (num, den) := quotient x
  withPoint places (roundHalfEven (num * Nat.pow 10 places) den)

end ClauseSearch.Fixed
