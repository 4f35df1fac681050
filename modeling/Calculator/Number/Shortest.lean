import Calculator.Number.Decimal

/-!
The shortest decimal that reads back as a given magnitude. For one digit, two digits and so on,
the value's two neighbours among the decimals with so many digits are tried; the first that reads
back is taken, of two the nearer, and of two equally near ones the upper.
-/

namespace Calculator.Number

def digitCount (n : Nat) : Nat := (Nat.toDigits 10 n).length

/-- The least `k` with `n / one < 10^k`, for a positive `n`. -/
def scale (n : Nat) : Int :=
  let whole := n / one
  if whole = 0 then 1 - (digitCount ((one - 1) / n) : Int) else digitCount whole

/-- The decimal of this exponent, next to the value of a magnitude, that reads back as it. -/
def neighbour? (magnitude : Nat) (exponent : Int) : Option Decimal :=
  let num := units magnitude * Nat.pow 10 (-exponent).toNat
  let den := one * Nat.pow 10 exponent.toNat
  let lower : Decimal := ⟨num / den, exponent⟩
  let upper : Decimal := ⟨num / den + 1, exponent⟩
  if lower.magnitude = magnitude then
    if upper.magnitude = magnitude ∧ den ≤ 2 * (num % den) then some upper else some lower
  else if upper.magnitude = magnitude then some upper
  else none

def exact (magnitude : Nat) : Decimal := ⟨units magnitude * Nat.pow 5 1074, -1074⟩

/-- Seventeen digits are enough to tell any two magnitudes apart. -/
def shortest (magnitude : Nat) : Decimal :=
  if magnitude = 0 then ⟨0, 0⟩
  else
    let top := scale (units magnitude)
    let found := (List.range 17).findSome? fun n : Nat => neighbour? magnitude (top - 1 - n)
    (found.getD (exact magnitude)).trim

end Calculator.Number
