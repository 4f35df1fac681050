import Calculator.Number.Binary

/-!
Decimal numbers, and the binary64 number nearest to one.
-/

namespace Calculator.Number

/-- The number `digits · 10 ^ exponent`. -/
structure Decimal where
  digits : Nat
  exponent : Int
deriving DecidableEq

namespace Decimal

/-- The nearest magnitude. A number of 10^310 or more is infinite and one below 10^-400 is zero,
which is settled by the exponent alone so that no large power is computed. -/
def magnitude (d : Decimal) : Nat :=
  if d.digits = 0 then 0
  else if 310 < d.exponent then infinity
  else if d.exponent < -(400 + d.digits.log2 : Int) then 0
  else nearest (d.digits * Nat.pow 10 d.exponent.toNat) (Nat.pow 10 (-d.exponent).toNat)

def toFloat (d : Decimal) : Float := ofMagnitude d.magnitude

/-- The same number with no zero at the end of its digits. -/
def trim (d : Decimal) : Decimal :=
  if h : d.digits ≠ 0 ∧ d.digits % 10 = 0 then
    trim ⟨d.digits / 10, d.exponent + 1⟩
  else d
termination_by d.digits
decreasing_by omega

end Decimal

end Calculator.Number
