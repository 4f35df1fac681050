/-!
Magnitudes of binary64 numbers. A magnitude is a bit pattern without its sign, read as a natural
number; the value of a finite one is counted in units of 2^-1074, the least positive value.
Magnitudes ascend with their values, and infinity comes after the finite ones.
-/

namespace Calculator.Number

/-- The magnitudes between one power of two and the next. -/
def binade : Nat := Nat.pow 2 52

def one : Nat := Nat.pow 2 1074

def signBit : Nat := Nat.pow 2 63

def infinity : Nat := 0x7FF0000000000000

/-- The value of a finite magnitude, in units. -/
def units (magnitude : Nat) : Nat :=
  let exponent := magnitude / binade
  let fraction := magnitude % binade
  if exponent = 0 then fraction else (binade + fraction) * Nat.pow 2 (exponent - 1)

/-- The quotient rounded to the nearest whole number, a tie to the even one. -/
def roundEven (num den : Nat) : Nat :=
  let whole := num / den
  let rest := num % den
  if 2 * rest < den then whole
  else if den < 2 * rest then whole + 1
  else whole + whole % 2

/-- The magnitude nearest to `num / den`, a tie to the even one. A quotient that is rounded up to
the next power of two carries into the exponent, and from 2^1024 on the answer is infinity. -/
def nearest (num den : Nat) : Nat :=
  let scaled := num * one
  let shift := (scaled / den).log2 - 52
  min infinity (shift * binade + roundEven scaled (den * Nat.pow 2 shift))

def ofMagnitude (magnitude : Nat) : Float := Float.ofBits (UInt64.ofNat magnitude)

def magnitude (x : Float) : Nat := x.toBits.toNat % signBit

/-- Does `x` carry a sign? Negative zero does. -/
def isSigned (x : Float) : Bool := signBit ≤ x.toBits.toNat

end Calculator.Number
