import Calculator.Number.Shortest

/-!
The two written forms of a number. Both use the shortest digits that read back. The plain form is
always positional. The compact form turns to a power of ten for large and small numbers and shows
that a positional number has a fraction, if only `.0`.
-/

namespace Calculator.Number

/-- The parts of a decimal before and after its point. -/
def Decimal.parts (d : Decimal) : List Char × List Char :=
  let digits := Nat.toDigits 10 d.digits
  let places := (-d.exponent).toNat
  let padded := List.replicate (places + 1 - digits.length) '0' ++ digits ++
    List.replicate d.exponent.toNat '0'
  padded.splitAt (padded.length - places)

/-- Positional digits, with a point only before a fraction. -/
def Decimal.plain (d : Decimal) : List Char :=
  match d.parts with
  | (whole, []) => whole
  | (whole, fraction) => whole ++ '.' :: fraction

/-- Positional digits, with at least one digit after the point. -/
def Decimal.pointed (d : Decimal) : List Char :=
  match d.parts with
  | (whole, []) => whole ++ ['.', '0']
  | (whole, fraction) => whole ++ '.' :: fraction

/-- One digit, the others after a point, and the power of ten after an `e`. -/
def Decimal.scientific (d : Decimal) : List Char :=
  match Nat.toDigits 10 d.digits with
  | [] => []
  | first :: others =>
    let fraction := if others.isEmpty then [] else '.' :: others
    first :: fraction ++ 'e' :: (toString (d.exponent + others.length)).toList

/-- A number by the form of its finite magnitudes. -/
def written (form : Nat → List Char) (x : Float) : String :=
  let m := magnitude x
  if infinity < m then "NaN"
  else
    let digits := if m = infinity then ['i', 'n', 'f'] else form m
    String.ofList (if isSigned x then '-' :: digits else digits)

def plain (x : Float) : String := written (fun m => (shortest m).plain) x

/-- From 1e-4 up to 1e16 a number is written positionally, as is zero. -/
def compact (x : Float) : String :=
  written (fun m =>
    let d := shortest m
    if m = 0 ∨ magnitude 1e-4 ≤ m ∧ m < magnitude 1e16 then d.pointed else d.scientific) x

end Calculator.Number
