import Calculator.Number.Decimal

/-!
Number literals: digits with at most one point among or beside them, then an exponent of an `e`
and further digits. No part has a sign. `read?` takes the longest literal that a text starts with.
-/

namespace Calculator.Number

/-- A literal by its parts. The fraction is there when a point is written, the exponent with the
letter that introduces it. -/
structure Literal where
  whole : List Char
  fraction : Option (List Char)
  exponent : Option (Char × List Char)
deriving DecidableEq

namespace Literal

def text (l : Literal) : List Char :=
  l.whole ++ (l.fraction.elim [] ('.' :: ·)) ++ (l.exponent.elim [] fun (mark, ds) => mark :: ds)

def value (l : Literal) : Decimal :=
  let fraction := l.fraction.getD []
  let exponent := l.exponent.elim 0 fun (_, ds) => Nat.ofDigitChars 10 ds 0
  ⟨Nat.ofDigitChars 10 (l.whole ++ fraction) 0, exponent - fraction.length⟩

/-- A point and the digits after it. -/
def readFraction : List Char → Option (List Char) × List Char
  | '.' :: rest => (some (rest.takeWhile Char.isDigit), rest.dropWhile Char.isDigit)
  | rest => (none, rest)

def isExponentMark (c : Char) : Bool := c = 'e' || c = 'E'

/-- An exponent, which needs at least one digit. -/
def readExponent : List Char → Option (Char × List Char) × List Char
  | [] => (none, [])
  | mark :: rest =>
    let digits := rest.takeWhile Char.isDigit
    if isExponentMark mark ∧ digits ≠ [] then (some (mark, digits), rest.dropWhile Char.isDigit)
    else (none, mark :: rest)

/-- The longest literal at the start of a text, and the text after it. -/
def read? (s : List Char) : Option (Literal × List Char) :=
  let whole := s.takeWhile Char.isDigit
  let (fraction, afterFraction) := readFraction (s.dropWhile Char.isDigit)
  if whole ++ fraction.getD [] = [] then none
  else
    let (exponent, rest) := readExponent afterFraction
    some (⟨whole, fraction, exponent⟩, rest)

theorem text_readFraction (s : List Char) :
    ((readFraction s).1.elim [] ('.' :: ·)) ++ (readFraction s).2 = s := by
  unfold readFraction
  split <;> simp

theorem text_readExponent (s : List Char) :
    ((readExponent s).1.elim [] fun (mark, ds) => mark :: ds) ++ (readExponent s).2 = s := by
  cases s with
  | nil => rfl
  | cons mark rest =>
    simp only [readExponent]
    split <;> simp

theorem text_append_of_read? {s rest : List Char} {l : Literal} (h : read? s = some (l, rest)) :
    l.text ++ rest = s := by
  simp only [read?] at h
  split at h
  · contradiction
  · cases h
    simp only [text, List.append_assoc]
    rw [text_readExponent, text_readFraction, List.takeWhile_append_dropWhile]

theorem text_ne_nil_of_read? {s rest : List Char} {l : Literal} (h : read? s = some (l, rest)) :
    l.text ≠ [] := by
  simp only [read?] at h
  split at h
  · contradiction
  · rename_i digits
    cases h
    intro empty
    apply digits
    simp only [text, List.append_eq_nil_iff] at empty
    rw [empty.1.1]
    cases hf : (readFraction (s.dropWhile Char.isDigit)).1 with
    | none => rfl
    | some f => simp [hf] at empty

theorem length_lt_of_read? {s rest : List Char} {l : Literal} (h : read? s = some (l, rest)) :
    rest.length < s.length := by
  have nonempty := List.length_pos_iff.mpr (text_ne_nil_of_read? h)
  rw [← text_append_of_read? h, List.length_append]
  omega

end Literal

end Calculator.Number
