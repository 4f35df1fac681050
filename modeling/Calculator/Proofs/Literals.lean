import Calculator.Proofs.Lexemes
import Mathlib.Computability.Language
import Mathlib.Data.List.TakeWhile
import Mathlib.Order.Bounds.Basic

/-!
The language of literals. Reading takes the longest literal that a text starts with, in characters as
well as in bytes, and hands nothing but literals to whatever turns them into numbers.
-/

namespace Calculator

namespace Number.Literal

section Language

open Computability

def digit : Language Char := {cs | ∃ c : Char, c.isDigit = true ∧ cs = [c]}

def point : Language Char := {['.']}

def mark : Language Char := {['e'], ['E']}

/-- Digits with at most one point among or beside them. -/
def mantissas : Language Char := digit * digit∗ * (1 + point * digit∗) + point * (digit * digit∗)

def exponents : Language Char := mark * (digit * digit∗)

/-- The literals: `(D+ [. D*] | . D+) [(e | E) D+]`, where `D` is a digit. -/
def language : Language Char := mantissas * (1 + exponents)

theorem mem_digits {cs : List Char} : cs ∈ digit∗ ↔ ∀ c ∈ cs, c.isDigit = true := by
  rw [Language.mem_kstar]
  constructor
  · rintro ⟨parts, rfl, digits⟩ c mem
    obtain ⟨part, mem, inside⟩ := List.mem_flatten.mp mem
    obtain ⟨d, isDigit, rfl⟩ := digits part mem
    rwa [List.mem_singleton.mp inside]
  · intro digits
    refine ⟨cs.map fun c => [c], by simp [← List.flatMap_def], fun part mem => ?_⟩
    obtain ⟨c, inside, rfl⟩ := List.mem_map.mp mem
    exact ⟨c, digits c inside, rfl⟩

theorem mem_someDigits {cs : List Char} :
    cs ∈ digit * digit∗ ↔ cs ≠ [] ∧ ∀ c ∈ cs, c.isDigit = true := by
  rw [Language.mem_mul]
  constructor
  · rintro ⟨_, ⟨c, isDigit, rfl⟩, ds, digits, rfl⟩
    exact ⟨by simp, List.forall_mem_cons.mpr ⟨isDigit, mem_digits.mp digits⟩⟩
  · rintro ⟨some, digits⟩
    cases cs with
    | nil => exact absurd rfl some
    | cons c ds =>
      have digits := List.forall_mem_cons.mp digits
      exact ⟨[c], ⟨c, digits.1, rfl⟩, ds, mem_digits.mpr digits.2, rfl⟩

end Language

/-- A literal that is made up as it should be. -/
structure Valid (l : Literal) : Prop where
  whole : ∀ c ∈ l.whole, c.isDigit = true
  fraction : ∀ c ∈ l.fraction.getD [], c.isDigit = true
  some : l.whole ++ l.fraction.getD [] ≠ []
  exponent : ∀ e ∈ l.exponent,
    isExponentMark e.1 = true ∧ e.2 ≠ [] ∧ ∀ c ∈ e.2, c.isDigit = true

theorem valid_digits {whole : List Char} (digits : ∀ c ∈ whole, c.isDigit = true)
    (some : whole ≠ []) : Valid ⟨whole, none, none⟩ :=
  ⟨digits, by simp, by simpa using some, by simp⟩

theorem valid_pointed {whole fraction : List Char}
    (digits : ∀ c ∈ whole ++ fraction, c.isDigit = true) (some : whole ++ fraction ≠ []) :
    Valid ⟨whole, .some fraction, none⟩ :=
  have digits := List.forall_mem_append.mp digits
  ⟨digits.1, digits.2, some, by simp⟩

theorem isExponentMark_iff {c : Char} : isExponentMark c = true ↔ c = 'e' ∨ c = 'E' := by
  rw [isExponentMark, Bool.or_eq_true, decide_eq_true_eq, decide_eq_true_eq]

theorem ascii_of_isDigit {c : Char} (isDigit : c.isDigit = true) : c.toNat < 128 :=
  (Char.isDigit_iff_toNat.mp isDigit).2.trans_lt (by decide)

theorem ascii_of_isExponentMark {c : Char} (isMark : isExponentMark c = true) : c.toNat < 128 := by
  rcases isExponentMark_iff.mp isMark with rfl | rfl <;> decide

/-- What a literal may be made of. -/
theorem Valid.of_mem_text {l : Literal} (valid : l.Valid) {c : Char} (mem : c ∈ l.text) :
    c.isDigit = true ∨ c = '.' ∨ isExponentMark c = true := by
  obtain ⟨whole, fraction, exponent⟩ := l
  simp only [text, List.mem_append] at mem
  rcases mem with (mem | mem) | mem
  · exact .inl (valid.whole c mem)
  · cases fraction with
    | none => cases mem
    | some fraction =>
      rcases List.mem_cons.mp mem with rfl | mem
      · exact .inr (.inl rfl)
      · exact .inl (valid.fraction c mem)
  · cases exponent with
    | none => cases mem
    | some exponent =>
      obtain ⟨isMark, _, digits⟩ := valid.exponent exponent rfl
      rcases List.mem_cons.mp mem with rfl | mem
      · exact .inr (.inr isMark)
      · exact .inl (digits c mem)

theorem Valid.ascii {l : Literal} (valid : l.Valid) : ∀ c ∈ l.text, c.toNat < 128 := by
  intro c mem
  rcases valid.of_mem_text mem with isDigit | rfl | isMark
  · exact ascii_of_isDigit isDigit
  · decide
  · exact ascii_of_isExponentMark isMark

theorem not_digit_of_isExponentMark {c : Char} (isMark : isExponentMark c = true) :
    c.isDigit = false ∧ c ≠ '.' := by
  rcases isExponentMark_iff.mp isMark with rfl | rfl <;> decide

theorem mem_mark {cs : List Char} : cs ∈ mark ↔ ∃ c, isExponentMark c = true ∧ cs = [c] := by
  simp only [isExponentMark_iff, or_and_right, exists_or, exists_eq_left]
  rfl

theorem mem_mantissas {cs : List Char} :
    cs ∈ mantissas ↔ ∃ l : Literal, l.Valid ∧ l.exponent = none ∧ l.text = cs := by
  constructor
  · rintro (⟨whole, digits, _, rfl | ⟨_, rfl, fraction, places, rfl⟩, rfl⟩ |
      ⟨_, rfl, fraction, places, rfl⟩)
    · have digits := mem_someDigits.mp digits
      exact ⟨_, valid_digits digits.2 digits.1, rfl, by simp [text]⟩
    · have digits := mem_someDigits.mp digits
      have all := List.forall_mem_append.mpr ⟨digits.2, mem_digits.mp places⟩
      exact ⟨_, valid_pointed all (List.append_ne_nil_of_left_ne_nil digits.1 _), rfl,
        by simp [text]⟩
    · have places := mem_someDigits.mp places
      exact ⟨_, @valid_pointed [] _ places.2 places.1, rfl, by simp [text]⟩
  · rintro ⟨⟨whole, fraction, exponent⟩, valid, rfl, rfl⟩
    cases fraction with
    | none =>
      have digits := mem_someDigits.mpr ⟨by simpa using valid.some, valid.whole⟩
      exact .inl ⟨whole, digits, [], .inl rfl, by simp [text]⟩
    | some fraction =>
      have places := mem_digits.mpr valid.fraction
      by_cases none : whole = []
      · subst none
        have places := mem_someDigits.mpr ⟨valid.some, valid.fraction⟩
        exact .inr ⟨['.'], rfl, fraction, places, by simp [text]⟩
      · have digits := mem_someDigits.mpr ⟨none, valid.whole⟩
        exact .inl ⟨whole, digits, _, .inr ⟨['.'], rfl, fraction, places, rfl⟩, by simp [text]⟩

/-- The texts of valid literals make up the language. -/
theorem mem_language {cs : List Char} : cs ∈ language ↔ ∃ l : Literal, l.Valid ∧ l.text = cs := by
  constructor
  · rintro ⟨_, mantissa, _, rfl | ⟨_, mark, digits, places, rfl⟩, rfl⟩
    · obtain ⟨l, valid, _, rfl⟩ := mem_mantissas.mp mantissa
      exact ⟨l, valid, by simp⟩
    · obtain ⟨⟨whole, fraction, _⟩, valid, rfl, rfl⟩ := mem_mantissas.mp mantissa
      obtain ⟨c, isMark, rfl⟩ := mem_mark.mp mark
      refine ⟨⟨whole, fraction, some (c, digits)⟩,
        ⟨valid.whole, valid.fraction, valid.some, fun _ same => ?_⟩, by simp [text]⟩
      cases same
      exact ⟨isMark, mem_someDigits.mp places⟩
  · rintro ⟨⟨whole, fraction, exponent⟩, valid, rfl⟩
    have mantissa : _ ∈ mantissas := mem_mantissas.mpr
      ⟨⟨whole, fraction, none⟩, ⟨valid.whole, valid.fraction, valid.some, by simp⟩, rfl, rfl⟩
    cases exponent with
    | none => exact ⟨_, mantissa, [], .inl rfl, by simp⟩
    | some exponent =>
      obtain ⟨c, digits⟩ := exponent
      obtain ⟨isMark, places⟩ := valid.exponent (c, digits) rfl
      refine ⟨_, mantissa, _, .inr ⟨[c], mem_mark.mpr ⟨c, isMark, rfl⟩, digits, ?_, rfl⟩, ?_⟩
      · exact mem_someDigits.mpr places
      · simp [text]

section Reading

variable {s rest digits : List Char} {l : Literal}

theorem valid_of_read? (found : read? s = some (l, rest)) : l.Valid := by
  simp only [read?] at found
  split at found
  · cases found
  rename_i some
  cases found
  refine ⟨fun c mem => List.mem_takeWhile_imp mem, ?_, some, ?_⟩
  · unfold readFraction
    split
    · exact fun c mem => List.mem_takeWhile_imp mem
    · simp
  · intro e found
    generalize (readFraction (s.dropWhile Char.isDigit)).2 = s at found
    cases s with
    | nil => cases found
    | cons c s =>
      simp only [readExponent] at found
      split at found
      · rename_i introduced
        cases found
        exact ⟨introduced.1, introduced.2, fun c mem => List.mem_takeWhile_imp mem⟩
      · cases found

theorem readFraction_of_ne_point {c : Char} (other : c ≠ '.') (rest : List Char) :
    readFraction (c :: rest) = (none, c :: rest) := by
  unfold readFraction
  split
  · rename_i point
    cases point
    exact absurd rfl other
  · rfl

theorem readExponent_append_digits {letter : Char} (isMark : isExponentMark letter = true)
    (all : ∀ c ∈ digits, c.isDigit = true) (some : digits ≠ []) (rest : List Char) :
    readExponent (letter :: (digits ++ rest)) =
      (.some (letter, digits ++ rest.takeWhile Char.isDigit), rest.dropWhile Char.isDigit) := by
  simp [readExponent, List.takeWhile_append_of_pos all, List.dropWhile_append_of_pos all, isMark,
    some]

variable {whole fraction : List Char}

theorem read?_append_of_digits (digits : ∀ c ∈ whole, c.isDigit = true) (some : whole ≠ [])
    (rest : List Char) :
    read? (whole ++ rest) =
      let (fraction, afterFraction) := readFraction (rest.dropWhile Char.isDigit)
      let (exponent, after) := readExponent afterFraction
      .some (⟨whole ++ rest.takeWhile Char.isDigit, fraction, exponent⟩, after) := by
  simp [read?, List.takeWhile_append_of_pos digits, List.dropWhile_append_of_pos digits, some]

theorem read?_append_of_pointed (digits : ∀ c ∈ whole, c.isDigit = true)
    (places : ∀ c ∈ fraction, c.isDigit = true) (some : whole ++ fraction ≠ [])
    (rest : List Char) :
    read? (whole ++ '.' :: (fraction ++ rest)) =
      let (exponent, after) := readExponent (rest.dropWhile Char.isDigit)
      .some (⟨whole, .some (fraction ++ rest.takeWhile Char.isDigit), exponent⟩, after) := by
  have point : Char.isDigit '.' = false := by decide
  have some : whole = [] → fraction ≠ [] := by simpa using some
  simp +contextual [read?, readFraction, List.takeWhile_append_of_pos, digits, places,
    List.dropWhile_append_of_pos, point, some]

/-- A literal is read in full, whatever is behind it, and it is what is read if nothing is. -/
theorem exists_read?_of_valid (valid : l.Valid) (rest : List Char) :
    ∃ m after, read? (l.text ++ rest) = some (m, after) ∧ l.text.length ≤ m.text.length ∧
      (rest = [] → m = l ∧ after = []) := by
  obtain ⟨whole, fraction, exponent⟩ := l
  obtain ⟨digits, places, written, introduced⟩ := valid
  simp only at digits introduced
  -- Digits go on behind digits, but an exponent is all there is to read where it is introduced.
  cases fraction with
  | none =>
    have some : whole ≠ [] := by simpa using written
    have read := read?_append_of_digits digits some
    cases exponent with
    | none =>
      refine ⟨_, _, by simpa [text] using read rest, by simp [text], ?_⟩
      rintro rfl
      simp [readFraction, readExponent]
    | some exponent =>
      obtain ⟨isMark, powered, powers⟩ := introduced exponent rfl
      obtain ⟨other, unpointed⟩ := not_digit_of_isExponentMark isMark
      refine ⟨⟨whole, none, .some (exponent.1, exponent.2 ++ rest.takeWhile Char.isDigit)⟩,
        rest.dropWhile Char.isDigit, ?_, by simp [text], ?_⟩
      · simp [text, read, other, readFraction_of_ne_point unpointed,
          readExponent_append_digits isMark powers powered]
      · rintro rfl
        simp
  | some fraction =>
    simp only [Option.getD_some] at places written
    have read := read?_append_of_pointed digits places written
    cases exponent with
    | none =>
      refine ⟨_, _, by simpa [text] using read rest, by simp [text], ?_⟩
      rintro rfl
      simp [readExponent]
    | some exponent =>
      obtain ⟨isMark, powered, powers⟩ := introduced exponent rfl
      obtain ⟨other, _⟩ := not_digit_of_isExponentMark isMark
      refine ⟨⟨whole, .some fraction, .some (exponent.1, exponent.2 ++ rest.takeWhile Char.isDigit)⟩,
        rest.dropWhile Char.isDigit, ?_, by simp [text], ?_⟩
      · simp [text, read, other, readExponent_append_digits isMark powers powered]
      · rintro rfl
        simp

theorem read?_text (valid : l.Valid) : read? l.text = some (l, []) := by
  obtain ⟨m, after, found, _, whole⟩ := exists_read?_of_valid valid []
  obtain ⟨rfl, rfl⟩ := whole rfl
  rwa [List.append_nil] at found

theorem mem_language_of_read? (found : read? s = some (l, rest)) : l.text ∈ language :=
  mem_language.mpr ⟨l, valid_of_read? found, rfl⟩

/-- A text that starts with a literal is read, and no literal that it starts with is longer. -/
theorem exists_read?_of_prefix {p : List Char} (literal : p ∈ language) (front : p <+: s) :
    ∃ m after, read? s = some (m, after) ∧ p.length ≤ m.text.length := by
  obtain ⟨l, valid, rfl⟩ := mem_language.mp literal
  obtain ⟨rest, rfl⟩ := front
  obtain ⟨m, after, found, le, _⟩ := exists_read?_of_valid valid rest
  exact ⟨m, after, found, le⟩

end Reading

/-!
The same in bytes, where a position ahead is taken back unless what was looked for is there.
-/

def isDigitByte (b : UInt8) : Bool := '0'.toUInt8 ≤ b && b ≤ '9'.toUInt8

/-- Where the digits from a position on end. -/
def digitsEnd (bytes : List UInt8) (pos : Nat) : Nat :=
  match _ : bytes[pos]? with
  | some b => if isDigitByte b then digitsEnd bytes (pos + 1) else pos
  | none => pos
termination_by bytes.length - pos
decreasing_by
  have := (List.getElem?_eq_some_iff.mp (by assumption)).1
  omega

/-- Where the mantissa at the start ends and how many digits it has. A point counts if there is a
digit on either side of it. -/
def mantissaEnd (bytes : List UInt8) : Nat × Nat :=
  let whole := digitsEnd bytes 0
  if bytes[whole]? = some '.'.toUInt8 then
    let ahead := digitsEnd bytes (whole + 1)
    let digits := whole + (ahead - (whole + 1))
    (if 0 < digits then ahead else whole, digits)
  else (whole, whole)

/-- Where the exponent at a position ends. It counts if there is a digit behind its letter. -/
def exponentEnd (bytes : List UInt8) (pos : Nat) : Nat :=
  if bytes[pos]? = some 'e'.toUInt8 ∨ bytes[pos]? = some 'E'.toUInt8 then
    let ahead := digitsEnd bytes (pos + 1)
    if pos + 1 < ahead then ahead else pos
  else pos

def scan? (bytes : List UInt8) : Option Nat :=
  let (mantissa, digits) := mantissaEnd bytes
  if digits = 0 then none else some (exponentEnd bytes mantissa)

/-- How many bytes the literal at the start of a text takes. -/
def extent? (s : String) : Option Nat := scan? s.toUTF8.data.toList

/-- The bytes of characters. -/
def encoded (s : List Char) : List UInt8 := s.flatMap String.utf8EncodeChar

section Bytes

variable {bytes : List UInt8} {pos : Nat} {s : List Char}

/-- A character below 128 is its own byte, and any other starts with a byte from 128 on. -/
theorem exists_utf8EncodeChar (c : Char) : ∃ b bs, String.utf8EncodeChar c = b :: bs ∧
    (c.toNat < 128 ∧ b.toNat = c.toNat ∧ bs = [] ∨ 128 ≤ c.toNat ∧ 128 ≤ b.toNat) := by
  have value : c.val.toNat = c.toNat := rfl
  simp only [String.utf8EncodeChar, value]
  split
  · refine ⟨_, [], rfl, .inl ⟨by omega, ?_, rfl⟩⟩
    rw [UInt8.toNat_ofNat']
    omega
  · split_ifs <;> exact ⟨_, _, rfl, .inr ⟨by omega, by rw [UInt8.toNat_ofNat']; omega⟩⟩

theorem isDigitByte_iff {b : UInt8} : isDigitByte b = true ↔ 48 ≤ b.toNat ∧ b.toNat ≤ 57 := by
  rw [isDigitByte, Bool.and_eq_true, decide_eq_true_eq, decide_eq_true_eq, UInt8.le_iff_toNat_le,
    UInt8.le_iff_toNat_le]
  rfl

theorem encoded_cons (c : Char) (s : List Char) :
    encoded (c :: s) = String.utf8EncodeChar c ++ encoded s := List.flatMap_cons

/-- A digit is a byte of its own, and no other character starts like one. -/
theorem exists_encoded_cons (c : Char) (s : List Char) : ∃ b bs, encoded (c :: s) = b :: bs ∧
    isDigitByte b = c.isDigit ∧ (c.toNat < 128 → bs = encoded s) ∧
      ∀ a : Char, a.toNat < 128 → (b = a.toUInt8 ↔ c = a) := by
  obtain ⟨b, bs, bytes, cases⟩ := exists_utf8EncodeChar c
  refine ⟨b, bs ++ encoded s, by rw [encoded_cons, bytes, List.cons_append], ?_, ?_, ?_⟩
  · rw [Bool.eq_iff_iff, isDigitByte_iff, Char.isDigit_iff_toNat]
    simp only [Char.reduceToNat]
    omega
  · intro ascii
    rcases cases with ⟨_, _, rfl⟩ | ⟨high, _⟩
    · rfl
    · omega
  · intro a ascii
    rw [← UInt8.toNat_inj, ← Char.toNat_inj]
    have value : a.toUInt8.toNat = a.toNat % 256 := by rw [Char.toUInt8, UInt32.toNat_toUInt8]; rfl
    omega

theorem getElem?_eq_ascii_iff (here : bytes.drop pos = encoded s) (a : Char) (ascii : a.toNat < 128) :
    bytes[pos]? = some a.toUInt8 ↔ s.head? = some a := by
  rw [← List.head?_drop, here]
  cases s with
  | nil => simp [encoded]
  | cons c s =>
    obtain ⟨b, bs, bytes, _, _, only⟩ := exists_encoded_cons c s
    rw [bytes, List.head?_cons, List.head?_cons, Option.some_inj, Option.some_inj, only a ascii]

theorem drop_succ_of_encoded {c : Char} (here : bytes.drop pos = encoded (c :: s)) (ascii : c.toNat < 128) :
    bytes.drop (pos + 1) = encoded s := by
  obtain ⟨b, bs, bytes, _, only, _⟩ := exists_encoded_cons c s
  rw [← List.tail_drop, here, bytes, List.tail_cons, only ascii]

theorem digitsEnd_of_none (ended : bytes[pos]? = none) : digitsEnd bytes pos = pos := by
  rw [digitsEnd]
  split
  · rename_i found
    rw [ended] at found
    cases found
  · rfl

theorem digitsEnd_of_some {b : UInt8} (found : bytes[pos]? = some b) :
    digitsEnd bytes pos = if isDigitByte b then digitsEnd bytes (pos + 1) else pos := by
  rw [digitsEnd]
  split
  · rename_i found'
    rw [found] at found'
    cases found'
    rfl
  · rename_i ended
    rw [found] at ended
    cases ended

/-- Where the characters' digits end, the bytes' do. -/
theorem digitsEnd_eq (here : bytes.drop pos = encoded s) :
    digitsEnd bytes pos = pos + (s.takeWhile Char.isDigit).length ∧
      bytes.drop (pos + (s.takeWhile Char.isDigit).length) =
        encoded (s.dropWhile Char.isDigit) := by
  induction s generalizing pos with
  | nil =>
    have ended : bytes[pos]? = none := by rw [← List.head?_drop, here]; rfl
    exact ⟨digitsEnd_of_none ended, here⟩
  | cons c s ih =>
    obtain ⟨b, bs, first, digit, _, _⟩ := exists_encoded_cons c s
    have found : bytes[pos]? = some b := by rw [← List.head?_drop, here, first]; rfl
    rw [digitsEnd_of_some found, digit]
    cases isDigit : c.isDigit with
    | false => simp [isDigit, here]
    | true =>
      have ascii : c.toNat < 128 := ascii_of_isDigit isDigit
      obtain ⟨ends, behind⟩ := ih (drop_succ_of_encoded here ascii)
      rw [List.takeWhile_cons_of_pos isDigit, List.dropWhile_cons_of_pos isDigit, List.length_cons,
        ← Nat.add_assoc, Nat.add_right_comm]
      exact ⟨ends, behind⟩

theorem exponentEnd_eq (here : bytes.drop pos = encoded s) :
    exponentEnd bytes pos =
      pos + ((readExponent s).1.elim [] fun (mark, ds) => mark :: ds).length := by
  unfold exponentEnd
  simp only [getElem?_eq_ascii_iff here 'e' (by decide), getElem?_eq_ascii_iff here 'E' (by decide)]
  cases s with
  | nil => rfl
  | cons c s =>
    simp only [List.head?_cons, Option.some_inj, ← isExponentMark_iff, readExponent]
    by_cases isMark : isExponentMark c = true
    · obtain ⟨ends, _⟩ := digitsEnd_eq (drop_succ_of_encoded here (ascii_of_isExponentMark isMark))
      simp only [isMark, ends, true_and, if_true]
      cases s.takeWhile Char.isDigit with
      | nil => simp
      | cons d ds =>
        simp only [List.length_cons, ne_eq, reduceCtorEq, not_false_eq_true, if_true, Option.elim]
        rw [if_pos (by omega)]
        omega
    · simp [isMark]

theorem mantissaEnd_eq (s : List Char) :
    let whole := s.takeWhile Char.isDigit
    let fraction := readFraction (s.dropWhile Char.isDigit)
    (mantissaEnd (encoded s)).2 = (whole ++ fraction.1.getD []).length ∧
      ((mantissaEnd (encoded s)).2 ≠ 0 →
        (mantissaEnd (encoded s)).1 = (whole ++ fraction.1.elim [] ('.' :: ·)).length ∧
        (encoded s).drop (mantissaEnd (encoded s)).1 = encoded fraction.2) := by
  have here : (encoded s).drop 0 = encoded s := rfl
  obtain ⟨ends, behind⟩ := digitsEnd_eq here
  rw [Nat.zero_add] at ends behind
  unfold mantissaEnd
  simp only [ends, getElem?_eq_ascii_iff behind '.' (by decide)]
  generalize s.takeWhile Char.isDigit = whole at behind ⊢
  generalize s.dropWhile Char.isDigit = after at behind ⊢
  by_cases pointed : after.head? = some '.'
  · obtain ⟨after, rfl⟩ := List.head?_eq_some_iff.mp pointed
    obtain ⟨ahead, far⟩ := digitsEnd_eq (drop_succ_of_encoded behind (by decide))
    simp only [List.head?_cons, if_true, ahead, readFraction, Option.getD_some, Option.elim_some,
      List.length_append, List.length_cons]
    refine ⟨by omega, fun some => ?_⟩
    rw [if_pos (by omega)]
    exact ⟨by omega, far⟩
  · have unread : readFraction after = (none, after) := by
      cases after with
      | nil => rfl
      | cons c after => exact readFraction_of_ne_point (fun is => pointed (by rw [is]; rfl)) after
    simp [pointed, unread, behind]

/-- In bytes a literal is as long as in characters. -/
theorem scan?_encoded (s : List Char) :
    scan? (encoded s) = (read? s).map fun found => found.1.text.length := by
  obtain ⟨digits, ends⟩ := mantissaEnd_eq s
  rw [digits, ne_eq, List.length_eq_zero_iff] at ends
  simp only [scan?, read?, digits, List.length_eq_zero_iff]
  split
  · rfl
  · rename_i some
    obtain ⟨mantissa, behind⟩ := ends some
    rw [exponentEnd_eq behind, mantissa, ← List.length_append]
    rfl

theorem length_encoded (ascii : ∀ c ∈ s, c.toNat < 128) : (encoded s).length = s.length := by
  induction s with
  | nil => rfl
  | cons c s ih =>
    obtain ⟨ascii, rest⟩ := List.forall_mem_cons.mp ascii
    obtain ⟨b, bs, bytes, _, only, _⟩ := exists_encoded_cons c s
    rw [bytes, only ascii, List.length_cons, List.length_cons, ih rest]

end Bytes

section Texts

variable {s : String} {l : Literal} {rest : List Char}

theorem bytes_eq_encoded (s : String) : s.toUTF8.data.toList = encoded s.toList := by
  obtain ⟨cs, rfl⟩ : ∃ cs, s = String.ofList cs := ⟨s.toList, String.ofList_toList.symm⟩
  rw [String.toUTF8_eq_toByteArray, String.toByteArray_ofList, String.toList_ofList,
    List.utf8Encode, List.data_toByteArray]
  rfl

theorem utf8ByteSize_of_mem_language (literal : s.toList ∈ language) :
    s.utf8ByteSize = s.toList.length := by
  obtain ⟨l, valid, written⟩ := mem_language.mp literal
  rw [← length_encoded (written ▸ valid.ascii), ← bytes_eq_encoded, String.toUTF8_eq_toByteArray]
  rfl

theorem extent?_eq (s : String) :
    extent? s = (read? s.toList).map fun found => found.1.text.length := by
  rw [extent?, bytes_eq_encoded, scan?_encoded]

/-- The sizes in bytes of the literals that a text starts with. -/
def sizes (s : String) : Set Nat :=
  {n | ∃ p rest : String, s = p ++ rest ∧ p.toList ∈ language ∧ p.utf8ByteSize = n}

theorem isGreatest_of_read? (found : read? s.toList = some (l, rest)) :
    IsGreatest (sizes s) l.text.length := by
  have literal : (String.ofList l.text).toList ∈ language := by
    rw [String.toList_ofList]
    exact mem_language_of_read? found
  constructor
  · refine ⟨String.ofList l.text, String.ofList rest, ?_, literal, ?_⟩
    · rw [← String.ofList_append, text_append_of_read? found, String.ofList_toList]
    · rw [utf8ByteSize_of_mem_language literal, String.toList_ofList]
  · rintro _ ⟨p, after, rfl, literal, rfl⟩
    rw [String.toList_append] at found
    obtain ⟨m, _, found', le⟩ := exists_read?_of_prefix literal (List.prefix_append _ _)
    rw [found] at found'
    cases found'
    rwa [utf8ByteSize_of_mem_language literal]

theorem sizes_of_read?_none (unread : read? s.toList = none) : sizes s = ∅ := by
  rw [Set.eq_empty_iff_forall_notMem]
  rintro _ ⟨p, after, rfl, literal, rfl⟩
  rw [String.toList_append] at unread
  obtain ⟨m, _, found, _⟩ := exists_read?_of_prefix literal (List.prefix_append _ _)
  rw [unread] at found
  cases found

theorem extent?_spec (s : String) :
    (extent? s = none ∧ sizes s = ∅) ∨ ∃ n, extent? s = some n ∧ IsGreatest (sizes s) n := by
  rw [extent?_eq]
  cases read : read? s.toList with
  | none => exact .inl ⟨rfl, sizes_of_read?_none read⟩
  | some found => exact .inr ⟨_, rfl, isGreatest_of_read? read⟩

theorem extent?_eq_some_iff {n : Nat} : extent? s = some n ↔ IsGreatest (sizes s) n := by
  rcases extent?_spec s with ⟨unread, none⟩ | ⟨m, read, greatest⟩
  · rw [unread]
    refine ⟨nofun, fun greatest => ?_⟩
    rw [none] at greatest
    cases greatest.1
  · rw [read, Option.some_inj]
    exact ⟨fun same => same ▸ greatest, greatest.unique⟩

theorem extent?_eq_none_iff : extent? s = none ↔ sizes s = ∅ := by
  rcases extent?_spec s with ⟨unread, none⟩ | ⟨m, read, greatest⟩
  · exact iff_of_true unread none
  · rw [read]
    exact iff_of_false nofun (Set.Nonempty.ne_empty ⟨m, greatest.1⟩)

/-- No part of a literal is longer. -/
theorem extent?_of_mem_language (literal : s.toList ∈ language) :
    extent? s = some s.utf8ByteSize := by
  refine extent?_eq_some_iff.mpr ⟨⟨s, "", String.append_empty.symm, literal, rfl⟩, ?_⟩
  rintro _ ⟨p, rest, rfl, _, rfl⟩
  rw [String.utf8ByteSize_append]
  exact Nat.le_add_right _ _

theorem utf8ByteSize_pos_of_mem_language (literal : s.toList ∈ language) : 0 < s.utf8ByteSize := by
  obtain ⟨l, valid, written⟩ := mem_language.mp literal
  rw [utf8ByteSize_of_mem_language literal, ← written]
  exact List.length_pos_iff.mpr (text_ne_nil_of_read? (read?_text valid))

/-- The nearest number, for a literal and nothing else. -/
def parse? (s : String) : Option Float :=
  match read? s.toList with
  | some (l, []) => some l.value.toFloat
  | _ => none

theorem parse?_of_valid (valid : l.Valid) (written : l.text = s.toList) :
    parse? s = some l.value.toFloat := by
  rw [parse?, ← written, read?_text valid]

theorem parse?_isSome (literal : s.toList ∈ language) : (parse? s).isSome := by
  obtain ⟨l, valid, written⟩ := mem_language.mp literal
  rw [parse?_of_valid valid written]
  rfl

end Texts

end Number.Literal

namespace Token

/-- How splitting a run stops early: at a literal that is not parsed, or at what is no literal. -/
inductive Stop
  | unparsed (text : String)
  | refused (e : Error)
deriving DecidableEq

def Stop.error : Stop → Error
  | unparsed text => .unknownToken text
  | refused e => e

/-- Splits a run as `emitRun` does, but leaves the numbers to a parser, which may fail. -/
def splitRun (parse : String → Option Float) (env : Environment) (emitted : Emitted)
    (run : List Char) : Except Stop Emitted :=
  if run = [] then .ok emitted
  else
    match _ : Number.Literal.read? run with
    | some (literal, rest) =>
      match parse (String.ofList literal.text) with
      | some x => splitRun parse env (emit emitted (number x)) rest
      | none => .error (.unparsed (String.ofList literal.text))
    | none =>
      match _ : run.takeWhile Text.isLetter with
      | [] => .error (.refused (.unknownToken (String.ofList run)))
      | letters@(_ :: _) =>
        match ofName env (String.ofList letters) with
        | .error e => .error (.refused e)
        | .ok token => splitRun parse env (emit emitted token) (run.dropWhile Text.isLetter)
termination_by run.length
decreasing_by
  · exact Number.Literal.length_lt_of_read? (by assumption)
  · exact Lexeme.length_dropWhile_lt (by assumption)

variable {parse : String → Option Float} {env : Environment} {emitted : Emitted} {run : List Char}

/-- With the nearest number for each literal, a run is split into what it is read as. -/
theorem splitRun_parse? :
    (splitRun Number.Literal.parse? env emitted run).mapError Stop.error =
      emitRun env emitted run := by
  have nearest {s rest : List Char} {l : Number.Literal}
      (found : Number.Literal.read? s = some (l, rest)) :
      Number.Literal.parse? (String.ofList l.text) = some l.value.toFloat :=
    Number.Literal.parse?_of_valid (Number.Literal.valid_of_read? found) String.toList_ofList.symm
  fun_induction splitRun Number.Literal.parse? env emitted run with
  | case1 => rw [emitRun_nil]; rfl
  | case2 emitted run some l rest found x parsed ih =>
    rw [nearest found] at parsed
    cases parsed
    rw [emitRun_literal found, ih]
  | case3 emitted run some l rest found unparsed =>
    rw [nearest found] at unparsed
    cases unparsed
  | case4 emitted run some unread letters => rw [emitRun_unreadable some unread letters]; rfl
  | case5 emitted run some unread c cs letters e unknown =>
    rw [emitRun_letters unread letters, unknown]
    rfl
  | case6 emitted run some unread c cs letters token known ih =>
    rw [emitRun_letters unread letters, known, ih]

/-- The parser is given literals only. -/
theorem splitRun_ne_unparsed
    (accepts : ∀ text : String, text.toList ∈ Number.Literal.language → (parse text).isSome)
    (text : String) : splitRun parse env emitted run ≠ .error (.unparsed text) := by
  fun_induction splitRun parse env emitted run with
  | case1 => nofun
  | case2 emitted run some l rest found x parsed ih => exact ih
  | case3 emitted run some l rest found unparsed =>
    have parsed := accepts (String.ofList l.text)
      (String.toList_ofList.symm ▸ Number.Literal.mem_language_of_read? found)
    rw [unparsed] at parsed
    cases parsed
  | case4 => nofun
  | case5 => nofun
  | case6 emitted run some unread c cs letters token known ih => exact ih

end Token

namespace Number.Literal

/-- What is read from the start of a text is the longest literal there, and the longest literal of
that. So a parser that takes literals never fails where a run is split. -/
theorem longest_read (parse : String → Option Float)
    (accepts : ∀ text : String, text.toList ∈ language → (parse text).isSome) (s : String) :
    extent? s = (read? s.toList).map (fun found => (String.ofList found.1.text).utf8ByteSize) ∧
    (∀ n, extent? s = some n ↔ IsGreatest (sizes s) n) ∧
    (extent? s = none ↔ sizes s = ∅) ∧
    (∀ n, extent? s = some n → 0 < n ∧ String.Pos.Raw.IsValid s ⟨n⟩ ∧
      ∃ p rest, s = p ++ rest ∧ p.utf8ByteSize = n ∧ extent? p = some n) ∧
    ∀ env emitted run text, Token.splitRun parse env emitted run ≠ .error (.unparsed text) := by
  refine ⟨?_, fun _ => extent?_eq_some_iff, extent?_eq_none_iff, fun n read => ?_,
    fun _ _ _ => Token.splitRun_ne_unparsed accepts⟩
  · rw [extent?_eq]
    refine Option.map_congr fun ⟨l, rest⟩ mem => ?_
    have literal := mem_language_of_read? mem
    rw [utf8ByteSize_of_mem_language (by rwa [String.toList_ofList]), String.toList_ofList]
  · obtain ⟨p, rest, rfl, literal, rfl⟩ := (extent?_eq_some_iff.mp read).1
    exact ⟨utf8ByteSize_pos_of_mem_language literal,
      String.Pos.Raw.isValid_iff_exists_append.mpr ⟨p, rest, rfl, rfl⟩,
      p, rest, rfl, rfl, extent?_of_mem_language literal⟩

theorem longest_read_before_letters :
    (∀ text : String, text.toList ∈ language → (parse? text).isSome) ∧
      extent? "7.e5eé" = some 4 ∧ IsGreatest (sizes "7.e5eé") 4 ∧
      ∀ env emitted run text,
        Token.splitRun parse? env emitted run ≠ .error (.unparsed text) := by
  have accepts (text : String) : text.toList ∈ language → (parse? text).isSome := parse?_isSome
  obtain ⟨size, greatest, _, _, parsed⟩ := longest_read parse? accepts "7.e5eé"
  have read : extent? "7.e5eé" = some 4 := by
    rw [size]
    decide
  exact ⟨accepts, read, (greatest 4).mp read, parsed⟩

end Number.Literal

end Calculator
