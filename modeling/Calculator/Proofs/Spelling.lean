import Calculator.Proofs.Literals
import Calculator.Proofs.Rounding
import Mathlib.Tactic.IntervalCases

/-!
Reading what was written. A finite number without a sign is read from its plain form. Tokens that
may follow one another are read from their spellings with blanks in between; so these are the lists
of tokens that texts are read as.
-/

namespace Calculator

namespace Number

/-- How a decimal is split at its point. -/
structure Decimal.Split (d : Decimal) (whole fraction : List Char) : Prop where
  nonempty : whole ≠ []
  digits : ∀ c ∈ whole ++ fraction, c.isDigit = true
  places : fraction.length = (-d.exponent).toNat
  value : Nat.ofDigitChars 10 (whole ++ fraction) 0 = d.num

theorem Decimal.split_parts (d : Decimal) : d.Split d.parts.1 d.parts.2 := by
  unfold parts
  simp only [List.splitAt_eq]
  generalize zeros : (-d.exponent).toNat + 1 - (Nat.toDigits 10 d.digits).length = before
  generalize padded : List.replicate before '0' ++ Nat.toDigits 10 d.digits ++
    List.replicate d.exponent.toNat '0' = chars
  have size : (-d.exponent).toNat < chars.length := by
    simp only [← padded, List.length_append, List.length_replicate]
    omega
  refine ⟨?_, ?_, ?_, ?_⟩
  · rw [← List.length_pos_iff, List.length_take]
    omega
  · rw [List.take_append_drop, ← padded]
    intro c mem
    simp only [List.mem_append, List.mem_replicate] at mem
    rcases mem with (⟨_, rfl⟩ | mem) | ⟨_, rfl⟩
    · rfl
    · exact Nat.isDigit_of_mem_toDigits (by decide) (by decide) mem
    · rfl
  · rw [List.length_drop]
    omega
  · rw [List.take_append_drop, ← padded, Nat.ofDigitChars_append, Nat.ofDigitChars_append,
      Nat.ofDigitChars_replicate_zero, Nat.ofDigitChars_replicate_zero, Nat.mul_zero,
      Nat.ofDigitChars_ten_toDigits, num, Nat.mul_comm]
    rfl

namespace Literal

variable {whole fraction : List Char}

theorem read?_digits (digits : ∀ c ∈ whole, c.isDigit = true) (some : whole ≠ []) :
    read? whole = .some (⟨whole, none, none⟩, []) := by
  simpa [text] using read?_text (valid_digits digits some)

theorem read?_pointed (digits : ∀ c ∈ whole ++ fraction, c.isDigit = true) (some : whole ≠ []) :
    read? (whole ++ '.' :: fraction) = .some (⟨whole, .some fraction, none⟩, []) := by
  simpa [text] using read?_text (valid_pointed digits (List.append_ne_nil_of_left_ne_nil some _))

end Literal

/-- A literal of these digits has the same value. -/
theorem Decimal.Split.magnitude_value {d : Decimal} {whole fraction : List Char}
    (split : d.Split whole fraction) {l : Literal} (digits : l.whole = whole)
    (places : l.fraction.getD [] = fraction) (positional : l.exponent = none) :
    l.value.magnitude = d.magnitude := by
  have none : (0 - (fraction.length : Int)).toNat = 0 := by omega
  have zeros : (-(0 - (fraction.length : Int))).toNat = (-d.exponent).toNat := by
    have := split.places
    omega
  have value : l.value = ⟨d.num, 0 - fraction.length⟩ := by
    simp only [Literal.value, digits, places, positional, split.value]
    rfl
  rw [value, magnitude_eq_nearest, magnitude_eq_nearest d]
  simp only [num, den, none, zeros]
  rw [show Nat.pow 10 0 = 1 from rfl, Nat.mul_one]

/-- The plain form of a decimal is one literal, of the same value. -/
theorem Decimal.exists_read?_plain (d : Decimal) :
    ∃ l, Literal.read? d.plain = some (l, []) ∧ l.value.magnitude = d.magnitude := by
  have split := d.split_parts
  unfold plain
  generalize d.parts = parts at split
  obtain ⟨whole, fraction⟩ := parts
  cases fraction with
  | nil =>
    have digits : ∀ c ∈ whole, c.isDigit = true := by simpa using split.digits
    exact ⟨_, Literal.read?_digits digits split.nonempty, split.magnitude_value rfl rfl rfl⟩
  | cons c cs =>
    exact ⟨_, Literal.read?_pointed split.digits split.nonempty, split.magnitude_value rfl rfl rfl⟩

/-- Digits and a point are all there is in a plain form. -/
theorem Decimal.isDigit_of_mem_plain {d : Decimal} {c : Char} (mem : c ∈ d.plain) :
    c.isDigit = true ∨ c = '.' := by
  have split := d.split_parts
  unfold plain at mem
  generalize d.parts = parts at split mem
  obtain ⟨whole, fraction⟩ := parts
  have digits := split.digits
  cases fraction with
  | nil => exact Or.inl (digits c (List.mem_append_left _ mem))
  | cons p ps =>
    simp only [List.mem_append, List.mem_cons] at mem digits
    rcases mem with mem | rfl | mem
    · exact Or.inl (digits c (Or.inl mem))
    · exact Or.inr rfl
    · exact Or.inl (digits c (Or.inr mem))

/-- Finite and without a sign. -/
def Plain (x : Float) : Prop := isSigned x = false ∧ magnitude x < infinity

theorem plain_eq {x : Float} (finite : Plain x) :
    plain x = String.ofList (shortest (magnitude x)).plain := by
  have small : ¬ infinity < magnitude x ∧ magnitude x ≠ infinity := by
    have := finite.2
    omega
  simp [plain, written, finite.1, small]

/-- A finite number without a sign is read from its plain form, all of which is one literal. -/
theorem exists_read?_plain {x : Float} (finite : Plain x) :
    ∃ l, Literal.read? (plain x).toList = some (l, []) ∧ l.value.toFloat = x := by
  obtain ⟨l, read, value⟩ := (shortest (magnitude x)).exists_read?_plain
  refine ⟨l, ?_, ?_⟩
  · rw [plain_eq finite, String.toList_ofList, read]
  · rw [Decimal.toFloat, value, magnitude_shortest finite.2, ofMagnitude_magnitude finite.1]

end Number

namespace Token

/-- A token as it would be written in a formula: operators by their symbols, functions by their
names. -/
def spelling : Token → String
  | prefixOp c => c.toString
  | call name _ => name.text
  | t => t.text

/-- Tokens as a formula, with blanks in between. -/
def spelled (tokens : List Token) : String := " ".intercalate (tokens.map spelling)

variable {env : Environment} {emitted : Emitted}

theorem isBoundary_of_isDigit {c : Char} (digit : c.isDigit = true ∨ c = '.') :
    isBoundary c = false := by
  rcases digit with digit | rfl
  · have range : 48 ≤ c.toNat ∧ c.toNat ≤ 57 := Char.isDigit_iff_toNat.mp digit
    rw [← Char.ofNat_toNat c]
    generalize c.toNat = n at range
    obtain ⟨low, high⟩ := range
    interval_cases n <;> rfl
  · rfl

theorem emit_of_not_endsValue {t : Token} (value : t.kind.startsValue = true)
    (apart : endsValue emitted.head? = false) : emit emitted t = t :: emitted := by
  have other : ∀ c, t ≠ binaryOp c := by
    rintro c rfl
    cases value
  rw [emit_of_ne_binaryOp other, apart]
  rfl

theorem scan_number {x : Float} (finite : Number.Plain x)
    (apart : endsValue emitted.head? = false) :
    scan env emitted [] (Number.plain x).toList = .ok (number x :: emitted) := by
  obtain ⟨l, read, value⟩ := Number.exists_read?_plain finite
  have unbroken : ∀ c ∈ (Number.plain x).toList, isBoundary c = false := by
    intro c mem
    rw [Number.plain_eq finite, String.toList_ofList] at mem
    exact isBoundary_of_isDigit (Number.Decimal.isDigit_of_mem_plain mem)
  rw [scan_unbroken unbroken, List.reverse_nil, List.nil_append, emitRun_literal read, emitRun_nil,
    value, emit_of_not_endsValue rfl apart]

theorem scan_boundary {c : Char} (boundary : isBoundary c = true) :
    scan env emitted [] [c] = .ok (emitBoundary emitted c) := by
  rw [scan_boundaries (by simpa using boundary)]
  rfl

theorem scan_operator {c : Char} (known : (Operator.ofSymbol? c).isSome) :
    scan env emitted [] [c] =
      .ok ((if isSign emitted c then prefixOp c else binaryOp c) :: emitted) := by
  obtain ⟨op, found⟩ := Option.isSome_iff_exists.mp known
  have boundary : isBoundary c = true := by simp [isBoundary, known]
  have start : emitBoundary emitted c = emit emitted (binaryOp c) := by
    rw [← Operator.symbol_of_ofSymbol? found]
    cases op <;> rfl
  rw [scan_boundary boundary, start, emit_binaryOp]

/-- What may follow is read from its spelling. -/
theorem scan_spelling {t : Token} (follows : Follows env emitted.head? t)
    (finite : ∀ x, t = number x → Number.Plain x) :
    scan env emitted [] t.spelling.toList = .ok (t :: emitted) := by
  cases t with
  | number x => exact scan_number (finite x rfl) follows
  | prefixOp c =>
    have known : (Operator.ofSymbol? c).isSome := Option.isSome_of_isSome_bind follows.1
    have chars : (prefixOp c).spelling.toList = [c] := by simp [spelling]
    rw [chars, scan_operator known, if_pos (isSign_iff.mpr follows)]
  | binaryOp c =>
    have chars : (binaryOp c).spelling.toList = [c] := by simp [spelling, text]
    rw [chars, scan_operator follows.1, if_neg fun sign => follows.2 (isSign_iff.mp sign)]
  | leftParen =>
    have opens := emitBoundary_leftParen follows
    exact (scan_boundary rfl).trans (congrArg Except.ok opens)
  | rightParen =>
    have closes := emitBoundary_rightParen emitted
    exact (scan_boundary rfl).trans (congrArg Except.ok closes)
  | separator =>
    have separates := emitBoundary_separator emitted
    exact (scan_boundary rfl).trans (congrArg Except.ok separates)
  | call name bound =>
    -- a name is read as the function that it names, with no values bound to it
    obtain ⟨apart, rfl, visible, known⟩ := follows
    obtain ⟨f, found⟩ := Option.isSome_iff_exists.mp known
    obtain rfl := (Builtin.eq_name_iff found).mpr rfl
    exact scan_name visible apart
  | tuple n => exact follows.elim

/-- Tokens in context are read from their spellings one after the other. -/
theorem scan_spelled {tokens : List Token} (context : Contexted env emitted.head? tokens)
    (finite : ∀ x, number x ∈ tokens → Number.Plain x) :
    scan env emitted [] (spelled tokens).toList = .ok (tokens.reverse ++ emitted) := by
  induction tokens generalizing emitted with
  | nil => exact emitRun_nil
  | cons t tokens ih =>
    have first : scan env emitted [] t.spelling.toList = .ok (t :: emitted) :=
      scan_spelling context.1 fun x same => finite x (same ▸ List.mem_cons_self)
    have rest : scan env (t :: emitted) [] (spelled tokens).toList =
        .ok (tokens.reverse ++ t :: emitted) :=
      ih context.2 fun x mem => finite x (List.mem_cons_of_mem t mem)
    cases tokens with
    | nil =>
      rw [spelled, List.map_singleton, String.intercalate_singleton, first]
      rfl
    | cons u tokens =>
      have chars : (spelled (t :: u :: tokens)).toList =
          t.spelling.toList ++ ' ' :: (spelled (u :: tokens)).toList := by
        simp [spelled, String.intercalate_cons_cons]
      -- the blank ends what was read and emits nothing
      have blank : emitBoundary (t :: emitted) ' ' = t :: emitted := rfl
      have reversed : (t :: u :: tokens).reverse ++ emitted =
          (u :: tokens).reverse ++ t :: emitted := by simp
      rw [chars, scan_append_boundary _ _ _ _ rfl, first, reversed, ← rest, ← blank]
      rfl

/-- Texts are read as lists of tokens in context and, as far as numbers are finite and have no sign,
as all of these: each is read from its own spelling. -/
theorem contexted_and_ofText_spelled (env : Environment) :
    (∀ text tokens, ofText env text = .ok tokens → Contexted env none tokens) ∧
      ∀ tokens, Contexted env none tokens → (∀ x, number x ∈ tokens → Number.Plain x) →
        ofText env (spelled tokens) = .ok tokens := by
  constructor
  · intro text tokens read
    exact contexted_of_ofText read
  · intro tokens context finite
    have scanned : scan env [] [] (spelled tokens).toList = .ok (tokens.reverse ++ []) :=
      scan_spelled context finite
    simp [ofText, scanned, Except.map]

section Example

/-- A sign, a function and a product. -/
def signed : List Token :=
  [prefixOp '-', call Builtin.sin.name 0, leftParen, number 2.5, rightParen, binaryOp '*', number 3]

theorem ofText_signed : ofText .initial "- sin ( 2.5 ) * 3" = .ok signed := by
  have visible : Environment.initial.lookup "sin" = none := rfl
  have context : Contexted .initial none signed := by
    refine ⟨⟨rfl, rfl⟩, ⟨rfl, rfl, visible, rfl⟩, rfl, rfl, trivial, ⟨rfl, ?_⟩, rfl, trivial⟩
    simp [expectsOperand, kind, TokenKind.expectsOperand]
  have finite : ∀ x, number x ∈ signed → Number.Plain x := by
    intro x mem
    simp [signed] at mem
    rcases mem with rfl | rfl <;> exact ⟨by decide +kernel, by decide +kernel⟩
  have text : spelled signed = "- sin ( 2.5 ) * 3" := by decide +kernel
  exact text ▸ (contexted_and_ofText_spelled .initial).2 signed context finite

end Example

end Token

end Calculator
