import Calculator.Number.Written
import Mathlib

/-!
Rounding to binary64. A magnitude depends on the value of a decimal alone, however it is split into
digits and exponent; a value that is a magnitude already is not rounded. So the shortest decimal of
a finite number reads back as it. Bits make up the number that they were taken from.
-/

namespace Calculator.Number

section Ratio

variable {k : Nat} (positive : 0 < k) (num den : Nat)

include positive

theorem roundEven_mul : roundEven (k * num) (k * den) = roundEven num den := by
  have lower : 2 * (k * (num % den)) < k * den ↔ 2 * (num % den) < den := by
    rw [Nat.mul_left_comm]
    exact Nat.mul_lt_mul_left positive
  have upper : k * den < 2 * (k * (num % den)) ↔ den < 2 * (num % den) := by
    rw [Nat.mul_left_comm]
    exact Nat.mul_lt_mul_left positive
  simp only [roundEven, Nat.mul_div_mul_left num den positive, Nat.mul_mod_mul_left, lower, upper]

/-- Rounding looks at the ratio alone. -/
theorem nearest_mul : nearest (k * num) (k * den) = nearest num den := by
  simp only [nearest, Nat.mul_assoc k, Nat.mul_div_mul_left _ den positive,
    roundEven_mul positive]

end Ratio

theorem roundEven_of_dvd {den : Nat} (positive : 0 < den) (whole : Nat) :
    roundEven (whole * den) den = whole := by
  simp only [roundEven, Nat.mul_div_cancel whole positive, Nat.mul_mod_left]
  rw [if_pos positive]

theorem div_le_roundEven (num den : Nat) : num / den ≤ roundEven num den := by
  simp only [roundEven]
  split
  · exact Nat.le_refl _
  split
  · exact Nat.le_succ _
  · exact Nat.le_add_right _ _

theorem roundEven_of_lt_half {num den : Nat} (small : 2 * num < den) : roundEven num den = 0 := by
  have below : num < den := by omega
  simp only [roundEven, Nat.div_eq_of_lt below, Nat.mod_eq_of_lt below]
  rw [if_pos small]

theorem pow_two_pos (n : Nat) : 0 < Nat.pow 2 n := Nat.two_pow_pos n

/-- The exponent of a power as large as this is kept from being computed with. -/
theorem exists_one : ∃ n, n = 1074 ∧ one = Nat.pow 2 n := by
  unfold one
  exact ⟨_, rfl, rfl⟩

theorem one_pos : 0 < one := by
  obtain ⟨n, _, power⟩ := exists_one
  exact power ▸ pow_two_pos n

theorem binade_pos : 0 < binade := pow_two_pos 52

theorem le_log2 {n k : Nat} (reaches : Nat.pow 2 k ≤ n) : k ≤ n.log2 := by
  have some : n ≠ 0 := Nat.ne_of_gt (Nat.lt_of_lt_of_le (pow_two_pos k) reaches)
  exact (Nat.le_log2 some).mpr reaches

theorem log2_significand {significand : Nat} (low : binade ≤ significand)
    (high : significand < binade + binade) (e : Nat) :
    (significand * Nat.pow 2 e).log2 = 52 + e := by
  have power := pow_two_pos e
  have nonzero : significand * Nat.pow 2 e ≠ 0 :=
    Nat.ne_of_gt (Nat.mul_pos (Nat.lt_of_lt_of_le binade_pos low) power)
  have next : Nat.pow 2 (52 + e + 1) = (binade + binade) * Nat.pow 2 e := by
    calc 2 ^ (52 + e + 1)
      _ = 2 ^ 53 * 2 ^ e := by ring
      _ = (binade + binade) * 2 ^ e := rfl
  refine (Nat.log2_eq_iff nonzero).mpr ⟨?_, ?_⟩
  · rw [Nat.pow_add]
    exact Nat.mul_le_mul_right _ low
  · exact Nat.lt_of_lt_of_eq (Nat.mul_lt_mul_of_pos_right high power) next.symm

/-- Below the first binade a magnitude counts units. -/
theorem units_subnormal {m : Nat} (small : m < binade) : units m = m ∧ m.log2 - 52 = 0 := by
  constructor
  · simp only [units, Nat.div_eq_of_lt small, Nat.mod_eq_of_lt small, if_true]
  · rcases Nat.eq_zero_or_pos m with rfl | positive
    · rfl
    · have log := (Nat.log2_lt (Nat.ne_of_gt positive)).mpr small
      omega

theorem units_normal {m e : Nat} (exponent : m / binade = e + 1) :
    units m = (binade + m % binade) * Nat.pow 2 e := by
  simp only [units, exponent, Nat.succ_ne_zero, if_false, Nat.add_sub_cancel]

/-- A magnitude counts binades, and then the binary digits of its value behind the power of two. -/
theorem exists_significand (m : Nat) :
    ∃ significand, units m = significand * Nat.pow 2 ((units m).log2 - 52) ∧
      ((units m).log2 - 52) * binade + significand = m := by
  rcases Nat.lt_or_ge m binade with small | large
  · obtain ⟨value, shift⟩ := units_subnormal small
    rw [value, shift]
    exact ⟨m, (Nat.mul_one m).symm, by rw [Nat.zero_mul, Nat.zero_add]⟩
  · have positive : 0 < m / binade := Nat.div_pos large binade_pos
    obtain ⟨e, exponent⟩ : ∃ e, m / binade = e + 1 := ⟨m / binade - 1, by omega⟩
    have fraction : m % binade < binade := Nat.mod_lt m binade_pos
    have split : binade * (m / binade) + m % binade = m := Nat.div_add_mod m binade
    have value := units_normal exponent
    have log := log2_significand (Nat.le_add_right binade (m % binade)) (by omega) e
    have shift : (units m).log2 - 52 = e := by
      rw [value, log]
      omega
    refine ⟨binade + m % binade, ?_, ?_⟩
    · rw [shift]
      exact value
    · rw [shift]
      calc e * binade + (binade + m % binade)
        _ = binade * (e + 1) + m % binade := by ring
        _ = m := exponent ▸ split

/-- The value of a finite magnitude is rounded to that magnitude. -/
theorem nearest_units {m : Nat} (finite : m < infinity) : nearest (units m) one = m := by
  obtain ⟨significand, value, place⟩ := exists_significand m
  simp only [nearest, Nat.mul_div_cancel _ one_pos]
  generalize (units m).log2 - 52 = shift at value place ⊢
  have exact : roundEven (units m * one) (one * Nat.pow 2 shift) = significand := by
    rw [Nat.mul_comm (units m), roundEven_mul one_pos, value]
    exact roundEven_of_dvd (pow_two_pos shift) significand
  rw [exact, place]
  exact Nat.min_eq_right (Nat.le_of_lt finite)

section Bounds

variable {num den a b c m : Nat}

theorem pow_le_div (positive : 0 < den) (large : den * Nat.pow 2 a ≤ num) (b : Nat) :
    Nat.pow 2 (a + b) ≤ num * Nat.pow 2 b / den := by
  rw [Nat.le_div_iff_mul_le positive]
  calc 2 ^ (a + b) * den
    _ = den * 2 ^ a * 2 ^ b := by ring
    _ ≤ num * 2 ^ b := Nat.mul_le_mul_right _ large

theorem pow_two_le_decimal (bound : Nat.pow 2 a ≤ Nat.pow 10 b) (nonzero : m ≠ 0) (le : b ≤ c) :
    Nat.pow 2 a ≤ m * Nat.pow 10 c :=
  calc 2 ^ a
    _ ≤ 10 ^ b := bound
    _ ≤ 10 ^ c := Nat.pow_le_pow_right (by decide) le
    _ ≤ m * 10 ^ c := Nat.le_mul_of_pos_left _ (Nat.pos_of_ne_zero nonzero)

theorem decimal_lt_pow_ten (bound : 4 * Nat.pow 2 a ≤ Nat.pow 10 b) (le : b + m.log2 ≤ c) :
    2 * (m * Nat.pow 2 a) < Nat.pow 10 c :=
  calc 2 * (m * 2 ^ a)
    _ = m * (2 * 2 ^ a) := Nat.mul_left_comm ..
    _ < 2 ^ (m.log2 + 1) * (2 * 2 ^ a) :=
      Nat.mul_lt_mul_of_pos_right Nat.lt_log2_self (Nat.mul_pos (by decide) (pow_two_pos a))
    _ = 2 ^ m.log2 * (4 * 2 ^ a) := by ring
    _ ≤ 10 ^ m.log2 * 10 ^ b := Nat.mul_le_mul (Nat.pow_le_pow_left (by decide) _) bound
    _ = 10 ^ (b + m.log2) := by rw [← Nat.pow_add, Nat.add_comm]
    _ ≤ 10 ^ c := Nat.pow_le_pow_right (by decide) le

/-- Numbers beyond the largest binary64 are infinite. -/
theorem nearest_of_le (positive : 0 < den) (far : 1024 ≤ a) (large : den * Nat.pow 2 a ≤ num) :
    nearest num den = infinity := by
  obtain ⟨n, size, power⟩ := exists_one
  have reaches : Nat.pow 2 (a + n) ≤ num * one / den := power ▸ pow_le_div positive large n
  unfold nearest
  generalize num * one = scaled at reaches
  generalize quotient : scaled / den = q at reaches
  generalize position : q.log2 - 52 = shift
  have log : a + n ≤ q.log2 := le_log2 reaches
  have some : q ≠ 0 := by
    rintro rfl
    simp [size] at log
  have whole : binade ≤ roundEven scaled (den * Nat.pow 2 shift) := by
    refine Nat.le_trans ?_ (div_le_roundEven _ _)
    rw [← Nat.div_div_eq_div_mul, quotient, Nat.le_div_iff_mul_le (pow_two_pos shift)]
    have top := Nat.log2_self_le some
    rw [show q.log2 = 52 + shift by omega, Nat.pow_add] at top
    exact top
  have carried : infinity ≤ shift * binade + roundEven scaled (den * Nat.pow 2 shift) := by
    have last : infinity = 2046 * binade + binade := by decide
    rw [last]
    exact Nat.add_le_add (Nat.mul_le_mul_right _ (by omega)) whole
  simp only [quotient, position]
  exact Nat.min_eq_left carried

/-- Numbers below half the least positive binary64 are zero. -/
theorem nearest_of_lt (small : 2 * (num * one) < den) : nearest num den = 0 := by
  have below : num * one < den := by omega
  have unshifted : (num * one / den).log2 - 52 = 0 := by
    rw [Nat.div_eq_of_lt below]
    rfl
  have down : roundEven (num * one) (den * Nat.pow 2 0) = 0 :=
    roundEven_of_lt_half (by rw [show Nat.pow 2 0 = 1 from rfl, Nat.mul_one]; exact small)
  simp only [nearest, unshifted, down]
  rfl

end Bounds

namespace Decimal

/-- A decimal as a fraction. -/
def num (d : Decimal) : Nat := d.digits * Nat.pow 10 d.exponent.toNat

def den (d : Decimal) : Nat := Nat.pow 10 (-d.exponent).toNat

theorem den_pos (d : Decimal) : 0 < d.den := Nat.pow_pos (by decide)

/-- Where the exponent settles the matter, rounding the fraction has the same result. -/
theorem magnitude_eq_nearest (d : Decimal) : d.magnitude = nearest d.num d.den := by
  -- the three shortcuts first, each with the bound that makes it right
  unfold magnitude
  split
  · rename_i zero
    rw [num, zero, Nat.zero_mul]
    exact (nearest_of_lt (by rw [Nat.zero_mul]; exact d.den_pos)).symm
  rename_i nonzero
  split
  · rename_i large
    have whole : (-d.exponent).toNat = 0 := by omega
    have places : 311 ≤ d.exponent.toNat := by omega
    obtain ⟨a, far, bound⟩ : ∃ a, 1024 ≤ a ∧ Nat.pow 2 a ≤ Nat.pow 10 311 :=
      ⟨1024, by decide, by decide +kernel⟩
    refine (nearest_of_le d.den_pos far ?_).symm
    rw [den, whole, show Nat.pow 10 0 = 1 from rfl, Nat.one_mul]
    exact pow_two_le_decimal bound nonzero places
  split
  · rename_i small
    refine (nearest_of_lt ?_).symm
    have places : d.exponent.toNat = 0 := by omega
    have zeros : 401 + d.digits.log2 ≤ (-d.exponent).toNat := by omega
    obtain ⟨n, size, power⟩ := exists_one
    have bound : 4 * Nat.pow 2 n ≤ Nat.pow 10 401 := by
      rw [size]
      decide +kernel
    rw [num, den, places, power, show Nat.pow 10 0 = 1 from rfl, Nat.mul_one]
    exact decimal_lt_pow_ten bound zeros
  · rfl

/-- Zeros at the end of the digits count as much in the exponent. -/
theorem magnitude_trim (d : Decimal) : d.trim.magnitude = d.magnitude := by
  fun_induction trim d with
  | case2 => rfl
  | case1 d zeros ih =>
    have tens : d.digits = d.digits / 10 * 10 := by omega
    rw [ih, magnitude_eq_nearest, magnitude_eq_nearest d]
    obtain ⟨digits, exponent⟩ := d
    simp only [num, den] at tens ⊢
    rcases Int.lt_or_le exponent 0 with negative | positive
    · have places : (-exponent).toNat = (-(exponent + 1)).toNat + 1 := by omega
      have none : exponent.toNat = 0 ∧ (exponent + 1).toNat = 0 := by omega
      rw [none.1, none.2, places]
      calc nearest (digits / 10 * 10 ^ 0) (10 ^ (-(exponent + 1)).toNat)
        _ = nearest (10 * (digits / 10 * 10 ^ 0)) (10 * 10 ^ (-(exponent + 1)).toNat) :=
          (nearest_mul (by decide) _ _).symm
        _ = nearest (digits * 10 ^ 0) (10 ^ ((-(exponent + 1)).toNat + 1)) := by
          rw [Nat.pow_succ, Nat.mul_comm 10 (10 ^ _), pow_zero, Nat.mul_one, Nat.mul_one,
            Nat.mul_comm 10, ← tens]
    · have places : (exponent + 1).toNat = exponent.toNat + 1 := by omega
      have none : (-exponent).toNat = 0 ∧ (-(exponent + 1)).toNat = 0 := by omega
      rw [none.1, none.2, places]
      congr 1
      calc digits / 10 * 10 ^ (exponent.toNat + 1)
        _ = digits / 10 * 10 * 10 ^ exponent.toNat := by ring
        _ = digits * 10 ^ exponent.toNat := by rw [← tens]

end Decimal

/-- All digits of a finite magnitude's value read back as it. -/
theorem magnitude_exact {m : Nat} (finite : m < infinity) : (exact m).magnitude = m := by
  obtain ⟨n, size, power⟩ := exists_one
  have digits : exact m = ⟨units m * Nat.pow 5 n, -(n : Int)⟩ := by
    rw [size]
    rfl
  have whole : (-(n : Int)).toNat = 0 ∧ (- -(n : Int)).toNat = n := by omega
  rw [digits, Decimal.magnitude_eq_nearest, Decimal.num, Decimal.den, whole.1, whole.2]
  calc nearest (units m * 5 ^ n * 10 ^ 0) (10 ^ n)
    _ = nearest (5 ^ n * units m) (5 ^ n * 2 ^ n) := by
      rw [pow_zero, Nat.mul_one, Nat.mul_comm (units m), ← Nat.mul_pow]
    _ = nearest (units m) (2 ^ n) := nearest_mul (Nat.pow_pos (by decide)) _ _
    _ = nearest (units m) one := by
      rw [power]
      rfl
    _ = m := nearest_units finite

theorem magnitude_neighbour {m : Nat} {exponent : Int} {d : Decimal}
    (found : neighbour? m exponent = some d) : d.magnitude = m := by
  simp only [neighbour?] at found
  split at found
  · rename_i lower
    split at found
    · rename_i upper
      cases found
      exact upper.1
    · cases found
      exact lower
  split at found
  · rename_i upper
    cases found
    exact upper
  · cases found

/-- The shortest decimal of a finite magnitude reads back as it. -/
theorem magnitude_shortest {m : Nat} (finite : m < infinity) : (shortest m).magnitude = m := by
  unfold shortest
  split
  · rename_i zero
    rw [zero]
    rfl
  simp only
  rw [Decimal.magnitude_trim]
  -- whichever decimal the search takes was read back by it, and all digits are enough in any case
  generalize search : (List.range 17).findSome? _ = found
  cases found with
  | none => exact magnitude_exact finite
  | some d =>
    obtain ⟨n, _, tried⟩ := List.exists_of_findSome?_eq_some search
    exact magnitude_neighbour tried

section Bits

open Float.Model Float.Model.UnpackedFloat

theorem toBitVec_ofBitVec (s : BitVec 1) : (Sign.ofBitVec s).toBitVec = s := by
  revert s
  decide

/-- A word is put together from its sign, exponent and fraction. -/
theorem packComponents_unpack (b : BitVec Format.binary64.numBits) :
    packComponents .binary64 (Sign.ofBitVec (unpackSign b)) (unpackExponent b)
      (unpackMantissa b) = b := by
  simp only [packComponents, toBitVec_ofBitVec, unpackSign, unpackExponent, unpackMantissa,
    BitVec.extractLsb]
  ext i hi
  grind

/-- The digit in front of a fraction's is not stored. -/
theorem toNat_implicit (m : BitVec 52) : (1#1 ++ m).toNat = 2 ^ 52 + m.toNat := by
  rw [BitVec.toNat_append, BitVec.toNat_ofNat, Nat.one_mod, Nat.one_shiftLeft, Nat.or_comm,
    Nat.or_two_pow_eq_add_of_lt m.isLt, Nat.add_comm]

theorem pack_subnormal (sign : Sign) (m : BitVec 52) (positive : 0 < m.toNat) :
    UnpackedFloat.pack .binary64 (.finite sign m.toNat (-1074) positive) =
      packComponents .binary64 sign 0#11 m := by
  have short : m.toNat.log2 < 52 := (Nat.log2_lt (Nat.ne_of_gt positive)).mpr m.isLt
  have biased : (-1074 + (Format.binary64.exponentBias : Int) + (52 : Nat)).toNat = 1 := rfl
  have precision : Format.binary64.mantissaBits = 53 := rfl
  simp only [UnpackedFloat.pack, biased]
  rw [if_neg (by decide), if_neg (by omega), BitVec.ofNat_toNat, BitVec.setWidth_eq]

theorem pack_normal (sign : Sign) (e : BitVec 11) (m : BitVec 52) (finite : e ≠ -1#11)
    (positive : 0 < (1#1 ++ m).toNat) :
    UnpackedFloat.pack .binary64 (.finite sign (1#1 ++ m).toNat (e.toNat - 1075) positive) =
      packComponents .binary64 sign e m := by
  have below := m.isLt
  have value := toNat_implicit m
  have long : (1#1 ++ m).toNat.log2 = 52 :=
    (Nat.log2_eq_iff (Nat.ne_of_gt positive)).mpr (by omega)
  have bias : (Format.binary64.exponentBias : Int) = 1023 := rfl
  have biased : ((e.toNat : Int) - 1075 + (Format.binary64.exponentBias : Int) +
      (52 : Nat)).toNat = e.toNat := by omega
  have largest : e.toNat ≠ 2047 := fun same => finite (BitVec.eq_of_toNat_eq same)
  have room : ¬ 2 ^ 11 ≤ e.toNat + 1 := by
    have := e.isLt
    omega
  have precision : Format.binary64.mantissaBits = 53 := rfl
  simp only [UnpackedFloat.pack, biased]
  rw [if_neg room, if_pos (by omega), BitVec.ofNat_toNat, BitVec.setWidth_eq]
  congr 1
  apply BitVec.eq_of_toNat_eq
  rw [BitVec.toNat_ofNat, value]
  exact (Nat.add_mod_left _ _).trans (Nat.mod_eq_of_lt below)

theorem pack_unpack {b : BitVec Format.binary64.numBits} (valid : Format.binary64.Valid b) :
    UnpackedFloat.pack .binary64 (UnpackedFloat.unpack .binary64 b) = b := by
  have whole := packComponents_unpack b
  rw [UnpackedFloat.unpack]
  split
  · rename_i special
    split
    · rename_i infinite
      rw [special, infinite] at whole
      exact whole
    · rename_i undefined
      exact (valid.eq_packedNaN special undefined).symm
  rename_i finite
  split
  · rename_i small
    split
    · rename_i zero
      rw [small, zero] at whole
      exact whole
    · rename_i subnormal
      have packed := pack_subnormal (Sign.ofBitVec (unpackSign b)) (unpackMantissa b)
      simp only [small] at whole ⊢
      exact (packed _).trans whole
  · exact (pack_normal _ _ _ finite _).trans whole

/-- The bits of a number make it up again. -/
theorem ofBits_toBits (x : Float) : Float.ofBits x.toBits = x := by
  obtain ⟨bits, valid⟩ := x
  have packed := pack_unpack valid
  simp only [Float.ofBits, Float.toBits, Float.Model.ofBits, Float.Model.pack, packed]

end Bits

theorem ofMagnitude_magnitude {x : Float} (unsigned : isSigned x = false) :
    ofMagnitude (magnitude x) = x := by
  have bits : magnitude x = x.toBits.toNat := by
    rw [magnitude, Nat.mod_eq_of_lt]
    simpa [isSigned] using unsigned
  rw [bits, ofMagnitude, UInt64.ofNat_toNat, ofBits_toBits]

end Calculator.Number
