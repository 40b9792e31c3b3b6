import Turso.Foundation.Binary64Bits

/-!
# Floating point numbers from their bits

A `SignedDouble` is a double with the sign that zero has, so that it is determined by its bits:
`ofBits` is the inverse of `toBits`, and has no value for the bits of a NaN.
-/

namespace Binary64

open Int

/-! ## Magnitudes -/

/-- The number whose bits, without the sign, are `bits`. -/
def magnitudeOfBits (bits : ℕ) : ℚ :=
  if bits / 2 ^ 52 = 0 then bits * 2 ^ (minExponent - 52)
  else (2 ^ 52 + bits % 2 ^ 52 : ℕ) * 2 ^ ((bits / 2 ^ 52 : ℕ) - 1 + minExponent - 52)

theorem representable_magnitudeOfBits {bits : ℕ} (hlt : bits < 2047 * 2 ^ 52) :
    Representable (magnitudeOfBits bits) := by
  unfold magnitudeOfBits
  have hmin : minExponent = -1022 := rfl
  split_ifs with hsmall
  · refine ⟨bits, minExponent - 52, ?_, by omega, by omega, by norm_cast⟩
    rw [Nat.abs_cast]
    omega
  · refine ⟨(2 ^ 52 + bits % 2 ^ 52 : ℕ), (bits / 2 ^ 52 : ℕ) - 1 + minExponent - 52, ?_, ?_, ?_,
      by norm_cast⟩
    · rw [Nat.abs_cast]
      omega
    · omega
    · omega

/-- A double is a whole multiple of the unit of its last place. -/
theorem exists_int_mul {significand exponent shift : ℤ} (hshift : 0 ≤ exponent + shift) :
    ∃ n : ℤ, (significand : ℚ) * 2 ^ exponent * 2 ^ shift = n := by
  refine ⟨significand * 2 ^ (exponent + shift).toNat, ?_⟩
  rw [mul_assoc, ← zpow_add₀ two_ne_zero]
  nth_rewrite 1 [← toNat_of_nonneg hshift]
  push_cast
  rw [zpow_natCast]

theorem exists_int_of_log {v : ℚ} (h : Representable v) (hpos : 0 < v) :
    ∃ n : ℤ, v * 2 ^ (52 - log 2 v) = n := by
  have hlow := zpow_log_le_self (b := 2) (by decide) hpos
  generalize log 2 v = log at *
  obtain ⟨significand, exponent, hbound, -, -, rfl⟩ := h
  refine exists_int_mul ?_
  by_contra hneg
  exact absurd hlow (not_le.2 (mul_zpow_lt hbound (by omega)))

theorem magnitudeOfBits_magnitudeBits {value : ℚ} (hnonneg : 0 ≤ value) (h : Representable value) :
    magnitudeOfBits (magnitudeBits value).toNat = value := by
  have hmin : minExponent = -1022 := rfl
  by_cases hsmall : value < 2 ^ minExponent
  · -- a subnormal number
    obtain ⟨n, hn⟩ : ∃ n : ℤ, value * 2 ^ (52 - minExponent) = n := by
      obtain ⟨significand, exponent, -, hlow, -, rfl⟩ := h
      exact exists_int_mul (by omega)
    have hbits : magnitudeBits value = n := by rw [magnitudeBits, if_pos hsmall, hn, floor_intCast]
    have hnat : 0 ≤ n := hbits ▸ magnitudeBits_nonneg hnonneg
    have hless := floor_of_subnormal hsmall
    rw [hn, floor_intCast] at hless
    have hcast : ((n.toNat : ℕ) : ℚ) = n := by exact_mod_cast toNat_of_nonneg hnat
    rw [hbits, magnitudeOfBits, if_pos (by omega), hcast, ← hn, mul_assoc, ← zpow_add₀ two_ne_zero,
      show 52 - minExponent + (minExponent - 52) = 0 by ring, zpow_zero, mul_one]
  · have hlarge := not_lt.1 hsmall
    have hpos : 0 < value := (zpow_two_pos _).trans_le hlarge
    have hlog := le_log_of_le hlarge
    obtain ⟨n, hn⟩ := exists_int_of_log h hpos
    have hfloor := floor_of_log hpos
    rw [hn, floor_intCast] at hfloor
    have hbits : magnitudeBits value = (log 2 value - minExponent) * 2 ^ 52 + n := by
      rw [magnitudeBits, if_neg hsmall, hn, floor_intCast]
    have hfield : (magnitudeBits value).toNat / 2 ^ 52 = (log 2 value - minExponent + 1).toNat := by
      omega
    have hfraction : (2 ^ 52 + (magnitudeBits value).toNat % 2 ^ 52 : ℕ) = n.toNat := by omega
    have hcast : ((n.toNat : ℕ) : ℚ) = n := by
      exact_mod_cast toNat_of_nonneg (by omega : 0 ≤ n)
    have hexponent : (((log 2 value - minExponent + 1).toNat : ℕ) : ℤ) - 1 + minExponent - 52 =
        log 2 value - 52 := by omega
    rw [magnitudeOfBits, hfield, if_neg (by omega), hfraction, hexponent, hcast, ← hn, mul_assoc,
      ← zpow_add₀ two_ne_zero,
      show 52 - log 2 value + (log 2 value - 52) = 0 by ring, zpow_zero, mul_one]

/-! ## Doubles -/

def Double.zero : Double :=
  .finite 0 ⟨0, 0, by norm_num, by norm_num, by norm_num, by norm_num⟩

/-- A double and the sign of zero. -/
structure SignedDouble where
  double : Double
  negativeZero : Bool
  double_eq_zero : negativeZero = true → double = .zero
  deriving DecidableEq

namespace SignedDouble

def ofDouble (double : Double) : SignedDouble where
  double := double
  negativeZero := false
  double_eq_zero := nofun

def toBits (signed : SignedDouble) : ℕ :=
  if signed.negativeZero then 2 ^ 63 else signed.double.toBits

/-- The double of some bits, unless they are those of a NaN. -/
def ofBits (bits : ℕ) : Option SignedDouble :=
  if hfinite : bits % 2 ^ 63 < 2047 * 2 ^ 52 then
    if bits % 2 ^ 63 = 0 then some ⟨.zero, bits / 2 ^ 63 = 1, fun _ => rfl⟩
    else if bits / 2 ^ 63 = 1 then
      some (.ofDouble (.finite (-magnitudeOfBits (bits % 2 ^ 63))
        (representable_magnitudeOfBits hfinite).neg))
    else some (.ofDouble (.finite (magnitudeOfBits (bits % 2 ^ 63))
        (representable_magnitudeOfBits hfinite)))
  else if bits % 2 ^ 63 = 2047 * 2 ^ 52 then
    some (.ofDouble (if bits / 2 ^ 63 = 1 then .negInf else .posInf))
  else none

/-- The bits of a positive double without the sign. -/
theorem magnitudeBits_bounds {value : ℚ} (hpos : 0 < value) (h : Representable value) :
    0 < (magnitudeBits value).toNat ∧ (magnitudeBits value).toNat < 2047 * 2 ^ 52 := by
  constructor
  · by_contra hzero
    have hround := magnitudeOfBits_magnitudeBits hpos.le h
    rw [Nat.eq_zero_of_not_pos hzero] at hround
    simp only [magnitudeOfBits, Nat.zero_div, if_true, Nat.cast_zero, zero_mul] at hround
    exact hpos.ne hround
  · have := magnitudeBits_lt hpos.le h
    omega

variable (signed : SignedDouble)

theorem toBits_lt : signed.toBits < 2 ^ 64 := by
  unfold toBits
  split_ifs
  · norm_num
  · cases signed.double with
    | negInf | posInf => norm_num [Double.toBits]
    | finite v h =>
      rw [Double.toBits]
      split_ifs with hneg
      · have := magnitudeBits_lt (by linarith : 0 ≤ -v) h.neg
        omega
      · have := magnitudeBits_lt (not_lt.1 hneg) h
        omega

theorem ofBits_toBits : ofBits signed.toBits = some signed := by
  obtain ⟨double, negativeZero, hzero⟩ := signed
  cases negativeZero with
  | true =>
    obtain rfl := hzero rfl
    simp [toBits, ofBits]
  | false =>
    simp only [toBits, Bool.false_eq_true, if_false]
    cases double with
    | negInf | posInf => simp [ofBits, Double.toBits, ofDouble]
    | finite value h =>
      rcases lt_trichotomy value 0 with hneg | rfl | hpos
      · obtain ⟨hbits, hless⟩ := magnitudeBits_bounds (neg_pos.2 hneg) h.neg
        have hround := magnitudeOfBits_magnitudeBits (neg_pos.2 hneg).le h.neg
        rw [Double.toBits, if_pos hneg]
        generalize (magnitudeBits (-value)).toNat = bits at *
        have hmod : (2 ^ 63 + bits) % 2 ^ 63 = bits := by omega
        have hdiv : (2 ^ 63 + bits) / 2 ^ 63 = 1 := by omega
        simp only [ofBits, hmod, hdiv, hless, hbits.ne', hround, dite_true, if_true, if_false,
          neg_neg, ofDouble]
      · simp [ofBits, Double.toBits, magnitudeBits_zero, Double.zero]
      · obtain ⟨hbits, hless⟩ := magnitudeBits_bounds hpos h
        have hround := magnitudeOfBits_magnitudeBits hpos.le h
        rw [Double.toBits, if_neg hpos.not_gt]
        generalize (magnitudeBits value).toNat = bits at *
        have hmod : bits % 2 ^ 63 = bits := by omega
        have hdiv : bits / 2 ^ 63 = 0 := by omega
        simp only [ofBits, hmod, hdiv, hless, hbits.ne', hround, dite_true, zero_ne_one, if_false,
          ofDouble]

end SignedDouble

end Binary64
