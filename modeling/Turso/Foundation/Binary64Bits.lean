import Turso.Foundation.Binary64
import Mathlib.Data.Int.Log

/-!
# Bits of floating point numbers

The bits of a double that is not negative are, as a number, in the order of the doubles
(`magnitudeBits_mono`): the biased exponent stands above the fraction, and a subnormal number has the
exponent zero.  With negative doubles complemented and the sign bit set on the others this holds for
all doubles (`Double.orderedBits_mono`).
-/

namespace Binary64

open Int

variable {value : ℚ}

/-! ## The magnitude -/

/-- The least exponent of a normal double. -/
def minExponent : ℤ := -1022

/-- The bits of a double that is not negative: the biased exponent and the fraction. -/
def magnitudeBits (value : ℚ) : ℤ :=
  if value < 2 ^ minExponent then ⌊value * 2 ^ (52 - minExponent)⌋
  else (log 2 value - minExponent) * 2 ^ 52 + ⌊value * 2 ^ (52 - log 2 value)⌋

theorem floor_of_log (h : 0 < value) : 2 ^ 52 ≤ ⌊value * 2 ^ (52 - log 2 value)⌋ ∧
      ⌊value * 2 ^ (52 - log 2 value)⌋ < 2 ^ 53 := by
  have hpos : (0 : ℚ) < 2 ^ (52 - log 2 value) := zpow_pos two_pos _
  have hlow := zpow_log_le_self (b := 2) (by decide) h
  have hhigh := lt_zpow_succ_log_self (b := 2) (by decide) value
  push_cast at hlow hhigh
  constructor
  · rw [le_floor]
    calc (((2 : ℤ) ^ 52 : ℤ) : ℚ) = 2 ^ log 2 value * 2 ^ (52 - log 2 value) := by
          rw [← zpow_add₀ two_ne_zero, add_sub_cancel]
          norm_num
      _ ≤ value * 2 ^ (52 - log 2 value) := by gcongr
  · rw [floor_lt]
    calc value * 2 ^ (52 - log 2 value)
        < 2 ^ (log 2 value + 1) * 2 ^ (52 - log 2 value) := by gcongr
      _ = (((2 : ℤ) ^ 53 : ℤ) : ℚ) := by
          rw [← zpow_add₀ two_ne_zero, show log 2 value + 1 + (52 - log 2 value) = 53 by ring]
          norm_num

theorem zpow_two_pos (exponent : ℤ) : (0 : ℚ) < 2 ^ exponent :=
  zpow_pos two_pos exponent

theorem mul_zpow_lt {significand exponent bound : ℤ} (h : |significand| < 2 ^ 53)
    (hbound : 53 + exponent ≤ bound) : (significand : ℚ) * 2 ^ exponent < 2 ^ bound := by
  have hsignificand : (significand : ℚ) < 2 ^ (53 : ℤ) := by exact_mod_cast (abs_lt.1 h).2
  calc (significand : ℚ) * 2 ^ exponent < 2 ^ (53 : ℤ) * 2 ^ exponent :=
        mul_lt_mul_of_pos_right hsignificand (zpow_two_pos _)
    _ = 2 ^ (53 + exponent) := (zpow_add₀ two_ne_zero _ _).symm
    _ ≤ 2 ^ bound := zpow_le_zpow_right₀ (by norm_num) hbound

theorem floor_of_subnormal (h : value < 2 ^ minExponent) :
    ⌊value * 2 ^ (52 - minExponent)⌋ < 2 ^ 52 := by
  rw [floor_lt]
  calc value * 2 ^ (52 - minExponent) < 2 ^ minExponent * 2 ^ (52 - minExponent) :=
        mul_lt_mul_of_pos_right h (zpow_two_pos _)
    _ = (((2 : ℤ) ^ 52 : ℤ) : ℚ) := by
        rw [← zpow_add₀ two_ne_zero, add_sub_cancel]
        norm_num

theorem le_log_of_le (h : (2 : ℚ) ^ minExponent ≤ value) : minExponent ≤ log 2 value := by
  have hpos : 0 < value := (zpow_two_pos _).trans_le h
  refine (zpow_le_iff_le_log (by decide) hpos).1 ?_
  exact_mod_cast h

theorem magnitudeBits_nonneg (h : 0 ≤ value) : 0 ≤ magnitudeBits value := by
  unfold magnitudeBits
  split_ifs with hsmall
  · exact floor_nonneg.2 (mul_nonneg h (zpow_two_pos _).le)
  · have hlarge := not_lt.1 hsmall
    have hlog := le_log_of_le hlarge
    have hfloor := (floor_of_log ((zpow_two_pos _).trans_le hlarge)).1
    omega

/-- The bits of doubles that are not negative are in the order of the doubles. -/
theorem magnitudeBits_mono {first second : ℚ} (hle : first ≤ second) :
    magnitudeBits first ≤ magnitudeBits second := by
  unfold magnitudeBits
  split_ifs with hsmall hsmall' hsmall'
  · exact floor_mono (mul_le_mul_of_nonneg_right hle (zpow_two_pos _).le)
  · have hlarge := not_lt.1 hsmall'
    have hlog := le_log_of_le hlarge
    have hfloor := (floor_of_log ((zpow_two_pos _).trans_le hlarge)).1
    have hsub := floor_of_subnormal hsmall
    omega
  · exact absurd (hle.trans_lt hsmall') hsmall
  · have hpos : 0 < first := (zpow_two_pos _).trans_le (not_lt.1 hsmall)
    have hfloor := floor_of_log hpos
    have hfloor' := floor_of_log (hpos.trans_le hle)
    rcases (log_mono_right (b := 2) hpos hle).lt_or_eq with hlog | hlog
    · omega
    · rw [hlog]
      exact add_le_add_right (floor_mono (mul_le_mul_of_nonneg_right hle (zpow_two_pos _).le)) _

theorem magnitudeBits_lt (hnonneg : 0 ≤ value) (h : Representable value) :
    magnitudeBits value < 2047 * 2 ^ 52 := by
  obtain ⟨significand, exponent, hbound, -, hexponent, rfl⟩ := h
  have hless : (significand : ℚ) * 2 ^ exponent < 2 ^ (1024 : ℤ) := mul_zpow_lt hbound (by omega)
  generalize (significand : ℚ) * 2 ^ exponent = value at *
  unfold magnitudeBits
  split_ifs with hsmall
  · have hsub := floor_of_subnormal hsmall
    omega
  · have hpos : 0 < value := (zpow_two_pos _).trans_le (not_lt.1 hsmall)
    have hlog : log 2 value < 1024 := (lt_zpow_iff_log_lt (by decide) hpos).1 hless
    have hfloor := (floor_of_log hpos).2
    have hmin : minExponent = -1022 := rfl
    omega

/-- The bits of an integer of at most 49 bits: the last bits of the fraction are zero. -/
theorem magnitudeBits_natCast {n : ℕ} (hpos : 0 < n) (hlt : n < 2 ^ 49) :
    ∃ shift : ℕ, 4 ≤ shift ∧ 52 - log 2 (n : ℚ) = shift ∧
      2 ^ 52 ≤ (n * 2 ^ shift : ℤ) ∧ (n * 2 ^ shift : ℤ) < 2 ^ 53 ∧
      magnitudeBits n = (log 2 (n : ℚ) - minExponent) * 2 ^ 52 + n * 2 ^ shift := by
  have hlog : log 2 (n : ℚ) = Nat.log 2 n := log_natCast 2 n
  have hless : Nat.log 2 n < 49 := Nat.log_lt_of_lt_pow hpos.ne' hlt
  have hlarge : ¬ (n : ℚ) < 2 ^ minExponent := by
    rw [not_lt]
    calc (2 : ℚ) ^ minExponent ≤ 1 := zpow_le_one_of_nonpos₀ (by norm_num) (by decide)
      _ ≤ n := by exact_mod_cast hpos
  have hshift : 52 - log 2 (n : ℚ) = ((52 - Nat.log 2 n : ℕ) : ℤ) := by omega
  have hfloor : ⌊(n : ℚ) * 2 ^ (52 - log 2 (n : ℚ))⌋ = n * 2 ^ (52 - Nat.log 2 n) := by
    rw [hshift, zpow_natCast]
    exact_mod_cast floor_natCast (R := ℚ) (n * 2 ^ (52 - Nat.log 2 n))
  have hbounds := @floor_of_log n (by exact_mod_cast hpos)
  rw [hfloor] at hbounds
  refine ⟨52 - Nat.log 2 n, by omega, hshift, hbounds.1, hbounds.2, ?_⟩
  rw [magnitudeBits, if_neg hlarge, hfloor]

theorem magnitudeBits_zero : magnitudeBits 0 = 0 := by
  rw [magnitudeBits, if_pos (zpow_two_pos _), zero_mul, floor_zero]

theorem eight_dvd_magnitudeBits {n : ℕ} (hlt : n < 2 ^ 49) : 8 ∣ magnitudeBits n := by
  rcases Nat.eq_zero_or_pos n with rfl | hpos
  · rw [Nat.cast_zero, magnitudeBits_zero]
    exact dvd_zero 8
  · obtain ⟨shift, hfour, -, -, -, hbits⟩ := magnitudeBits_natCast hpos hlt
    have hfraction : (2 : ℤ) ^ 3 ∣ n * 2 ^ shift := Dvd.dvd.mul_left (pow_dvd_pow 2 (by omega)) _
    omega

variable {first second : ℕ}

theorem magnitudeBits_strictMono (hlt : first < second)
    (hsecond : second < 2 ^ 49) : magnitudeBits first < magnitudeBits second := by
  obtain ⟨shift', -, hshift', hlow', -, hbits'⟩ :=
    magnitudeBits_natCast (Nat.zero_lt_of_lt hlt) hsecond
  rcases Nat.eq_zero_or_pos first with rfl | hpos
  · have hlog : 0 ≤ log 2 (second : ℚ) := by
      rw [log_natCast]
      omega
    have hmin : minExponent = -1022 := rfl
    rw [Nat.cast_zero, magnitudeBits_zero, hbits']
    omega
  · obtain ⟨shift, -, hshift, -, hhigh, hbits⟩ := magnitudeBits_natCast hpos (hlt.trans hsecond)
    have hle : log 2 (first : ℚ) ≤ log 2 (second : ℚ) :=
      log_mono_right (by exact_mod_cast hpos) (by exact_mod_cast hlt.le)
    rw [hbits, hbits']
    rcases hle.lt_or_eq with hlog | hlog
    · omega
    · have hsame : shift = shift' := by omega
      have : (first : ℤ) * 2 ^ shift' < second * 2 ^ shift' := by
        have : (first : ℤ) < second := by exact_mod_cast hlt
        gcongr
      rw [hlog, hsame]
      omega

/-- Integers of at most 49 bits differ in their bits even without the last three. -/
theorem magnitudeBits_div_lt (hlt : first < second) (hsecond : second < 2 ^ 49) :
    magnitudeBits first / 8 < magnitudeBits second / 8 := by
  have hdvd := eight_dvd_magnitudeBits (hlt.trans hsecond)
  have hdvd' := eight_dvd_magnitudeBits hsecond
  have := magnitudeBits_strictMono hlt hsecond
  omega

/-! ## Bits in the order of the doubles -/

namespace Double

/-- The bits of a double; zero has those of the positive zero. -/
def toBits : Double → ℕ
  | negInf => 2 ^ 63 + 2047 * 2 ^ 52
  | finite value _ =>
    if value < 0 then 2 ^ 63 + (magnitudeBits (-value)).toNat else (magnitudeBits value).toNat
  | posInf => 2047 * 2 ^ 52

/-- The bits of a double, changed so that they are in the order of the doubles: a negative one is
complemented, the others get the sign bit. -/
def orderedBits (double : Double) : ℕ :=
  if double.toBits / 2 ^ 63 = 1 then 2 ^ 64 - 1 - double.toBits else double.toBits + 2 ^ 63

end Double

theorem Representable.neg (h : Representable value) : Representable (-value) := by
  obtain ⟨significand, exponent, hbound, hlow, hhigh, rfl⟩ := h
  refine ⟨-significand, exponent, by rwa [abs_neg], hlow, hhigh, ?_⟩
  push_cast
  ring

theorem Double.orderedBits_of_neg (h : Representable value) (hneg : value < 0) :
    ((finite value h).orderedBits : ℤ) = 2 ^ 63 - 1 - magnitudeBits (-value) ∧
      0 ≤ magnitudeBits (-value) ∧ magnitudeBits (-value) < 2047 * 2 ^ 52 := by
  have hnonneg := magnitudeBits_nonneg (neg_pos.2 hneg).le
  have hlt := magnitudeBits_lt (neg_pos.2 hneg).le h.neg
  refine ⟨?_, hnonneg, hlt⟩
  simp only [orderedBits, toBits, if_pos hneg]
  rw [if_pos (by omega)]
  omega

theorem Double.orderedBits_of_nonneg (h : Representable value) (hpos : ¬ value < 0) :
    ((finite value h).orderedBits : ℤ) = 2 ^ 63 + magnitudeBits value ∧
      0 ≤ magnitudeBits value ∧ magnitudeBits value < 2047 * 2 ^ 52 := by
  have hnonneg := magnitudeBits_nonneg (not_lt.1 hpos)
  have hlt := magnitudeBits_lt (not_lt.1 hpos) h
  refine ⟨?_, hnonneg, hlt⟩
  simp only [orderedBits, toBits, if_neg hpos]
  rw [if_neg (by omega)]
  omega

/-- The changed bits of the infinities are the bounds of the others. -/
theorem Double.orderedBits_bounds (double : Double) :
    negInf.orderedBits ≤ double.orderedBits ∧ double.orderedBits ≤ posInf.orderedBits := by
  have hneg : negInf.orderedBits = 2 ^ 63 - 1 - 2047 * 2 ^ 52 := by decide
  have hpos : posInf.orderedBits = 2 ^ 63 + 2047 * 2 ^ 52 := by decide
  cases double with
  | negInf => omega
  | posInf => omega
  | finite v h =>
    by_cases hsign : v < 0
    · have := orderedBits_of_neg h hsign
      omega
    · have := orderedBits_of_nonneg h hsign
      omega

theorem Double.orderedBits_mono {a b : Double}
    (hle : a.toExtended ≤ b.toExtended) : a.orderedBits ≤ b.orderedBits := by
  cases a with
  | negInf => exact (orderedBits_bounds b).1
  | posInf =>
    cases b with
    | posInf => exact le_rfl
    | negInf | finite value h => exact absurd hle (by simp [toExtended])
  | finite value h =>
    cases b with
    | negInf => exact absurd hle (by simp [toExtended])
    | posInf => exact (orderedBits_bounds _).2
    | finite value' h' =>
      have hvalue : value ≤ value' := WithTop.coe_le_coe.1 (WithBot.coe_le_coe.1 hle)
      by_cases hsign : value < 0
      · have hbits := orderedBits_of_neg h hsign
        by_cases hsign' : value' < 0
        · have hbits' := orderedBits_of_neg h' hsign'
          have := magnitudeBits_mono (neg_le_neg hvalue)
          omega
        · have hbits' := orderedBits_of_nonneg h' hsign'
          omega
      · have hsign' : ¬ value' < 0 := not_lt.2 ((not_lt.1 hsign).trans hvalue)
        have hbits := orderedBits_of_nonneg h hsign
        have hbits' := orderedBits_of_nonneg h' hsign'
        have := magnitudeBits_mono hvalue
        omega

theorem magnitudeBits_div_injective (hfirst : first < 2 ^ 49)
    (hsecond : second < 2 ^ 49) (h : magnitudeBits first / 8 = magnitudeBits second / 8) :
    first = second := by
  rcases lt_trichotomy first second with hlt | heq | hgt
  · exact absurd h (magnitudeBits_div_lt hlt hsecond).ne
  · exact heq
  · exact absurd h (magnitudeBits_div_lt hgt hfirst).ne'

theorem Double.orderedBits_intCast {n : ℤ} (hn : n.natAbs < 2 ^ 49) (h : Representable n) :
    ((finite n h).orderedBits / 8 : ℤ) =
      if n < 0 then 2 ^ 60 - 1 - magnitudeBits n.natAbs / 8
      else 2 ^ 60 + magnitudeBits n.natAbs / 8 := by
  have hdvd := eight_dvd_magnitudeBits hn
  split_ifs with hneg
  · have habs : magnitudeBits n.natAbs = magnitudeBits (-n) := by
      rw [Nat.cast_natAbs, abs_of_neg hneg, cast_neg]
    have hbits := (orderedBits_of_neg h (by exact_mod_cast hneg)).1
    omega
  · have habs : magnitudeBits n.natAbs = magnitudeBits n := by
      rw [Nat.cast_natAbs, abs_of_nonneg (not_lt.1 hneg)]
    have hbits := (orderedBits_of_nonneg h (by exact_mod_cast hneg)).1
    omega

/-- Small integers differ in their bits even without the last three. -/
theorem Double.eq_of_orderedBits_div {first second : ℤ} (hfirst : first.natAbs < 2 ^ 49)
    (hsecond : second.natAbs < 2 ^ 49) (h : Representable first) (h' : Representable second)
    (hbits : (finite first h).orderedBits / 8 = (finite second h').orderedBits / 8) :
    first = second := by
  have hfirstBits := orderedBits_intCast hfirst h
  have hsecondBits := orderedBits_intCast hsecond h'
  have hnonneg := magnitudeBits_nonneg (Nat.cast_nonneg (α := ℚ) first.natAbs)
  have hnonneg' := magnitudeBits_nonneg (Nat.cast_nonneg (α := ℚ) second.natAbs)
  have hsame : magnitudeBits first.natAbs / 8 = magnitudeBits second.natAbs / 8 →
      first.natAbs = second.natAbs := magnitudeBits_div_injective hfirst hsecond
  split_ifs at hfirstBits hsecondBits <;> omega

end Binary64
