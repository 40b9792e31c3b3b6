import Mathlib.Data.Rat.Floor
import Mathlib.Tactic.Positivity

/-!
# Floating point numbers by value

A double is an infinity or a rational with a significand of 53 bits (`Representable`); the two
zeros are one value, and there is no NaN.  Two casts are defined: to an integer, which drops the
fraction (`truncate`), and from one, which rounds to the nearest double and a tie to the even one
(`nearest`).  An integer can lose digits in the second, but not one that a double was truncated
to (`nearest_truncate`), and integers keep their order (`nearest_mono`).
-/

namespace Binary64

variable {n : ℤ} {value : ℚ}

/-- The rationals that are doubles. -/
def Representable (value : ℚ) : Prop :=
  ∃ significand exponent : ℤ, |significand| < 2 ^ 53 ∧ -1074 ≤ exponent ∧ exponent ≤ 971 ∧
    value = significand * 2 ^ exponent

/-- A double that is not a NaN. -/
inductive Double where
  | negInf
  | finite (value : ℚ) (representable : Representable value)
  | posInf
  deriving DecidableEq

/-- The extended rational a double stands for. -/
def Double.toExtended : Double → WithBot (WithTop ℚ)
  | negInf => ⊥
  | finite value _ => ((value : WithTop ℚ) : WithBot (WithTop ℚ))
  | posInf => ((⊤ : WithTop ℚ) : WithBot (WithTop ℚ))

/-- The integer part. -/
def truncate (value : ℚ) : ℤ :=
  if 0 ≤ value then ⌊value⌋ else ⌈value⌉

/-- The integer with 53 significant bits that is nearest, and in a tie the even one. -/
def nearest (n : ℤ) : ℤ :=
  let unit : ℤ := 2 ^ (n.natAbs.log2 - 52)
  let quotient := n / unit
  let remainder := n % unit
  if 2 * remainder < unit ∨ (2 * remainder = unit ∧ quotient % 2 = 0) then unit * quotient
  else unit * (quotient + 1)

/-! ## Truncation -/

theorem lt_of_lt_truncate (h : n < truncate value) : (n : ℚ) < value := by
  unfold truncate at h
  split_ifs at h
  · calc (n : ℚ) < ⌊value⌋ := by exact_mod_cast h
      _ ≤ value := Int.floor_le value
  · exact Int.lt_ceil.1 h

theorem lt_of_truncate_lt (h : truncate value < n) : value < n := by
  unfold truncate at h
  split_ifs at h
  · exact Int.floor_lt.1 h
  · calc value ≤ ⌈value⌉ := Int.le_ceil value
      _ < n := by exact_mod_cast h

theorem truncate_intCast (n : ℤ) : truncate n = n := by
  unfold truncate
  split_ifs
  · exact Int.floor_intCast n
  · exact Int.ceil_intCast n

theorem natAbs_truncate_le {bound : ℕ} (h : |value| ≤ bound) : (truncate value).natAbs ≤ bound := by
  obtain ⟨hlow, hhigh⟩ := abs_le.1 h
  have hle : truncate value ≤ bound := by
    by_contra hgt
    have := lt_of_lt_truncate (not_le.1 hgt)
    push_cast at this
    linarith
  have hge : -(bound : ℤ) ≤ truncate value := by
    by_contra hlt
    have := lt_of_truncate_lt (not_le.1 hlt)
    push_cast at this
    linarith
  omega

/-! ## Rounding -/

theorem nearest_of_dvd (h : (2 : ℤ) ^ (n.natAbs.log2 - 52) ∣ n) : nearest n = n := by
  have hunit : (0 : ℤ) < 2 ^ (n.natAbs.log2 - 52) := by positivity
  simp only [nearest, Int.emod_eq_zero_of_dvd h, mul_zero, hunit, true_or, if_true]
  exact Int.mul_ediv_cancel' h

theorem nearest_of_natAbs_lt (h : n.natAbs < 2 ^ 53) : nearest n = n := by
  refine nearest_of_dvd ?_
  have hshift : n.natAbs.log2 - 52 = 0 := by
    rcases Nat.eq_zero_or_pos n.natAbs with hzero | hpos
    · rw [hzero]
      rfl
    · have := (Nat.log2_lt hpos.ne').2 h
      omega
  rw [hshift]
  exact one_dvd n

variable {significand : ℤ}

theorem nearest_mul_pow (h : |significand| < 2 ^ 53) (exponent : ℕ) :
    nearest (significand * 2 ^ exponent) = significand * 2 ^ exponent := by
  rcases eq_or_ne significand 0 with rfl | hne
  · rw [zero_mul]
    rfl
  refine nearest_of_dvd (Dvd.dvd.mul_left (pow_dvd_pow 2 ?_) significand)
  -- the number has at most `exponent + 53` bits
  have hlt : (significand * 2 ^ exponent).natAbs < 2 ^ (exponent + 53) := by
    have habs : significand.natAbs < 2 ^ 53 := by
      zify
      exact h
    rw [Int.natAbs_mul, Int.natAbs_pow, pow_add, mul_comm]
    exact Nat.mul_lt_mul_of_pos_left habs (by positivity)
  have hzero : (significand * 2 ^ exponent).natAbs ≠ 0 :=
    Int.natAbs_ne_zero.2 (mul_ne_zero hne (by positivity))
  have := (Nat.log2_lt hzero).2 hlt
  omega

/-- The integer part of a double is a double. -/
theorem nearest_truncate (h : Representable value) : nearest (truncate value) = truncate value := by
  obtain ⟨significand, exponent, hbound, -, -, rfl⟩ := h
  rcases le_or_gt 0 exponent with hexponent | hexponent
  · obtain ⟨shift, rfl⟩ := Int.eq_ofNat_of_zero_le hexponent
    have hcast : (significand : ℚ) * 2 ^ (shift : ℤ) = ((significand * 2 ^ shift : ℤ) : ℚ) := by
      push_cast
      rw [zpow_natCast]
    rw [hcast, truncate_intCast, nearest_mul_pow hbound]
  · -- the number is not greater than its significand
    refine nearest_of_natAbs_lt (lt_of_le_of_lt (@natAbs_truncate_le _ significand.natAbs ?_) ?_)
    · have hpos : (0 : ℚ) < 2 ^ exponent := zpow_pos two_pos exponent
      have hpow : (2 : ℚ) ^ exponent ≤ 1 := zpow_le_one_of_nonpos₀ (by norm_num) hexponent.le
      calc |(significand : ℚ) * 2 ^ exponent| = |(significand : ℚ)| * 2 ^ exponent := by
            rw [abs_mul, abs_of_pos hpos]
        _ ≤ |(significand : ℚ)| * 1 := by gcongr
        _ = significand.natAbs := by
            rw [mul_one, Nat.cast_natAbs, Int.cast_abs]
    · zify
      exact hbound

/-! ## The order of rounded integers -/

theorem two_pow_le_natAbs (h : n.natAbs.log2 - 52 ≠ 0) :
    (2 : ℤ) ^ 52 * 2 ^ (n.natAbs.log2 - 52) ≤ n.natAbs := by
  have hne : n.natAbs ≠ 0 := by
    intro hzero
    rw [hzero] at h
    exact h rfl
  have hle := Nat.log2_self_le hne
  rw [← pow_add, show 52 + (n.natAbs.log2 - 52) = n.natAbs.log2 by omega]
  exact_mod_cast hle

/-- A double that is not smaller than an integer's leading power of two is a multiple of the unit. -/
theorem eq_mul_of_representable (h : Representable value) {shift : ℕ}
    (hv : (2 : ℚ) ^ 52 * 2 ^ shift ≤ |value|) : ∃ m : ℤ, value = 2 ^ shift * m := by
  obtain ⟨significand, exponent, hbound, -, -, rfl⟩ := h
  rcases le_or_gt (shift : ℤ) exponent with hle | hlt
  · obtain ⟨extra, hextra⟩ := Int.eq_ofNat_of_zero_le (sub_nonneg.2 hle)
    refine ⟨significand * 2 ^ extra, ?_⟩
    have hsplit : exponent = shift + extra := by linarith
    rw [hsplit, zpow_add₀ two_ne_zero, zpow_natCast, zpow_natCast]
    push_cast
    ring
  · -- the exponent is too small for a value of this size
    exfalso
    have hsig : |(significand : ℚ)| < 2 ^ 53 := by exact_mod_cast hbound
    have hpow : (2 : ℚ) ^ exponent ≤ 2 ^ ((shift : ℤ) - 1) :=
      zpow_le_zpow_right₀ (by norm_num) (by omega)
    have hpos : (0 : ℚ) < 2 ^ exponent := zpow_pos two_pos exponent
    have hshift : (2 : ℚ) ^ ((shift : ℤ) - 1) = 2 ^ shift / 2 := by
      rw [zpow_sub₀ two_ne_zero, zpow_natCast, zpow_one]
    rw [abs_mul, abs_of_pos hpos] at hv
    have hlt' : |(significand : ℚ)| * 2 ^ exponent < 2 ^ 53 * (2 ^ shift / 2) := by
      calc |(significand : ℚ)| * 2 ^ exponent < 2 ^ 53 * 2 ^ exponent := by gcongr
        _ ≤ 2 ^ 53 * (2 ^ shift / 2) := by rw [← hshift]; gcongr
    linarith

/-- Between an integer and the next multiple of its unit on either side there is no double. -/
theorem cell_of_representable (h : Representable value) (hrem : n % 2 ^ (n.natAbs.log2 - 52) ≠ 0) :
    value ≤ ((2 ^ (n.natAbs.log2 - 52) * (n / 2 ^ (n.natAbs.log2 - 52)) : ℤ) : ℚ) ∨
      ((2 ^ (n.natAbs.log2 - 52) * (n / 2 ^ (n.natAbs.log2 - 52) + 1) : ℤ) : ℚ) ≤ value := by
  set shift := n.natAbs.log2 - 52 with hshift
  have hunit : (0 : ℤ) < 2 ^ shift := by positivity
  have hdiv := Int.mul_ediv_add_emod n (2 ^ shift)
  have hnonneg := Int.emod_nonneg n hunit.ne'
  have hlt := Int.emod_lt_of_pos n hunit
  by_contra hinside
  obtain ⟨hlow, hhigh⟩ := not_or.1 hinside
  rw [not_le] at hlow hhigh
  have hne : shift ≠ 0 := by
    intro hzero
    rw [hzero] at hrem
    exact hrem (by simp)
  have hsize := two_pow_le_natAbs hne
  rw [← hshift] at hsize
  -- so the value is as large as the leading power of two of the integer
  have habs : (2 : ℚ) ^ 52 * 2 ^ shift ≤ |value| := by
    rcases le_or_gt 0 n with hn | hn
    · have hquotient : (2 : ℤ) ^ 52 ≤ n / 2 ^ shift := by
        rw [Int.le_ediv_iff_mul_le hunit]
        omega
      have hbound : (2 : ℤ) ^ 52 * 2 ^ shift ≤ 2 ^ shift * (n / 2 ^ shift) := by
        rw [mul_comm]
        exact mul_le_mul_of_nonneg_left hquotient hunit.le
      have hcast : (2 : ℚ) ^ 52 * 2 ^ shift ≤ ((2 ^ shift * (n / 2 ^ shift) : ℤ) : ℚ) := by
        exact_mod_cast hbound
      exact (hcast.trans hlow.le).trans (le_abs_self value)
    · have hstrict : 2 ^ shift * (n / 2 ^ shift) < -(2 ^ 52 * 2 ^ shift) := by omega
      have hquotient : n / 2 ^ shift < -2 ^ 52 := by
        refine lt_of_mul_lt_mul_left ?_ hunit.le
        linarith
      have hbound : 2 ^ shift * (n / 2 ^ shift + 1) ≤ -((2 : ℤ) ^ 52 * 2 ^ shift) := by
        have := mul_le_mul_of_nonneg_left (Int.add_one_le_iff.2 hquotient) hunit.le
        linarith
      have hcast : ((2 ^ shift * (n / 2 ^ shift + 1) : ℤ) : ℚ) ≤ -((2 : ℚ) ^ 52 * 2 ^ shift) := by
        exact_mod_cast hbound
      have := neg_le_abs value
      linarith
  obtain ⟨m, rfl⟩ := eq_mul_of_representable h habs
  have hlow' : 2 ^ shift * (n / 2 ^ shift) < 2 ^ shift * m := by exact_mod_cast hlow
  have hhigh' : 2 ^ shift * m < 2 ^ shift * (n / 2 ^ shift + 1) := by exact_mod_cast hhigh
  have := lt_of_mul_lt_mul_left hlow' hunit.le
  have := lt_of_mul_lt_mul_left hhigh' hunit.le
  omega

theorem abs_sub_nearest_le (n : ℤ) (h : Representable value) :
    |(n : ℚ) - nearest n| ≤ |n - value| := by
  rcases eq_or_ne (n % 2 ^ (n.natAbs.log2 - 52)) 0 with hzero | hne
  · rw [nearest_of_dvd (Int.dvd_of_emod_eq_zero hzero), sub_self, abs_zero]
    exact abs_nonneg _
  have hcell := cell_of_representable h hne
  unfold nearest
  generalize hu : (2 : ℤ) ^ (n.natAbs.log2 - 52) = unit at *
  have hunit : 0 < unit := by
    rw [← hu]
    positivity
  have hdiv : ((unit * (n / unit) : ℤ) : ℚ) + ((n % unit : ℤ) : ℚ) = n := by
    exact_mod_cast Int.mul_ediv_add_emod n unit
  have hnonneg : (0 : ℚ) ≤ ((n % unit : ℤ) : ℚ) := by
    exact_mod_cast Int.emod_nonneg n hunit.ne'
  have hlt : ((n % unit : ℤ) : ℚ) < unit := by exact_mod_cast Int.emod_lt_of_pos n hunit
  have hnext : ((unit * (n / unit + 1) : ℤ) : ℚ) = ((unit * (n / unit) : ℤ) : ℚ) + unit := by
    push_cast
    ring
  dsimp only
  split_ifs with hdown
  · have hhalf : 2 * ((n % unit : ℤ) : ℚ) ≤ unit := by
      have : 2 * (n % unit) ≤ unit := by omega
      exact_mod_cast this
    rw [abs_of_nonneg (by linarith)]
    rcases hcell with hlow | hhigh
    · exact le_trans (by linarith) (le_abs_self _)
    · exact le_trans (by linarith) (neg_le_abs _)
  · have hhalf : (unit : ℚ) ≤ 2 * ((n % unit : ℤ) : ℚ) := by
      have : unit ≤ 2 * (n % unit) := by omega
      exact_mod_cast this
    rw [abs_of_nonpos (by linarith)]
    rcases hcell with hlow | hhigh
    · exact le_trans (by linarith) (le_abs_self _)
    · exact le_trans (by linarith) (neg_le_abs _)

theorem representable_mul_pow {exponent : ℕ} (h : |significand| ≤ 2 ^ 53)
    (hexponent : exponent < 971) : Representable (significand * 2 ^ exponent : ℤ) := by
  rcases h.lt_or_eq with hlt | heq
  · refine ⟨significand, exponent, hlt, by omega, by omega, ?_⟩
    push_cast
    rw [zpow_natCast]
  · -- the significand is a power of two
    have heven : significand = significand / 2 * 2 := by
      rcases abs_choice significand with habs | habs <;> omega
    refine ⟨significand / 2, exponent + 1, ?_, by omega, by omega, ?_⟩
    · rcases abs_choice significand with habs | habs <;> rw [abs_lt] <;> omega
    · have hcast : (significand : ℚ) = ((significand / 2 : ℤ) : ℚ) * 2 := by exact_mod_cast heven
      rw [zpow_add_one₀ two_ne_zero, zpow_natCast]
      push_cast
      rw [hcast]
      ring

theorem representable_nearest (h : n.natAbs < 2 ^ 64) : Representable (nearest n) := by
  have hshift : n.natAbs.log2 - 52 < 12 := by
    rcases eq_or_ne n.natAbs 0 with hzero | hne
    · rw [hzero]
      decide
    · have := (Nat.log2_lt hne).2 h
      omega
  have hsize : (n.natAbs : ℤ) < 2 ^ 53 * 2 ^ (n.natAbs.log2 - 52) := by
    have hlog := Nat.lt_log2_self (n := n.natAbs)
    have hpow : 2 ^ (n.natAbs.log2 + 1) ≤ 2 ^ (53 + (n.natAbs.log2 - 52)) :=
      Nat.pow_le_pow_right (by decide) (by omega)
    rw [← pow_add]
    exact_mod_cast hlog.trans_le hpow
  unfold nearest
  generalize n.natAbs.log2 - 52 = shift at *
  have hunit : (0 : ℤ) < 2 ^ shift := by positivity
  have hlow : -2 ^ 53 ≤ n / 2 ^ shift := by
    rw [Int.le_ediv_iff_mul_le hunit]
    omega
  have hhigh : n / 2 ^ shift < 2 ^ 53 := by
    rw [Int.ediv_lt_iff_lt_mul hunit]
    omega
  dsimp only
  split_ifs
  · rw [mul_comm]
    exact representable_mul_pow (abs_le.2 ⟨hlow, hhigh.le⟩) (by omega)
  · rw [mul_comm]
    exact representable_mul_pow (abs_le.2 ⟨by omega, hhigh⟩) (by omega)

theorem nearest_le (h : Representable value) (hle : (n : ℚ) ≤ value) : (nearest n : ℚ) ≤ value := by
  have hnear := abs_sub_nearest_le n h
  rw [abs_of_nonpos (a := (n : ℚ) - value) (by linarith)] at hnear
  have := neg_le_abs ((n : ℚ) - nearest n)
  linarith

theorem le_nearest (h : Representable value) (hle : value ≤ n) : value ≤ nearest n := by
  have hnear := abs_sub_nearest_le n h
  rw [abs_of_nonneg (a := (n : ℚ) - value) (by linarith)] at hnear
  have := le_abs_self ((n : ℚ) - nearest n)
  linarith

theorem nearest_mono {first second : ℤ} (hfirst : first.natAbs < 2 ^ 64)
    (hsecond : second.natAbs < 2 ^ 64) (hle : first ≤ second) : nearest first ≤ nearest second := by
  by_contra hlt
  rw [not_le] at hlt
  have hlt' : (nearest second : ℚ) < nearest first := by exact_mod_cast hlt
  have hle' : (first : ℚ) ≤ second := by exact_mod_cast hle
  have hdouble := representable_nearest hfirst
  have hdouble' := representable_nearest hsecond
  -- neither double is between the two integers
  have hlow : (nearest second : ℚ) < first :=
    not_le.1 fun hcase => hlt'.not_ge (nearest_le hdouble' hcase)
  have hhigh : (second : ℚ) < nearest first :=
    not_le.1 fun hcase => hlt'.not_ge (le_nearest hdouble hcase)
  -- and each integer is nearer to its own, which is only possible at the same point
  have hnear := abs_sub_nearest_le first hdouble'
  have hnear' := abs_sub_nearest_le second hdouble
  rw [abs_of_neg (by linarith), abs_of_pos (by linarith)] at hnear
  rw [abs_of_pos (by linarith), abs_of_neg (by linarith)] at hnear'
  have heq : (first : ℚ) = second := by linarith
  rw [Int.cast_inj.1 heq] at hlt
  exact lt_irrefl _ hlt

end Binary64
