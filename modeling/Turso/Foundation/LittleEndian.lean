import Mathlib.Tactic.Ring

/-!
# Little-endian integers

A natural number as a fixed number of bytes, lowest byte first.
-/

namespace LittleEndian

/-- The `size` low bytes of `value`. -/
def encode : ℕ → ℕ → List UInt8
  | 0, _ => []
  | size + 1, value => UInt8.ofNat (value % 256) :: encode size (value / 256)

def decode : List UInt8 → ℕ
  | [] => 0
  | first :: rest => first.toNat + 256 * decode rest

@[simp]
theorem length_encode (size v : ℕ) : (encode size v).length = size := by
  induction size generalizing v with
  | zero => rfl
  | succ size ih => simp [encode, ih]

theorem decode_encode {size value : ℕ} (hvalue : value < 256 ^ size) :
    decode (encode size value) = value := by
  induction size generalizing value with
  | zero => simp_all [encode, decode]
  | succ size ih =>
    have hdiv : value / 256 < 256 ^ size := by
      rw [Nat.div_lt_iff_lt_mul (by decide)]
      simpa [pow_succ] using hvalue
    rw [encode, decode, ih hdiv, UInt8.toNat_ofNat']
    omega

theorem decode_append (low high : List UInt8) :
    decode (low ++ high) = decode low + 256 ^ low.length * decode high := by
  induction low with
  | nil => simp [decode]
  | cons a rest ih =>
    rw [List.cons_append, decode, ih, decode, List.length_cons]
    ring

theorem decode_lt (bytes : List UInt8) : decode bytes < 256 ^ bytes.length := by
  induction bytes with
  | nil => simp [decode]
  | cons a rest ih =>
    have := a.toNat_lt
    rw [decode, List.length_cons, pow_succ]
    omega

/-- The low bytes do not depend on how many are taken. -/
theorem take_encode {size total : ℕ} (hle : size ≤ total) (w : ℕ) :
    (encode total w).take size = encode size (w % 256 ^ size) := by
  induction size generalizing total w with
  | zero => simp [encode]
  | succ size ih =>
    obtain ⟨total, rfl⟩ : ∃ rest, total = rest + 1 := ⟨total - 1, by omega⟩
    have hlow : w % 256 ^ (size + 1) % 256 = w % 256 := by
      rw [pow_succ, Nat.mod_mul_left_mod]
    have hhigh : w % 256 ^ (size + 1) / 256 = w / 256 % 256 ^ size := by
      rw [pow_succ, Nat.mul_comm, Nat.mod_mul_right_div_self]
    rw [encode, List.take_succ_cons, ih (by omega), encode, hlow, hhigh]

end LittleEndian
