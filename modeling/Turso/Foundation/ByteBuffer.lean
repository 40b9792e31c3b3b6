import Mathlib.Data.List.GetD
import Mathlib.Tactic.Common

/-!
# Byte buffers

A buffer is a total map from offsets to bytes.  Slices of it are lists, and a
slice is written back with `write`.  Nothing here knows how long a buffer is:
the clients keep every access inside the range they own, and prove it where it
matters.

The two facts everything else rests on are `slice_write_self` (a slice just
written reads back as it was written) and `slice_write_disjoint` (a write does
not change a slice it does not meet).  The big-endian integers of `readU32` and
`writeU32` are the slices of length four.
-/

/-- A byte buffer, addressed from `0`. -/
abbrev ByteBuffer := ℕ → UInt8

namespace ByteBuffer

open List

/-- The buffer that holds only zero bytes. -/
def zeros : ByteBuffer := fun _ => 0

variable (buf : ByteBuffer)

/-- The `len` bytes from offset `off` on. -/
def slice (off len : ℕ) : List UInt8 :=
  (range len).map fun i => buf (off + i)

/-- Copy `data` into the buffer at offset `off`. -/
def write (off : ℕ) (data : List UInt8) : ByteBuffer := fun i =>
  if off ≤ i ∧ i < off + data.length then data.getD (i - off) 0 else buf i

/-- Move the `len` bytes at `src` to `dst`; the two ranges may overlap. -/
def copyWithin (src len dst : ℕ) : ByteBuffer :=
  buf.write dst (buf.slice src len)

variable (buf : ByteBuffer) {off len : ℕ} {data : List UInt8}
variable {off' : ℕ}

/-! ## Slices -/

@[simp] theorem length_slice (off len : ℕ) : (buf.slice off len).length = len := by
  simp [slice]

@[simp] theorem slice_zero (off : ℕ) : buf.slice off 0 = [] := rfl

theorem getElem_slice {i : ℕ} (hi : i < (buf.slice off len).length) :
    (buf.slice off len)[i] = buf (off + i) := by
  simp [slice]

theorem slice_append (off first second : ℕ) :
    buf.slice off (first + second) = buf.slice off first ++ buf.slice (off + first) second := by
  simp [slice, range_add, map_append, Function.comp_def, Nat.add_assoc]

theorem slice_congr {x : ByteBuffer} (heq : ∀ i, off ≤ i → i < off + len → buf i = x i) :
    buf.slice off len = x.slice off len := by
  simp only [slice, map_inj_left, mem_range]
  intro i hi
  exact heq _ (Nat.le_add_right _ _) (by omega)

theorem take_slice {len' : ℕ} (hle : len' ≤ len) :
    (buf.slice off len).take len' = buf.slice off len' := by
  obtain ⟨rest, rfl⟩ := Nat.exists_eq_add_of_le hle
  rw [slice_append]
  simp

theorem drop_slice {skip : ℕ} (hle : skip ≤ len) :
    (buf.slice off len).drop skip = buf.slice (off + skip) (len - skip) := by
  obtain ⟨rest, rfl⟩ := Nat.exists_eq_add_of_le hle
  rw [slice_append]
  simp

/-! ## Writing -/

theorem write_apply_of_mem {i : ℕ} (hlow : off ≤ i) (hhigh : i < off + data.length) :
    buf.write off data i = data.getD (i - off) 0 :=
  if_pos ⟨hlow, hhigh⟩

theorem slice_write_self (off : ℕ) (data : List UInt8) :
    (buf.write off data).slice off data.length = data := by
  apply ext_getElem (by simp)
  intro i hi hi'
  rw [getElem_slice, write_apply_of_mem _ (Nat.le_add_right _ _) (by omega),
    Nat.add_sub_cancel_left, getD_eq_getElem _ _ hi']

theorem slice_write_inside {skip len : ℕ} (hle : skip + len ≤ data.length) :
    (buf.write off data).slice (off + skip) len = (data.drop skip).take len := by
  have hself := buf.slice_write_self off data
  calc (buf.write off data).slice (off + skip) len
      = (((buf.write off data).slice off data.length).drop skip).take len := by
        rw [drop_slice _ (by omega), take_slice _ (by omega)]
    _ = (data.drop skip).take len := by rw [hself]

/-- A write leaves the slices it does not meet as they were. -/
theorem slice_write_disjoint {len' : ℕ} (hdisjoint : off' + len' ≤ off ∨ off + data.length ≤ off') :
    (buf.write off data).slice off' len' = buf.slice off' len' := by
  apply slice_congr
  intro i hlow hhigh
  exact if_neg (by omega)

/-! ## Big-endian integers -/

/-- The four bytes of a 32-bit integer, high byte first. -/
def u32ToBytes (value : ℕ) : List UInt8 :=
  [UInt8.ofNat (value / 16777216), UInt8.ofNat (value / 65536), UInt8.ofNat (value / 256),
    UInt8.ofNat value]

/-- The integer whose big-endian digits in base 256 are `bytes`. -/
def ofBytes (bytes : List UInt8) : ℕ :=
  bytes.foldl (fun value byte => value * 256 + byte.toNat) 0

/-- The 32-bit integer at `off`. -/
def readU32 (off : ℕ) : ℕ := ofBytes (buf.slice off 4)

/-- Store a 32-bit integer at `off`. -/
def writeU32 (off value : ℕ) : ByteBuffer := buf.write off (u32ToBytes value)

@[simp] theorem length_u32ToBytes (v : ℕ) : (u32ToBytes v).length = 4 := rfl

theorem ofBytes_u32ToBytes {value : ℕ} (hvalue : value < 4294967296) :
    ofBytes (u32ToBytes value) = value := by
  simp only [ofBytes, u32ToBytes, foldl_cons, foldl_nil, UInt8.toNat_ofNat']
  omega

theorem readU32_writeU32 {value : ℕ} (off : ℕ) (hvalue : value < 4294967296) :
    (buf.writeU32 off value).readU32 off = value := by
  have hself := buf.slice_write_self off (u32ToBytes value)
  rw [length_u32ToBytes] at hself
  rw [readU32, writeU32, hself, ofBytes_u32ToBytes hvalue]

theorem readU32_write_disjoint (hdisjoint : off' + 4 ≤ off ∨ off + data.length ≤ off') :
    (buf.write off data).readU32 off' = buf.readU32 off' := by
  rw [readU32, readU32, slice_write_disjoint _ hdisjoint]

theorem readU32_writeU32_disjoint {off v : ℕ} (hdisjoint : off' + 4 ≤ off ∨ off + 4 ≤ off') :
    (buf.writeU32 off v).readU32 off' = buf.readU32 off' :=
  readU32_write_disjoint _ hdisjoint

theorem readU32_lt (off : ℕ) : buf.readU32 off < 4294967296 := by
  have hbyte : ∀ i, (buf i).toNat < 256 := fun i => (buf i).toNat_lt
  have h0 := hbyte (off + 0)
  have h1 := hbyte (off + 1)
  have h2 := hbyte (off + 2)
  have h3 := hbyte (off + 3)
  simp only [readU32, ofBytes, slice, range, range.loop, map_cons, map_nil, foldl_cons, foldl_nil]
  omega

/-- Moving a block reads back at the new place what was at the old one. -/
theorem readU32_copyWithin {src len dst : ℕ} (hlow : dst ≤ off') (hhigh : off' + 4 ≤ dst + len) :
    (buf.copyWithin src len dst).readU32 off' = buf.readU32 (src + (off' - dst)) := by
  obtain ⟨skip, rfl⟩ := Nat.exists_eq_add_of_le hlow
  rw [copyWithin, readU32, readU32, slice_write_inside _ (by simpa using (by omega)),
    drop_slice _ (by omega), take_slice _ (by omega)]
  simp

end ByteBuffer
