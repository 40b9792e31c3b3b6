import Turso.Storage.Error
import Mathlib.Tactic.Ring

/-!
# Variable-length integers

`write_varint` and `read_varint` (`core/storage/sqlite3_ondisk.rs`).  A 64-bit
integer is stored in groups of seven bits, high group first, with the top bit
set on every byte but the last; an integer of more than 56 bits takes nine bytes,
of which the last holds eight bits.

The writer has two fast paths, a nine-byte form and a loop that emits the groups
low first into a scratch array.  The reader has three fast paths and one loop;
`readVarint_eq_loop` says the fast paths are the loop cut short.  What the loop
does on a run of continuation bytes is `readVarintLoop_groups`, and the round trip
`readVarint_writeVarint` follows for each of the writer's forms.
-/

namespace Turso

open List

variable {buf : List UInt8} {value : ℕ}

/-! ## Writing -/

/-- The seven low bits of `value` with the continuation bit set. -/
def continuationByte (value : ℕ) : UInt8 := UInt8.ofNat (value % 128 + 128)

/-- The last byte of a varint of at most eight bytes. -/
def finalByte (value : ℕ) : UInt8 := UInt8.ofNat (value % 128)

/-- The `while bytes != 0` loop: the groups of `bytes`, low group first.  The first
argument is the length of the scratch array. -/
def encodeGroups : ℕ → ℕ → List UInt8
  | 0, _ => []
  | size + 1, bytes =>
    if bytes = 0 then [] else continuationByte bytes :: encodeGroups size (bytes / 128)

/-- `encoded[0] &= 0x7f`. -/
def clearContinuation : List UInt8 → List UInt8
  | [] => []
  | first :: rest => UInt8.ofNat (first.toNat % 128) :: rest

/-- The loop of the nine-byte form: exactly `count` groups of `value`, low group
first. -/
def fixedGroups : ℕ → ℕ → List UInt8
  | 0, _ => []
  | count + 1, value => continuationByte value :: fixedGroups count (value / 128)

/-- `write_varint`. -/
def writeVarint (value : ℕ) : List UInt8 :=
  if value ≤ 0x7f then [finalByte value]
  else if value ≤ 0x3fff then [continuationByte (value / 128), finalByte value]
  else if value / 2 ^ 56 % 2 ^ 8 > 0 then
    (fixedGroups 8 (value / 256)).reverse ++ [UInt8.ofNat value]
  else (clearContinuation (encodeGroups 9 value)).reverse

/-! ## Reading -/

/-- The loop of `read_varint` and the ninth byte after it.  The arguments are the
iterations that are left, the index `i`, the value `v` so far and the unread
bytes. -/
def readVarintLoop : ℕ → ℕ → ℕ → List UInt8 → Except LimboError (ℕ × ℕ)
  | _, _, _, [] => .error (.corrupt "Invalid varint")
  | 0, _, v, c :: _ =>
    if v / 2 ^ 48 = 0 then .error (.corrupt "Invalid varint") else .ok (v * 256 + c.toNat, 9)
  | left + 1, i, v, c :: rest =>
    if c.toNat < 0x80 then .ok (v * 128 + c.toNat % 128, i + 1)
    else readVarintLoop left (i + 1) (v * 128 + c.toNat % 128) rest

/-- `read_varint`: the integer at the front of `buf` and the number of bytes it
takes. -/
def readVarint (buf : List UInt8) : Except LimboError (ℕ × ℕ) :=
  match buf with
  | b0 :: b1 :: b2 :: _ =>
    if b0.toNat < 0x80 then .ok (b0.toNat, 1)
    else if b1.toNat < 0x80 then .ok (b0.toNat % 128 * 2 ^ 7 + b1.toNat, 2)
    else if b2.toNat < 0x80 then
      .ok (b0.toNat % 128 * 2 ^ 14 + b1.toNat % 128 * 2 ^ 7 + b2.toNat, 3)
    else readVarintLoop 8 0 0 buf
  | [b0, b1] =>
    if b0.toNat < 0x80 then .ok (b0.toNat, 1)
    else if b1.toNat < 0x80 then .ok (b0.toNat % 128 * 2 ^ 7 + b1.toNat, 2)
    else readVarintLoop 8 0 0 buf
  | [b0] => if b0.toNat < 0x80 then .ok (b0.toNat, 1) else readVarintLoop 8 0 0 buf
  | [] => readVarintLoop 8 0 0 buf

/-- The loop of `read_varint_partial`, which has no value where `read_varint` runs out of bytes. -/
def readVarintPartialLoop : ℕ → ℕ → ℕ → List UInt8 → Except LimboError (Option (ℕ × ℕ))
  | _, _, _, [] => .ok none
  | 0, _, v, c :: _ =>
    if v / 2 ^ 48 = 0 then .error (.corrupt "Invalid varint")
    else .ok (some (v * 256 + c.toNat, 9))
  | left + 1, i, v, c :: rest =>
    if c.toNat < 0x80 then .ok (some (v * 128 + c.toNat % 128, i + 1))
    else readVarintPartialLoop left (i + 1) (v * 128 + c.toNat % 128) rest

/-- `read_varint_partial`. -/
def readVarintPartial (buf : List UInt8) : Except LimboError (Option (ℕ × ℕ)) :=
  readVarintPartialLoop 8 0 0 buf

/-- `split_varint`: the integer at the front of `buf` and the bytes after it. -/
def splitVarint (buf : List UInt8) : Except LimboError (ℕ × List UInt8) :=
  let long := (readVarint buf).map fun res => (res.1, buf.drop res.2)
  match buf with
  | b0 :: b1 :: rest =>
    if b0.toNat < 0x80 then .ok (b0.toNat, b1 :: rest)
    else if b1.toNat < 0x80 then .ok (b0.toNat % 128 * 2 ^ 7 + b1.toNat, rest)
    else long
  | [b0] => if b0.toNat < 0x80 then .ok (b0.toNat, []) else long
  | [] => long

/-- `read_varint_len_long`. -/
def readVarintLenLong (buf : List UInt8) : Except LimboError ℕ := (readVarint buf).map Prod.snd

/-- `read_varint_len`. -/
def readVarintLen (buf : List UInt8) : Except LimboError ℕ :=
  match buf with
  | b0 :: b1 :: b2 :: _ =>
    if b0.toNat < 0x80 then .ok 1
    else if b1.toNat < 0x80 then .ok 2
    else if b2.toNat < 0x80 then .ok 3
    else readVarintLenLong buf
  | [b0, b1] =>
    if b0.toNat < 0x80 then .ok 1
    else if b1.toNat < 0x80 then .ok 2
    else readVarintLenLong buf
  | [b0] => if b0.toNat < 0x80 then .ok 1 else readVarintLenLong buf
  | [] => readVarintLenLong buf

theorem readVarint_eq_loop (buf : List UInt8) : readVarint buf = readVarintLoop 8 0 0 buf := by
  rcases buf with _ | ⟨b0, _ | ⟨b1, _ | ⟨b2, rest⟩⟩⟩ <;>
    simp only [readVarint, readVarintLoop] <;> split_ifs <;>
    simp only [Except.ok.injEq, Prod.mk.injEq, and_true] <;> omega

theorem readVarintPartialLoop_iff {left i v : ℕ} {res : ℕ × ℕ} :
    readVarintPartialLoop left i v buf = .ok (some res) ↔
      readVarintLoop left i v buf = .ok res := by
  induction buf generalizing left i v with
  | nil => cases left <;> simp [readVarintPartialLoop, readVarintLoop]
  | cons c rest ih =>
    cases left with
    | zero =>
      rw [readVarintLoop, readVarintPartialLoop]
      split_ifs <;> simp
    | succ left =>
      rw [readVarintLoop, readVarintPartialLoop]
      split_ifs
      · simp
      · exact ih

theorem readVarintPartial_iff {res : ℕ × ℕ} :
    readVarintPartial buf = .ok (some res) ↔ readVarint buf = .ok res := by
  rw [readVarint_eq_loop]
  exact readVarintPartialLoop_iff

/-! ## The round trip -/

theorem toNat_continuationByte (v : ℕ) : (continuationByte v).toNat = v % 128 + 128 := by
  rw [continuationByte, UInt8.toNat_ofNat']
  omega

theorem toNat_finalByte (v : ℕ) : (finalByte v).toNat = v % 128 := by
  rw [finalByte, UInt8.toNat_ofNat']
  omega

/-- One continuation byte shifts its seven bits into the value. -/
theorem readVarintLoop_continuation (left i v group : ℕ) (rest : List UInt8) :
    readVarintLoop (left + 1) i v (continuationByte group :: rest) =
      readVarintLoop left (i + 1) (v * 128 + group % 128) rest := by
  have hbyte := toNat_continuationByte group
  have hmod : (group % 128 + 128) % 128 = group % 128 := by omega
  rw [readVarintLoop, if_neg (by omega), hbyte, hmod]

theorem readVarintLoop_final (left i v group : ℕ) (rest : List UInt8) :
    readVarintLoop (left + 1) i v (finalByte group :: rest) =
      .ok (v * 128 + group % 128, i + 1) := by
  have hbyte := toNat_finalByte group
  rw [readVarintLoop, if_pos (by omega), hbyte, Nat.mod_mod]

theorem length_fixedGroups (count value : ℕ) : (fixedGroups count value).length = count := by
  induction count generalizing value with
  | zero => rfl
  | succ count ih => simp [fixedGroups, ih]

/-- A run of continuation bytes, high group first, is read as one number. -/
theorem readVarintLoop_groups {count : ℕ} (hvalue : value < 128 ^ count) (left i v : ℕ)
    (rest : List UInt8) :
    readVarintLoop (count + left) i v ((fixedGroups count value).reverse ++ rest) =
      readVarintLoop left (i + count) (v * 128 ^ count + value) rest := by
  induction count generalizing value left rest with
  | zero =>
    obtain rfl : value = 0 := by simpa using hvalue
    simp [fixedGroups]
  | succ count ih =>
    have hdiv : value / 128 < 128 ^ count := by
      rw [Nat.div_lt_iff_lt_mul (by decide)]
      simpa [pow_succ] using hvalue
    -- Appending the low group multiplies the higher ones by 128.
    have hjoin : (v * 128 ^ count + value / 128) * 128 + value % 128 =
        v * 128 ^ (count + 1) + value := by
      calc (v * 128 ^ count + value / 128) * 128 + value % 128
          = v * 128 ^ (count + 1) + (128 * (value / 128) + value % 128) := by ring
        _ = v * 128 ^ (count + 1) + value := by rw [Nat.div_add_mod]
    have hread := ih hdiv (left + 1) (continuationByte value :: rest)
    rw [readVarintLoop_continuation, hjoin] at hread
    rw [fixedGroups, reverse_cons, append_assoc, singleton_append,
      show count + 1 + left = count + (left + 1) by omega, hread, Nat.add_assoc i count 1]

/-- The loop of the writer emits as many groups as the value needs. -/
theorem encodeGroups_eq_fixedGroups {size bound bytes : ℕ} (hbytes : bytes < 128 ^ bound)
    (hbound : bound ≤ size) :
    ∃ n ≤ bound, bytes < 128 ^ n ∧ encodeGroups size bytes = fixedGroups n bytes := by
  induction size generalizing bytes bound with
  | zero =>
    obtain rfl : bound = 0 := by omega
    exact ⟨0, le_rfl, hbytes, rfl⟩
  | succ size ih =>
    by_cases hzero : bytes = 0
    · exact ⟨0, Nat.zero_le _, by simp [hzero], by simp [encodeGroups, hzero, fixedGroups]⟩
    · cases bound with
      | zero => simp at hbytes; omega
      | succ bound =>
        have hdiv : bytes / 128 < 128 ^ bound := by
          rw [Nat.div_lt_iff_lt_mul (by decide)]
          simpa [pow_succ] using hbytes
        obtain ⟨n, hn, hlt, heq⟩ := ih hdiv (by omega)
        refine ⟨n + 1, by omega, ?_, ?_⟩
        · rw [pow_succ, ← Nat.div_lt_iff_lt_mul (by decide)]
          exact hlt
        · rw [encodeGroups, if_neg hzero, heq, fixedGroups]

/-- What `write_varint` writes, `read_varint` reads back, whatever follows it. -/
theorem readVarint_writeVarint (hvalue : value < 2 ^ 64) (rest : List UInt8) :
    readVarint (writeVarint value ++ rest) = .ok (value, (writeVarint value).length) := by
  rw [readVarint_eq_loop, writeVarint]
  split_ifs with hone htwo hnine
  · rw [singleton_append, readVarintLoop_final]
    simp only [length_singleton, Except.ok.injEq, Prod.mk.injEq, and_true]
    omega
  · rw [cons_append, singleton_append, readVarintLoop_continuation, readVarintLoop_final]
    simp only [length_cons, length_nil, Except.ok.injEq, Prod.mk.injEq, and_true]
    omega
  · -- The nine-byte form: eight continuation bytes hold `value / 256`.
    have hlen := length_fixedGroups 8 (value / 256)
    have hread := readVarintLoop_groups (show value / 256 < 128 ^ 8 by omega) 0 0 0
      (UInt8.ofNat value :: rest)
    rw [append_assoc, singleton_append]
    simp only [length_append, length_reverse, hlen, length_singleton]
    rw [hread, readVarintLoop, if_neg (by omega), UInt8.toNat_ofNat']
    simp only [Except.ok.injEq, Prod.mk.injEq, and_true]
    omega
  · -- The loop: all groups but the lowest are continuation bytes.
    have hsmall : value / 128 < 128 ^ 7 := by omega
    obtain ⟨count, hcount, hlt, hgroups⟩ := encodeGroups_eq_fixedGroups hsmall (show 7 ≤ 8 by omega)
    have hlow : UInt8.ofNat ((continuationByte value).toNat % 128) = finalByte value := by
      rw [toNat_continuationByte, finalByte]
      congr 1
      omega
    have hread := readVarintLoop_groups hlt (7 - count + 1) 0 0 (finalByte value :: rest)
    rw [readVarintLoop_final, show count + (7 - count + 1) = 8 by omega] at hread
    rw [encodeGroups, if_neg (by omega), hgroups, clearContinuation, hlow, reverse_cons,
      append_assoc, singleton_append, hread]
    simp only [length_append, length_reverse, length_fixedGroups, length_singleton,
      Except.ok.injEq, Prod.mk.injEq]
    omega

/-! ## Lengths and cut varints -/

/-- `varint_len`. -/
def varintLen (value : ℕ) : ℕ :=
  if value ≤ 0x7f then 1
  else if value > 2 ^ 56 - 1 then 9
  else (value.log2 + 1 + 6) / 7

theorem log2_div_128 (hv : 128 ≤ value) : (value / 128).log2 + 7 = value.log2 := by
  have hlow := Nat.log2_self_le (show value ≠ 0 by omega)
  have hhigh := Nat.lt_log2_self (n := value)
  have hlog : 7 ≤ value.log2 := (Nat.le_log2 (by omega)).2 hv
  obtain ⟨log, hlog'⟩ := Nat.exists_eq_add_of_le' hlog
  rw [hlog'] at hlow hhigh ⊢
  rw [pow_add] at hlow
  rw [pow_succ, pow_add] at hhigh
  have hle : log ≤ (value / 128).log2 := (Nat.le_log2 (by omega)).2 (by omega)
  have hlt : (value / 128).log2 < log + 1 := (Nat.log2_lt (by omega)).2 (by rw [pow_succ]; omega)
  omega

theorem length_encodeGroups {size : ℕ} (hpos : 0 < value) (hv : value < 128 ^ size) :
    (encodeGroups size value).length = value.log2 / 7 + 1 := by
  induction size generalizing value with
  | zero =>
    omega
  | succ size ih =>
    rw [encodeGroups, if_neg hpos.ne', length_cons]
    rcases Nat.lt_or_ge value 128 with hsmall | hlarge
    · have hlog : value.log2 < 7 := (Nat.log2_lt hpos.ne').2 hsmall
      have hnil : encodeGroups size (value / 128) = [] := by
        rw [show value / 128 = 0 by omega]
        cases size <;> rfl
      rw [hnil, length_nil]
      omega
    · have hdiv := log2_div_128 hlarge
      have hlt : value / 128 < 128 ^ size := by
        rw [Nat.div_lt_iff_lt_mul (by decide)]
        simpa [pow_succ] using hv
      rw [ih (by omega) hlt]
      omega

theorem length_clearContinuation (bytes : List UInt8) :
    (clearContinuation bytes).length = bytes.length := by
  cases bytes <;> rfl

theorem length_writeVarint (hv : value < 2 ^ 64) :
    (writeVarint value).length = varintLen value := by
  unfold writeVarint varintLen
  split_ifs with hone htwo hlarge hnine hlarge hlarge
  · rfl
  · omega
  · have hlow : 7 ≤ value.log2 := (Nat.le_log2 (by omega)).2 (by omega)
    have hhigh : value.log2 < 14 := (Nat.log2_lt (by omega)).2 (by omega)
    rw [length_cons, length_singleton]
    omega
  · rw [length_append, length_reverse, length_fixedGroups, length_singleton]
  · omega
  · omega
  · rw [length_reverse, length_clearContinuation, length_encodeGroups (by omega) (by omega)]
    omega

variable {length : ℕ}

theorem readVarintLoop_append {left i v : ℕ}
    (hread : readVarintLoop left i v buf = .ok (value, length)) (hi : left + i = 8)
    (rest : List UInt8) :
    readVarintLoop left i v (buf ++ rest) = .ok (value, length) ∧
      i < length ∧ length ≤ 9 ∧ length ≤ i + buf.length := by
  induction left generalizing i v buf with
  | zero =>
    cases buf with
    | nil =>
      cases hread
    | cons c buf =>
      rw [readVarintLoop] at hread
      refine ⟨hread, ?_⟩
      split_ifs at hread
      cases hread
      rw [length_cons]
      omega
  | succ left ih =>
    cases buf with
    | nil =>
      cases hread
    | cons c buf =>
      rw [cons_append, readVarintLoop]
      rw [readVarintLoop] at hread
      split_ifs at hread ⊢
      · refine ⟨hread, ?_⟩
        cases hread
        rw [length_cons]
        omega
      · obtain ⟨hmore, hlen⟩ := ih hread (by omega)
        rw [length_cons]
        exact ⟨hmore, by omega⟩

/-- A varint takes one to nine bytes of the buffer. -/
theorem readVarint_bounds (hread : readVarint buf = .ok (value, length)) :
    0 < length ∧ length ≤ 9 ∧ length ≤ buf.length := by
  rw [readVarint_eq_loop] at hread
  have := (readVarintLoop_append hread rfl []).2
  rwa [Nat.zero_add] at this

theorem splitVarint_eq (buf : List UInt8) :
    splitVarint buf = (readVarint buf).map fun res => (res.1, buf.drop res.2) := by
  rcases buf with _ | ⟨b0, _ | ⟨b1, _ | ⟨b2, rest⟩⟩⟩ <;> simp only [splitVarint, readVarint] <;>
    split_ifs <;> rfl

theorem readVarintLen_eq (buf : List UInt8) :
    readVarintLen buf = (readVarint buf).map Prod.snd := by
  rcases buf with _ | ⟨b0, _ | ⟨b1, _ | ⟨b2, rest⟩⟩⟩ <;>
    simp only [readVarintLen, readVarintLenLong, readVarint] <;> split_ifs <;> rfl

/-- The writer and the four readers agree: `v` takes `varint_len` bytes, one to nine, and is read
back with the bytes after it untouched, and on any buffer the readers succeed together, with one
value and one length inside the buffer. -/
theorem varint_codec (v : UInt64) (suffix buf : List UInt8) :
    ((writeVarint v.toNat).length = varintLen v.toNat ∧
      varintLen v.toNat ∈ Set.Icc 1 9 ∧
      readVarint (writeVarint v.toNat ++ suffix) = .ok (v.toNat, varintLen v.toNat) ∧
      splitVarint (writeVarint v.toNat ++ suffix) = .ok (v.toNat, suffix)) ∧
    (∀ res, readVarintPartial buf = .ok (some res) ↔ readVarint buf = .ok res) ∧
    splitVarint buf = (readVarint buf).map (fun res => (res.1, buf.drop res.2)) ∧
    readVarintLen buf = (readVarint buf).map Prod.snd ∧
    ∀ value length, readVarint buf = .ok (value, length) → length ≤ buf.length := by
  have hlen := length_writeVarint v.toNat_lt
  have hread := readVarint_writeVarint v.toNat_lt suffix
  have hbounds := readVarint_bounds hread
  refine ⟨⟨hlen, ?_, ?_, ?_⟩, fun res => readVarintPartial_iff, splitVarint_eq buf,
    readVarintLen_eq buf, fun _ _ h => (readVarint_bounds h).2.2⟩
  · rw [← hlen]
    exact ⟨hbounds.1, hbounds.2.1⟩
  · rw [hread, hlen]
  · rw [splitVarint_eq, hread]
    simp [Except.map]

/-- More bytes do not change what is read. -/
theorem readVarint_append (hread : readVarint buf = .ok (value, length))
    (rest : List UInt8) : readVarint (buf ++ rest) = .ok (value, length) ∧ length ≤ buf.length := by
  have hbounds := readVarint_bounds hread
  rw [readVarint_eq_loop] at hread ⊢
  exact ⟨(readVarintLoop_append hread rfl rest).1, hbounds.2.2⟩

/-- A varint that is cut off is not read. -/
theorem readVarint_of_cut (hv : value < 2 ^ 64) {n : ℕ} (hn : n < (writeVarint value).length) :
    ∃ error, readVarint ((writeVarint value).take n) = .error error := by
  cases hread : readVarint ((writeVarint value).take n) with
  | error error => exact ⟨error, rfl⟩
  | ok res =>
    obtain ⟨read, length⟩ := res
    obtain ⟨hwhole, hlen⟩ := readVarint_append hread ((writeVarint value).drop n)
    have hback := readVarint_writeVarint hv []
    rw [append_nil] at hback
    rw [take_append_drop, hback] at hwhole
    rw [length_take] at hlen
    cases hwhole
    omega

end Turso
