import Mathlib.Data.List.Basic
import Mathlib.Order.MinMax

/-!
# Scanning a sequence of blocks

A file of fixed-size records is read block by block, and reading stops at the first block
that is refused.  `blocks` cuts a list into its whole blocks and forgets an incomplete last
one; `scan` runs a partial step function over a list and counts the steps it made.

`scan_append` and `blocks_append` together say that it does not matter how the input is cut
into pieces, as long as the cuts lie between blocks.  `scan_induction` and
`scan_stop` are the two halves of what a scan does: what its steps preserve holds of the
accepted part, and the next element is refused.
-/

namespace BlockScan

open List

variable {Item State : Type*}
variable {size : ℕ} {items first : List Item}

/-! ## Blocks -/

/-- The whole blocks of `size` items each. -/
def blocks (size : ℕ) (items : List Item) : List (List Item) :=
  (range (items.length / size)).map fun i => (items.drop (i * size)).take size

@[simp] theorem length_blocks (size : ℕ) (items : List Item) :
    (blocks size items).length = items.length / size := by
  simp [blocks]

@[simp] theorem blocks_nil (size : ℕ) : blocks size ([] : List Item) = [] := by
  simp [blocks]

theorem blocks_of_lt (hlt : items.length < size) : blocks size items = [] := by
  simp [blocks, Nat.div_eq_of_lt hlt]

theorem blocks_of_le (hpos : 0 < size) (hle : size ≤ items.length) :
    blocks size items = items.take size :: blocks size (items.drop size) := by
  have hn : items.length / size = (items.length - size) / size + 1 := Nat.div_eq_sub_div hpos hle
  simp only [blocks, hn, length_drop, range_succ_eq_map, map_cons, map_map]
  simp [Function.comp_def, Nat.succ_mul, Nat.add_comm]

/-- Cutting between two blocks does not change the blocks. -/
theorem blocks_append (hpos : 0 < size) (n : ℕ) {second : List Item}
    (hlen : first.length = n * size) :
    blocks size (first ++ second) = blocks size first ++ blocks size second := by
  induction n generalizing first with
  | zero =>
    have hnil : first = [] := length_eq_zero_iff.1 (by simpa using hlen)
    rw [hnil, nil_append, blocks_nil, nil_append]
  | succ n ih =>
    rw [Nat.succ_mul] at hlen
    have hle : size ≤ first.length := by omega
    rw [blocks_of_le hpos hle, blocks_of_le hpos (by simp; omega),
      take_append_of_le_length hle, drop_append_of_le_length hle,
      ih (by simp; omega), cons_append]

theorem blocks_flatten (hpos : 0 < size) {parts : List (List Item)}
    (hparts : ∀ part ∈ parts, part.length = size) (rest : List Item) :
    blocks size (parts.flatten ++ rest) = parts ++ blocks size rest := by
  induction parts with
  | nil => simp
  | cons part parts ih =>
    have hlen := hparts part mem_cons_self
    rw [flatten_cons, append_assoc, blocks_append hpos 1 (by omega),
      ih fun x hx => hparts x (mem_cons_of_mem _ hx),
      blocks_of_le hpos hlen.ge, drop_of_length_le hlen.le, blocks_of_lt (by simpa),
      take_of_length_le hlen.le]
    rfl

/-- The blocks of the front of a list are the first blocks of the list. -/
theorem blocks_take (size cut : ℕ) (items : List Item) :
    blocks size (items.take cut) = (blocks size items).take (cut / size) := by
  have hn : (items.take cut).length / size = min (cut / size) (items.length / size) := by
    rw [length_take]
    rcases le_total cut items.length with hle | hle
    · rw [min_eq_left hle, min_eq_left (Nat.div_le_div_right hle)]
    · rw [min_eq_right hle, min_eq_right (Nat.div_le_div_right hle)]
  apply ext_getElem
  · simpa using hn
  · intro i hleft _
    rw [length_blocks, hn, lt_min_iff] at hleft
    have hblock : i * size + size ≤ cut := by
      have := Nat.mul_le_of_le_div size (i + 1) cut hleft.1
      rwa [Nat.succ_mul] at this
    simp only [blocks, getElem_map, getElem_range, getElem_take, drop_take, take_take]
    rw [min_eq_left (by omega)]

/-! ## Scanning -/

/-- Run `step` until it refuses an item; the number of steps and the last state. -/
def scan (step : State → Item → Option State) : List Item → State → ℕ × State
  | [], state => (0, state)
  | item :: rest, state =>
    match step state item with
    | none => (0, state)
    | some next =>
      let result := scan step rest next
      (result.1 + 1, result.2)

variable {step : State → Item → Option State} {s : State}

theorem scan_cons_none {item : Item} (rest : List Item)
    (hstep : step s item = none) : scan step (item :: rest) s = (0, s) := by
  simp [scan, hstep]

theorem scan_cons_some {next : State} {item : Item} (rest : List Item)
    (hstep : step s item = some next) :
    scan step (item :: rest) s = ((scan step rest next).1 + 1, (scan step rest next).2) := by
  simp [scan, hstep]

theorem scan_le_length (items : List Item) (s : State) : (scan step items s).1 ≤ items.length := by
  induction items generalizing s with
  | nil => exact le_rfl
  | cons item rest ih =>
    cases hstep : step s item with
    | none => simp [scan_cons_none rest hstep]
    | some next => simpa [scan_cons_some rest hstep] using ih next

/-- A scan that stops inside the first part does not see the second. -/
theorem scan_append (b : List Item) (s : State) : (scan step (first ++ b) s).2 =
      if (scan step first s).1 < first.length then (scan step first s).2
      else (scan step b (scan step first s).2).2 := by
  induction first generalizing s with
  | nil => rfl
  | cons item rest ih =>
    cases hstep : step s item with
    | none => simp [scan_cons_none _ hstep]
    | some next => simp [scan_cons_some _ hstep, ih]

/-- What every step preserves holds of the accepted items and the last state. -/
theorem scan_induction {motive : List Item → State → Prop} {seen : List Item}
    (items : List Item) (hstart : motive seen s)
    (hpreserve : ∀ seen s item next, motive seen s → step s item = some next →
      motive (seen ++ [item]) next) :
    motive (seen ++ items.take (scan step items s).1) (scan step items s).2 := by
  induction items generalizing seen s with
  | nil => simpa [scan] using hstart
  | cons item rest ih =>
    cases hstep : step s item with
    | none => simpa [scan_cons_none rest hstep] using hstart
    | some next =>
      have hnx := ih (hpreserve _ _ _ _ hstart hstep)
      simpa [scan_cons_some rest hstep] using hnx

theorem scan_stop (hlt : (scan step items s).1 < items.length) :
    step (scan step items s).2 (items[(scan step items s).1]) = none := by
  induction items generalizing s with
  | nil => simp at hlt
  | cons item rest ih =>
    cases hstep : step s item with
    | none => simpa [scan_cons_none rest hstep] using hstep
    | some next =>
      simp only [scan_cons_some rest hstep, length_cons, Nat.add_lt_add_iff_right] at hlt
      simpa [scan_cons_some rest hstep] using ih hlt

/-! ## Longest prefixes -/

/-- The first `count` items are the longest prefix of `items` with a property. -/
structure IsLongestPrefix (good : List Item → Prop) (items : List Item) (count : ℕ) : Prop where
  le_length : count ≤ items.length
  good_take : good (items.take count)
  maximal : ∀ other ≤ items.length, good (items.take other) → other ≤ count

/-- A prefix of a property closed under prefixes is the longest if it cannot be extended by
one item. -/
theorem IsLongestPrefix.of_stop {good : List Item → Prop} {count : ℕ}
    (hclosed : ∀ first b, good (first ++ b) → good first) (hle : count ≤ items.length)
    (hgood : good (items.take count))
    (hstop : ∀ hlt : count < items.length, ¬ good (items.take count ++ [items[count]])) :
    IsLongestPrefix good items count := by
  refine ⟨hle, hgood, fun other hother hlonger => ?_⟩
  by_contra hlt
  have hcount : count < items.length := by omega
  apply hstop hcount
  rw [take_append_getElem]
  have hsplit := take_append_drop (count + 1) (items.take other)
  rw [take_take, min_eq_left (by omega)] at hsplit
  exact hclosed _ _ (hsplit ▸ hlonger)

end BlockScan
