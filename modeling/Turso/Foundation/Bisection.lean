import Mathlib.Algebra.Order.Ring.Int

/-!
# Bisection

A search for the place where a condition on indices begins to hold.  The indices from `min` to
`max` are still to be looked at; below them the condition fails, above them it holds.  One
step looks at the middle index and goes on to its left or to its right.  An index may also be
noted as a match, which is what the search is after.

`Searching` is the invariant of the range, kept by every step as long as the condition is
monotone.  At the end the range is empty and lies at the split (`Searching.split`).  The
matches are noted next to the range: those on the way to the left just above it
(`NearestAbove`), those on the way to the right just below it (`NearestBelow`).  A flag that
every match raises tells at the end whether one is next to the split (`Raised`).
-/

namespace Bisection

/-- The range still to be searched, and the last match. -/
structure State where
  min : ℤ
  max : ℤ
  nearest : Option ℕ := none
  deriving DecidableEq, Repr

namespace State

variable (state : State)

def middle : ℤ := (state.min + state.max) / 2

/-- The index in the middle. -/
def index : ℕ := state.middle.toNat

/-- Go on to the left or to the right of the middle, which may be a match. -/
def narrow (left hit : Bool) : State where
  min := if left then state.min else state.middle + 1
  max := if left then state.middle - 1 else state.max
  nearest := if hit then some state.index else state.nearest

end State

/-- The condition fails before `split` and holds from there on. -/
structure SplitsAt (left : ℕ → Bool) (count split : ℕ) : Prop where
  le : split ≤ count
  before : ∀ index < split, left index = false
  after : ∀ index, split ≤ index → index < count → left index = true

/-- Once the condition holds it holds for all higher indices. -/
def Monotone (left : ℕ → Bool) (count : ℕ) : Prop :=
  ∀ low high, low ≤ high → high < count → left low = true → left high = true

/-- The condition fails below the range and holds above it. -/
structure Searching (left : ℕ → Bool) (count : ℕ) (state : State) : Prop where
  nonneg : 0 ≤ state.min
  le : state.min ≤ state.max + 1
  lt : state.max < count
  below : ∀ index : ℕ, index < state.min → left index = false
  above : ∀ index : ℕ, state.max < index → index < count → left index = true

section
variable {left : ℕ → Bool} {count : ℕ} {state : State}

theorem Searching.start (left : ℕ → Bool) (n : ℕ) (nearest : Option ℕ) :
    Searching left n ⟨0, n - 1, nearest⟩ where
  nonneg := le_rfl
  le := by dsimp only; omega
  lt := by dsimp only; omega
  below := by intro i hi; dsimp only at hi; omega
  above := by intro i hlow hhigh; dsimp only at hlow; omega

theorem State.middle_bounds (hopen : state.min ≤ state.max) :
    state.min ≤ state.middle ∧ state.middle ≤ state.max := by
  rw [middle]
  omega

theorem State.narrow_lt (hopen : state.min ≤ state.max) (left hit : Bool) :
    ((state.narrow left hit).max + 1 - (state.narrow left hit).min).toNat <
      (state.max + 1 - state.min).toNat := by
  obtain ⟨hlow, hhigh⟩ := state.middle_bounds hopen
  cases left with
  | true =>
    simp only [narrow, if_true]
    omega
  | false =>
    simp only [narrow, Bool.false_eq_true, if_false]
    omega

section
variable (h : Searching left count state) (hopen : state.min ≤ state.max)
include h hopen

theorem Searching.bounds : (state.index : ℤ) = state.middle ∧ state.index < count ∧
    state.min ≤ state.middle ∧ state.middle ≤ state.max ∧ 0 ≤ state.min := by
  have hbounds := state.middle_bounds hopen
  have hnonneg := h.nonneg
  have hlt := h.lt
  rw [State.index]
  omega

theorem Searching.index_eq : (state.index : ℤ) = state.middle := (h.bounds hopen).1

theorem Searching.index_lt : state.index < count := (h.bounds hopen).2.1

end

theorem Searching.narrow (h : Searching left count state) (hmono : Monotone left count)
    (hopen : state.min ≤ state.max) (hit : Bool) :
    Searching left count (state.narrow (left state.index) hit) := by
  obtain ⟨hindex, hmiddle, hlow, hhigh, hnonneg⟩ := h.bounds hopen
  have hlt := h.lt
  cases hleft : left state.index with
  | true =>
    refine ⟨hnonneg, ?_, ?_, h.below, fun index habove hcount => ?_⟩
    · simp only [State.narrow, if_true]
      omega
    · simp only [State.narrow, if_true]
      omega
    · simp only [State.narrow, if_true] at habove
      exact hmono state.index index (by omega) hcount hleft
  | false =>
    refine ⟨?_, ?_, hlt, fun index hbelow => ?_, h.above⟩
    · simp only [State.narrow, Bool.false_eq_true, if_false]
      omega
    · simp only [State.narrow, Bool.false_eq_true, if_false]
      omega
    · simp only [State.narrow, Bool.false_eq_true, if_false] at hbelow
      by_contra htrue
      rw [Bool.not_eq_false] at htrue
      have := hmono index state.index (by omega) hmiddle htrue
      simp [hleft] at this

/-- At the end the range lies at the split. -/
theorem Searching.split (h : Searching left count state) (hclosed : state.max < state.min) :
    ∃ split : ℕ, SplitsAt left count split ∧ state.min = split ∧ state.max = split - 1 := by
  have hnonneg := h.nonneg
  have hle := h.le
  have hlt := h.lt
  refine ⟨state.min.toNat, ⟨by omega, ?_, ?_⟩, by omega, by omega⟩
  · intro i hi
    exact h.below i (by omega)
  · intro i hi hn
    exact h.above i (by omega) hn

/-! ## The nearest match -/

/-- The nearest match is the index just above the range, if that is one. -/
def NearestAbove (hit : ℕ → Bool) (count : ℕ) (state : State) : Prop :=
  state.nearest =
    if (state.max + 1).toNat < count ∧ hit (state.max + 1).toNat = true then
      some (state.max + 1).toNat
    else none

/-- The nearest match is the index just below the range, if that is one. -/
def NearestBelow (hit : ℕ → Bool) (state : State) : Prop :=
  state.nearest =
    if 0 < state.min ∧ hit (state.min - 1).toNat = true then some (state.min - 1).toNat else none

variable {hit : ℕ → Bool}

theorem NearestAbove.start (hit : ℕ → Bool) (count : ℕ) :
    NearestAbove hit count ⟨0, count - 1, none⟩ := by
  have : ¬ ((count : ℤ) - 1 + 1).toNat < count := by omega
  rw [NearestAbove, if_neg (fun h => this h.1)]

theorem NearestBelow.start (hit : ℕ → Bool) (n : ℕ) : NearestBelow hit ⟨0, n - 1, none⟩ := by
  rw [NearestBelow, if_neg (fun h => lt_irrefl _ h.1)]

/-- Matches are on the left way, and where the left way is no match, nothing above is. -/
theorem NearestAbove.narrow (h : NearestAbove hit count state) (hs : Searching left count state)
    (hopen : state.min ≤ state.max) (hhit : ∀ index < count, hit index = true → left index = true)
    (hno : ∀ low high, low ≤ high → high < count → left low = true → hit low = false →
      hit high = false) :
    NearestAbove hit count (state.narrow (left state.index) (hit state.index)) := by
  obtain ⟨hindex, hmiddle, hlow, hhigh, hnonneg⟩ := hs.bounds hopen
  rw [NearestAbove] at h ⊢
  cases hleft : left state.index with
  | true =>
    have hcell : (state.middle - 1 + 1).toNat = state.index := by omega
    cases hmatch : hit state.index with
    | true => simp only [State.narrow, if_true, hcell, hmiddle, hmatch, and_self]
    | false =>
      simp only [State.narrow, if_true, Bool.false_eq_true, if_false, hcell, hmatch, and_false]
      rw [h, if_neg]
      rintro ⟨hcount, htrue⟩
      have := hno state.index _ (by omega) hcount hleft hmatch
      simp [this] at htrue
  | false =>
    have hmatch : hit state.index = false := by
      by_contra htrue
      rw [Bool.not_eq_false] at htrue
      simp [hhit _ hmiddle htrue] at hleft
    simpa [State.narrow, hmatch] using h

/-- Matches are on the right way, and where the right way is no match, nothing below is. -/
theorem NearestBelow.narrow (h : NearestBelow hit state) (hs : Searching left count state)
    (hopen : state.min ≤ state.max) (hhit : ∀ index < count, hit index = true → left index = false)
    (hno : ∀ low high, low ≤ high → high < count → left high = false → hit high = false →
      hit low = false) :
    NearestBelow hit (state.narrow (left state.index) (hit state.index)) := by
  obtain ⟨hindex, hmiddle, hlow, hhigh, hnonneg⟩ := hs.bounds hopen
  rw [NearestBelow] at h ⊢
  cases hleft : left state.index with
  | true =>
    have hmatch : hit state.index = false := by
      by_contra htrue
      rw [Bool.not_eq_false] at htrue
      simp [hhit _ hmiddle htrue] at hleft
    simpa [State.narrow, hmatch] using h
  | false =>
    have hpos : (0 : ℤ) < state.middle + 1 := by omega
    have hcell : (state.middle + 1 - 1).toNat = state.index := by omega
    cases hmatch : hit state.index with
    | true =>
      simp only [State.narrow, Bool.false_eq_true, if_false, if_true, hpos, hcell, hmatch, and_self]
    | false =>
      simp only [State.narrow, Bool.false_eq_true, if_false, hpos, true_and, hcell, hmatch]
      rw [h, if_neg]
      · rintro ⟨hmin, htrue⟩
        have := hno (state.min - 1).toNat state.index (by omega) hmiddle hleft hmatch
        rw [this] at htrue
        cases htrue

/-! ## Flags -/

/-- A flag that every match raises.  Next to the range, no match is missed. -/
structure Raised (hit : ℕ → Bool) (count : ℕ) (state : State) (first flag : Bool) : Prop where
  keeps : first = true → flag = true
  sound : flag = true → first = true ∨ ∃ index < count, hit index = true
  above : (state.max + 1).toNat < count → hit (state.max + 1).toNat = true → flag = true
  below : 0 < state.min → hit (state.min - 1).toNat = true → flag = true

theorem Raised.start (hit : ℕ → Bool) (n : ℕ) (nearest : Option ℕ) (flag : Bool) :
    Raised hit n ⟨0, n - 1, nearest⟩ flag flag where
  keeps := id
  sound := .inl
  above := by intro h; dsimp only at h; omega
  below := by intro h; dsimp only at h; omega

theorem Raised.narrow {a flag : Bool} (h : Raised hit count state a flag)
    (hs : Searching left count state) (hopen : state.min ≤ state.max) (goLeft isHit : Bool) :
    Raised hit count (state.narrow goLeft isHit) a (flag || hit state.index) := by
  obtain ⟨hindex, hmiddle, -⟩ := hs.bounds hopen
  refine ⟨fun ha => by simp [h.keeps ha], fun hflag => ?_, fun hlt hhit => ?_, fun hpos hhit => ?_⟩
  · rcases Bool.or_eq_true_iff.1 hflag with hflag | hhit
    · exact h.sound hflag
    · exact .inr ⟨_, hmiddle, hhit⟩
  · cases goLeft with
    | true =>
      have hcell : (state.middle - 1 + 1).toNat = state.index := by omega
      simp only [State.narrow, if_true, hcell] at hhit
      simp [hhit]
    | false => simp [h.above hlt hhit]
  · cases goLeft with
    | true => simp [h.below hpos hhit]
    | false =>
      have hcell : (state.middle + 1 - 1).toNat = state.index := by omega
      simp only [State.narrow, Bool.false_eq_true, if_false, hcell] at hhit
      simp [hhit]

end

end Bisection
