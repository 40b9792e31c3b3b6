import Mathlib.Data.Multiset.Bind

/-!
# Chains of joins

A joined row assigns to each table a row of it, or nothing where an outer join found no partner.
A chain of joins adds one table after the other; this file says how each kind of join acts on the
rows collected so far, and which conditions on these rows can be tested before the join instead
of after it.

A join keeps a left row only together with its partners, alone, or not at all, so that a condition
that does not look at the new table can be tested first (`matched_filter`, `leftOnly_filter`).  The
rows that a join keeps from its right side have no left row; a condition that fails on these turns
the join into one that does not keep them (`filter_join`).
-/

namespace Joins

open Multiset

variable {Table Row : Type*}

/-- A joined row. -/
abbrev Env (Table Row : Type*) := Table → Option Row

/-- The joined row of no table. -/
def Env.empty : Env Table Row := fun _ => none

inductive Kind where
  | inner
  | left
  | right
  | full
  | semi
  | anti
  deriving DecidableEq, Repr

namespace Kind

/-- The kind of join that does not keep unmatched rows of its right side. -/
def dropRight : Kind → Kind
  | right => inner
  | full => left
  | kind => kind

end Kind

variable [DecidableEq Table]

/-- The joined row with a row of one more table. -/
def Env.add (env : Env Table Row) (table : Table) (row : Row) : Env Table Row :=
  Function.update env table (some row)

theorem Env.add_of_ne {env : Env Table Row} {table other : Table} (r : Row)
    (hne : other ≠ table) : env.add table r other = env other :=
  Function.update_of_ne hne _ _

@[simp]
theorem Env.add_self (env : Env Table Row) (t : Table) (row : Row) : env.add t row t = some row :=
  Function.update_self _ _ _

section Sides

variable (table : Table) (rows : Multiset Row) (on : Env Table Row → Bool)
  (lefts : Multiset (Env Table Row))

/-- The left row with each of its partners. -/
def partners (env : Env Table Row) : Multiset (Env Table Row) :=
  (rows.map fun row => env.add table row).filter fun joined => on joined

def matched : Multiset (Env Table Row) :=
  lefts.bind (partners table rows on)

/-- The left rows with a partner. -/
def leftMatched : Multiset (Env Table Row) :=
  lefts.filter fun env => ¬∀ row ∈ rows, ¬on (env.add table row)

/-- The left rows without a partner. -/
def leftOnly : Multiset (Env Table Row) :=
  lefts.filter fun env => ∀ row ∈ rows, ¬on (env.add table row)

/-- The rows of the new table without a partner. -/
def rightOnly : Multiset (Env Table Row) :=
  (rows.filter fun row => ∀ env ∈ lefts, ¬on (env.add table row)).map fun row =>
    Env.empty.add table row

/-- Join the rows collected so far with one more table. -/
def join : Kind → Multiset (Env Table Row)
  | .inner => matched table rows on lefts
  | .left => matched table rows on lefts + leftOnly table rows on lefts
  | .right => matched table rows on lefts + rightOnly table rows on lefts
  | .full => matched table rows on lefts + leftOnly table rows on lefts +
      rightOnly table rows on lefts
  | .semi => leftMatched table rows on lefts
  | .anti => leftOnly table rows on lefts

end Sides

variable {t : Table} {rows : Multiset Row} {on : Env Table Row → Bool}
  {lefts : Multiset (Env Table Row)} {p : Env Table Row → Prop} [DecidablePred p]

/-! ## Conditions that do not look at the new table -/

/-- The condition does not look at the new table. -/
def Ignores (p : Env Table Row → Prop) (table : Table) : Prop :=
  ∀ env row, p (Env.add env table row) ↔ p env

theorem partners_filter (hp : Ignores p t) (env : Env Table Row) :
    (partners t rows on env).filter p = if p env then partners t rows on env else 0 := by
  have hall : ∀ joined ∈ partners t rows on env, p joined ↔ p env := by
    intro joined hjoined
    rw [partners, mem_filter, mem_map] at hjoined
    obtain ⟨⟨r, -, rfl⟩, -⟩ := hjoined
    exact hp env r
  split_ifs with henv
  · exact filter_eq_self.mpr fun joined hjoined => (hall joined hjoined).mpr henv
  · exact filter_eq_nil.mpr fun joined hjoined h => henv ((hall joined hjoined).mp h)

theorem matched_filter (hp : Ignores p t) :
    (matched t rows on lefts).filter p = matched t rows on (lefts.filter p) := by
  induction lefts using Multiset.induction with
  | empty => rfl
  | cons env lefts ih =>
    rw [matched, cons_bind, filter_add, partners_filter hp]
    rw [matched] at ih
    rw [ih, filter_cons]
    split_ifs with henv
    · exact (cons_bind env (lefts.filter p) _).symm
    · rw [zero_add, zero_add]

theorem leftOnly_filter :
    (leftOnly t rows on lefts).filter p = leftOnly t rows on (lefts.filter p) :=
  filter_comm _ _ _

theorem leftMatched_filter :
    (leftMatched t rows on lefts).filter p = leftMatched t rows on (lefts.filter p) :=
  filter_comm _ _ _

/-- A condition that fails on the rows a join keeps from its right side. -/
theorem rightOnly_filter (hp : Ignores p t) (hempty : ¬p Env.empty) :
    (rightOnly t rows on lefts).filter p = 0 := by
  refine filter_eq_nil.mpr fun env henv h => hempty ?_
  rw [rightOnly, mem_map] at henv
  obtain ⟨r, -, rfl⟩ := henv
  exact (hp _ _).mp h

/-- A condition on the left rows that no unmatched right row meets can be tested before the join,
which then keeps no unmatched right row. -/
theorem filter_join (hp : Ignores p t) (hempty : ¬p Env.empty) (kind : Kind) :
    (join t rows on lefts kind).filter p = join t rows on (lefts.filter p) kind.dropRight := by
  cases kind with
  | inner => exact matched_filter hp
  | left =>
    rw [join, filter_add, matched_filter hp, leftOnly_filter]
    rfl
  | right =>
    rw [join, filter_add, matched_filter hp, rightOnly_filter hp hempty, add_zero]
    rfl
  | full =>
    rw [join, filter_add, filter_add, matched_filter hp, leftOnly_filter,
      rightOnly_filter hp hempty, add_zero]
    rfl
  | semi => exact leftMatched_filter
  | anti => exact leftOnly_filter

variable {kind : Kind}

/-- A condition on the left rows can be tested before a join that does not keep its right rows, and
one that always holds before any join. -/
theorem join_filter (hp : Ignores p t)
    (hkeep : kind = .right ∨ kind = .full → ∀ env, p env) :
    join t rows on (lefts.filter p) kind = (join t rows on lefts kind).filter p := by
  have hall : (∀ env, p env) → ∀ envs : Multiset (Env Table Row), envs.filter p = envs :=
    fun h envs => filter_eq_self.mpr fun env _ => h env
  cases kind with
  | inner => exact (matched_filter hp).symm
  | left => rw [join, join, filter_add, matched_filter hp, leftOnly_filter]
  | right => rw [hall (hkeep (.inl rfl)), hall (hkeep (.inl rfl))]
  | full => rw [hall (hkeep (.inr rfl)), hall (hkeep (.inr rfl))]
  | semi => exact leftMatched_filter.symm
  | anti => exact leftOnly_filter.symm

/-- In an inner join, a condition may be tested with the ON condition or after it. -/
theorem matched_and (test : Env Table Row → Bool) :
    matched t rows (fun env => on env && test env) lefts =
      (matched t rows on lefts).filter fun env => test env := by
  have hpartners : ∀ env, partners t rows (fun env => on env && test env) env =
      (partners t rows on env).filter fun env => test env := by
    intro env
    rw [partners, partners, filter_filter]
    refine filter_congr fun joined _ => ?_
    rw [Bool.and_eq_true, and_comm]
  rw [matched, matched, filter_bind]
  exact bind_congr fun env _ => hpartners env

theorem mem_join {env : Env Table Row} (henv : env ∈ join t rows on lefts kind) :
    env ∈ matched t rows on lefts ∨ env ∈ lefts ∨ env ∈ rightOnly t rows on lefts := by
  cases kind with
  | inner => exact .inl henv
  | left =>
    rcases mem_add.mp henv with h | h
    · exact .inl h
    · exact .inr (.inl (mem_of_mem_filter h))
  | right =>
    rcases mem_add.mp henv with h | h
    · exact .inl h
    · exact .inr (.inr h)
  | full =>
    rcases mem_add.mp henv with h | h
    · rcases mem_add.mp h with h | h
      · exact .inl h
      · exact .inr (.inl (mem_of_mem_filter h))
    · exact .inr (.inr h)
  | semi | anti => exact .inr (.inl (mem_of_mem_filter henv))

end Joins
