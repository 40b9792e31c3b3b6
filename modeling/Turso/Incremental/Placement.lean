import Turso.Incremental.SelectPlan

/-!
# Where the WHERE terms are tested

`build_select_plan_dag` tests a WHERE term at the first join after which no join fills one of its
tables with NULLs.  This file compares a chain of joins with terms tested at their places
(`placedRows`) with the chain that tests all of them at the end (`placedRows_eq_joinedRows`).

A term placed before a join does not look at the joined table, so it can be tested before the join
unless the join keeps the rows of its right side.  Such a join fills all tables before it with
NULLs, so that only terms which read no table are placed before it: for these the comparison needs
that they are TRUE.
-/

namespace Turso.Incremental

open JoinedTable Translate SelectPlan List Joins Nat

variable {position : ℕ} {positions : List ℕ} {table : TableInternalId}

/-! ## Positions -/

theorem le_lastPosition (hpos : position ∈ positions) : position ≤ lastPosition positions := by
  induction positions with
  | nil => cases hpos
  | cons a rest ih =>
    rcases mem_cons.mp hpos with rfl | hrest
    · exact le_max_left _ _
    · exact (ih hrest).trans (le_max_right _ _)

theorem lastPosition_lt {bound : ℕ} (hbound : 0 < bound)
    (hpositions : ∀ position ∈ positions, position < bound) : lastPosition positions < bound := by
  induction positions with
  | nil => exact hbound
  | cons a rest ih =>
    exact max_lt (hpositions a mem_cons_self)
      (ih fun position hrest => hpositions position (mem_cons_of_mem _ hrest))

/-- The loop of `afterNullFilling` over the joins from `start` on: it ends at its first step or at
one of these joins, and no join behind its result fills a position with NULLs. -/
theorem foldl_nullFilling (fills : ℕ → Bool) (n : ℕ) : ∀ start step, step < start →
      let last := (range' start n).foldl
        (fun step later => if fills later then later else step) step
      step ≤ last ∧ last < start + n ∧
        ∀ later, start ≤ later → last < later → later < start + n → fills later = false := by
  induction n with
  | zero => exact fun start step hstep => ⟨le_refl _, hstep, fun later h1 h2 h3 => by omega⟩
  | succ n ih =>
    intro start step hstep
    rw [range'_succ, foldl_cons]
    cases hfills : fills start with
    | true =>
      obtain ⟨hle, hlt, hlater⟩ := ih (start + 1) start (lt_succ_self _)
      simp only [if_true]
      refine ⟨by omega, by omega, fun later h1 h2 h3 => ?_⟩
      exact hlater later (by omega) h2 (by omega)
    | false =>
      obtain ⟨hle, hlt, hlater⟩ := ih (start + 1) step (by omega)
      simp only [Bool.false_eq_true, if_false]
      refine ⟨hle, by omega, fun later h1 h2 h3 => ?_⟩
      rcases eq_or_lt_of_le h1 with rfl | hnext
      · exact hfills
      · exact hlater later hnext h2 (by omega)

theorem afterNullFilling_spec {joinTypes : List JoinType} (positions : List ℕ) {step : ℕ}
    (hstep : step < joinTypes.length) :
    step ≤ afterNullFilling joinTypes positions step ∧
      afterNullFilling joinTypes positions step < joinTypes.length ∧
      ∀ later, afterNullFilling joinTypes positions step < later → later < joinTypes.length →
        ∀ position ∈ positions,
          nullsFilledBy later position (joinTypeAt joinTypes later) = false := by
  obtain ⟨hle, hlt, hlater⟩ := foldl_nullFilling (fun later => positions.any fun position =>
      nullsFilledBy later position (joinTypeAt joinTypes later))
    (joinTypes.length - (step + 1)) (step + 1) step (lt_succ_self _)
  rw [show step + 1 + (joinTypes.length - (step + 1)) = joinTypes.length by omega] at hlt hlater
  refine ⟨hle, hlt, fun later h1 h2 position hpos => ?_⟩
  have hno := hlater later (lt_of_le_of_lt hle h1) h1 h2
  rw [any_eq_false] at hno
  exact Bool.eq_false_iff.mpr (hno position hpos)

/-! ## The tables of a plan -/

theorem forall₂_of_mapM_ok {ε α β : Type} {f : α → Except ε β} {xs : List α} {ys : List β}
    (hmap : xs.mapM f = .ok ys) : Forall₂ (fun x y => f x = .ok y) xs ys := by
  induction xs generalizing ys with
  | nil =>
    cases hmap
    exact .nil
  | cons x xs ih =>
    rw [mapM_cons] at hmap
    cases hx : f x with
    | error error =>
      rw [hx] at hmap
      cases hmap
    | ok y =>
      cases hxs : xs.mapM f with
      | error error =>
        rw [hx, hxs] at hmap
        cases hmap
      | ok rest =>
        rw [hx, hxs] at hmap
        cases hmap
        exact .cons hx (ih hxs)

theorem referencedBindingPositions_ok {tables : List TableInternalId} {expr : Expr}
    (hpositions : referencedBindingPositions tables expr = .ok positions) :
    (∀ table ∈ expr.tables, ∃ position ∈ positions, tables.idxOf? table = some position) ∧
      ∀ position ∈ positions, ∃ table ∈ expr.tables, tables.idxOf? table = some position := by
  have hall : Forall₂ (fun table position => tables.idxOf? table = some position)
      expr.tables positions := by
    refine (forall₂_of_mapM_ok hpositions).imp fun table position h => ?_
    cases hidx : tables.idxOf? table with
    | none =>
      rw [hidx] at h
      cases h
    | some found =>
      rw [hidx] at h
      cases h
      rfl
  clear hpositions
  generalize expr.tables = reads at hall
  induction hall with
  | nil => exact ⟨fun _ h => absurd h not_mem_nil, fun _ h => absurd h not_mem_nil⟩
  | @cons table position tables' positions' hhead _ ih =>
    refine ⟨fun x hx => ?_, fun x hx => ?_⟩
    · rcases mem_cons.mp hx with rfl | hrest
      · exact ⟨position, mem_cons_self, hhead⟩
      · obtain ⟨found, hf, hidx⟩ := ih.1 x hrest
        exact ⟨found, mem_cons_of_mem _ hf, hidx⟩
    · rcases mem_cons.mp hx with rfl | hrest
      · exact ⟨table, mem_cons_self, hhead⟩
      · obtain ⟨found, hf, hidx⟩ := ih.2 x hrest
        exact ⟨found, mem_cons_of_mem _ hf, hidx⟩

namespace SelectPlan

variable {Sub : Type} (plan : SelectPlan Sub)

/-- The tables of the plan in the order of FROM. -/
def tables : List TableInternalId := plan.joinedTables.map internalId

def joinTypes : List JoinType := plan.joinedTables.map joinType

variable {plan}

theorem length_joinTypes : plan.joinTypes.length = plan.joinedTables.length :=
  length_map _

theorem joined_of_idxOf? (hidx : plan.tables.idxOf? table = some position) :
    ∃ joined, plan.joinedTables[position]? = some joined ∧ joined.internalId = table := by
  obtain ⟨hlt, heq, -⟩ := findIdx?_eq_some_iff_getElem.mp hidx
  rw [tables, length_map] at hlt
  refine ⟨plan.joinedTables[position], getElem?_eq_getElem hlt, ?_⟩
  simpa [tables] using heq

variable {joined : JoinedTable Sub}

theorem idxOf?_of_joined
    (hjoined : plan.joinedTables[position]? = some joined) :
    plan.tables.idxOf? joined.internalId = some position := by
  have hm : joined.internalId ∈ plan.tables := mem_map_of_mem (mem_of_getElem? hjoined)
  obtain ⟨found, hf⟩ := Option.isSome_iff_exists.mp (isSome_idxOf?.mpr hm)
  obtain ⟨x, hx, hid⟩ := joined_of_idxOf? hf
  have hlt : found < plan.tables.length := by
    rw [tables, length_map]
    exact (List.getElem?_eq_some_iff.mp hx).1
  have hsame : plan.tables[found]? = plan.tables[position]? := by
    rw [tables, getElem?_map, getElem?_map, hx, hjoined, Option.map_some, Option.map_some, hid]
  rw [hf, (getElem?_inj hlt plan.nodup).mp hsame]

theorem joinTypeAt_of_joined
    (hjoined : plan.joinedTables[position]? = some joined) :
    joinTypeAt plan.joinTypes position = joined.joinType := by
  rw [joinTypeAt, joinTypes, getD_eq_getElem?_getD, getElem?_map, hjoined]
  rfl

theorem idxOf?_lt (hidx : plan.tables.idxOf? table = some position) :
    position < plan.joinTypes.length := by
  obtain ⟨joined, hjoined, -⟩ := joined_of_idxOf? hidx
  rw [length_joinTypes]
  exact (List.getElem?_eq_some_iff.mp hjoined).1

theorem joinTypeAt_zero : joinTypeAt plan.joinTypes 0 = .inner := by
  rw [joinTypeAt, joinTypes, getD_eq_getElem?_getD, getElem?_map, ← head?_eq_getElem?]
  cases hhead : plan.joinedTables.head? with
  | none => rfl
  | some joined =>
    have hno := plan.first joined hhead
    show joined.joinType = .inner
    rw [joinType, hno]
    rfl

end SelectPlan

/-! ## The place of a term -/

/-- The join a place belongs to. -/
def Placement.step : Placement → ℕ
  | on step | filter step => step

variable {place : Placement}

/-- The two kinds of place for a WHERE term: the ON of the join whose table it must not outlive, or
the first place that no join fills with NULLs. -/
theorem placeWhereTerm_ok {joinTypes : List JoinType}
    (hplace : placeWhereTerm joinTypes positions = .ok place) :
    (place = .on (lastPosition positions) ∧
        (∃ position ∈ positions, hidesTable (joinTypeAt joinTypes position) = true) ∧
        ∀ position ∈ positions, hidesTable (joinTypeAt joinTypes position) = true →
          position = lastPosition positions) ∨
      ((∀ position ∈ positions, hidesTable (joinTypeAt joinTypes position) = false) ∧
        place.step = afterNullFilling joinTypes positions (lastPosition positions) ∧
        (place = .on place.step → 0 < place.step ∧ joinTypeAt joinTypes place.step = .inner)) := by
  simp only [placeWhereTerm] at hplace
  split at hplace
  · next hhides =>
      split at hplace
      · cases hplace
      next hcheck =>
        cases hplace
        rw [Bool.or_eq_true, not_or, any_eq_true, not_exists] at hcheck
        refine .inl ⟨rfl, any_eq_true.mp hhides, fun position hpos hhidden => ?_⟩
        by_contra hne
        exact hcheck.1 position ⟨hpos, by simp [hne, hhidden]⟩
  · next hnone =>
      refine .inr ⟨fun position hpos => ?_, ?_⟩
      · exact Bool.eq_false_iff.mpr fun h => hnone (any_eq_true.mpr ⟨position, hpos, h⟩)
      · split at hplace
        · next hinner =>
            cases hplace
            exact ⟨rfl, fun _ => hinner⟩
        · cases hplace
          exact ⟨rfl, fun h => by cases h⟩

section Place

variable {Sub : Type} {plan : SelectPlan Sub} {term : WhereTerm}

theorem ownedTerm_expr : (plan.ownedTerm term).expr = term.expr := by
  unfold ownedTerm
  split <;> rfl

variable {origin : JoinOrigin}

theorem ownedTerm_of_origin (horigin : term.origin.joinOrigin = some origin) :
    plan.ownedTerm term = term := by
  unfold ownedTerm
  rw [horigin]

theorem placeTerm_of_where (horigin : term.origin.joinOrigin = none)
    (hplace : placeTerm plan.tables plan.joinTypes term = .ok place) :
    ∃ positions, referencedBindingPositions plan.tables term.expr = .ok positions ∧
      placeWhereTerm plan.joinTypes positions = .ok place := by
  unfold placeTerm at hplace
  rw [horigin] at hplace
  cases hpositions : referencedBindingPositions plan.tables term.expr with
  | error error =>
    simp only [hpositions] at hplace
    cases hplace
  | ok positions =>
    simp only [hpositions] at hplace
    exact ⟨positions, rfl, hplace⟩

/-- A hidden table that a WHERE term reads. -/
theorem exists_position_of_owned (hwhere : term.origin.joinOrigin = none)
    (howned : (plan.ownedTerm term).origin.joinOrigin = some origin)
    (hpositions : referencedBindingPositions plan.tables term.expr = .ok positions) :
    ∃ position ∈ positions, plan.tables.idxOf? origin.rightTable = some position ∧
      hidesTable (joinTypeAt plan.joinTypes position) = true := by
  unfold ownedTerm at howned
  split at howned
  case h_1 _ joined _ hfind =>
    cases howned
    have hread := find?_some hfind
    rw [Bool.and_eq_true, contains_iff_mem] at hread
    obtain ⟨position, hposition, hidx⟩ :=
      (referencedBindingPositions_ok hpositions).1 joined.internalId hread.2
    obtain ⟨x, hx, hid⟩ := joined_of_idxOf? hidx
    have hsame : x = joined := inj_on_of_nodup_map plan.nodup
      (mem_of_getElem? hx) (mem_of_find?_eq_some hfind) hid
    subst hsame
    refine ⟨position, hposition, hidx, ?_⟩
    rw [joinTypeAt_of_joined hx]
    exact hread.1
  case h_2 =>
    rw [hwhere] at howned
    cases howned

/-- A term that belongs to no join reads no hidden table. -/
theorem not_hides_of_visible (hjoined : joined ∈ plan.joinedTables)
    (hwhere : term.origin.joinOrigin = none)
    (hvisible : (plan.ownedTerm term).origin.joinOrigin = none)
    (hread : joined.internalId ∈ term.expr.tables) : hidesTable joined.joinType = false := by
  unfold ownedTerm at hvisible
  rw [hwhere] at hvisible
  split at hvisible
  · cases hvisible
  · next hfind =>
      cases hno : plan.joinedTables.find? fun joined =>
          hidesTable joined.joinType && term.expr.tables.contains joined.internalId with
      | some found => exact absurd hno (hfind found rfl)
      | none =>
        have hjoined' := find?_eq_none.mp hno joined hjoined
        rw [contains_iff_mem.mpr hread, Bool.and_true] at hjoined'
        exact Bool.eq_false_iff.mpr hjoined'

/-- A term that belongs to a join is tested in its ON. -/
theorem place_of_owned (hplace : placeTerm plan.tables plan.joinTypes term = .ok place)
    (howned : (plan.ownedTerm term).origin.joinOrigin = some origin) :
    ∃ step, place = .on step ∧ plan.tables.idxOf? origin.rightTable = some step ∧ 0 < step := by
  cases horigin : term.origin.joinOrigin with
  | some origin' =>
    rw [ownedTerm_of_origin horigin, horigin] at howned
    cases howned
    rw [placeTerm, horigin] at hplace
    cases hidx : plan.tables.idxOf? origin.rightTable with
    | none =>
      simp only [hidx] at hplace
      cases hplace
    | some step =>
      simp only [hidx] at hplace
      split at hplace
      · cases hplace
      · next hcheck =>
          cases hplace
          exact ⟨step, rfl, rfl, pos_of_ne_zero fun hzero => hcheck (.inl hzero)⟩
  | none =>
    obtain ⟨positions, hpositions, hplace⟩ := placeTerm_of_where horigin hplace
    obtain ⟨pos, hpos, hidx, hhidden⟩ := exists_position_of_owned horigin howned hpositions
    rcases placeWhereTerm_ok hplace with ⟨rfl, -, hlast⟩ | ⟨hvisible, -⟩
    · obtain rfl := hlast pos hpos hhidden
      refine ⟨_, rfl, hidx, pos_of_ne_zero fun hzero => ?_⟩
      rw [hzero, joinTypeAt_zero] at hhidden
      cases hhidden
    · rw [hvisible pos hpos] at hhidden
      cases hhidden

/-- A term of the WHERE clause that outlives all tables it reads: after its place no join fills one of
them with NULLs. -/
structure PlacedAfter (plan : SelectPlan Sub) (term : WhereTerm) (place : Placement) : Prop where
  origin : term.origin.joinOrigin = none
  lt_length : place.step < plan.joinedTables.length
  inner : place = .on place.step →
    0 < place.step ∧ joinTypeAt plan.joinTypes place.step = .inner
  reads : ∀ table ∈ term.expr.tables, ∃ position ≤ place.step,
    plan.tables.idxOf? table = some position ∧
      ∀ later, place.step < later → later < plan.joinedTables.length →
        nullsFilledBy later position (joinTypeAt plan.joinTypes later) = false

section
variable (hnonempty : 0 < plan.joinedTables.length)
  (hplace : placeTerm plan.tables plan.joinTypes term = .ok place)
include hnonempty hplace

theorem place_of_visible (hvisible : (plan.ownedTerm term).origin.joinOrigin.isNone) :
    PlacedAfter plan term place := by
  have hnone := Option.isNone_iff_eq_none.mp hvisible
  have horigin : term.origin.joinOrigin = none := by
    cases horigin : term.origin.joinOrigin with
    | none => rfl
    | some origin =>
      rw [ownedTerm_of_origin horigin, horigin] at hnone
      cases hnone
  obtain ⟨positions, hpositions, hplace⟩ := placeTerm_of_where horigin hplace
  obtain ⟨hreads, htables⟩ := referencedBindingPositions_ok hpositions
  rcases placeWhereTerm_ok hplace with ⟨-, ⟨position, hposition, hhidden⟩, -⟩ | ⟨-, hstep, hinner⟩
  · obtain ⟨table, htable, hidx⟩ := htables position hposition
    obtain ⟨joined, hjoined, rfl⟩ := joined_of_idxOf? hidx
    rw [joinTypeAt_of_joined hjoined, not_hides_of_visible
      (mem_of_getElem? hjoined) horigin hnone htable] at hhidden
    cases hhidden
  · have hlast : lastPosition positions < plan.joinTypes.length := by
      refine lastPosition_lt (by rwa [length_joinTypes]) fun position hposition => ?_
      obtain ⟨table, -, hidx⟩ := htables position hposition
      exact idxOf?_lt hidx
    obtain ⟨hle, hlt, hlater⟩ := afterNullFilling_spec positions hlast
    rw [← hstep, length_joinTypes] at *
    refine ⟨horigin, hlt, hinner, fun table htable => ?_⟩
    obtain ⟨position, hposition, hidx⟩ := hreads table htable
    exact ⟨position, (le_lastPosition hposition).trans hle, hidx, fun later h1 h2 =>
      hlater later h1 h2 position hposition⟩

theorem place_ne_on_zero : place ≠ .on 0 := by
  rintro rfl
  cases horigin : (plan.ownedTerm term).origin.joinOrigin with
  | none =>
    have hafter := place_of_visible hnonempty hplace (by rw [horigin]; rfl)
    exact absurd (hafter.inner rfl).1 (lt_irrefl _)
  | some origin =>
    obtain ⟨step, hstep, -, hpos⟩ := place_of_owned hplace horigin
    cases hstep
    exact absurd hpos (lt_irrefl _)

end

end Place

/-! ## The chain with terms at their places -/

section Chain

variable {Value Sub : Type} (ev : Evaluator Value)

/-- All conditions are TRUE on a joined row. -/
def Evaluator.holdsOn (conditions : List Expr) (env : Env TableInternalId (TableRow Value)) : Bool :=
  conditions.all fun condition => ev.isTrue (ev.eval [] env condition)

variable (contents : Contents (TableRow Value)) (placed : List (WhereTerm × Placement))

/-- Join one more table, with the terms of its ON, and test the terms placed after it. -/
def placedStep (step : ℕ) (link : Link) (lefts : Multiset (Env TableInternalId (TableRow Value))) :
    Multiset (Env TableInternalId (TableRow Value)) :=
  (join link.table (contents link.table) (ev.holdsOn (conditionsAt placed (.on step))) lefts
    link.joinType.kind).filter fun env => ev.holdsOn (conditionsAt placed (.filter step)) env

/-- Each term has the place that the source gives it. -/
def SelectPlan.Places (plan : SelectPlan Sub) (placed : List (WhereTerm × Placement)) : Prop :=
  ∀ entry ∈ placed, placeTerm plan.tables plan.joinTypes entry.1 = .ok entry.2

/-- The joins from `step` on, with all terms at their places. -/
def placedRows : ℕ → List Link → Multiset (Env TableInternalId (TableRow Value)) →
    Multiset (Env TableInternalId (TableRow Value))
  | _, [], lefts => lefts
  | step, link :: rest, lefts =>
    placedRows (step + 1) rest (placedStep ev contents placed step link lefts)

variable (plan : SelectPlan Sub)

/-- The WHERE terms placed before a join are TRUE. -/
def BeforeHold (step : ℕ) (env : Env TableInternalId (TableRow Value)) : Prop :=
  ∀ entry ∈ placed, (plan.ownedTerm entry.1).origin.joinOrigin.isNone → entry.2.step < step →
    ev.isTrue (ev.eval [] env entry.1.expr)

instance (step : ℕ) : DecidablePred (BeforeHold ev placed plan step) := fun _ =>
  inferInstanceAs (Decidable (∀ entry ∈ placed, _ → _ → _))

/-- The terms of the query, each at the join that owns it. -/
def ownedTerms : List WhereTerm := placed.map fun entry => plan.ownedTerm entry.1

/-- The WHERE terms that are tested in the ON of a join. -/
def pushedTerms (step : ℕ) : List Expr :=
  conditionsAt (placed.filter fun entry => (plan.ownedTerm entry.1).origin.joinOrigin.isNone)
    (.on step)

variable {ev contents placed plan} {env : Env TableInternalId (TableRow Value)}
  {lefts : Multiset (Env TableInternalId (TableRow Value))}

theorem holdsOn_conditionsAt :
    ev.holdsOn (conditionsAt placed place) env = true ↔
      ∀ e ∈ placed, e.2 = place → ev.isTrue (ev.eval [] env e.1.expr) = true := by
  rw [Evaluator.holdsOn, all_eq_true, conditionsAt, forall_mem_map]
  refine forall_congr' fun e => ?_
  rw [mem_filter, decide_eq_true_iff, and_imp]

variable {terms : List WhereTerm}

theorem holds_filter {select : WhereTerm → Bool} :
    holds ev.truth (terms.filter select) env = true ↔
      ∀ term ∈ terms, select term = true → ev.isTrue (ev.eval [] env term.expr) = true := by
  simp only [holds, all_eq_true, mem_filter, and_imp, Evaluator.truth,
    beq_iff_eq, Option.some.injEq]

theorem holds_onTerms : holds ev.truth (onTerms (ownedTerms placed plan) table) env = true ↔
      ∀ e ∈ placed, (plan.ownedTerm e.1).origin.joinOrigin.map JoinOrigin.rightTable = some table →
          ev.isTrue (ev.eval [] env e.1.expr) = true := by
  rw [onTerms, holds_filter, ownedTerms, forall_mem_map]
  simp only [decide_eq_true_iff, ownedTerm_expr]

theorem holds_whereTerms :
    holds ev.truth (whereTerms (ownedTerms placed plan)) env = true ↔
      ∀ e ∈ placed, (plan.ownedTerm e.1).origin.joinOrigin.isNone →
        ev.isTrue (ev.eval [] env e.1.expr) = true := by
  rw [whereTerms, holds_filter, ownedTerms, forall_mem_map]
  simp only [ownedTerm_expr]

theorem eval_of_tables_nil {expr : Expr} (htables : expr.tables = [])
    (env env' : Env TableInternalId (TableRow Value)) : ev.eval [] env expr = ev.eval [] env' expr := by
  refine ev.eval_congr env env' expr fun t hm => ?_
  rw [htables] at hm
  cases hm

/-- The WHERE terms that read no table are TRUE. -/
def TableFreeTrue (ev : Evaluator Value) (terms : List WhereTerm) : Prop :=
  ∀ term ∈ terms, term.origin.joinOrigin = none → term.expr.tables = [] →
    ev.isTrue (ev.eval [] Env.empty term.expr) = true

section Step

variable (hnonempty : 0 < plan.joinedTables.length)
  (hplaced : plan.Places placed)
  {step : ℕ} {joined : JoinedTable Sub} (hjoined : plan.joinedTables[step]? = some joined)
include hnonempty hplaced hjoined

/-- The terms before a join do not look at its table. -/
theorem ignores_beforeHold : Ignores (BeforeHold ev placed plan step) joined.internalId := by
  refine fun env row => forall₂_congr fun e he => forall₂_congr fun hvisible hstep => ?_
  have hafter := place_of_visible hnonempty (hplaced e he) hvisible
  rw [ev.eval_congr (env.add joined.internalId row) env e.1.expr fun t hreads => ?_]
  refine Env.add_of_ne row fun hsame => ?_
  obtain ⟨position, hle, hidx, -⟩ := hafter.reads t hreads
  rw [hsame, idxOf?_of_joined hjoined] at hidx
  have := Option.some.inj hidx
  omega

/-- Before a join that keeps its right rows, only terms without a table are tested. -/
theorem beforeHold_of_keeps (hfree : TableFreeTrue ev (placed.map Prod.fst))
    (hkeeps : joined.joinType = .rightOuter ∨ joined.joinType = .fullOuter) :
    BeforeHold ev placed plan step env := by
  intro e he hvisible hstep
  have hafter := place_of_visible hnonempty (hplaced e he) hvisible
  have hno : e.1.expr.tables = [] := by
    refine eq_nil_iff_forall_not_mem.mpr fun t ht => ?_
    obtain ⟨pos, hle, -, hlater⟩ := hafter.reads t ht
    have hfills := hlater step hstep (List.getElem?_eq_some_iff.mp hjoined).1
    rw [joinTypeAt_of_joined hjoined] at hfills
    rcases hkeeps with h | h
    · rw [h] at hfills
      exact absurd (lt_of_le_of_lt hle hstep) (of_decide_eq_false hfills)
    · rw [h] at hfills
      exact absurd (hle.trans hstep.le) (of_decide_eq_false hfills)
  rw [eval_of_tables_nil hno env Env.empty]
  exact hfree e.1 (mem_map_of_mem he) hafter.origin hno

omit hnonempty in
/-- The ON of a join: the terms it owns and the WHERE terms tested in it. -/
theorem holdsOn_on : ev.holdsOn (conditionsAt placed (.on step)) = fun env =>
    holds ev.truth (onTerms (ownedTerms placed plan) joined.internalId) env &&
      ev.holdsOn (pushedTerms placed plan step) env := by
  funext env
  rw [Bool.eq_iff_iff, Bool.and_eq_true, holdsOn_conditionsAt, holds_onTerms, pushedTerms,
    holdsOn_conditionsAt]
  refine ⟨fun h => ⟨fun e hentry howner => ?_, fun e hentry => ?_⟩, fun h e hentry hon => ?_⟩
  · obtain ⟨origin, horigin, ht⟩ := Option.map_eq_some_iff.mp howner
    obtain ⟨found, hplace, hidx, -⟩ := place_of_owned (hplaced e hentry) horigin
    rw [ht, idxOf?_of_joined hjoined] at hidx
    cases hidx
    exact h e hentry hplace
  · exact h e (mem_of_mem_filter hentry)
  · cases horigin : (plan.ownedTerm e.1).origin.joinOrigin with
    | none => exact h.2 e (mem_filter.mpr ⟨hentry, by rw [horigin]; rfl⟩) hon
    | some origin =>
      obtain ⟨found, hplace, hidx, -⟩ := place_of_owned (hplaced e hentry) horigin
      obtain ⟨x, hx, hid⟩ := joined_of_idxOf? hidx
      rw [hon] at hplace
      cases hplace
      rw [hjoined] at hx
      cases hx
      exact h.1 e hentry (by rw [horigin, hid]; rfl)

/-- WHERE terms are tested in the ON of an inner join only. -/
theorem holdsOn_pushedTerms (hinner : joined.joinType ≠ .inner) :
    ev.holdsOn (pushedTerms placed plan step) env = true := by
  rw [pushedTerms, holdsOn_conditionsAt]
  intro e he hon
  obtain ⟨hm, hvisible⟩ := mem_filter.mp he
  have hafter := place_of_visible hnonempty (hplaced e hm) hvisible
  have htype := (hafter.inner (by rw [hon]; rfl)).2
  rw [hon] at htype
  exact absurd ((joinTypeAt_of_joined hjoined).symm.trans htype) hinner

omit hnonempty hjoined in
theorem beforeHold_succ : BeforeHold ev placed plan (step + 1) env ↔
      (ev.holdsOn (conditionsAt placed (.filter step)) env = true ∧
        ev.holdsOn (pushedTerms placed plan step) env = true) ∧ BeforeHold ev placed plan step env := by
  rw [pushedTerms, holdsOn_conditionsAt, holdsOn_conditionsAt]
  refine ⟨fun h => ⟨⟨fun e he hfilter => ?_, fun e he hon => ?_⟩,
    fun e he hvisible hstep => h e he hvisible (Nat.lt_succ_of_lt hstep)⟩,
    fun h e he hvisible hstep => ?_⟩
  · cases horigin : (plan.ownedTerm e.1).origin.joinOrigin with
    | none => exact h e he (by rw [horigin]; rfl) (by rw [hfilter]; exact Nat.lt_succ_self _)
    | some origin =>
      obtain ⟨found, hplace, -⟩ := place_of_owned (hplaced e he) horigin
      rw [hfilter] at hplace
      cases hplace
  · obtain ⟨hm, hvisible⟩ := mem_filter.mp he
    exact h e hm hvisible (by rw [hon]; exact Nat.lt_succ_self _)
  · rcases Nat.lt_succ_iff_lt_or_eq.mp hstep with hlt | heq
    · exact h.2 e he hvisible hlt
    · cases hplace : e.2 with
      | on found =>
        rw [hplace] at heq
        cases heq
        exact h.1.2 e (mem_filter.mpr ⟨he, hvisible⟩) hplace
      | filter found =>
        rw [hplace] at heq
        cases heq
        exact h.1.1 e he hplace

omit hnonempty hplaced hjoined in
theorem keepsRight_of_kind {joinType : JoinType}
    (hkind : joinType.kind = .right ∨ joinType.kind = .full) :
    joinType = .rightOuter ∨ joinType = .fullOuter := by
  cases joinType <;> simp_all [JoinType.kind]

/-- One join: testing the terms at their places up to it is the same as testing them after it. -/
theorem placedStep_filter (hfree : TableFreeTrue ev (placed.map Prod.fst)) :
    placedStep ev contents placed step joined.link (lefts.filter (BeforeHold ev placed plan step)) =
      (joinLink ev.truth contents (ownedTerms placed plan) lefts joined.link).filter
        (BeforeHold ev placed plan (step + 1)) := by
  have hignores : Ignores (BeforeHold ev placed plan step) joined.internalId :=
    ignores_beforeHold hnonempty hplaced hjoined
  have hjoin : join joined.link.table (contents joined.link.table)
      (ev.holdsOn (conditionsAt placed (.on step))) (lefts.filter (BeforeHold ev placed plan step))
      joined.link.joinType.kind =
        ((joinLink ev.truth contents (ownedTerms placed plan) lefts joined.link).filter
          (BeforeHold ev placed plan step)).filter
            fun env => ev.holdsOn (pushedTerms placed plan step) env := by
    rw [holdsOn_on hplaced hjoined, joinLink]
    by_cases hinner : joined.joinType = .inner
    · have hkind : joined.link.joinType.kind = .inner := congrArg JoinType.kind hinner
      rw [hkind]
      exact (matched_and _).trans (congrArg _ (matched_filter hignores).symm)
    · have hpushed : ∀ env, ev.holdsOn (pushedTerms placed plan step) env = true := fun _ =>
        holdsOn_pushedTerms hnonempty hplaced hjoined hinner
      simp only [hpushed, Bool.and_true, Multiset.filter_true]
      exact join_filter hignores fun hkind _ =>
        beforeHold_of_keeps hnonempty hplaced hjoined hfree (keepsRight_of_kind hkind)
  rw [placedStep, hjoin, Multiset.filter_filter, Multiset.filter_filter]
  refine Multiset.filter_congr fun env _ => ?_
  rw [beforeHold_succ hplaced]

end Step

section
variable (hnonempty : 0 < plan.joinedTables.length)
  (hplaced : plan.Places placed)
  (hfree : TableFreeTrue ev (placed.map Prod.fst))
include hnonempty hplaced hfree

/-- A whole chain, from any join on. -/
theorem placedRows_filter (rest : List (JoinedTable Sub)) :
    ∀ step, plan.joinedTables.drop step = rest → step ≤ plan.joinedTables.length →
      ∀ lefts : Multiset (Env TableInternalId (TableRow Value)),
        placedRows ev contents placed step (rest.map link)
            (lefts.filter (BeforeHold ev placed plan step)) =
          (joinChain ev.truth contents (ownedTerms placed plan)
            (rest.map link) lefts).filter
              (BeforeHold ev placed plan plan.joinedTables.length) := by
  induction rest with
  | nil =>
    intro step hrest hstep lefts
    rw [← le_antisymm hstep (drop_eq_nil_iff.mp hrest)]
    rfl
  | cons joined rest ih =>
    intro step hrest hstep lefts
    have hjoined : plan.joinedTables[step]? = some joined := by
      rw [← head?_drop, hrest]
      rfl
    have hlt := (List.getElem?_eq_some_iff.mp hjoined).1
    have hnx : plan.joinedTables.drop (step + 1) = rest := by
      rw [← tail_drop, hrest]
      rfl
    rw [map_cons, placedRows, placedStep_filter hnonempty hplaced hjoined hfree,
      ih (step + 1) hnx hlt]
    rfl

/-- The terms at their places give the rows of the query. -/
theorem placedRows_eq_joinedRows :
    placedRows ev contents placed 0 (plan.joinedTables.map link) {Env.empty} =
      plan.joinedRows ev (placed.map Prod.fst) contents := by
  have hstart : ({Env.empty} : Multiset (Env TableInternalId (TableRow Value))) =
      Multiset.filter (BeforeHold ev placed plan 0) {Env.empty} :=
    (Multiset.filter_eq_self.mpr fun env _ e _ _ hstep => absurd hstep (not_lt_zero _)).symm
  rw [hstart, placedRows_filter hnonempty hplaced hfree plan.joinedTables 0 rfl (zero_le _),
    joinedRows, map_map]
  refine Multiset.filter_congr fun env _ => ?_
  refine Iff.trans ?_ holds_whereTerms.symm
  refine forall₂_congr fun e he => forall_congr' fun hvisible => ?_
  have hafter := place_of_visible hnonempty (hplaced e he) hvisible
  exact ⟨fun h => h hafter.lt_length, fun h _ => h⟩

end

/-! ## Terms that read no table -/

/-- The term stands in the WHERE clause and reads no table. -/
def isTableFree (term : WhereTerm) : Bool :=
  term.origin.joinOrigin.isNone && term.expr.tables.isEmpty

variable {term : WhereTerm}

theorem isTableFree_iff :
    isTableFree term = true ↔ term.origin.joinOrigin = none ∧ term.expr.tables = [] := by
  rw [isTableFree, Bool.and_eq_true, Option.isNone_iff_eq_none, List.isEmpty_iff]

/-- A term that reads no table is tested on the rows of the first table. -/
theorem place_of_tableFree (hfree : isTableFree term = true)
    (hplace : placeTerm plan.tables plan.joinTypes term = .ok place) : place = .filter 0 := by
  obtain ⟨horigin, htables⟩ := isTableFree_iff.mp hfree
  have hstep : afterNullFilling plan.joinTypes [] 0 = 0 := by
    exact foldl_fixed' (fun later => rfl) _
  obtain ⟨positions, hpositions, hplace⟩ := placeTerm_of_where horigin hplace
  rw [referencedBindingPositions, htables, mapM_nil] at hpositions
  cases hpositions
  simp only [placeWhereTerm, any_nil, Bool.false_eq_true, if_false, lastPosition,
    foldr_nil, hstep, lt_irrefl, false_and] at hplace
  exact (Except.ok.inj hplace).symm

/-- The terms that read a table, or belong to a join. -/
def readingTerms (terms : List WhereTerm) : List WhereTerm :=
  terms.filter fun term => !isTableFree term

theorem tableFreeTrue_readingTerms (terms : List WhereTerm) :
    TableFreeTrue ev (readingTerms terms) := by
  intro term hterm horigin htables
  have hnot := (mem_filter.mp hterm).2
  rw [isTableFree_iff.mpr ⟨horigin, htables⟩] at hnot
  cases hnot

/-- The placed terms that read a table, or belong to a join. -/
def readingPlaced (placed : List (WhereTerm × Placement)) : List (WhereTerm × Placement) :=
  placed.filter fun entry => !isTableFree entry.1

theorem map_fst_readingPlaced :
    (readingPlaced placed).map Prod.fst = readingTerms (placed.map Prod.fst) := by
  rw [readingTerms, filter_map]
  rfl

section
variable (hplaced : plan.Places placed)
include hplaced

theorem conditionsAt_readingPlaced (hplace : place ≠ .filter 0) :
    conditionsAt (readingPlaced placed) place = conditionsAt placed place := by
  rw [conditionsAt, readingPlaced, filter_filter]
  congr 1
  refine filter_congr fun e he => ?_
  cases hfree : isTableFree e.1 with
  | false => simp
  | true =>
    have hzero := place_of_tableFree hfree (hplaced e he)
    rw [hzero]
    simpa using Ne.symm hplace

/-- Behind the first table, the terms that read no table play no part. -/
theorem placedRows_readingPlaced {c' : Contents (TableRow Value)}
    (links : List Link) (hc : ∀ link ∈ links, c' link.table = contents link.table) :
    ∀ step, 0 < step → ∀ lefts : Multiset (Env TableInternalId (TableRow Value)),
      placedRows ev c' (readingPlaced placed) step links lefts =
        placedRows ev contents placed step links lefts := by
  induction links with
  | nil => exact fun _ _ _ => rfl
  | cons link rest ih =>
    intro step hstep lefts
    have hfilter : Placement.filter step ≠ .filter 0 := fun h => by
      cases h
      exact absurd hstep (lt_irrefl _)
    have hon : Placement.on step ≠ .filter 0 := Placement.noConfusion
    rw [placedRows, placedRows, placedStep, hc link mem_cons_self,
      conditionsAt_readingPlaced hplaced hon, conditionsAt_readingPlaced hplaced hfilter]
    exact ih (fun x hx => hc x (mem_cons_of_mem _ hx)) (step + 1) (succ_pos _) _

/-- No row of the first table passes a term that reads no table and is not TRUE. -/
theorem placedStep_zero_of_not_free (hfree : ¬TableFreeTrue ev (placed.map Prod.fst)) (link : Link) :
    placedStep ev contents placed 0 link lefts = 0 := by
  refine Multiset.filter_eq_nil.mpr fun env _ hholds => hfree ?_
  rw [holdsOn_conditionsAt] at hholds
  intro term hterm horigin htables
  obtain ⟨e, he, rfl⟩ := mem_map.mp hterm
  rw [eval_of_tables_nil htables Env.empty env]
  exact hholds e he (place_of_tableFree (isTableFree_iff.mpr ⟨horigin, htables⟩) (hplaced e he))

end

/-- If a term that reads no table is not TRUE, the chain yields what it would yield without such terms
and without rows of its first table. -/
theorem placedRows_of_not_free {a : JoinedTable Sub} {rest : List (JoinedTable Sub)}
    (htables : plan.joinedTables = a :: rest)
    (hplaced : plan.Places placed)
    (hfree : ¬TableFreeTrue ev (placed.map Prod.fst)) :
    placedRows ev contents placed 0 (plan.joinedTables.map link) {Env.empty} =
      plan.joinedRows ev (readingTerms (placed.map Prod.fst))
        (Function.update contents a.internalId 0) := by
  have hnonempty : 0 < plan.joinedTables.length := by
    rw [htables]
    exact succ_pos _
  have hreading : plan.Places (readingPlaced placed) := fun e he => hplaced e (mem_of_mem_filter he)
  have hc : ∀ link ∈ rest.map JoinedTable.link,
      Function.update contents a.internalId 0 link.table = contents link.table := by
    intro link hlink
    obtain ⟨joined, hjoined, rfl⟩ := mem_map.mp hlink
    refine Function.update_of_ne (fun hsame => ?_) _ _
    have hnodup := plan.nodup
    rw [htables, map_cons, nodup_cons] at hnodup
    exact hnodup.1 (mem_map.mpr ⟨joined, hjoined, hsame⟩)
  have hempty : placedStep ev (Function.update contents a.internalId 0) (readingPlaced placed) 0
      a.link {Env.empty} = 0 := by
    have htype : a.link.joinType.kind = .inner := by
      rw [link, joinType, plan.first a (by rw [htables]; rfl)]
      rfl
    have hrows : Function.update contents a.internalId 0 a.link.table = 0 :=
      Function.update_self _ _ _
    rw [placedStep, htype, hrows]
    simp [join, matched, partners]
  rw [← map_fst_readingPlaced, ← placedRows_eq_joinedRows hnonempty hreading
    (by rw [map_fst_readingPlaced]; exact tableFreeTrue_readingTerms _), htables, map_cons,
    placedRows, placedRows, placedStep_zero_of_not_free hplaced hfree, hempty,
    placedRows_readingPlaced hplaced _ hc 1 (succ_pos _)]

/-- A term that reads no table and is not TRUE leaves no row. -/
theorem joinedRows_of_not_free (hfree : ¬TableFreeTrue ev terms) :
    plan.joinedRows ev terms contents = 0 := by
  refine Multiset.filter_eq_nil.mpr fun env _ hholds => hfree fun term hterm horigin htables => ?_
  have hown : plan.ownedTerm term = term := by
    unfold ownedTerm
    split
    · next joined _ hfind =>
        have hread := find?_some hfind
        rw [htables] at hread
        simp at hread
    · rfl
  rw [whereTerms, holds_filter] at hholds
  have htrue := hholds (plan.ownedTerm term) (mem_map_of_mem hterm) (by rw [hown, horigin]; rfl)
  rw [hown] at htrue
  rw [eval_of_tables_nil htables Env.empty env]
  exact htrue

end Chain

end Turso.Incremental
