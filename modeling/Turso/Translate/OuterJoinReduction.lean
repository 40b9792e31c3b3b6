import Turso.Translate.WhereTerm

/-!
# Outer joins that need not be outer

The first loop of `find_table_access_plan` (`core/translate/optimizer/mod.rs`).  A WHERE term that is
never TRUE where a table is filled with NULLs makes the rows superfluous that an outer join
fills in for it: the loop turns LEFT into INNER and FULL into RIGHT at the table itself, and RIGHT
into INNER and FULL into LEFT at all later tables.

The proof rests on `withTable_joinChain`: as far as rows with the table are concerned, the later joins
may drop their unmatched right rows.
-/

namespace Turso.Translate

open List WhereTerm WhereTermOrigin
open Multiset (filter_add mem_bind mem_map)

open Joins (Env)

variable {term : WhereTerm} {terms' : List WhereTerm} {i position : ℕ} {joinType : JoinType}
  {id : TableInternalId}

/-! ## The loop -/

/-- `JoinedTable`, as far as the loop reads it.  The first table has no join. -/
structure JoinedTable where
  internalId : TableInternalId
  joinInfo : Option JoinType
  isVirtual : Bool
  deriving DecidableEq, Repr

/-- How the table is joined to those before it. -/
def JoinedTable.link (table : JoinedTable) : Link :=
  ⟨table.internalId, table.joinInfo.getD .inner⟩

/-- The tables and the terms of a query. -/
structure FromClause where
  tables : List JoinedTable
  whereClause : List WhereTerm

section
variable (isVirtual : TableInternalId → Bool) (tableId : TableInternalId)

/-- `where_term_rejects_null_row`. -/
def whereTermRejectsNullRow : Expr → Bool
  | .column table _ | .rowId table => table == tableId
  | .binary _ .is _ | .binary _ .isNot _ | .opaqueExpr _ _ => false
  | .binary lhs .and rhs | .binary lhs .or rhs =>
    whereTermRejectsNullRow lhs && whereTermRejectsNullRow rhs
  | .binary lhs (.compute _) rhs => whereTermRejectsNullRow lhs || whereTermRejectsNullRow rhs
  | .binary lhs _ rhs =>
    -- A virtual table may take a comparison with NULL for a constraint of its own.
    if isDirectVirtualColumn lhs || isDirectVirtualColumn rhs then false
    else whereTermRejectsNullRow lhs || whereTermRejectsNullRow rhs
  | .inList lhs _ rhs => !rhs.isEmpty && whereTermRejectsNullRow lhs
  | .between lhs _ start finish =>
    whereTermRejectsNullRow lhs ||
      (whereTermRejectsNullRow start && whereTermRejectsNullRow finish)
  | .unary _ inner | .cast inner _ | .collate inner _ => whereTermRejectsNullRow inner
  | .parenthesized [expr] => whereTermRejectsNullRow expr
  | .parenthesized _ => false
where
  isDirectVirtualColumn : Expr → Bool
    | .column table _ => isVirtual table
    | _ => false

end

/-- The origin of a term whose join has become an inner join. -/
def WhereTermOrigin.toInner (tableId : TableInternalId) : WhereTermOrigin → WhereTermOrigin
  | .join (.outer table) => if table = tableId then .join (.inner table) else .join (.outer table)
  | .tableFunction (.outer table) =>
    if table = tableId then .tableFunction (.inner table) else .tableFunction (.outer table)
  | origin => origin

/-- `change_join_origin_to_inner`. -/
def changeJoinOriginToInner (terms : List WhereTerm) (tableId : TableInternalId) :
    List WhereTerm :=
  terms.map fun term => { term with origin := term.origin.toInner tableId }

def anyRightOrFullJoin (tables : List JoinedTable) : Bool :=
  tables.any fun table => table.joinInfo.any JoinType.keepsRightRows

namespace FromClause

variable (plan : FromClause)

/-- `is_left_of_right_or_full_join`. -/
def isLeftOfRightOrFullJoin (tableId : TableInternalId) : Bool :=
  match plan.tables.findIdx? (·.internalId == tableId) with
  | none => false
  | some position => anyRightOrFullJoin (plan.tables.drop (position + 1))

def isVirtual (tableId : TableInternalId) : Bool :=
  (plan.tables.find? (·.internalId == tableId)).any (·.isVirtual)

def rejectsNullRow (tableId : TableInternalId) (term : WhereTerm) : Bool :=
  whereTermRejectsNullRow plan.isVirtual tableId term.expr

/-- `right_side_must_exist`. -/
def rightSideMustExist (table : JoinedTable) : Bool :=
  (table.joinInfo == some .leftOuter || table.joinInfo == some .fullOuter) &&
    plan.whereClause.any fun term =>
      (if plan.isLeftOfRightOrFullJoin table.internalId then term.origin.joinOrigin.isNone
        else !term.origin.isOuterJoin) &&
      plan.rejectsNullRow table.internalId term

/-- `left_side_must_exist`. -/
def leftSideMustExist (table : JoinedTable) : Bool :=
  plan.whereClause.any fun term =>
    term.origin.joinOrigin.isNone && plan.rejectsNullRow table.internalId term

variable (index : ℕ)

/-- Change the join type of the table at `index`, and the tags of its ON terms if the join becomes an
inner join. -/
def replaceJoin (table : JoinedTable) (joinType : JoinType) : FromClause where
  tables := plan.tables.set index { table with joinInfo := some joinType }
  whereClause :=
    if joinType = .inner then changeJoinOriginToInner plan.whereClause table.internalId
    else plan.whereClause

/-- The join of the table at `index` no longer keeps unmatched left rows. -/
def dropLeftRows (table : JoinedTable) : FromClause :=
  match table.joinInfo with
  | some .leftOuter => plan.replaceJoin index table .inner
  | some .fullOuter => plan.replaceJoin index table .rightOuter
  | _ => plan

/-- The join of the table at `index` no longer keeps unmatched right rows. -/
def dropRightRowsAt : FromClause :=
  match plan.tables[index]? with
  | none => plan
  | some table =>
    match table.joinInfo with
    | some .rightOuter => plan.replaceJoin index table .inner
    | some .fullOuter => plan.replaceJoin index table .leftOuter
    | _ => plan

/-- The joins after `index` no longer keep unmatched right rows. -/
def dropRightRows : FromClause :=
  (range' (index + 1) (plan.tables.length - (index + 1))).foldl dropRightRowsAt plan

/-- One turn of the loop. -/
def reduceAt : FromClause :=
  match plan.tables[index]? with
  | none => plan
  | some table =>
    let reduced := if plan.rightSideMustExist table then plan.dropLeftRows index table else plan
    if plan.isLeftOfRightOrFullJoin table.internalId && reduced.leftSideMustExist table then
      reduced.dropRightRows index
    else
      reduced

/-- The loop. -/
def reduceOuterJoins : FromClause :=
  (range plan.tables.length).foldl reduceAt plan

/-- The tables as a chain of joins. -/
def chain : List Link :=
  plan.tables.map JoinedTable.link

/-- The rows of the query. -/
def rows {Row : Type} (truth : Truth Row) (contents : Contents Row) :
    Multiset (Env TableInternalId Row) :=
  queryRows truth contents plan.whereClause plan.chain

end FromClause

/-! ## Rows without the table do not matter -/

/-- The join type that does not keep unmatched right rows. -/
def JoinType.withoutRightRows : JoinType → JoinType
  | .rightOuter => .inner
  | .fullOuter => .leftOuter
  | other => other

section Chain

variable {Row : Type} {truth : Truth Row} {c : Contents Row} {terms : List WhereTerm}
  {table : TableInternalId} {lefts lefts' : Multiset (Env TableInternalId Row)}

def Link.withoutRightRows (link : Link) : Link :=
  { link with joinType := link.joinType.withoutRightRows }

theorem JoinType.kind_withoutRightRows (joinType : JoinType) :
    joinType.withoutRightRows.kind = joinType.kind.dropRight := by
  cases joinType <;> rfl

/-- The rows that have a row of the table. -/
def withTable (table : TableInternalId) (rows : Multiset (Env TableInternalId Row)) :
    Multiset (Env TableInternalId Row) :=
  rows.filter fun env => (env table).isSome

theorem ignores_isSome {other : TableInternalId} (hne : table ≠ other) :
    Joins.Ignores (fun env : Env TableInternalId Row => (env table).isSome = true) other := by
  intro env r
  show (env.add other r table).isSome = true ↔ (env table).isSome = true
  rw [Env.add_of_ne r hne]

theorem withTable_joinLink {link : Link} (hne : table ≠ link.table) :
    withTable table (joinLink truth c terms lefts link) =
      joinLink truth c terms (withTable table lefts) link.withoutRightRows := by
  rw [withTable, joinLink, Joins.filter_join (ignores_isSome hne) (by simp [Env.empty]),
    ← JoinType.kind_withoutRightRows]
  rfl

variable {chain : List Link}

/-- As far as rows with the table are concerned, later joins need not keep unmatched right rows. -/
theorem withTable_joinChain (hch : ∀ link ∈ chain, table ≠ link.table) :
    withTable table (joinChain truth c terms chain lefts) =
      joinChain truth c terms (chain.map Link.withoutRightRows) (withTable table lefts) := by
  induction chain generalizing lefts with
  | nil => rfl
  | cons link chain ih =>
    rw [forall_mem_cons] at hch
    rw [joinChain, foldl_cons, map_cons, joinChain, foldl_cons, ← withTable_joinLink hch.1]
    exact ih hch.2

theorem joinChain_append (a b : List Link) : joinChain truth c terms (a ++ b) lefts =
      joinChain truth c terms b (joinChain truth c terms a lefts) :=
  foldl_append

variable {env : Env TableInternalId Row}

/-- No joined row has a row of a table that is not joined. -/
theorem eq_none_of_mem_joinChain (hch : ∀ link ∈ chain, table ≠ link.table)
    (hlefts : ∀ env ∈ lefts, env table = none)
    (henv : env ∈ joinChain truth c terms chain lefts) : env table = none := by
  induction chain generalizing lefts with
  | nil => exact hlefts env henv
  | cons link chain ih =>
    rw [forall_mem_cons] at hch
    refine ih hch.2 ?_ henv
    intro joined hjoined
    rcases Joins.mem_join hjoined with h | h | h
    · obtain ⟨left, hleft, hpartner⟩ := mem_bind.mp h
      obtain ⟨r, -, rfl⟩ := mem_map.mp (Multiset.mem_of_mem_filter hpartner)
      rw [Env.add_of_ne r hch.1]
      exact hlefts left hleft
    · exact hlefts joined h
    · obtain ⟨r, -, rfl⟩ := mem_map.mp h
      rw [Env.add_of_ne r hch.1]
      rfl

/-- The rows of the query that come from the given rows. -/
def finalRows (truth : Truth Row) (contents : Contents Row) (terms : List WhereTerm)
    (chain : List Link) (lefts : Multiset (Env TableInternalId Row)) :
    Multiset (Env TableInternalId Row) :=
  (joinChain truth contents terms chain lefts).filter fun env => holds truth (whereTerms terms) env

theorem finalRows_append (a b : List Link) (link : Link) :
    finalRows truth c terms (a ++ link :: b) lefts =
      finalRows truth c terms b (joinLink truth c terms (joinChain truth c terms a lefts) link) := by
  rw [finalRows, joinChain_append]
  rfl

/-- The term is never TRUE on a row without the table. -/
def Rejects (truth : Truth Row) (table : TableInternalId) (term : WhereTerm) : Prop :=
  ∀ env : Env TableInternalId Row, env table = none → truth term.expr env ≠ some true

theorem Rejects.isSome (hrejects : Rejects truth table term) {selected : List WhereTerm}
    (hm : term ∈ selected)
    (hholds : holds truth selected env = true) : (env table).isSome = true := by
  have htrue : truth term.expr env = some true := by
    simpa using all_eq_true.mp hholds term hm
  cases henv : env table with
  | none => exact absurd htrue (hrejects env henv)
  | some r => rfl

/-- Only rows with the table survive the WHERE clause. -/
theorem finalRows_of_where (hrejects : Rejects truth table term) (hm : term ∈ whereTerms terms)
    (hch : ∀ link ∈ chain, table ≠ link.table) :
    finalRows truth c terms chain lefts =
      finalRows truth c terms (chain.map Link.withoutRightRows) (withTable table lefts) := by
  rw [finalRows, finalRows, ← withTable_joinChain hch, withTable, Multiset.filter_filter]
  refine Multiset.filter_congr fun env _ => ?_
  exact ⟨fun h => ⟨h, hrejects.isSome hm h⟩, fun h => h.1⟩

/-- Only rows with the table survive an inner join. -/
theorem joinLink_inner_of_on (hrejects : Rejects truth table term) {link : Link}
    (hinner : link.joinType = .inner) (hm : term ∈ onTerms terms link.table)
    (hne : table ≠ link.table) :
    joinLink truth c terms lefts link = joinLink truth c terms (withTable table lefts) link := by
  have hdrop : link.withoutRightRows = link := by
    obtain ⟨x, joinType⟩ := link
    subst hinner
    rfl
  have hall : withTable table (joinLink truth c terms lefts link) =
      joinLink truth c terms lefts link := by
    refine Multiset.filter_eq_self.mpr fun env henv => ?_
    rw [joinLink, hinner] at henv
    obtain ⟨left, -, hpartner⟩ := mem_bind.mp henv
    exact hrejects.isSome hm (Multiset.mem_filter.mp hpartner).2
  rw [← hall, withTable_joinLink hne, hdrop]

end Chain

/-! ## The terms keep their place -/

/-- The table whose join a term belongs to. -/
def WhereTerm.joinTable (term : WhereTerm) : Option TableInternalId :=
  term.origin.joinOrigin.map JoinOrigin.rightTable

/-- The terms are the same up to the tag of their joins. -/
def SameTerms (terms terms' : List WhereTerm) : Prop :=
  terms'.map (fun term => (term.expr, term.joinTable)) =
    terms.map fun term => (term.expr, term.joinTable)

theorem joinTable_toInner (tableId : TableInternalId) (term : WhereTerm) :
    joinTable { term with origin := term.origin.toInner tableId } = term.joinTable := by
  obtain ⟨expr, origin⟩ := term
  match origin with
  | .whereClause | .join (.inner _) | .tableFunction (.inner _) => rfl
  | .join (.outer t) | .tableFunction (.outer t) =>
    simp only [joinTable, toInner]
    split_ifs <;> rfl

theorem sameTerms_changeJoinOriginToInner (terms : List WhereTerm) (tableId : TableInternalId) :
    SameTerms terms (changeJoinOriginToInner terms tableId) := by
  rw [SameTerms, changeJoinOriginToInner, map_map]
  refine map_congr_left fun term _ => ?_
  exact Prod.ext rfl (joinTable_toInner tableId term)

variable {Row : Type} {truth : Truth Row} {contents : Contents Row}

theorem holds_filter_joinTable (truth : Truth Row) (terms : List WhereTerm)
    (t : Option TableInternalId) (env : Env TableInternalId Row) :
    holds truth (terms.filter fun term => term.joinTable = t) env =
      (terms.map fun term => (term.expr, term.joinTable)).all fun (expr, joinTable) =>
        !decide (joinTable = t) || truth expr env == some true := by
  rw [holds, all_filter, all_map]
  rfl

variable {terms : List WhereTerm}

theorem SameTerms.holds_onTerms (h : SameTerms terms terms')
    (t : TableInternalId) :
    holds truth (onTerms terms' t) = holds truth (onTerms terms t) := by
  funext env
  refine (holds_filter_joinTable truth terms' (some t) env).trans ?_
  rw [h]
  exact (holds_filter_joinTable truth terms (some t) env).symm

theorem whereTerms_eq_filter (terms : List WhereTerm) :
    whereTerms terms = terms.filter fun term => term.joinTable = none := by
  refine filter_congr fun term _ => ?_
  rw [joinTable]
  cases term.origin.joinOrigin <;> rfl

theorem SameTerms.queryRows_eq (h : SameTerms terms terms')
    (chain : List Link) :
    queryRows truth contents terms' chain = queryRows truth contents terms chain := by
  have hlink : joinLink truth contents terms' = joinLink truth contents terms := by
    funext lefts link
    rw [joinLink, joinLink, h.holds_onTerms]
  have hwhere : holds truth (whereTerms terms') = holds truth (whereTerms terms) := by
    funext env
    rw [whereTerms_eq_filter, whereTerms_eq_filter, holds_filter_joinTable, h,
      holds_filter_joinTable]
  rw [queryRows, queryRows, joinChain, joinChain, hlink, hwhere]

theorem SameTerms.exists_whereTerm (h : SameTerms terms terms')
    (hterm : term ∈ whereTerms terms) : ∃ term' ∈ whereTerms terms', term'.expr = term.expr := by
  rw [whereTerms_eq_filter, mem_filter] at hterm
  have hm : (term.expr, term.joinTable) ∈ terms'.map fun term => (term.expr, term.joinTable) := by
    rw [h]
    exact mem_map_of_mem hterm.1
  obtain ⟨term', hterm', heq⟩ := mem_map.mp hm
  obtain ⟨hexpr, ht⟩ : term'.expr = term.expr ∧ term'.joinTable = term.joinTable := by
    simpa using heq
  refine ⟨term', ?_, hexpr⟩
  rw [whereTerms_eq_filter, mem_filter]
  exact ⟨hterm', by rw [ht]; exact hterm.2⟩

/-! ## The loop preserves the rows -/

theorem map_set_eq {α β : Type*} {list : List α} {old new : α} {f : α → β}
    (ho : list[i]? = some old) (hf : f new = f old) :
    (list.set i new).map f = list.map f := by
  obtain ⟨hlt, rfl⟩ := List.getElem?_eq_some_iff.mp ho
  rw [map_set, hf, ← getElem_map f, set_getElem_self]
  simpa using hlt

variable {tableId : TableInternalId}

theorem mem_tables_of_rejectsNullRow {isVirtual : TableInternalId → Bool}
    {expr : Expr} (h : whereTermRejectsNullRow isVirtual tableId expr = true) :
    tableId ∈ expr.tables := by
  fun_induction whereTermRejectsNullRow isVirtual tableId expr with
  | case1 t column =>
    obtain rfl : t = tableId := by simpa using h
    exact mem_singleton_self _
  | case2 t =>
    obtain rfl : t = tableId := by simpa using h
    exact mem_singleton_self _
  | case3 | case4 | case5 | case9 | case17 => cases h
  | case6 lhs rhs ihLhs ihRhs | case7 lhs rhs ihLhs ihRhs =>
    rw [Bool.and_eq_true] at h
    exact mem_append_left _ (ihLhs h.1)
  | case8 lhs code rhs ihLhs ihRhs | case10 lhs operator rhs _ _ _ _ _ _ ihLhs ihRhs =>
    rw [Bool.or_eq_true] at h
    exact mem_append.mpr (h.imp ihLhs ihRhs)
  | case11 lhs not rhs ih =>
    rw [Bool.and_eq_true] at h
    exact mem_append_left _ (ih h.2)
  | case12 lhs not start finish ihLhs ihStart ihEnd =>
    rw [Bool.or_eq_true, Bool.and_eq_true] at h
    exact mem_append_left _ (mem_append.mpr (h.imp ihLhs fun h => ihStart h.1))
  | case13 operator inner ih | case14 inner type ih | case15 inner collation ih => exact ih h
  | case16 expr ih => exact mem_append_left _ (ih h)

/-- An entry of a list without duplicates after one of them was replaced. -/
theorem eq_or_ne_of_mem_set {α β : Type*} {list : List α} {old new x : α} {f : α → β}
    (hnodup : (list.map f).Nodup) (ho : list[i]? = some old)
    (hx : x ∈ list.set i new) : x = new ∨ (x ∈ list ∧ f x ≠ f old) := by
  obtain ⟨pos, hpos⟩ := mem_iff_getElem?.mp hx
  by_cases heq : i = pos
  · subst heq
    obtain ⟨hlt, -⟩ := List.getElem?_eq_some_iff.mp ho
    rw [getElem?_set_self hlt] at hpos
    exact .inl (Option.some.inj hpos).symm
  · rw [getElem?_set_ne heq] at hpos
    refine .inr ⟨mem_of_getElem? hpos, fun hf => heq ?_⟩
    obtain ⟨hlt, rfl⟩ := List.getElem?_eq_some_iff.mp ho
    obtain ⟨hlt', rfl⟩ := List.getElem?_eq_some_iff.mp hpos
    exact (@Nodup.getElem_inj_iff _ _ hnodup _ (by simpa) _ (by simpa)).mp (by simpa using hf.symm)

namespace FromClause

open JoinedTable (link)

def ids (plan : FromClause) : List TableInternalId :=
  plan.tables.map JoinedTable.internalId

/-- The tables are different and joined by INNER, LEFT, RIGHT or FULL joins, and an ON term is tagged
with a table of the chain and with whether its join is outer, and reads no table to the right of
that join. -/
structure WellFormed (plan : FromClause) : Prop where
  nodup : plan.ids.Nodup
  kinds : ∀ table ∈ plan.tables, table.joinInfo ≠ some .semi ∧ table.joinInfo ≠ some .anti
  member : ∀ term ∈ plan.whereClause, ∀ id, term.joinTable = some id → id ∈ plan.ids
  tags : ∀ term ∈ plan.whereClause, ∀ table ∈ plan.tables,
    term.joinTable = some table.internalId →
      term.origin.isOuterJoin = table.joinInfo.any JoinType.isOuter
  scope : ∀ term ∈ plan.whereClause, ∀ before id later, term.joinTable = some id →
    plan.ids = before ++ id :: later → ∀ other ∈ later, other ∉ term.expr.tables

variable {plan : FromClause} {before later : List JoinedTable} {table : JoinedTable}

theorem queryRows_eq_finalRows {tables : List JoinedTable}
    (htables : tables = before ++ table :: later) :
    queryRows truth contents terms (tables.map link) =
      finalRows truth contents terms (later.map link) (joinLink truth contents terms
        (joinChain truth contents terms (before.map link) {Env.empty}) table.link) := by
  rw [queryRows, htables, map_append, map_cons]
  exact finalRows_append ..

theorem ne_later (hnodup : plan.ids.Nodup) (htables : plan.tables = before ++ table :: later) :
    ∀ x ∈ later.map link, table.internalId ≠ x.table := by
  rw [ids, htables, map_append, map_cons, nodup_append, nodup_cons] at hnodup
  intro link hlink heq
  obtain ⟨x, hx, rfl⟩ := mem_map.mp hlink
  exact hnodup.2.1.1 (heq ▸ mem_map_of_mem hx)

theorem WellFormed.ne_before (hplan : plan.WellFormed)
    (htables : plan.tables = before ++ table :: later) :
    ∀ x ∈ before.map link, table.internalId ≠ x.table := by
  have hnodup := hplan.nodup
  rw [ids, htables, map_append, map_cons, nodup_append] at hnodup
  intro link hlink heq
  obtain ⟨x, hx, rfl⟩ := mem_map.mp hlink
  exact hnodup.2.2 _ (mem_map_of_mem hx) _ mem_cons_self heq.symm

/-- With unique ids, the joins to the right of a table are those after it. -/
theorem WellFormed.isLeftOfRightOrFullJoin (hplan : plan.WellFormed)
    (htables : plan.tables = before ++ table :: later) :
    plan.isLeftOfRightOrFullJoin table.internalId = anyRightOrFullJoin later := by
  have hfind : plan.tables.findIdx? (·.internalId == table.internalId) = some before.length := by
    rw [htables, findIdx?_append, findIdx?_eq_none_iff.mpr, findIdx?_cons]
    · simp
    · intro x hx
      have hne : table.internalId ≠ x.internalId := hplan.ne_before htables _ (mem_map_of_mem hx)
      simpa using hne.symm
  rw [FromClause.isLeftOfRightOrFullJoin, hfind]
  simp [htables]

/-! ### Well-formedness -/

theorem sameTerms_replaceJoin (plan : FromClause) (i : ℕ) (t : JoinedTable) (joinType : JoinType) :
    SameTerms plan.whereClause (plan.replaceJoin i t joinType).whereClause := by
  unfold replaceJoin
  split_ifs
  · exact sameTerms_changeJoinOriginToInner _ _
  · rfl

theorem ids_replaceJoin (hi : plan.tables[i]? = some table) (joinType : JoinType) :
    (plan.replaceJoin i table joinType).ids = plan.ids := by
  exact map_set_eq hi rfl

theorem isOuterJoin_toInner (tableId : TableInternalId) (term : WhereTerm) :
    (term.origin.toInner tableId).isOuterJoin =
      (term.origin.isOuterJoin && decide (term.joinTable ≠ some tableId)) := by
  obtain ⟨expr, origin⟩ := term
  match origin with
  | .whereClause | .join (.inner _) | .tableFunction (.inner _) => rfl
  | .join (.outer table) | .tableFunction (.outer table) =>
    simp only [joinTable, toInner]
    split_ifs with heq <;>
      simp [heq, isOuterJoin, joinOrigin, JoinOrigin.isOuter,
        JoinOrigin.rightTable]

/-- A term after the join type of a table has changed. -/
theorem exists_of_mem_replaceJoin (hterm : term ∈ (plan.replaceJoin i table joinType).whereClause) :
    ∃ old ∈ plan.whereClause, term.expr = old.expr ∧ term.joinTable = old.joinTable ∧
      term.origin.isOuterJoin = (old.origin.isOuterJoin &&
        !decide (joinType = .inner ∧ old.joinTable = some table.internalId)) := by
  unfold replaceJoin at hterm
  split_ifs at hterm with hinner
  · obtain ⟨old, ho, rfl⟩ := mem_map.mp hterm
    refine ⟨old, ho, rfl, joinTable_toInner _ old, ?_⟩
    rw [isOuterJoin_toInner]
    simp [hinner]
  · exact ⟨term, hterm, rfl, rfl, by simp [hinner]⟩

/-- An outer join may be replaced by another outer join or by an inner join. -/
theorem WellFormed.replaceJoin (hplan : plan.WellFormed) (hi : plan.tables[i]? = some table)
    (houter : table.joinInfo.any JoinType.isOuter)
    (hnew : joinType = .inner ∨ joinType.isOuter = true) :
    (plan.replaceJoin i table joinType).WellFormed := by
  have hids := ids_replaceJoin hi joinType
  have ht : table ∈ plan.tables := mem_of_getElem? hi
  refine ⟨hids ▸ hplan.nodup, ?_, ?_, ?_, ?_⟩
  · intro x hx
    rcases mem_or_eq_of_mem_set hx with h | rfl
    · exact hplan.kinds x h
    · rcases hnew with rfl | h
      · simp
      · cases joinType <;> simp_all [JoinType.isOuter]
  · intro term hterm id hid
    obtain ⟨old, ho, -, htab, -⟩ := exists_of_mem_replaceJoin hterm
    exact hids ▸ hplan.member old ho id (htab ▸ hid)
  · intro term hterm x hx hid
    obtain ⟨old, ho, -, htab, htag⟩ := exists_of_mem_replaceJoin hterm
    rw [htab] at hid
    rw [htag]
    rcases eq_or_ne_of_mem_set hplan.nodup hi hx with rfl | ⟨h, hne⟩
    rotate_left
    · rw [← hplan.tags old ho x h hid]
      simp [hid, hne]
    · have hwas := hplan.tags old ho table ht hid
      rw [houter] at hwas
      rcases hnew with rfl | h
      · simp [hid, JoinType.isOuter]
      · have hne : joinType ≠ .inner := by rintro rfl; cases h
        simp [hwas, hne, h]
  · intro term hterm before id later hid hsplit x hlater hreads
    obtain ⟨old, ho, hexpr, htab, -⟩ := exists_of_mem_replaceJoin hterm
    exact hplan.scope old ho before id later (htab ▸ hid) (hids ▸ hsplit) x hlater (hexpr ▸ hreads)

/-! ### Rows -/

theorem exists_split {α : Type*} {list : List α} {e : α} (hi : list[i]? = some e) :
    list = list.take i ++ e :: list.drop (i + 1) := by
  obtain ⟨hlt, rfl⟩ := List.getElem?_eq_some_iff.mp hi
  rw [cons_getElem_drop_succ, take_append_drop]

theorem rows_replaceJoin_eq (plan : FromClause) (i : ℕ) (t : JoinedTable) (joinType : JoinType) :
    (plan.replaceJoin i t joinType).rows truth contents = queryRows truth contents plan.whereClause
        ((plan.tables.set i { t with joinInfo := some joinType }).map link) :=
  (sameTerms_replaceJoin plan i t joinType).queryRows_eq _

/-- A later join need not keep unmatched right rows if a WHERE term asks for the table. -/
theorem WellFormed.rows_replaceJoin_later (hplan : plan.WellFormed)
    (hi : plan.tables[i]? = some table) (hterm : term ∈ whereTerms plan.whereClause)
    (hrejects : Rejects truth table.internalId term) {x : JoinedTable}
    (hpos : plan.tables[position]? = some x) (hlt : i < position)
    (hjoin : joinType.withoutRightRows = x.link.joinType.withoutRightRows) :
    (plan.replaceJoin position x joinType).rows truth contents = plan.rows truth contents := by
  set tables := plan.tables.set position { x with joinInfo := some joinType }
  have hi' : tables[i]? = some table := (getElem?_set_ne hlt.ne').trans hi
  have hlater : ∀ x ∈ (tables.drop (i + 1)).map link, table.internalId ≠ x.table := by
    refine @ne_later (plan.replaceJoin position x joinType) _ _ _ ?_ (exists_split hi')
    rw [ids_replaceJoin hpos]
    exact hplan.nodup
  -- Both chains are the same once no later join keeps its unmatched right rows.
  have hch : ((tables.drop (i + 1)).map link).map Link.withoutRightRows =
      ((plan.tables.drop (i + 1)).map link).map Link.withoutRightRows := by
    rw [map_map, map_map, map_drop, map_drop]
    exact congrArg _ (map_set_eq hpos (congrArg (Link.mk x.internalId) hjoin))
  rw [rows_replaceJoin_eq, rows, chain, queryRows_eq_finalRows (exists_split hi),
    queryRows_eq_finalRows (exists_split hi'), finalRows_of_where hrejects hterm hlater, hch,
    finalRows_of_where hrejects hterm (ne_later hplan.nodup (exists_split hi)),
    take_set_of_le hlt.le]

/-- `where_term_rejects_null_row` holds only of terms that are never TRUE when the table is filled with
NULLs. -/
def SoundRejection (truth : Truth Row) (isVirtual : TableInternalId → Bool) : Prop :=
  ∀ expr tableId env, whereTermRejectsNullRow isVirtual tableId expr = true →
    env tableId = none → truth expr env ≠ some true

theorem isVirtual_replaceJoin (hi : plan.tables[i]? = some table) (joinType : JoinType) :
    (plan.replaceJoin i table joinType).isVirtual = plan.isVirtual := by
  funext tableId
  have h : ∀ tables : List JoinedTable, (tables.find? (·.internalId == tableId)).any (·.isVirtual) =
      ((tables.map fun table => (table.internalId, table.isVirtual)).find?
        (·.1 == tableId)).any (·.2) := by
    intro tables
    rw [find?_map, Option.any_map]
    rfl
  have hmap : (plan.replaceJoin i table joinType).tables.map
      (fun table => (table.internalId, table.isVirtual)) =
        plan.tables.map fun table => (table.internalId, table.isVirtual) :=
    map_set_eq hi rfl
  rw [isVirtual, h, isVirtual, h, hmap]

theorem SoundRejection.rejects (hsound : SoundRejection truth plan.isVirtual)
    (h : plan.rejectsNullRow tableId term = true) :
    Rejects truth tableId term :=
  fun env henv => hsound term.expr tableId env h henv

/-- An ON term of an inner join that reads the table belongs to a later table. -/
theorem WellFormed.exists_later (hplan : plan.WellFormed)
    (htables : plan.tables = before ++ table :: later)
    (houter : table.joinInfo.any JoinType.isOuter = true) (hterm : term ∈ plan.whereClause)
    (hid : term.joinTable = some id) (hinner : term.origin.isOuterJoin = false)
    (hreads : table.internalId ∈ term.expr.tables) :
    ∃ middle x rest, later = middle ++ x :: rest ∧ x.internalId = id ∧
      x.link.joinType = .inner := by
  have hids : plan.ids = before.map JoinedTable.internalId ++
      table.internalId :: later.map JoinedTable.internalId := by
    rw [ids, htables, map_append, map_cons]
  have hmember := hplan.member term hterm id hid
  rw [hids, mem_append, mem_cons] at hmember
  rcases hmember with hb | rfl | hlater
  · -- The term would read a table to the right of its join.
    obtain ⟨a, b, hsplit⟩ := append_of_mem hb
    rw [hsplit, append_assoc, cons_append] at hids
    refine absurd hreads (hplan.scope term hterm _ _ _ hid hids _ ?_)
    exact mem_append_right _ mem_cons_self
  · have htag := hplan.tags term hterm table (by simp [htables]) hid
    rw [hinner, houter] at htag
    cases htag
  · obtain ⟨x, hx, rfl⟩ := mem_map.mp hlater
    obtain ⟨middle, rest, rfl⟩ := append_of_mem hx
    have hm : x ∈ plan.tables := by simp [htables]
    have htag := hplan.tags term hterm x hm hid
    have hkinds := hplan.kinds x hm
    refine ⟨middle, x, rest, rfl, rfl, ?_⟩
    rw [hinner] at htag
    rw [link]
    cases hjoin : x.joinInfo with
    | none => rfl
    | some joinType =>
      rw [hjoin] at htag
      cases joinType with
      | inner => rfl
      | leftOuter | rightOuter | fullOuter => cases htag
      | semi => exact absurd hjoin hkinds.1
      | anti => exact absurd hjoin hkinds.2

/-- Only rows with the table contribute to the result. -/
theorem WellFormed.finalRows_congr (hplan : plan.WellFormed)
    (hsound : SoundRejection truth plan.isVirtual)
    (htables : plan.tables = before ++ table :: later)
    (hmust : plan.rightSideMustExist table = true)
    {lefts lefts' : Multiset (Env TableInternalId Row)}
    (hlefts : withTable table.internalId lefts = withTable table.internalId lefts') :
    finalRows truth contents plan.whereClause (later.map link) lefts =
      finalRows truth contents plan.whereClause (later.map link) lefts' := by
  rw [rightSideMustExist, Bool.and_eq_true, any_eq_true] at hmust
  obtain ⟨houter, term, hterm, hcond⟩ := hmust
  rw [Bool.and_eq_true, hplan.isLeftOfRightOrFullJoin htables] at hcond
  obtain ⟨hcond, hrejectsNull⟩ := hcond
  have hrejects := hsound.rejects hrejectsNull
  cases ht : term.joinTable with
  | none =>
    have hwhere : term ∈ whereTerms plan.whereClause := by
      rw [whereTerms_eq_filter, mem_filter]
      exact ⟨hterm, by simp [ht]⟩
    rw [finalRows_of_where hrejects hwhere (ne_later hplan.nodup htables), hlefts,
      ← finalRows_of_where hrejects hwhere (ne_later hplan.nodup htables)]
  | some id =>
    have hsome : term.origin.joinOrigin.isNone = false := by
      rw [joinTable] at ht
      cases horigin : term.origin.joinOrigin with
      | none => rw [horigin] at ht; cases ht
      | some origin => rfl
    rw [hsome] at hcond
    split_ifs at hcond with hright
    have hreads := mem_tables_of_rejectsNullRow hrejectsNull
    have houter' : table.joinInfo.any JoinType.isOuter = true := by
      rcases (Bool.or_eq_true _ _).mp houter with h | h <;>
        rw [eq_of_beq h] <;> rfl
    obtain ⟨middle, x, rest, rfl, hx, hinner⟩ := hplan.exists_later htables houter' hterm
      ht (by simpa using hcond) hreads
    have hne := ne_later hplan.nodup htables
    rw [map_append, map_cons, forall_mem_append, forall_mem_cons] at hne
    have hon : term ∈ onTerms plan.whereClause x.link.table := by
      rw [onTerms, mem_filter]
      exact ⟨hterm, by simpa [joinTable, link, hx] using ht⟩
    -- Up to the inner join the rows without the table are dropped.
    have hdepends : ∀ lefts : Multiset (Env TableInternalId Row),
        joinLink truth contents plan.whereClause (joinChain truth contents plan.whereClause
          (middle.map link) lefts) x.link =
        joinLink truth contents plan.whereClause (joinChain truth contents plan.whereClause
          ((middle.map link).map Link.withoutRightRows)
            (withTable table.internalId lefts)) x.link := by
      intro lefts
      rw [joinLink_inner_of_on hrejects hinner hon hne.2.1, withTable_joinChain hne.1]
    rw [map_append, map_cons, finalRows_append, finalRows_append, hdepends, hlefts, ← hdepends]

/-- Among the rows with the table, those that a join keeps from its left side do not occur. -/
theorem withTable_joinLink_self (truth : Truth Row) (c : Contents Row)
    (terms : List WhereTerm) {lefts : Multiset (Env TableInternalId Row)}
    (hlefts : ∀ env ∈ lefts, env id = none) :
    withTable id (joinLink truth c terms lefts ⟨id, .leftOuter⟩) =
        withTable id (joinLink truth c terms lefts ⟨id, .inner⟩) ∧
      withTable id (joinLink truth c terms lefts ⟨id, .fullOuter⟩) =
        withTable id (joinLink truth c terms lefts ⟨id, .rightOuter⟩) := by
  have honly : withTable id (Joins.leftOnly id (c id) (holds truth (onTerms terms id)) lefts)
      = 0 := by
    refine Multiset.filter_eq_nil.mpr fun env henv => ?_
    rw [hlefts env (Multiset.mem_of_mem_filter henv)]
    exact Bool.false_ne_true
  constructor
  · show withTable id (_ + _) = _
    rw [withTable, filter_add]
    exact (congrArg _ honly).trans (add_zero _)
  · show withTable id (_ + _ + _) = withTable id (_ + _)
    rw [withTable, filter_add, filter_add, withTable, filter_add]
    congr 1
    exact (congrArg _ honly).trans (add_zero _)

/-- What the loop has not changed. -/
structure Preserves (truth : Truth Row) (contents : Contents Row) (plan plan' : FromClause) :
    Prop where
  wellFormed : plan'.WellFormed
  isVirtual_eq : plan'.isVirtual = plan.isVirtual
  rows_eq : plan'.rows truth contents = plan.rows truth contents

theorem Preserves.trans {a b third : FromClause}
    (h : Preserves truth contents a b) (h' : Preserves truth contents b third) :
    Preserves truth contents a third :=
  ⟨h'.wellFormed, h'.isVirtual_eq.trans h.isVirtual_eq, h'.rows_eq.trans h.rows_eq⟩

theorem WellFormed.preserves_dropLeftRows (hplan : plan.WellFormed)
    (hsound : SoundRejection truth plan.isVirtual) (hi : plan.tables[i]? = some table)
    (hmust : plan.rightSideMustExist table = true) :
    Preserves truth contents plan (plan.dropLeftRows i table) := by
  have hsplit := exists_split hi
  set lefts := joinChain truth contents plan.whereClause
    ((plan.tables.take i).map link) {Env.empty} with hchain
  have hlefts : ∀ env ∈ lefts, env table.internalId = none := by
    intro env henv
    refine eq_none_of_mem_joinChain (hplan.ne_before hsplit) ?_ henv
    intro start hstart
    rw [Multiset.mem_singleton.mp hstart]
    rfl
  have hreplace : ∀ {old new : JoinType}, table.joinInfo = some old → old.isOuter = true →
      new = .inner ∨ new.isOuter = true →
      withTable table.internalId (joinLink truth contents plan.whereClause lefts
        ⟨table.internalId, old⟩) =
      withTable table.internalId (joinLink truth contents plan.whereClause lefts
        ⟨table.internalId, new⟩) →
      Preserves truth contents plan (plan.replaceJoin i table new) := by
    intro old new hjoin houter hnew hwith
    refine ⟨hplan.replaceJoin hi (by rw [hjoin]; exact houter) hnew, isVirtual_replaceJoin hi _, ?_⟩
    have hset : plan.tables.set i { table with joinInfo := some new } =
        plan.tables.take i ++ { table with joinInfo := some new } :: plan.tables.drop (i + 1) := by
      obtain ⟨hlt, -⟩ := List.getElem?_eq_some_iff.mp hi
      exact set_eq_take_append_cons_drop.trans (if_pos hlt)
    rw [rows_replaceJoin_eq, rows, chain, queryRows_eq_finalRows hsplit, queryRows_eq_finalRows hset]
    refine hplan.finalRows_congr hsound hsplit hmust ?_
    rw [← hchain, link, link, hjoin]
    exact hwith.symm
  obtain ⟨hleft, hfull⟩ := withTable_joinLink_self truth contents plan.whereClause hlefts
  unfold dropLeftRows
  split
  · exact hreplace ‹_› rfl (.inl rfl) hleft
  · exact hreplace ‹_› rfl (.inr rfl) hfull
  · exact ⟨hplan, rfl, rfl⟩

/-- A WHERE term asks for the table with the given id, at `index`. -/
def Demands (truth : Truth Row) (index : ℕ) (id : TableInternalId) (plan : FromClause) : Prop :=
  (∃ table, plan.tables[index]? = some table ∧ table.internalId = id) ∧
    ∃ term ∈ whereTerms plan.whereClause, Rejects truth id term

theorem Demands.replaceJoin (h : Demands truth i id plan) (hne : position ≠ i)
    (x : JoinedTable) (joinType : JoinType) :
    Demands truth i id (plan.replaceJoin position x joinType) := by
  obtain ⟨⟨t, hi, hid⟩, term, hterm, hrejects⟩ := h
  obtain ⟨term', hterm', hexpr⟩ :=
    (sameTerms_replaceJoin plan position x joinType).exists_whereTerm hterm
  refine ⟨⟨t, ?_, hid⟩, term', hterm', ?_⟩
  · exact (getElem?_set_ne hne).trans hi
  · intro env henv
    rw [hexpr]
    exact hrejects env henv

theorem WellFormed.preserves_dropRightRowsAt (hplan : plan.WellFormed)
    (hdemands : Demands truth i id plan) (hlt : i < position) :
    Preserves truth contents plan (plan.dropRightRowsAt position) ∧
      Demands truth i id (plan.dropRightRowsAt position) := by
  have ⟨⟨t, hi, hid⟩, term, hterm, hrejects⟩ := hdemands
  subst hid
  unfold dropRightRowsAt
  split
  · exact ⟨⟨hplan, rfl, rfl⟩, hdemands⟩
  · rename_i x hpos
    have hreplace : ∀ {old new : JoinType}, x.joinInfo = some old → old.isOuter = true →
        new = .inner ∨ new.isOuter = true → new.withoutRightRows = old.withoutRightRows →
        Preserves truth contents plan (plan.replaceJoin position x new) ∧
          Demands truth i t.internalId (plan.replaceJoin position x new) := by
      intro old new hjoin houter hnew hsame
      refine ⟨⟨hplan.replaceJoin hpos (by rw [hjoin]; exact houter) hnew,
        isVirtual_replaceJoin hpos _, ?_⟩, hdemands.replaceJoin hlt.ne' _ _⟩
      refine hplan.rows_replaceJoin_later hi hterm hrejects hpos hlt ?_
      rw [link, hjoin]
      exact hsame
    split
    · next hjoin => exact hreplace hjoin rfl (.inl rfl) rfl
    · next hjoin => exact hreplace hjoin rfl (.inr rfl) rfl
    · exact ⟨⟨hplan, rfl, rfl⟩, hdemands⟩

theorem WellFormed.preserves_dropRightRows (hplan : plan.WellFormed)
    (hdemands : Demands truth i id plan) :
    Preserves truth contents plan (plan.dropRightRows i) := by
  refine (foldlRecOn (motive := fun current => Preserves truth contents plan current ∧
    Demands truth i id current) _ _ ⟨⟨hplan, rfl, rfl⟩, hdemands⟩
      fun current hcurrent position hposition => ?_).1
  obtain ⟨hstep, hdemands'⟩ := hcurrent.1.wellFormed.preserves_dropRightRowsAt hcurrent.2
    (mem_range'_1.mp hposition).1
  exact ⟨hcurrent.1.trans hstep, hdemands'⟩

theorem exists_getElem?_dropLeftRows (hi : plan.tables[i]? = some table) :
    ∃ t', (plan.dropLeftRows i table).tables[i]? = some t' ∧ t'.internalId = table.internalId := by
  obtain ⟨hlt, -⟩ := List.getElem?_eq_some_iff.mp hi
  unfold dropLeftRows
  split
  · exact ⟨_, getElem?_set_self hlt, rfl⟩
  · exact ⟨_, getElem?_set_self hlt, rfl⟩
  · exact ⟨table, hi, rfl⟩

theorem WellFormed.preserves_reduceAt (hplan : plan.WellFormed)
    (hsound : SoundRejection truth plan.isVirtual) (i : ℕ) :
    Preserves truth contents plan (plan.reduceAt i) := by
  unfold reduceAt
  split
  · exact ⟨hplan, rfl, rfl⟩
  · rename_i t hi
    have ha : Preserves truth contents plan
        (if plan.rightSideMustExist t then plan.dropLeftRows i t else plan) := by
      split_ifs with hmust
      · exact hplan.preserves_dropLeftRows hsound hi hmust
      · exact ⟨hplan, rfl, rfl⟩
    have hi' : ∃ t', (if plan.rightSideMustExist t then plan.dropLeftRows i t
        else plan).tables[i]? = some t' ∧ t'.internalId = t.internalId := by
      split_ifs
      · exact exists_getElem?_dropLeftRows hi
      · exact ⟨t, hi, rfl⟩
    generalize (if plan.rightSideMustExist t then plan.dropLeftRows i t else plan) =
      reduced at ha hi'
    dsimp only
    split_ifs with hleft
    · rw [Bool.and_eq_true, leftSideMustExist, any_eq_true] at hleft
      obtain ⟨-, term, hterm, hcond⟩ := hleft
      rw [Bool.and_eq_true] at hcond
      have hsound' : SoundRejection truth reduced.isVirtual := by
        rw [ha.isVirtual_eq]
        exact hsound
      have hdemands : Demands truth i t.internalId reduced :=
        ⟨hi', term, mem_filter.mpr ⟨hterm, hcond.1⟩, hsound'.rejects hcond.2⟩
      exact ha.trans (ha.wellFormed.preserves_dropRightRows hdemands)
    · exact ha

/-- The loop leaves the rows of the query as they are, provided that a term is taken to reject the NULLs
of a table only if it is never TRUE on them. -/
theorem rows_reduceOuterJoins (hplan : plan.WellFormed)
    (hsound : SoundRejection truth plan.isVirtual) :
    plan.reduceOuterJoins.rows truth contents = plan.rows truth contents := by
  have hrun : Preserves truth contents plan plan.reduceOuterJoins := by
    refine foldlRecOn (motive := Preserves truth contents plan) _ _ ⟨hplan, rfl, rfl⟩
      fun current hcurrent index _ => ?_
    refine hcurrent.trans (hcurrent.wellFormed.preserves_reduceAt ?_ index)
    rw [hcurrent.isVirtual_eq]
    exact hsound
  exact hrun.rows_eq

/-! ### An example -/

/-- `t0 LEFT JOIN t1 ON t0.a WHERE t1.a`. -/
def leftJoinWithFilter : FromClause where
  tables := [⟨0, none, false⟩, ⟨1, some .leftOuter, false⟩]
  whereClause := [⟨.column 0 0, .join (.outer 1)⟩, ⟨.column 1 0, .whereClause⟩]

/-- Rows with one Boolean column. -/
def columnTruth : Truth Bool
  | .column table _, env => env table
  | _, _ => none

theorem soundRejection_columnTruth (isVirtual : TableInternalId → Bool) :
    SoundRejection columnTruth isVirtual := by
  intro expr tableId env hrejects hno
  cases expr with
  | column t column =>
    obtain rfl : t = tableId := by simpa [whereTermRejectsNullRow] using hrejects
    simp [columnTruth, hno]
  | _ => simp [columnTruth]

theorem wellFormed_leftJoinWithFilter : leftJoinWithFilter.WellFormed where
  nodup := by decide
  kinds := by decide
  member := by
    intro term hterm id hid
    simp only [leftJoinWithFilter, mem_cons, not_mem_nil, or_false] at hterm
    rcases hterm with rfl | rfl
    · cases hid
      decide
    · cases hid
  tags := by
    intro term hterm t ht hid
    simp only [leftJoinWithFilter, mem_cons, not_mem_nil, or_false] at hterm ht
    rcases hterm with rfl | rfl
    · rcases ht with rfl | rfl
      · cases hid
      · rfl
    · cases hid
  scope := by
    intro term hterm before id later hid hsplit x hx
    simp only [leftJoinWithFilter, mem_cons, not_mem_nil, or_false] at hterm
    rcases hterm with rfl | rfl
    · cases hid
      -- The right table of the join is the last one.
      have hlater : later = [] := by
        rcases before with _ | ⟨_, _ | ⟨_, _⟩⟩ <;>
          simp_all [ids, leftJoinWithFilter, JoinOrigin.rightTable]
      rw [hlater] at hx
      cases hx
    · cases hid

theorem rows_reduceOuterJoins_leftJoinWithFilter :
    leftJoinWithFilter.reduceOuterJoins.chain = [⟨0, .inner⟩, ⟨1, .inner⟩] ∧
      ∀ contents, leftJoinWithFilter.reduceOuterJoins.rows columnTruth contents =
        leftJoinWithFilter.rows columnTruth contents :=
  ⟨by decide, fun _ => rows_reduceOuterJoins wellFormed_leftJoinWithFilter
    (soundRejection_columnTruth _)⟩

end FromClause

end Turso.Translate
