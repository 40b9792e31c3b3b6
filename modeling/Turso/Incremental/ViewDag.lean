import Turso.Incremental.JoinOperators

/-!
# The operators of a SELECT yield its rows

Above the joins only the values of expressions matter: grouping, HAVING, projection and DISTINCT are
the same for two streams whose rows give all expressions the same values (`buildGroups_spec`,
`buildResult_spec`).  Together with the places of the WHERE terms this gives the rows of the SELECT,
except where a WHERE term that reads no table is not TRUE: it is tested on the first table only, and a
later RIGHT or FULL join keeps its right rows all the same (`dagRows_eq_rows_iff`).
-/

namespace Turso.Incremental

open Translate SelectPlan Incremental.JoinedTable Function List Evaluator
open Multiset (map_congr mem_map mem_toList)

open Joins (Env)

variable {Value Sub : Type} {ev : Evaluator Value}
variable {c : Contents (TableRow Value)} {placed : List (WhereTerm × Placement)}
  {db : Database Value} {resolver : Resolver} {plan : SelectPlan Sub}
  {builder builder' : DagBuilder} {node id : NodeId} {rows : Multiset (StreamRow Value)}
  {tables : List TableInternalId}

/-! ## The row of a group -/

theorem map_zipIdx_published (members : Multiset (Expr → Value)) (aggregates : List Aggregate) :
    ∀ start, 0 < start → ((aggregates.zipIdx start).map fun (aggregate, i) =>
      ((if i ≠ 0 then some aggregate.originalExpr else none : Option Expr),
        ev.aggregate aggregate members)).filterMap
          (fun column => column.1.map fun expr => (expr, column.2)) =
      aggregates.map fun aggregate => (aggregate.originalExpr, ev.aggregate aggregate members) := by
  induction aggregates with
  | nil => exact fun _ _ => rfl
  | cons aggregate rest ih =>
    intro start hstart
    have hne : start ≠ 0 := Nat.ne_of_gt hstart
    simp only [zipIdx_cons, map_cons, hne, ne_eq, not_false_eq_true, if_true]
    exact congrArg _ (ih (start + 1) (Nat.succ_pos _))

theorem filterMap_zip_some (exprs : List Expr) : ∀ keys : List Value,
    ((exprs.map some).zip keys).filterMap
      (fun column => column.1.map fun expr => (expr, column.2)) = exprs.zip keys := by
  induction exprs with
  | nil => exact fun _ => rfl
  | cons expr rest ih =>
    intro keys
    cases keys with
    | nil => rfl
    | cons k keys =>
      simp only [map_cons, zip_cons_cons, filterMap_cons, Option.map_some, ih]

/-- The row of a group gives expressions the values they have in SQL; the hidden count is not
published. -/
theorem value_groupRow (groupExprs : List Expr) (keys : List Value) (hidden : Aggregate)
    (aggregates : List Aggregate) (members : Multiset (StreamRow Value)) :
    ev.value (ev.groupRow groupExprs keys (hidden :: aggregates) members) =
      ev.groupValue groupExprs keys aggregates (members.map ev.value) := by
  have hpublished : (ev.groupRow groupExprs keys (hidden :: aggregates) members).published =
      groupExprs.zip keys ++ aggregates.map fun aggregate =>
        (aggregate.originalExpr, ev.aggregate aggregate (members.map ev.value)) := by
    rw [StreamRow.published, groupRow, filterMap_append, filterMap_zip_some, zipIdx_cons]
    exact congrArg _ (map_zipIdx_published (members.map ev.value) aggregates 1 (Nat.succ_pos _))
  rw [value, hpublished]
  rfl

theorem eq_map_of_mapM_keyColumn {exprs : List Expr} {keys : List KeyColumn}
    (hkeys : exprs.mapM (keyColumn resolver) = .ok keys) : keys = exprs.map resolver.keyColumn := by
  have hall := forall₂_of_mapM_ok hkeys
  clear hkeys
  induction hall with
  | nil => rfl
  | @cons expr k _ _ hk _ ih =>
    unfold keyColumn at hk
    split at hk
    · cases hk
    · cases hk
      rw [map_cons, ih]

theorem ofExcept_ok {α : Type} {action : Except PlanError α} {v : α}
    (hrun : ofExcept action builder = .ok (v, builder')) :
    action = .ok v ∧ builder' = builder := by
  cases haction : action with
  | error error =>
    rw [haction] at hrun
    cases hrun
  | ok found =>
    rw [haction] at hrun
    obtain ⟨rfl, rfl⟩ := pure_ok hrun
    exact ⟨rfl, rfl⟩

/-! ## Grouping and HAVING -/

section Groups

variable [DecidableEq Value]

/-- The rows of the aggregation of a plan, as values of expressions. -/
theorem pushAggregate_spec (hgrouped : plan.isGrouped = true)
    (hnode : NodeAt ev db builder node rows tables)
    (hpush : pushAggregate resolver plan node builder = .ok (id, builder')) :
    builder <+: builder' ∧ ∃ grouped, NodeAt ev db builder' id grouped tables ∧
      grouped.map ev.value = plan.groupedRows ev resolver (rows.map ev.value) := by
  simp only [pushAggregate] at hpush
  unfold groupedRows
  split_ifs at hpush with hempty
  · obtain ⟨multisetKeys, between, hkeys, hnew⟩ := bind_ok hpush
    obtain ⟨-, rfl⟩ := ofExcept_ok hkeys
    obtain ⟨hgrows, schema, hschema, hgroup⟩ := pushNode_spec ev db hnew
    cases hschema
    refine ⟨hgrows, _, ⟨hgroup.lt_length, hgroup.rows_eq,
      hgroup.bindings_eq.trans hnode.bindings_eq⟩, ?_⟩
    rw [if_neg (not_not.mpr hempty), if_pos hgrouped, ← hnode.rows_eq]
    refine (Multiset.map_singleton _ _).trans (congrArg _ ?_)
    rw [value_groupRow]
    funext expr
    exact ev.eval_literalZero _ _ expr
  · obtain ⟨groupKeys, between, hkeys, hrest⟩ := bind_ok hpush
    obtain ⟨hexprs, rfl⟩ := ofExcept_ok hkeys
    obtain ⟨multisetKeys, between, hmultiset, hnew⟩ := bind_ok hrest
    obtain ⟨-, rfl⟩ := ofExcept_ok hmultiset
    obtain ⟨hgrows, schema, hschema, hgroup⟩ := pushNode_spec ev db hnew
    cases hschema
    refine ⟨hgrows, _, ⟨hgroup.lt_length, hgroup.rows_eq,
      hgroup.bindings_eq.trans hnode.bindings_eq⟩, ?_⟩
    rw [if_pos hempty, eq_map_of_mapM_keyColumn hexprs, groups_map, Multiset.map_map, ← hnode.rows_eq]
    refine (Multiset.map_map _ _ _).trans (map_congr rfl fun members _ => ?_)
    rw [comp_apply, comp_apply, value_groupRow, Multiset.map_map]
    rfl

theorem buildGroups_spec (hnode : NodeAt ev db builder node rows tables)
    (hbuild : buildGroups resolver plan node builder = .ok (id, builder')) :
    builder <+: builder' ∧ ∃ grouped, NodeAt ev db builder' id grouped tables ∧
      grouped.map ev.value = (plan.groupedRows ev resolver (rows.map ev.value)).filter
        fun row => plan.havingHolds ev row := by
  unfold buildGroups at hbuild
  split_ifs at hbuild with hgrouped
  · obtain ⟨aggregated, between, haggregate, hpush⟩ := bind_ok hbuild
    obtain ⟨hgrows, grouped, hgroup, hvalues⟩ := pushAggregate_spec hgrouped hnode haggregate
    obtain ⟨hgrows', hfiltered⟩ := pushFilter_spec hgroup hpush
    refine ⟨hgrows.trans hgrows', _, hfiltered, ?_⟩
    rw [← hvalues, Multiset.filter_map]
    rfl
  · obtain ⟨rfl, rfl⟩ := pure_ok hbuild
    refine ⟨prefix_rfl, rows, hnode, ?_⟩
    have hno : plan.groupBy = none := by
      rw [isGrouped, Bool.or_eq_true, not_or, Option.not_isSome_iff_eq_none] at hgrouped
      exact hgrouped.1
    have hexprs : plan.groupExprs = [] := by rw [groupExprs, hno]
    have hhaving : ∀ row, plan.havingHolds ev row = true := by
      intro row
      rw [havingHolds, having, hno]
      rfl
    simp only [hhaving, Multiset.filter_true, groupedRows, hexprs, ne_eq,
      not_true_eq_false, if_false, hgrouped, Bool.false_eq_true]

end Groups

/-! ## Projection and DISTINCT -/

section Results

/-- The values of a row's columns. -/
def StreamRow.values (row : StreamRow Value) : List Value := row.columns.map Prod.snd

/-- The row of a projection. -/
def projectRow (ev : Evaluator Value) (exprs : List Expr) (row : StreamRow Value) :
    StreamRow Value :=
  ⟨[], exprs.map fun expr => (some expr, ev.value row expr)⟩

section
variable (exprs : List Expr)

variable (r : StreamRow Value)

theorem values_projectRow : (projectRow ev exprs r).values = exprs.map (ev.value r) := by
  rw [StreamRow.values, projectRow, map_map]
  rfl

variable (f : Expr → Value)

theorem map_eval_published (env : Env TableInternalId (TableRow Value)) :
    exprs.map (ev.eval (exprs.map fun expr => (expr, f expr)) env) = exprs.map f := by
  refine map_congr_left fun expr hexpr => ?_
  refine ev.eval_published _ _ _ _ (mem_map.mpr ⟨expr, hexpr, rfl⟩) fun x hx => ?_
  obtain ⟨found, -, hf⟩ := mem_map.mp hx
  cases hf
  rfl

/-- A projected column has its value in the stream of the projection. -/
theorem map_value_projectRow :
    exprs.map (ev.value (projectRow ev exprs r)) = exprs.map (ev.value r) := by
  have hpublished : (projectRow ev exprs r).published =
      exprs.map fun expr => (expr, ev.value r expr) := by
    rw [StreamRow.published, projectRow, filterMap_map]
    exact filterMap_eq_map_iff_forall_eq_some.mpr fun _ _ => rfl
  rw [value, hpublished]
  exact map_eval_published exprs _ _

theorem map_value_groupRow_self (members : Multiset (StreamRow Value)) :
    exprs.map (ev.value (ev.groupRow exprs (exprs.map f) [hiddenCount] members)) = exprs.map f := by
  have hzip : exprs.zip (exprs.map f) = exprs.map fun expr => (expr, f expr) := by
    have hmap : (exprs.map id).zip (exprs.map f) = exprs.map fun expr => (id expr, f expr) :=
      zip_map'
    simpa using hmap
  rw [value_groupRow, groupValue, map_nil, append_nil, hzip]
  exact map_eval_published exprs f _

end

variable [DecidableEq Value]

theorem pushProject_spec {exprs : List Expr} (hnode : NodeAt ev db builder node rows tables)
    (hpush : pushNode (.project node exprs) builder = .ok (id, builder')) :
    builder <+: builder' ∧ NodeAt ev db builder' id (rows.map (projectRow ev exprs)) tables := by
  obtain ⟨hgrows, schema, hschema, hproject⟩ := pushNode_spec ev db hpush
  cases hschema
  refine ⟨hgrows, hproject.lt_length, ?_, hproject.bindings_eq.trans hnode.bindings_eq⟩
  rw [hproject.rows_eq, ← hnode.rows_eq]
  rfl

/-- The groups of the projected rows, projected again, are the distinct rows. -/
theorem distinct_rows (exprs : List Expr) (keys : List KeyColumn) :
    (((groups (fun r => ev.classOf keys (exprs.map (ev.value r)))
        (rows.map (projectRow ev exprs))).map fun members =>
      ev.groupRow exprs (ev.shown (members.map fun r => exprs.map (ev.value r))) [hiddenCount]
        members).map (projectRow ev exprs)).map StreamRow.values =
      (groups (ev.classOf keys) (rows.map fun r => exprs.map (ev.value r))).map ev.shown := by
  rw [groups_map, groups_map, Multiset.map_map, Multiset.map_map, Multiset.map_map, Multiset.map_map]
  simp only [map_value_projectRow]
  refine map_congr rfl fun members hmembers => ?_
  have hne : (members.map fun r => exprs.map (ev.value r)) ≠ 0 :=
    fun hzero => ne_zero_of_mem_groups hmembers (Multiset.map_eq_zero.mp hzero)
  obtain ⟨shown, -, hshown⟩ := mem_map.mp (ev.shown_mem _ hne)
  simp only [comp_apply, Multiset.map_map, map_value_projectRow, values_projectRow, comp_def]
  rw [← hshown]
  exact map_value_groupRow_self exprs _ _

theorem buildResult_spec (hnode : NodeAt ev db builder node rows tables)
    (hbuild : buildResult resolver plan node builder = .ok (id, builder')) :
    (ev.rowsAt db builder' id).map StreamRow.values =
      if plan.isDistinct then
        (groups (ev.classOf (plan.resultColumns.map resolver.keyColumn))
          ((rows.map ev.value).map plan.resultColumns.map)).map ev.shown
      else (rows.map ev.value).map plan.resultColumns.map := by
  obtain ⟨projected, between, hproject, hrest⟩ := bind_ok hbuild
  obtain ⟨-, hprojected⟩ := pushProject_spec hnode hproject
  rw [Multiset.map_map]
  split_ifs at hrest ⊢ with hdistinct
  · obtain ⟨groupKeys, between', hkeys, hgroup⟩ := bind_ok hrest
    obtain ⟨hexprs, rfl⟩ := ofExcept_ok hkeys
    obtain ⟨grouped, between'', hgrouped, hlast⟩ := bind_ok hgroup
    obtain ⟨-, schema, -, hgroupNode⟩ := pushNode_spec ev db hgrouped
    obtain ⟨-, hres⟩ := pushProject_spec hgroupNode hlast
    rw [hres.rows_eq, ← eq_map_of_mapM_keyColumn hexprs]
    refine Eq.trans ?_ (distinct_rows plan.resultColumns groupKeys)
    rw [← hprojected.rows_eq]
    rfl
  · obtain ⟨rfl, rfl⟩ := pure_ok hrest
    rw [hprojected.rows_eq, Multiset.map_map]
    exact map_congr rfl fun row _ => values_projectRow _ _

end Results

/-! ## The whole SELECT -/

section Select

/-- The contents of the tables without the rows of the first one. -/
def SelectPlan.withoutFirstTable (plan : SelectPlan Sub)
    (contents : Contents (TableRow Value)) : Contents (TableRow Value) :=
  match plan.joinedTables with
  | [] => contents
  | first :: _ => update contents first.internalId 0

variable [DecidableEq Value] {database : Database Value} {subqueries : Subqueries ev Sub}
  {a : JoinedTable Sub}

section
variable (ha : plan.joinedTables.head? = some a) (hplaced : plan.Places placed)
include ha hplaced

omit [DecidableEq Value] in
/-- The first step of the chain: the rows of the first table that pass its terms. -/
theorem placedStep_first :
    placedStep ev c placed 0 a.link {Env.empty} =
      ((c a.internalId).map (Env.empty.add a.internalId)).filter
        fun env => ev.holdsOn (conditionsAt placed (.filter 0)) env := by
  have hnonempty : 0 < plan.joinedTables.length := by
    cases htables : plan.joinedTables with
    | nil =>
      rw [htables] at ha
      cases ha
    | cons _ _ => exact Nat.succ_pos _
  have hon : conditionsAt placed (.on 0) = [] := by
    rw [conditionsAt, map_eq_nil_iff, filter_eq_nil_iff]
    intro e he hplace
    exact place_ne_on_zero hnonempty (hplaced e he) (of_decide_eq_true hplace)
  have htype : a.link.joinType.kind = .inner := by
    rw [link, joinType, plan.first a ha]
    rfl
  rw [placedStep, htype, hon]
  simp [Joins.join, Joins.matched, Joins.partners, holdsOn, link]

/-- The scan of the first table and its filter. -/
theorem pushFilter_first {input : NodeId}
    (hinput : NodeAt ev database builder input
      ((c a.internalId).map (single a.internalId)) [a.internalId])
    (hpush : pushFilter input (conditionsAt placed (.filter 0)) builder = .ok (id, builder')) :
    (∀ env ∈ placedStep ev c placed 0 a.link {Env.empty}, Supported [a.internalId] env) ∧
      builder <+: builder' ∧ NodeAt ev database builder' id
        ((placedStep ev c placed 0 a.link {Env.empty}).map (layout [a.internalId]))
        [a.internalId] := by
  have hscanned : (c a.internalId).map (single a.internalId) =
      ((c a.internalId).map (Env.empty.add a.internalId)).map (layout [a.internalId]) := by
    rw [Multiset.map_map]
    exact map_congr rfl fun r _ => single_eq_layout r
  rw [hscanned] at hinput
  have hsupported : ∀ env ∈ (c a.internalId).map (Env.empty.add a.internalId),
      Supported [a.internalId] env := by
    intro env henv
    obtain ⟨r, -, rfl⟩ := mem_map.mp henv
    exact Supported.cons_add r fun _ _ => rfl
  rw [placedStep_first ha hplaced]
  exact ⟨fun env henv => hsupported env (Multiset.mem_of_mem_filter henv),
    pushFilter_layout hsupported hinput hpush⟩

end

/-- The operators of the joins yield the chain with the terms at their places. -/
theorem buildChain_spec {inputs : List NodeId}
    (hplaced : plan.Places placed)
    (hinputs : InputsAt ev database (plan.tableRows subqueries database) builder
      (plan.joinedTables.map link) inputs)
    (hbuild : buildChain plan.joinTypes placed inputs builder = .ok (id, builder')) :
    ∃ tables rows, NodeAt ev database builder' id rows tables ∧ rows.map ev.value =
      (placedRows ev (plan.tableRows subqueries database) placed 0
        (plan.joinedTables.map link) {Env.empty}).map fun env => ev.eval [] env := by
  cases htables : plan.joinedTables with
  | nil =>
    rw [htables] at hinputs
    cases hinputs
    cases hbuild
  | cons a rest =>
    have hnodup := plan.nodup
    rw [htables] at hinputs
    rw [htables, map_cons, nodup_cons] at hnodup
    cases hinputs with
    | @cons _ input _ others hinput hothers =>
      obtain ⟨scanned, between, hscan, hsteps⟩ := bind_ok hbuild
      obtain ⟨hsupported, hgrows, hfiltered⟩ :=
        pushFilter_first (by rw [htables]; rfl) hplaced hinput hscan
      have htypes : plan.joinTypes.tail = (rest.map link).map Link.joinType := by
        rw [joinTypes, htables, map_cons, map_map]
        rfl
      rw [htypes] at hsteps
      have hnew : ∀ link ∈ rest.map JoinedTable.link, link.table ∉ [a.internalId] := by
        intro link hlink hm
        obtain ⟨joined, hjoined, rfl⟩ := mem_map.mp hlink
        exact hnodup.1 (mem_map.mpr ⟨joined, hjoined, mem_singleton.mp hm⟩)
      have hrest : ((rest.map link).map Link.table).Nodup := by
        rw [map_map]
        exact hnodup.2
      obtain ⟨tables', hall, -, hnode⟩ := buildSteps_spec _ others 1 scanned between _ _
        (InputsAt.mono hothers hgrows) hnew hrest hsupported hfiltered hsteps
      refine ⟨tables', _, hnode, ?_⟩
      rw [Multiset.map_map]
      exact map_congr rfl fun env henv => value_layout ev (hall env henv)

omit [DecidableEq Value] in
theorem joinedTables_ne_nil (hcheck : unsupportedPart plan = none) : plan.joinedTables ≠ [] := by
  intro hnil
  unfold unsupportedPart at hcheck
  split_ifs at hcheck with _ _ _ _ _ hempty
  exact hempty (by rw [hnil]; rfl)

section

variable (db)
  (hbuild : buildSelectPlanDag resolver subqueries.build plan builder = .ok (id, builder'))
include hbuild

/-- The operators of the joins and of what follows them. -/
theorem dagRows_eq_placedRows :
    ∃ placed : List (WhereTerm × Placement), plan.joinedTables ≠ [] ∧
      placed.map Prod.fst = plan.whereClause ∧
      plan.Places placed ∧
      (ev.rowsAt db builder' id).map StreamRow.values = plan.resultRows ev resolver
          ((placedRows ev (plan.tableRows subqueries db) placed 0
            (plan.joinedTables.map link) {Env.empty}).map fun env => ev.eval [] env) := by
  unfold buildSelectPlanDag at hbuild
  cases hcheck : unsupportedPart plan with
  | some what =>
    rw [hcheck] at hbuild
    cases hbuild
  | none =>
    rw [hcheck] at hbuild
    obtain ⟨inputs, builder₁, hinputs, hrest⟩ := bind_ok hbuild
    obtain ⟨-, hnodes⟩ : builder <+: builder₁ ∧ Forall₂ (fun joined input =>
        NodeAt ev db builder₁ input
          ((joined.table.rows subqueries db).map (single joined.internalId))
          [joined.internalId]) plan.joinedTables inputs :=
      buildInputs_spec plan.joinedTables builder builder₁ inputs hinputs
    obtain ⟨placements, between, hplacements, hrun⟩ := bind_ok hrest
    obtain ⟨hmapM, rfl⟩ := ofExcept_ok hplacements
    obtain ⟨hlen, hall⟩ := forall₂_iff_zip.mp (forall₂_of_mapM_ok hmapM)
    have hplaced : plan.Places (plan.whereClause.zip placements) := fun e he => hall he
    obtain ⟨joined, builder₂, hch, hrun⟩ := bind_ok hrun
    obtain ⟨tables, rows, hjoined, hvalues⟩ := buildChain_spec hplaced
      (inputsAt_of_forall₂ (fun joined hjoined => hjoined) hnodes) hch
    obtain ⟨grouped, builder₃, hgroups, hres⟩ := bind_ok hrun
    obtain ⟨-, groupedRows, hgrouped, hgroupValues⟩ := buildGroups_spec hjoined hgroups
    refine ⟨_, joinedTables_ne_nil hcheck, map_fst_zip hlen.le, hplaced, ?_⟩
    rw [buildResult_spec hgrouped hres, hgroupValues, hvalues]
    rfl

/-- The rows of a SELECT without its terms that read no table and without rows in its first table. -/
def SelectPlan.rowsWithoutFirst (ev : Evaluator Value) (resolver : Resolver) (plan : SelectPlan Sub)
    (contents : Contents (TableRow Value)) : Multiset (List Value) :=
  plan.resultRows ev resolver ((plan.joinedRows ev (readingTerms plan.whereClause)
    (plan.withoutFirstTable contents)).map fun env => ev.eval [] env)

theorem dagRows_of_free (hfree : TableFreeTrue ev plan.whereClause) :
    (ev.rowsAt db builder' id).map StreamRow.values =
      plan.rows ev resolver (plan.tableRows subqueries db) := by
  obtain ⟨placed, hnonempty, hterms, hplaced, hrows⟩ := dagRows_eq_placedRows db hbuild
  rw [hrows, rows, placedRows_eq_joinedRows (length_pos_of_ne_nil hnonempty) hplaced
    (hterms ▸ hfree), hterms]

theorem dagRows_of_not_free (hfree : ¬TableFreeTrue ev plan.whereClause) :
    (ev.rowsAt db builder' id).map StreamRow.values =
        plan.rowsWithoutFirst ev resolver (plan.tableRows subqueries db) ∧
      plan.rows ev resolver (plan.tableRows subqueries db) = plan.resultRows ev resolver 0 := by
  obtain ⟨placed, hnonempty, hterms, hplaced, hrows⟩ := dagRows_eq_placedRows db hbuild
  obtain ⟨a, rest, htables⟩ := exists_cons_of_ne_nil hnonempty
  have hwithout : plan.withoutFirstTable (plan.tableRows subqueries db) =
      update (plan.tableRows subqueries db) a.internalId 0 := by
    rw [withoutFirstTable, htables]
  refine ⟨?_, ?_⟩
  · rw [hrows, placedRows_of_not_free htables hplaced (hterms ▸ hfree), hterms,
      rowsWithoutFirst, hwithout]
  · rw [rows, joinedRows_of_not_free hfree]
    rfl

end

/-- Evaluating the operators of a SELECT on a database gives the rows of the SELECT exactly if the
WHERE terms that read no table are TRUE, or if without these terms and without rows in its first table
the SELECT has the result of no joined rows. -/
theorem dagRows_eq_rows_iff
    (hbuild : buildSelectPlanDag resolver subqueries.build plan builder = .ok (id, builder')) :
    (ev.rowsAt database builder' id).map StreamRow.values =
        plan.rows ev resolver (plan.tableRows subqueries database) ↔
      TableFreeTrue ev plan.whereClause ∨
        plan.rowsWithoutFirst ev resolver (plan.tableRows subqueries database) =
          plan.resultRows ev resolver 0 := by
  by_cases hfree : TableFreeTrue ev plan.whereClause
  · exact iff_of_true (dagRows_of_free database hbuild hfree) (.inl hfree)
  · obtain ⟨hdag, hrows⟩ := dagRows_of_not_free database hbuild hfree
    rw [hdag, hrows]
    exact ⟨fun h => .inr h, fun h => h.resolve_left hfree⟩

/-! ## Joins that do not keep their right rows -/

omit [DecidableEq Value] in
theorem joinChain_zero {terms : List WhereTerm} {links : List Link}
    (hkeeps : ∀ link ∈ links, link.joinType.keepsRightRows = false) :
    joinChain ev.truth c terms links 0 = 0 := by
  induction links with
  | nil => rfl
  | cons link rest ih =>
    have hlink := hkeeps link mem_cons_self
    have hjoin : joinLink ev.truth c terms 0 link = 0 := by
      unfold joinLink
      cases htype : link.joinType with
      | rightOuter | fullOuter => simp [htype, JoinType.keepsRightRows] at hlink
      | _ => rfl
    rw [joinChain, foldl_cons, hjoin]
    exact ih fun x hx => hkeeps x (mem_cons_of_mem _ hx)

omit [DecidableEq Value] in
/-- Without rows in its first table, a chain that keeps no right rows has no rows. -/
theorem joinedRows_withoutFirstTable (hnonempty : plan.joinedTables ≠ [])
    (hkeeps : ∀ joined ∈ plan.joinedTables, joined.joinType.keepsRightRows = false)
    (terms : List WhereTerm) (c : Contents (TableRow Value)) :
    plan.joinedRows ev terms (plan.withoutFirstTable c) = 0 := by
  obtain ⟨a, rest, htables⟩ := exists_cons_of_ne_nil hnonempty
  have ha : joinLink ev.truth (plan.withoutFirstTable c)
      (terms.map plan.ownedTerm) {Env.empty} a.link = 0 := by
    have htype : a.link.joinType.kind = .inner := by
      rw [link, joinType, plan.first a (by rw [htables]; rfl)]
      rfl
    have hrows : plan.withoutFirstTable c a.link.table = 0 := by
      rw [withoutFirstTable, htables]
      exact update_self _ _ _
    rw [joinLink, htype, hrows]
    simp [Joins.join, Joins.matched, Joins.partners]
  have hch : joinChain ev.truth (plan.withoutFirstTable c)
      (terms.map plan.ownedTerm) (plan.joinedTables.map link) {Env.empty} = 0 := by
    rw [htables, map_cons, joinChain, foldl_cons, ha]
    refine joinChain_zero fun link hlink => ?_
    obtain ⟨joined, hjoined, rfl⟩ := mem_map.mp hlink
    exact hkeeps joined (by rw [htables]; exact mem_cons_of_mem _ hjoined)
  rw [joinedRows, queryRows, hch]
  rfl

/-- The operators of a SELECT without RIGHT and FULL joins yield its rows. -/
theorem dagRows_eq_rows_of_keeps_no_right_rows (db : Database Value)
    (hbuild : buildSelectPlanDag resolver subqueries.build plan builder = .ok (id, builder'))
    (hkeeps : ∀ joined ∈ plan.joinedTables, joined.joinType.keepsRightRows = false) :
    (ev.rowsAt db builder' id).map StreamRow.values =
      plan.rows ev resolver (plan.tableRows subqueries db) := by
  by_cases hfree : TableFreeTrue ev plan.whereClause
  · exact dagRows_of_free db hbuild hfree
  · obtain ⟨placed, hnonempty, -⟩ := dagRows_eq_placedRows db hbuild
    obtain ⟨hdag, hrows⟩ := dagRows_of_not_free db hbuild hfree
    rw [hdag, hrows, rowsWithoutFirst, joinedRows_withoutFirstTable hnonempty hkeeps]
    rfl

end Select

/-! ## A constant WHERE term and a RIGHT join -/

/-- Values of expressions where all values are numbers and `0` stands for FALSE and NULL. -/
def numberValue (env : Env TableInternalId (TableRow ℕ)) : Expr → ℕ
  | .column table column => (env table).elim 0 fun row => row.values.getD column 0
  | .binary lhs .and rhs => (numberValue env lhs != 0 && numberValue env rhs != 0).toNat
  | .binary lhs .equals rhs => (numberValue env lhs == numberValue env rhs).toNat
  | .opaqueExpr (.other literal) _ => literal
  | _ => 0

theorem numberValue_congr (env env' : Env TableInternalId (TableRow ℕ)) (expr : Expr)
    (hreads : ∀ t ∈ expr.tables, env t = env' t) :
    numberValue env expr = numberValue env' expr := by
  induction expr using numberValue.induct with
  | case1 t column => rw [numberValue, numberValue, hreads t (mem_singleton_self t)]
  | case2 lhs rhs ihl ihr | case3 lhs rhs ihl ihr =>
    rw [numberValue, numberValue, ihl fun t h => hreads t (mem_append_left _ h),
      ihr fun t h => hreads t (mem_append_right _ h)]
  | case4 => rw [numberValue, numberValue]
  | case5 => simp [numberValue]

variable (published : List (Expr × ℕ))

open Classical in
/-- The value of an expression that may be published; the last column of a name counts. -/
noncomputable def publishedOr (expr : Expr) (value : ℕ) : ℕ :=
  match published with
  | [] => value
  | _ :: _ => ((published.reverse.find? fun column => column.1 = expr).map Prod.snd).getD value

open Classical in
theorem publishedOr_of_mem {published : List (Expr × ℕ)} {expr : Expr} {value : ℕ}
    (hm : (expr, value) ∈ published) (hunique : ∀ other, (expr, other) ∈ published → other = value)
    (other : ℕ) : publishedOr published expr other = value := by
  cases published with
  | nil => cases hm
  | cons a rest =>
    rw [publishedOr]
    cases hfind : (a :: rest).reverse.find? fun column => column.1 = expr with
    | none =>
      have hno := find?_eq_none.mp hfind _ (mem_reverse.mpr hm)
      simp at hno
    | some column =>
      have hexpr : column.1 = expr := by simpa using find?_some hfind
      have hcolumn := mem_reverse.mp (mem_of_find?_eq_some hfind)
      exact hunique column.2 (by rw [← hexpr]; exact hcolumn)

open Classical in
theorem publishedOr_cons_self (column : Expr × ℕ) (expr : Expr) (value : ℕ)
    (hvalue : column.1 = expr → column.2 = value) :
    publishedOr (column :: published) expr value = publishedOr published expr value := by
  rw [publishedOr]
  cases published with
  | nil =>
    rw [reverse_singleton, find?_singleton]
    split_ifs with hexpr
    · exact hvalue (of_decide_eq_true hexpr)
    · rfl
  | cons a rest =>
    rw [publishedOr, reverse_cons, find?_append]
    cases hfind : (a :: rest).reverse.find? fun column => column.1 = expr with
    | some found => rfl
    | none =>
      rw [find?_singleton]
      split_ifs with hexpr
      · exact hvalue (of_decide_eq_true hexpr)
      · rfl

/-- An evaluator on numbers. -/
noncomputable def numberEvaluator : Evaluator ℕ where
  eval published env expr := publishedOr published expr (numberValue env expr)
  isTrue value := value ≠ 0
  aggregate _ members := members.card
  classOf _ values := values
  shown rows := rows.toList.headD []
  eval_congr env env' expr hreads := numberValue_congr env env' expr hreads
  isTrue_and env lhs rhs := by
    show decide (numberValue env (.binary lhs .and rhs) ≠ 0) =
      (decide (numberValue env lhs ≠ 0) && decide (numberValue env rhs ≠ 0))
    rw [numberValue]
    by_cases hlhs : numberValue env lhs = 0
    · simp [hlhs]
    · by_cases hrhs : numberValue env rhs = 0
      · simp [hrhs]
      · simp [hlhs, hrhs]
  eval_published published env expr value hmem hunique := publishedOr_of_mem hmem hunique _
  eval_literalZero published env expr := publishedOr_cons_self _ _ _ _ fun hexpr => by
    subst hexpr
    rfl
  shown_mem rows hrows := by
    obtain ⟨row, hrow⟩ := Multiset.exists_mem_of_ne_zero hrows
    have hne : rows.toList ≠ [] := ne_nil_of_mem (mem_toList.mpr hrow)
    obtain ⟨first, rest, hlist⟩ := exists_cons_of_ne_nil hne
    rw [hlist]
    exact mem_toList.mp (by rw [hlist]; exact mem_cons_self)

/-- No subqueries in FROM. -/
def noSubqueries (ev : Evaluator ℕ) : Subqueries ev Empty where
  build sub := sub.elim
  rows sub := sub.elim
  build_spec sub := sub.elim

/-- `SELECT b.x FROM a RIGHT JOIN b ON a.x = b.x WHERE literal`. -/
def rightJoinPlan (literal : ℕ) : SelectPlan Empty where
  orderBy := []
  limit := none
  offset := none
  values := []
  hasWindow := false
  nonFromClauseSubqueries := []
  joinedTables := [⟨0, none, .btree ⟨2, [some "x"]⟩⟩, ⟨1, some .rightOuter, .btree ⟨3, [some "x"]⟩⟩]
  whereClause := [⟨.binary (.column 0 0) .equals (.column 1 0), .join (.outer 1)⟩,
    ⟨.opaqueExpr (.other literal) [], .whereClause⟩]
  groupBy := none
  aggregates := []
  resultColumns := [.column 1 0]
  isDistinct := false
  nodup := by decide
  first := by
    rintro joined ⟨⟩
    rfl

def binaryKeys : Resolver := ⟨fun _ => ⟨.binary, false⟩, fun _ => false⟩

/-- One row in each table. -/
def sevenAndEight : Database ℕ
  | 2 => {⟨[7], some 1⟩}
  | 3 => {⟨[8], some 1⟩}
  | _ => 0

/-- The operators of the plan. -/
def rightJoinDag (literal : ℕ) : NodeId × DagBuilder :=
  match buildSelectPlanDag binaryKeys Empty.elim (rightJoinPlan literal) [] with
  | .ok dag => dag
  | .error _ => (0, [])

/-- A constant term that is TRUE does no harm. -/
theorem dagRows_rightJoin_whereOne :
    (numberEvaluator.rowsAt sevenAndEight (rightJoinDag 1).2 (rightJoinDag 1).1).map
        StreamRow.values =
      (rightJoinPlan 1).rows numberEvaluator binaryKeys
        ((rightJoinPlan 1).tableRows (noSubqueries numberEvaluator) sevenAndEight) := by
  have hbuild : buildSelectPlanDag binaryKeys (noSubqueries numberEvaluator).build (rightJoinPlan 1)
      [] = .ok (rightJoinDag 1) := rfl
  refine (dagRows_eq_rows_iff hbuild).mpr (.inl fun term hterm horigin _ => ?_)
  simp only [rightJoinPlan, mem_cons, not_mem_nil, or_false] at hterm
  rcases hterm with rfl | rfl
  · cases horigin
  · rfl

/-- `WHERE 0` on a RIGHT join: the SELECT has no rows, its operators yield the unmatched row of the
right table. -/
theorem dagRows_rightJoin_whereZero :
    buildSelectPlanDag binaryKeys (noSubqueries numberEvaluator).build (rightJoinPlan 0) [] =
        .ok (rightJoinDag 0) ∧
      (rightJoinPlan 0).rows numberEvaluator binaryKeys
        ((rightJoinPlan 0).tableRows (noSubqueries numberEvaluator) sevenAndEight) = 0 ∧
      (numberEvaluator.rowsAt sevenAndEight (rightJoinDag 0).2 (rightJoinDag 0).1).map
        StreamRow.values = {[8]} :=
  ⟨rfl, by decide, by decide⟩

/-- `SELECT b.x FROM a LEFT JOIN b ON a.x = b.x WHERE 0`. -/
def leftJoinPlan : SelectPlan Empty :=
  { rightJoinPlan 0 with
    joinedTables := [⟨0, none, .btree ⟨2, [some "x"]⟩⟩, ⟨1, some .leftOuter, .btree ⟨3, [some "x"]⟩⟩]
    nodup := by decide
    first := by
      rintro joined ⟨⟩
      rfl }

theorem dagRows_leftJoin_whereZero : ∃ id builder,
    buildSelectPlanDag binaryKeys (noSubqueries numberEvaluator).build leftJoinPlan [] =
        .ok (id, builder) ∧
      (numberEvaluator.rowsAt sevenAndEight builder id).map StreamRow.values =
        leftJoinPlan.rows numberEvaluator binaryKeys
          (leftJoinPlan.tableRows (noSubqueries numberEvaluator) sevenAndEight) :=
  ⟨_, _, rfl, @dagRows_eq_rows_of_keeps_no_right_rows _ _ _ _ _ [] _ _ _ _ _ rfl (by decide)⟩

end Turso.Incremental
