import Turso.Incremental.Placement

/-!
# The operators of the joins

What `build_select_plan_dag` builds for the joins of a SELECT is followed node by node.  The streams
carry the joined rows in the layout of the visible tables (`layout`), so that each join operator yields
a join of the chain (`pushJoin_spec`), and `push_outer_join` yields the outer joins.  The operators of
all joins and filters together yield the chain with the terms at their places (`buildSteps_spec`).
-/

namespace Turso.Incremental

open List Joins Evaluator
open Multiset (filter_congr map_add map_congr mem_map mem_of_mem_filter)

open Turso.Translate (TableInternalId Expr WhereTerm JoinType Link)

variable {Value : Type}
variable {rows : Multiset (StreamRow Value)} {contents : Translate.Contents (TableRow Value)}
  {tables : List TableInternalId} {env : Env TableInternalId (TableRow Value)}

/-! ## The layout of joined rows -/

/-- The joined row in a stream that binds `tables`. -/
def layout (tables : List TableInternalId) (env : Env TableInternalId (TableRow Value)) :
    StreamRow Value :=
  ⟨tables.map fun table => (table, env table), []⟩

/-- A row of one table in the stream of its scan. -/
def single (table : TableInternalId) (row : TableRow Value) : StreamRow Value :=
  ⟨[(table, some row)], []⟩

/-- The joined row has no rows of other tables. -/
def Supported (tables : List TableInternalId) (env : Env TableInternalId (TableRow Value)) : Prop :=
  ∀ table, table ∉ tables → env table = none

theorem env_layout (hsupported : Supported tables env) : (layout tables env).env = env := by
  have hlookup : ∀ table, (tables.map fun table => (table, env table)).lookup table =
      if table ∈ tables then some (env table) else none := by
    intro table
    clear hsupported
    induction tables with
    | nil => rfl
    | cons a rest ih =>
      rw [map_cons, lookup_cons, ih]
      by_cases ha : table = a
      · simp [ha]
      · have hbeq : (table == a) = false := beq_eq_false_iff_ne.mpr ha
        simp [ha, hbeq]
  funext table
  rw [StreamRow.env, layout, hlookup]
  split_ifs with hm
  · rfl
  · exact (hsupported table hm).symm

theorem value_layout (ev : Evaluator Value) (hsupported : Supported tables env) :
    ev.value (layout tables env) = ev.eval [] env := by
  rw [value, env_layout hsupported]
  rfl

theorem allTrue_layout (ev : Evaluator Value) (hsupported : Supported tables env)
    (conditions : List Expr) :
    ev.allTrue conditions (layout tables env) = ev.holdsOn conditions env := by
  rw [allTrue, value_layout ev hsupported]
  rfl

section Append

variable {t : TableInternalId} (r : TableRow Value)

theorem map_add_of_notMem (hnew : t ∉ tables) : (tables.map fun x => (x, env.add t r x)) =
      tables.map fun x => (x, env x) := by
  refine map_congr_left fun x hx => ?_
  rw [Env.add_of_ne r (ne_of_mem_of_not_mem hx hnew)]

theorem layout_append_single (hnew : t ∉ tables) :
    (layout tables env).append (single t r) = layout (tables ++ [t]) (env.add t r) := by
  rw [layout, layout, map_append, map_add_of_notMem r hnew, map_singleton, Env.add_self]
  rfl

theorem single_append_layout (hnew : t ∉ tables) :
    (single t r).append (layout tables env) = layout (t :: tables) (env.add t r) := by
  rw [layout, layout, map_cons, map_add_of_notMem r hnew, Env.add_self]
  rfl

theorem single_eq_layout : single t r = layout [t] (Env.empty.add t r) := by
  rw [layout, map_singleton, Env.add_self]
  rfl

theorem Supported.add (hsupported : Supported tables env) :
    Supported (tables ++ [t]) (env.add t r) := by
  intro x hx
  rw [mem_append, mem_singleton, not_or] at hx
  rw [Env.add_of_ne r hx.2]
  exact hsupported x hx.1

theorem Supported.cons_add (hsupported : Supported tables env) :
    Supported (t :: tables) (env.add t r) := by
  intro x hx
  rw [mem_cons, not_or] at hx
  rw [Env.add_of_ne r hx.1]
  exact hsupported x hx.2

end Append

theorem Supported.append
    (hsupported : Supported tables env)
    (more : List TableInternalId) : Supported (tables ++ more) env :=
  fun x hx => hsupported x fun hm => hx (mem_append_left _ hm)

/-! ## The join operators -/

section JoinRows

variable (ev : Evaluator Value) {t : TableInternalId}
  (hnew : t ∉ tables) {lefts : Multiset (Env TableInternalId (TableRow Value))}
  (hlefts : ∀ env ∈ lefts, Supported tables env) (rights : Multiset (TableRow Value))
  (on : List Expr)
include hnew hlefts

theorem joinRows_inner : ev.joinRows on (lefts.map (layout tables)) (rights.map (single t)) .inner =
      (matched t rights (ev.holdsOn on) lefts).map (layout (tables ++ [t])) := by
  rw [joinRows, Multiset.bind_map, matched, Multiset.map_bind]
  refine Multiset.bind_congr fun env henv => ?_
  rw [partners, Multiset.map_map, Multiset.filter_map, Multiset.filter_map, Multiset.map_map]
  have hr : ∀ r, (layout tables env).append (single t r) =
      layout (tables ++ [t]) (env.add t r) := fun r => layout_append_single r hnew
  refine map_congr ?_ fun r _ => hr r
  refine filter_congr fun r _ => ?_
  simp only [Function.comp_apply, hr, allTrue_layout ev ((hlefts env henv).add r)]

/-- The left rows with or without a partner. -/
theorem forall_not_allTrue_iff (henv : env ∈ lefts) :
    (∀ right ∈ rights.map (single t), ¬ev.allTrue on ((layout tables env).append right)) ↔
      ∀ r ∈ rights, ¬ev.holdsOn on (env.add t r) := by
  rw [Multiset.forall_mem_map_iff]
  refine forall₂_congr fun r _ => ?_
  rw [layout_append_single r hnew, allTrue_layout ev ((hlefts env henv).add r)]

theorem joinRows_anti : ev.joinRows on (lefts.map (layout tables)) (rights.map (single t)) .anti =
      (leftOnly t rights (ev.holdsOn on) lefts).map (layout tables) := by
  rw [joinRows, Multiset.filter_map]
  refine map_congr (filter_congr fun env henv => ?_) fun _ _ => rfl
  exact forall_not_allTrue_iff ev hnew hlefts rights on henv

theorem joinRows_semi : ev.joinRows on (lefts.map (layout tables)) (rights.map (single t)) .semi =
      (leftMatched t rights (ev.holdsOn on) lefts).map (layout tables) := by
  rw [joinRows, Multiset.filter_map]
  refine map_congr (filter_congr fun env henv => ?_) fun _ _ => rfl
  exact not_congr (forall_not_allTrue_iff ev hnew hlefts rights on henv)

/-- The right rows without a partner, with the sides exchanged. -/
theorem joinRows_anti_swap :
    ev.joinRows on (rights.map (single t)) (lefts.map (layout tables)) .anti =
      (rights.filter fun r => ∀ env ∈ lefts, ¬ev.holdsOn on (env.add t r)).map (single t) := by
  rw [joinRows, Multiset.filter_map]
  refine map_congr (filter_congr fun r _ => ?_) fun _ _ => rfl
  rw [Function.comp_apply, Multiset.forall_mem_map_iff]
  refine forall₂_congr fun env henv => ?_
  rw [single_append_layout r hnew, allTrue_layout ev ((hlefts env henv).cons_add r)]

end JoinRows

/-! ## Pushing joins -/

variable {b b' : DagBuilder}

theorem bind_ok {α β : Type} {a : Build α} {next : α → Build β}
    {res : β} (hrun : (a >>= next) b = .ok (res, b')) :
    ∃ value between, a b = .ok (value, between) ∧
      next value between = .ok (res, b') := by
  change (a b >>= fun pair => next pair.1 pair.2) = _ at hrun
  cases ha : a b with
  | error error =>
    rw [ha] at hrun
    cases hrun
  | ok pair =>
    rw [ha] at hrun
    exact ⟨pair.1, pair.2, rfl, hrun⟩

theorem pure_ok {α : Type} {v res : α} {builder builder' : DagBuilder}
    (hrun : (pure v : Build α) builder = .ok (res, builder')) :
    res = v ∧ builder' = builder := by
  cases hrun
  exact ⟨rfl, rfl⟩

section Pushing

variable [DecidableEq Value] (ev : Evaluator Value) (database : Database Value)

/-- A node of the builder, the rows it yields and the tables bound in its stream. -/
structure NodeAt (builder : DagBuilder) (node : NodeId) (rows : Multiset (StreamRow Value))
    (tables : List TableInternalId) : Prop where
  lt_length : node < builder.length
  rows_eq : ev.rowsAt database builder node = rows
  bindings_eq : (builder.outputSchema node).bindings = tables

variable {ev database}

theorem NodeAt.mono {node : NodeId}
    (hnode : NodeAt ev database b node rows tables) (hgrows : b <+: b') :
    NodeAt ev database b' node rows tables where
  lt_length := lt_of_lt_of_le hnode.lt_length hgrows.length_le
  rows_eq := (ev.rowsAt_of_grows database hgrows hnode.lt_length).trans hnode.rows_eq
  bindings_eq := by
    rw [DagBuilder.outputSchema_of_grows hgrows hnode.lt_length]
    exact hnode.bindings_eq

variable {id : NodeId}

theorem pushNode_spec (ev : Evaluator Value) (db : Database Value) {node : OpNode}
    (hpush : pushNode node b = .ok (id, b')) :
    b <+: b' ∧ ∃ schema, b.deriveOutputSchema node = .ok schema ∧
      NodeAt ev db b' id (ev.nodeRows db (ev.rowsOf db b) node)
        schema.bindings := by
  obtain ⟨hgrows, hlt, hrows, hschema⟩ := ev.push_spec db hpush
  exact ⟨hgrows, _, hschema, hlt, hrows, rfl⟩

/-- The tables in the stream of a join. -/
def joinTables (tables more : List TableInternalId) : JoinKind → List TableInternalId
  | .inner => tables ++ more
  | .semi | .anti => tables

section Join

variable {builder builder' : DagBuilder} {left right id : NodeId} {on : List Expr}
  {more : List TableInternalId}

theorem pushJoinNode_spec {leftRows rightRows : Multiset (StreamRow Value)}
    {kind : JoinKind}
    (hleft : NodeAt ev database builder left leftRows tables)
    (hright : NodeAt ev database builder right rightRows more)
    (hpush : pushNode (.join left right on kind) builder = .ok (id, builder')) :
    builder <+: builder' ∧ NodeAt ev database builder' id (ev.joinRows on leftRows rightRows kind)
      (joinTables tables more kind) := by
  obtain ⟨hgrows, schema, hschema, hnode⟩ := pushNode_spec ev database hpush
  refine ⟨hgrows, hnode.lt_length, ?_, ?_⟩
  · rw [hnode.rows_eq, ← hleft.rows_eq, ← hright.rows_eq]
    rfl
  · rw [hnode.bindings_eq]
    cases kind with
    | inner =>
      cases hschema
      rw [hleft.bindings_eq, hright.bindings_eq]
      rfl
    | semi | anti =>
      cases hschema
      exact hleft.bindings_eq

/-- Rows of a stream with NULL columns for more tables before and after. -/
def padRow (before after : List TableInternalId) (row : StreamRow Value) : StreamRow Value :=
  ⟨before.map (fun table => (table, none)) ++ row.bindings ++
    after.map (fun table => (table, none)), row.columns⟩

theorem pushPad_spec {input : NodeId} {before after : StreamSchema}
    (hinput : NodeAt ev database builder input rows tables)
    (hpush : pushNode (.pad input before after) builder = .ok (id, builder')) :
    builder <+: builder' ∧ NodeAt ev database builder' id
      (rows.map (padRow before.bindings after.bindings))
      (before.bindings ++ tables ++ after.bindings) := by
  obtain ⟨hgrows, schema, hschema, hnode⟩ := pushNode_spec ev database hpush
  cases hschema
  refine ⟨hgrows, hnode.lt_length, ?_, ?_⟩
  · rw [hnode.rows_eq, ← hinput.rows_eq]
    rfl
  · rw [hnode.bindings_eq, hinput.bindings_eq]

/-- The padded rows of one side without a partner. -/
theorem pushUnmatched_spec {otherRows : Multiset (StreamRow Value)}
    {padBefore : Bool}
    (hside : NodeAt ev database builder left rows tables)
    (hx : NodeAt ev database builder right otherRows more)
    (hpush : pushUnmatched left right on padBefore builder = .ok (id, builder')) :
    ∃ before after, (before, after) = (if padBefore then (more, []) else ([], more)) ∧
      builder <+: builder' ∧ NodeAt ev database builder' id
        ((ev.joinRows on rows otherRows .anti).map (padRow before after))
        (before ++ tables ++ after) := by
  obtain ⟨unmatched, between, hjoin, hpush⟩ := bind_ok hpush
  obtain ⟨hgrows, hunmatched⟩ := pushJoinNode_spec hside hx hjoin
  obtain ⟨schema, between', hschema, hpush⟩ := bind_ok hpush
  cases hschema
  have hbindings := (hx.mono hgrows).bindings_eq
  cases padBefore
  all_goals
    obtain ⟨hgrows', hnode⟩ := pushPad_spec hunmatched hpush
    rw [hbindings] at hnode
    exact ⟨_, _, rfl, hgrows.trans hgrows', hnode⟩

variable (ev database) in
theorem pushSetOp_spec {arity : ℕ} {a : NodeId} {rest : List NodeId}
    (ha : (builder.outputSchema a).bindings = tables)
    (hpush : pushNode (.setOp (a :: rest) arity) builder = .ok (id, builder')) :
    builder <+: builder' ∧ NodeAt ev database builder' id
      ((a :: rest).map (ev.rowsAt database builder)).sum tables := by
  obtain ⟨hgrows, schema, hschema, hnode⟩ := pushNode_spec ev database hpush
  refine ⟨hgrows, hnode.lt_length, hnode.rows_eq, ?_⟩
  rw [hnode.bindings_eq, ← ha]
  simp only [DagBuilder.deriveOutputSchema] at hschema
  split at hschema
  · cases hschema
  · cases hschema
    rfl

variable (ev database) in
/-- The branches of a set operation and the rows they yield together. -/
structure BranchesAt (builder : DagBuilder) (branches : List NodeId)
    (rows : Multiset (StreamRow Value)) : Prop where
  lt_length : ∀ node ∈ branches, node < builder.length
  rows_eq : (branches.map (ev.rowsAt database builder)).sum = rows

theorem BranchesAt.mono {branches : List NodeId}
    (hbranches : BranchesAt ev database builder branches rows) (hgrows : builder <+: builder') :
    BranchesAt ev database builder' branches rows where
  lt_length node hnode := lt_of_lt_of_le (hbranches.lt_length node hnode) hgrows.length_le
  rows_eq := by
    rw [← hbranches.rows_eq]
    exact congrArg _ (map_congr_left fun node hnode =>
      ev.rowsAt_of_grows database hgrows (hbranches.lt_length node hnode))

/-- A branch that is pushed only if its rows are kept. -/
theorem pushKept_spec {keep : Bool} {pushBranch : Build NodeId} {branches : List NodeId}
    (hpush : ∀ id between, pushBranch builder = .ok (id, between) →
      builder <+: between ∧ id < between.length ∧ ev.rowsAt database between id = rows)
    (hkept : pushKept keep pushBranch builder = .ok (branches, builder')) :
    builder <+: builder' ∧ BranchesAt ev database builder' branches (if keep then rows else 0) := by
  cases keep with
  | false =>
    obtain ⟨rfl, rfl⟩ := pure_ok hkept
    exact ⟨prefix_rfl, fun _ h => absurd h not_mem_nil, rfl⟩
  | true =>
    obtain ⟨id, between, hid, hpure⟩ := bind_ok hkept
    obtain ⟨rfl, rfl⟩ := pure_ok hpure
    obtain ⟨hgrows, hlt, hrows⟩ := hpush id _ hid
    refine ⟨hgrows, forall_mem_singleton.2 hlt, ?_⟩
    rw [map_singleton, sum_singleton, hrows]
    rfl

section Chain

variable {t : TableInternalId}
  {lefts : Multiset (Env TableInternalId (TableRow Value))} {rights : Multiset (TableRow Value)}
  (hnew : t ∉ tables) (hlefts : ∀ env ∈ lefts, Supported tables env)

omit [DecidableEq Value] in
include hnew hlefts in
theorem map_padRow_leftOnly :
    ((leftOnly t rights (ev.holdsOn on) lefts).map (layout tables)).map (padRow [] [t]) =
      (leftOnly t rights (ev.holdsOn on) lefts).map (layout (tables ++ [t])) := by
  rw [Multiset.map_map]
  refine map_congr rfl fun env henv => ?_
  have hno := hlefts env (mem_of_mem_filter henv) t hnew
  rw [Function.comp_apply, padRow, layout, layout, map_append, map_singleton, map_singleton, hno]
  rfl

omit [DecidableEq Value] in
include hnew in
theorem map_padRow_rightOnly :
    ((rights.filter fun r => ∀ env ∈ lefts, ¬ev.holdsOn on (env.add t r)).map
        (single t)).map (padRow tables []) =
      (rightOnly t rights (ev.holdsOn on) lefts).map (layout (tables ++ [t])) := by
  rw [rightOnly, Multiset.map_map, Multiset.map_map]
  refine map_congr rfl fun r _ => ?_
  have hmap : (tables.map fun x => (x, Env.empty.add t r x)) =
      tables.map fun x => (x, (Env.empty : Env TableInternalId (TableRow Value)) x) :=
    map_add_of_notMem r hnew
  rw [Function.comp_apply, Function.comp_apply, padRow, layout, map_append, hmap,
    map_singleton, Env.add_self, map_nil, append_nil]
  rfl

/-- The tables visible after a join. -/
def visibleTables (tables : List TableInternalId) (link : Link) : List TableInternalId :=
  if hidesTable link.joinType then tables else tables ++ [link.table]

variable (hleft : NodeAt ev database builder left (lefts.map (layout tables)) tables)
  (hright : NodeAt ev database builder right (rights.map (single t)) [t])
include hnew hlefts hleft hright

theorem pushUnmatched_left
    (hpush : pushUnmatched left right on false builder = .ok (id, builder')) :
    builder <+: builder' ∧ id < builder'.length ∧ ev.rowsAt database builder' id =
      (leftOnly t rights (ev.holdsOn on) lefts).map (layout (tables ++ [t])) := by
  obtain ⟨before, after, hsides, hgrows, hnode⟩ := pushUnmatched_spec hleft hright hpush
  cases hsides
  refine ⟨hgrows, hnode.lt_length, ?_⟩
  rw [hnode.rows_eq, joinRows_anti ev hnew hlefts, map_padRow_leftOnly hnew hlefts]

theorem pushUnmatched_right
    (hpush : pushUnmatched right left on true builder = .ok (id, builder')) :
    builder <+: builder' ∧ id < builder'.length ∧ ev.rowsAt database builder' id =
      (rightOnly t rights (ev.holdsOn on) lefts).map (layout (tables ++ [t])) := by
  obtain ⟨before, after, hsides, hgrows, hnode⟩ := pushUnmatched_spec hright hleft hpush
  cases hsides
  refine ⟨hgrows, hnode.lt_length, ?_⟩
  rw [hnode.rows_eq, joinRows_anti_swap ev hnew hlefts, map_padRow_rightOnly hnew]

/-- An outer join is the inner join and the padded rows of the sides it keeps. -/
theorem pushOuterJoin_spec {keepLeftRows keepRightRows : Bool}
    (hpush : pushOuterJoin left right on keepLeftRows keepRightRows builder = .ok (id, builder')) :
    builder <+: builder' ∧ NodeAt ev database builder' id
      ((matched t rights (ev.holdsOn on) lefts).map (layout (tables ++ [t])) +
        (if keepLeftRows then (leftOnly t rights (ev.holdsOn on) lefts).map
          (layout (tables ++ [t])) else 0) +
        if keepRightRows then (rightOnly t rights (ev.holdsOn on) lefts).map
          (layout (tables ++ [t])) else 0) (tables ++ [t]) := by
  obtain ⟨inner, builder₁, hinner, hpush⟩ := bind_ok hpush
  obtain ⟨hgrows₁, hinner⟩ := pushJoinNode_spec hleft hright hinner
  rw [joinRows_inner ev hnew hlefts] at hinner
  obtain ⟨leftBranch, builder₂, hkept, hpush⟩ := bind_ok hpush
  obtain ⟨hgrows₂, hleftBranch⟩ := pushKept_spec (fun _ _ => pushUnmatched_left hnew hlefts
    (hleft.mono hgrows₁) (hright.mono hgrows₁)) hkept
  have hgrows₁₂ := hgrows₁.trans hgrows₂
  obtain ⟨rightBranch, builder₃, hkept, hpush⟩ := bind_ok hpush
  obtain ⟨hgrows₃, hrightBranch⟩ := pushKept_spec (fun _ _ => pushUnmatched_right hnew hlefts
    (hleft.mono hgrows₁₂) (hright.mono hgrows₁₂)) hkept
  obtain ⟨schema, builder₄, hschema, hpush⟩ := bind_ok hpush
  cases hschema
  have hinner₃ := hinner.mono (hgrows₂.trans hgrows₃)
  obtain ⟨hgrows₄, hnode⟩ := pushSetOp_spec ev database hinner₃.bindings_eq hpush
  refine ⟨(hgrows₁₂.trans hgrows₃).trans hgrows₄, ?_⟩
  rw [map_cons, sum_cons, map_append, sum_append, hinner₃.rows_eq,
    (hleftBranch.mono hgrows₃).rows_eq, hrightBranch.rows_eq, ← add_assoc] at hnode
  exact hnode

/-- Each join of the source yields the join of the chain. -/
theorem pushJoin_spec {joinType : JoinType}
    (hpush : pushJoin left right on joinType builder = .ok (id, builder')) :
    builder <+: builder' ∧ NodeAt ev database builder' id
      ((join t rights (ev.holdsOn on) lefts joinType.kind).map
        (layout (visibleTables tables ⟨t, joinType⟩))) (visibleTables tables ⟨t, joinType⟩) := by
  cases joinType with
  | inner =>
    obtain ⟨hgrows, hnode⟩ := pushJoinNode_spec hleft hright hpush
    rw [joinRows_inner ev hnew hlefts] at hnode
    exact ⟨hgrows, hnode⟩
  | leftOuter | rightOuter | fullOuter =>
    obtain ⟨hgrows, hnode⟩ := pushOuterJoin_spec hnew hlefts hleft hright hpush
    simp only [if_true, Bool.false_eq_true, if_false, add_zero, ← map_add] at hnode
    exact ⟨hgrows, hnode⟩
  | semi =>
    obtain ⟨hgrows, hnode⟩ := pushJoinNode_spec hleft hright hpush
    rw [joinRows_semi ev hnew hlefts] at hnode
    exact ⟨hgrows, hnode⟩
  | anti =>
    obtain ⟨hgrows, hnode⟩ := pushJoinNode_spec hleft hright hpush
    rw [joinRows_anti ev hnew hlefts] at hnode
    exact ⟨hgrows, hnode⟩

end Chain

end Join

/-! ## Pushing filters -/

omit [DecidableEq Value] in
theorem isTrue_foldl_and (env : Env TableInternalId (TableRow Value)) (predicates : List Expr) :
    ∀ last, ev.isTrue (ev.eval [] env
        (predicates.foldl (fun right left => .binary left .and right) last)) =
      (ev.holdsOn predicates env && ev.isTrue (ev.eval [] env last)) := by
  induction predicates with
  | nil => exact fun last => (Bool.true_and _).symm
  | cons a rest ih =>
    intro last
    rw [foldl_cons, ih, ev.isTrue_and, holdsOn, holdsOn, all_cons,
      ← Bool.and_assoc, Bool.and_comm (rest.all _)]

omit [DecidableEq Value] in
theorem all_combinePredicates (env : Env TableInternalId (TableRow Value))
    (predicates : List Expr) :
    ((combinePredicates predicates).all fun condition => ev.isTrue (ev.eval [] env condition)) =
      ev.holdsOn predicates env := by
  rcases eq_nil_or_concat predicates with rfl | ⟨init, last, rfl⟩
  · rfl
  · rw [concat_eq_append, combinePredicates, getLast?_concat, dropLast_concat]
    show ev.isTrue (ev.eval [] env _) = _
    rw [isTrue_foldl_and, holdsOn, holdsOn, all_append, all_cons,
      all_nil, Bool.and_true]

section Filter

variable {builder builder' : DagBuilder} {node id : NodeId} {predicates : List Expr}

theorem pushFilter_spec
    (hnode : NodeAt ev database builder node rows tables)
    (hpush : pushFilter node predicates builder = .ok (id, builder')) :
    builder <+: builder' ∧ NodeAt ev database builder' id
      (rows.filter fun row => (combinePredicates predicates).all fun condition =>
        ev.isTrue (ev.value row condition)) tables := by
  unfold pushFilter at hpush
  cases hcombine : combinePredicates predicates with
  | none =>
    rw [hcombine] at hpush
    obtain ⟨rfl, rfl⟩ := pure_ok hpush
    refine ⟨prefix_rfl, ?_⟩
    simpa only [Option.all_none, Multiset.filter_true] using hnode
  | some predicate =>
    rw [hcombine] at hpush
    obtain ⟨hgrows, schema, hschema, hfiltered⟩ := pushNode_spec ev database hpush
    cases hschema
    refine ⟨hgrows, hfiltered.lt_length, ?_, hfiltered.bindings_eq.trans hnode.bindings_eq⟩
    rw [hfiltered.rows_eq, ← hnode.rows_eq]
    rfl

variable {lefts : Multiset (Env TableInternalId (TableRow Value))}

theorem pushFilter_layout
    (hlefts : ∀ env ∈ lefts, Supported tables env)
    (hnode : NodeAt ev database builder node (lefts.map (layout tables)) tables)
    (hpush : pushFilter node predicates builder = .ok (id, builder')) :
    builder <+: builder' ∧ NodeAt ev database builder' id
      ((lefts.filter fun env => ev.holdsOn predicates env).map (layout tables)) tables := by
  obtain ⟨hgrows, hfiltered⟩ := pushFilter_spec hnode hpush
  rw [Multiset.filter_map] at hfiltered
  refine ⟨hgrows, ?_⟩
  have hsame : lefts.filter (fun env => ev.holdsOn predicates env) =
      lefts.filter ((fun r => (combinePredicates predicates).all fun condition =>
        ev.isTrue (ev.value r condition)) ∘ layout tables) := by
    refine filter_congr fun env henv => ?_
    rw [Function.comp_apply, value_layout ev (hlefts env henv), all_combinePredicates]
  rw [hsame]
  exact hfiltered

end Filter

/-! ## The whole chain -/

omit [DecidableEq Value] in
theorem supported_join {link : Link}
    {rights : Multiset (TableRow Value)}
    {on : Env TableInternalId (TableRow Value) → Bool}
    (hlefts : ∀ env ∈ lefts, Supported tables env)
    (henv : env ∈ join link.table rights on lefts link.joinType.kind) :
    Supported (visibleTables tables link) env := by
  unfold visibleTables
  split_ifs with hhides
  · cases htype : link.joinType with
    | semi | anti =>
      rw [htype] at henv
      exact hlefts env (mem_of_mem_filter henv)
    | inner | leftOuter | rightOuter | fullOuter =>
      rw [htype] at hhides
      cases hhides
  · rcases mem_join henv with hmatched | hleft | hright
    · obtain ⟨left, hleft, hpartner⟩ := Multiset.mem_bind.mp hmatched
      obtain ⟨r, -, rfl⟩ := mem_map.mp (mem_of_mem_filter hpartner)
      exact (hlefts left hleft).add r
    · exact (hlefts env hleft).append _
    · obtain ⟨r, -, rfl⟩ := mem_map.mp hright
      exact Supported.add r fun _ _ => rfl

/-- The nodes of some tables. -/
def InputsAt (ev : Evaluator Value) (database : Database Value)
    (contents : Translate.Contents (TableRow Value)) (builder : DagBuilder) (links : List Link)
    (inputs : List NodeId) : Prop :=
  Forall₂ (fun link input => NodeAt ev database builder input
    ((contents link.table).map (single link.table)) [link.table]) links inputs

theorem InputsAt.mono {links : List Link} {inputs : List NodeId}
    (hinputs : InputsAt ev database contents b links inputs) (hgrows : b <+: b') :
    InputsAt ev database contents b' links inputs :=
  Forall₂.imp (fun _ _ hnode => hnode.mono hgrows) hinputs

theorem buildSteps_spec {placed : List (WhereTerm × Placement)} {builder' : DagBuilder}
    (links : List Link) :
    ∀ (inputs : List NodeId) (step : ℕ) (node : NodeId) (builder : DagBuilder)
      (lefts : Multiset (Env TableInternalId (TableRow Value))) (tables : List TableInternalId),
      InputsAt ev database contents builder links inputs →
      (∀ link ∈ links, link.table ∉ tables) → (links.map Link.table).Nodup →
      (∀ env ∈ lefts, Supported tables env) →
      NodeAt ev database builder node (lefts.map (layout tables)) tables →
      buildSteps placed step node ((links.map Link.joinType).zip inputs) builder = .ok (id, builder') →
      ∃ tables', (∀ env ∈ placedRows ev contents placed step links lefts, Supported tables' env) ∧
        builder <+: builder' ∧ NodeAt ev database builder' id
          ((placedRows ev contents placed step links lefts).map (layout tables')) tables' := by
  induction links with
  | nil =>
    intro inputs step node builder lefts tables hinputs hnew hnodup hlefts hnode hrun
    obtain ⟨rfl, rfl⟩ := pure_ok hrun
    exact ⟨tables, hlefts, prefix_rfl, hnode⟩
  | cons link rest ih =>
    intro inputs step node builder lefts tables hinputs hnew hnodup hlefts hnode hrun
    cases hinputs with
    | @cons _ input _ inputs hinput hinputs =>
      obtain ⟨joined, builder₁, hjoin, hrun⟩ := bind_ok hrun
      obtain ⟨hgrows₁, hjoined⟩ := pushJoin_spec (hnew link mem_cons_self) hlefts hnode hinput hjoin
      obtain ⟨filtered, builder₂, hfilter, hrun⟩ := bind_ok hrun
      obtain ⟨hgrows₂, hfiltered⟩ :=
        pushFilter_layout (fun env henv => supported_join hlefts henv) hjoined hfilter
      rw [map_cons, nodup_cons] at hnodup
      have hnew' : ∀ x ∈ rest, x.table ∉ visibleTables tables link := by
        intro x hx hm
        have hne : x.table ≠ link.table := fun hsame =>
          hnodup.1 (mem_map.mpr ⟨x, hx, hsame⟩)
        unfold visibleTables at hm
        split_ifs at hm
        · exact hnew x (mem_cons_of_mem _ hx) hm
        · rcases mem_append.mp hm with h | h
          · exact hnew x (mem_cons_of_mem _ hx) h
          · exact hne (mem_singleton.mp h)
      obtain ⟨tables', hsupported, hgrows₃, hres⟩ := ih inputs (step + 1) filtered builder₂ _ _
        (InputsAt.mono hinputs (hgrows₁.trans hgrows₂)) hnew' hnodup.2
        (fun env henv => supported_join hlefts (mem_of_mem_filter henv)) hfiltered hrun
      exact ⟨tables', hsupported, (hgrows₁.trans hgrows₂).trans hgrows₃, hres⟩

/-! ## The inputs -/

section Inputs

variable {Sub : Type} {subqueries : Subqueries ev Sub} {joined : JoinedTable Sub}

theorem buildInput_spec
    (hbuild : buildInput subqueries.build joined b = .ok (id, b')) :
    b <+: b' ∧ NodeAt ev database b' id
      ((joined.table.rows subqueries database).map (single joined.internalId))
      [joined.internalId] := by
  unfold buildInput at hbuild
  cases ht : joined.table with
  | btree t =>
    rw [ht] at hbuild
    obtain ⟨hgrows, schema, hschema, hnode⟩ := pushNode_spec ev database hbuild
    cases hschema
    exact ⟨hgrows, hnode⟩
  | fromClauseSubquery plan columns =>
    rw [ht] at hbuild
    obtain ⟨input, between, hinput, hpush⟩ := bind_ok hbuild
    obtain ⟨hgrows, hlt, hrows⟩ := subqueries.build_spec plan b input between hinput
    obtain ⟨hgrows', schema, hschema, hnode⟩ := pushNode_spec ev database hpush
    simp only [DagBuilder.deriveOutputSchema] at hschema
    split at hschema
    · cases hschema
    · cases hschema
      refine ⟨hgrows.trans hgrows', hnode.lt_length, ?_, hnode.bindings_eq⟩
      rw [hnode.rows_eq, Source.rows, Multiset.map_map, ← hrows database, Multiset.map_map]
      rfl
  | virtualTable | recursiveCteInput =>
    rw [ht] at hbuild
    cases hbuild

theorem buildInputs_spec (tables : List (JoinedTable Sub)) :
    ∀ (builder builder' : DagBuilder) (inputs : List NodeId),
      tables.mapM (buildInput subqueries.build) builder = .ok (inputs, builder') →
      builder <+: builder' ∧ Forall₂ (fun joined input => NodeAt ev database builder' input
        ((joined.table.rows subqueries database).map (single joined.internalId))
        [joined.internalId]) tables inputs := by
  induction tables with
  | nil =>
    intro builder builder' inputs hrun
    obtain ⟨rfl, rfl⟩ := pure_ok hrun
    exact ⟨prefix_rfl, .nil⟩
  | cons joined rest ih =>
    intro builder builder' inputs hrun
    rw [mapM_cons] at hrun
    obtain ⟨input, builder₁, hinput, hrun⟩ := bind_ok hrun
    obtain ⟨hgrows₁, hnode⟩ := buildInput_spec hinput
    obtain ⟨others, builder₂, hothers, hrun⟩ := bind_ok hrun
    obtain ⟨hgrows₂, hnodes⟩ := ih builder₁ builder₂ others hothers
    obtain ⟨rfl, rfl⟩ := pure_ok hrun
    exact ⟨hgrows₁.trans hgrows₂, .cons (hnode.mono hgrows₂) hnodes⟩

variable {plan : SelectPlan Sub}

theorem tableRows_of_mem (hjoined : joined ∈ plan.joinedTables) :
    plan.tableRows subqueries database joined.internalId =
      joined.table.rows subqueries database := by
  unfold SelectPlan.tableRows
  cases hfind : plan.joinedTables.find? fun x => x.internalId = joined.internalId with
  | none =>
    have hno := find?_eq_none.mp hfind joined hjoined
    simp at hno
  | some x =>
    have hid := find?_some hfind
    have hsame : x = joined := inj_on_of_nodup_map plan.nodup
      (mem_of_find?_eq_some hfind) hjoined (of_decide_eq_true hid)
    rw [hsame]

theorem inputsAt_of_forall₂ {tables : List (JoinedTable Sub)} {inputs : List NodeId}
    (htables : ∀ joined ∈ tables, joined ∈ plan.joinedTables)
    (hinputs : Forall₂ (fun joined input => NodeAt ev database b input
      ((joined.table.rows subqueries database).map (single joined.internalId))
      [joined.internalId]) tables inputs) :
    InputsAt ev database (plan.tableRows subqueries database) b
      (tables.map JoinedTable.link) inputs := by
  refine forall₂_map_left_iff.mpr ?_
  induction hinputs with
  | nil => exact .nil
  | @cons joined input _ _ hnode _ ih =>
    refine .cons ?_ (ih fun x hx => htables x (mem_cons_of_mem _ hx))
    show NodeAt ev database b input ((plan.tableRows subqueries database joined.internalId).map _) _
    rw [tableRows_of_mem (htables joined mem_cons_self)]
    exact hnode

end Inputs

end Pushing

end Turso.Incremental
