import Turso.Incremental.Dag

/-!
# From the plan of a SELECT to its operators

`build_select_plan_dag` (`core/incremental/vdbe_maintenance/plan.rs`) with its helpers, and the
meaning of a SELECT that it should keep: all joins in order with their ON terms, then the WHERE
terms, then grouping, HAVING, projection and DISTINCT.

A table in FROM may be a subquery.  Its plan is lowered by a call of its own, which a `Subqueries`
stands for: a builder and the rows it is responsible for.
-/

namespace Turso.Incremental

open Joins (Env)
open Turso.Translate (TableInternalId Expr WhereTerm JoinType Link Truth queryRows)

/-! ## Plans -/

/-- `schema::Table`: what stands in FROM. -/
inductive Source (Sub : Type) where
  | btree (table : BTreeTable)
  | fromClauseSubquery (plan : Sub) (columns : List (Option String))
  | virtualTable
  | recursiveCteInput

/-- `JoinedTable`. -/
structure JoinedTable (Sub : Type) where
  internalId : TableInternalId
  joinInfo : Option JoinType
  table : Source Sub

namespace JoinedTable

variable {Sub : Type} (joined : JoinedTable Sub)

/-- The first table has no join; it behaves as the left side of the rest. -/
def joinType : JoinType := joined.joinInfo.getD .inner

def link : Link := ⟨joined.internalId, joined.joinType⟩

end JoinedTable

/-- The table of the join is invisible after it. -/
def hidesTable : JoinType → Bool
  | .semi | .anti => true
  | _ => false

structure GroupBy where
  exprs : List Expr
  having : Option (List Expr)

/-- `SelectPlan`, as far as it is read here.  Each table is bound once, and the first one has no
join. -/
structure SelectPlan (Sub : Type) where
  orderBy : List Expr
  limit : Option Expr
  offset : Option Expr
  values : List (List Expr)
  hasWindow : Bool
  nonFromClauseSubqueries : List Sub
  joinedTables : List (JoinedTable Sub)
  whereClause : List WhereTerm
  groupBy : Option GroupBy
  aggregates : List Aggregate
  resultColumns : List Expr
  isDistinct : Bool
  nodup : (joinedTables.map JoinedTable.internalId).Nodup
  first : ∀ joined ∈ joinedTables.head?, joined.joinInfo = none

/-- What the planner knows of a key expression. -/
structure Resolver where
  keyColumn : Expr → KeyColumn
  hasCustomCollation : Expr → Bool

/-! ## The builder -/

/-- A computation that pushes nodes. -/
abbrev Build := StateT DagBuilder (Except PlanError)

def pushNode (node : OpNode) : Build NodeId := DagBuilder.push node

def failWith {α : Type} (error : PlanError) : Build α := fun _ => .error error

def ofExcept {α : Type} : Except PlanError α → Build α
  | .error error => failWith error
  | .ok value => pure value

/-- `key_column`. -/
def keyColumn (resolver : Resolver) (expr : Expr) : Except PlanError KeyColumn :=
  if resolver.hasCustomCollation expr then
    .error (.unsupported "custom collations on grouping or dedup keys")
  else .ok (resolver.keyColumn expr)

/-- The input node of a table in FROM. -/
def buildInput {Sub : Type} (buildPlanDagNode : Sub → Build NodeId) (joined : JoinedTable Sub) :
    Build NodeId :=
  match joined.table with
  | .btree table => pushNode (.scan table joined.internalId)
  | .fromClauseSubquery plan columns => do
    let input ← buildPlanDagNode plan
    pushNode (.aliased input ⟨0, columns⟩ joined.internalId)
  | .virtualTable => failWith (.unsupported "virtual-table FROM sources")
  | .recursiveCteInput => failWith (.unsupported "recursive CTE inputs")

/-! ## The place of a term -/

/-- Where a term is tested: in the ON of a join, or after it. -/
inductive Placement where
  | on (step : ℕ)
  | filter (step : ℕ)
  deriving DecidableEq, Repr

/-- The join at `step` fills the columns of the table at `position` with NULLs. -/
def nullsFilledBy (step position : ℕ) : JoinType → Bool
  | .leftOuter => position = step
  | .rightOuter => position < step
  | .fullOuter => position ≤ step
  | _ => false

variable (tables : List TableInternalId)

/-- `referenced_binding_positions`: the FROM positions of the tables an expression reads. -/
def referencedBindingPositions (expr : Expr) : Except PlanError (List ℕ) :=
  expr.tables.mapM fun table =>
    match tables.idxOf? table with
    | some position => .ok position
    | none =>
      .error (.internal "maintenance predicate references a binding outside its FROM clause")

/-- The last of the positions, or the first table. -/
def lastPosition (positions : List ℕ) : ℕ := positions.foldr max 0

variable (joinTypes : List JoinType)

/-- The join type of the table at a position. -/
def joinTypeAt (position : ℕ) : JoinType :=
  joinTypes.getD position .inner

/-- The last join from `step` on that fills one of the tables with NULLs, or `step`. -/
def afterNullFilling (positions : List ℕ) (step : ℕ) : ℕ :=
  (List.range' (step + 1) (joinTypes.length - (step + 1))).foldl
    (fun step later =>
      if positions.any fun position => nullsFilledBy later position (joinTypeAt joinTypes later)
      then later else step) step

/-- The place of a WHERE term that reads the tables at `positions`. -/
def placeWhereTerm (positions : List ℕ) : Except PlanError Placement :=
  let hidden position := hidesTable (joinTypeAt joinTypes position)
  let step := lastPosition positions
  if positions.any hidden then
    if (positions.any fun position => position ≠ step && hidden position) || !hidden step then
      .error (.internal "a predicate reads a semi or anti join table outside that join")
    else .ok (.on step)
  else
    let step := afterNullFilling joinTypes positions step
    if 0 < step ∧ joinTypeAt joinTypes step = .inner then .ok (.on step) else .ok (.filter step)

/-- The place of a term. -/
def placeTerm (joinTypes : List JoinType) (term : WhereTerm) : Except PlanError Placement :=
  match term.origin.joinOrigin with
  | some origin =>
    match tables.idxOf? origin.rightTable with
    | none => .error (.internal "join predicate belongs to a table outside the FROM clause")
    | some step =>
      if step = 0 ∨ origin.isOuter ≠ (joinTypeAt joinTypes step).isOuter then
        .error (.internal "join predicate does not match the join that owns it")
      else .ok (.on step)
  | none => do
    let positions ← referencedBindingPositions tables term.expr
    placeWhereTerm joinTypes positions

variable (placed : List (WhereTerm × Placement))

/-- The conditions at a place, in the order of the terms. -/
def conditionsAt (place : Placement) : List Expr :=
  (placed.filter fun entry => entry.2 = place).map fun entry => entry.1.expr

/-! ## Joins and filters -/

/-- `combine_predicates`. -/
def combinePredicates (predicates : List Expr) : Option Expr :=
  predicates.getLast?.map fun first =>
    predicates.dropLast.foldl (fun right left => .binary left .and right) first

/-- Filter a stream by some conditions, if there are any. -/
def pushFilter (node : NodeId) (predicates : List Expr) : Build NodeId :=
  match combinePredicates predicates with
  | none => pure node
  | some predicate => pushNode (.filter node predicate)

def outputSchemaOf (node : NodeId) : Build StreamSchema :=
  fun builder => .ok (builder.outputSchema node, builder)

/-- The rows of `side` without a partner, with NULL columns in the other side's place. -/
def pushUnmatched (side other : NodeId) (on : List Expr) (padBefore : Bool) : Build NodeId := do
  let unmatched ← pushNode (.join side other on .anti)
  let otherColumns ← outputSchemaOf other
  if padBefore then pushNode (.pad unmatched otherColumns ⟨[], []⟩)
  else pushNode (.pad unmatched ⟨[], []⟩ otherColumns)

/-- The branch of a side whose unmatched rows are kept. -/
def pushKept (keep : Bool) (pushBranch : Build NodeId) : Build (List NodeId) :=
  if keep then pushBranch >>= fun branch => pure [branch] else pure []

/-- `push_outer_join`: the inner join, and the padded rows of each side whose unmatched rows are
kept. -/
def pushOuterJoin (left right : NodeId) (on : List Expr) (keepLeftRows keepRightRows : Bool) :
    Build NodeId := do
  let inner ← pushNode (.join left right on .inner)
  let lefts ← pushKept keepLeftRows (pushUnmatched left right on false)
  let rights ← pushKept keepRightRows (pushUnmatched right left on true)
  let schema ← outputSchemaOf inner
  pushNode (.setOp (inner :: (lefts ++ rights)) schema.columns.length)

/-- The join with one more table. -/
def pushJoin (left right : NodeId) (on : List Expr) : JoinType → Build NodeId
  | .inner => pushNode (.join left right on .inner)
  | .leftOuter => pushOuterJoin left right on true false
  | .rightOuter => pushOuterJoin left right on false true
  | .fullOuter => pushOuterJoin left right on true true
  | .semi => pushNode (.join left right on .semi)
  | .anti => pushNode (.join left right on .anti)

/-- The joins from `step` on, each followed by its filter. -/
def buildSteps (placed : List (WhereTerm × Placement)) :
    ℕ → NodeId → List (JoinType × NodeId) → Build NodeId
  | _, node, [] => pure node
  | step, node, (joinType, input) :: rest => do
    let joined ← pushJoin node input (conditionsAt placed (.on step)) joinType
    let filtered ← pushFilter joined (conditionsAt placed (.filter step))
    buildSteps placed (step + 1) filtered rest

/-- The joins of all inputs.  There is a first one, as an empty FROM clause has been rejected. -/
def buildChain : List NodeId → Build NodeId
  | [] => failWith (.unsupported "SELECT without a FROM clause")
  | input :: rest => do
    let scanned ← pushFilter input (conditionsAt placed (.filter 0))
    buildSteps placed 1 scanned (joinTypes.tail.zip rest)

/-! ## Groups and results -/

/-- The liveness count of `hidden_count_aggregate`. -/
def hiddenCount : Aggregate := ⟨.other 0, [], .opaqueExpr (.functionCallStar 0) [], false⟩

/-- `uses_multiset`: MIN and MAX, and what counts each distinct argument once. -/
def usesMultiset (aggregate : Aggregate) : Bool :=
  match aggregate.func with
  | .min | .max => true
  | .other _ => aggregate.isDistinct

/-- The key of the values that an aggregate keeps. -/
def multisetKey (resolver : Resolver) (aggregate : Aggregate) :
    Except PlanError (Option KeyColumn) :=
  if usesMultiset aggregate then
    match aggregate.args.head? with
    | none => .error (.internal "a MIN/MAX or DISTINCT aggregate has no argument")
    | some argument => (keyColumn resolver argument).map some
  else .ok none

/-- The expressions of GROUP BY. -/
def SelectPlan.groupExprs {Sub : Type} (plan : SelectPlan Sub) : List Expr :=
  match plan.groupBy with
  | some groupBy => groupBy.exprs
  | none => []

/-- The conditions of HAVING. -/
def SelectPlan.having {Sub : Type} (plan : SelectPlan Sub) : List Expr :=
  match plan.groupBy with
  | some groupBy => groupBy.having.getD []
  | none => []

section
variable {Sub : Type}

/-- The plan has groups. -/
def SelectPlan.isGrouped (plan : SelectPlan Sub) : Bool :=
  plan.groupBy.isSome || !plan.aggregates.isEmpty

section
variable (resolver : Resolver)

section
variable (plan : SelectPlan Sub)

/-- The aggregation of a plan. -/
def pushAggregate (node : NodeId) : Build NodeId :=
  let aggregates := hiddenCount :: plan.aggregates
  if plan.groupExprs = [] then do
    let multisetKeys ← ofExcept (aggregates.mapM (multisetKey resolver))
    -- The one group of a scalar aggregate is the constant 0.
    pushNode (.aggregate node [literalZero] [⟨.binary, false⟩] aggregates multisetKeys true)
  else do
    let groupKeys ← ofExcept (plan.groupExprs.mapM (keyColumn resolver))
    let multisetKeys ← ofExcept (aggregates.mapM (multisetKey resolver))
    pushNode (.aggregate node plan.groupExprs groupKeys aggregates multisetKeys false)

/-- The aggregation of a plan and its HAVING. -/
def buildGroups (node : NodeId) : Build NodeId :=
  if plan.isGrouped then do
    let grouped ← pushAggregate resolver plan node
    pushFilter grouped plan.having
  else pure node

/-- The result columns of a plan, once each if it is DISTINCT. -/
def buildResult (node : NodeId) : Build NodeId := do
  let projected ← pushNode (.project node plan.resultColumns)
  if plan.isDistinct then do
    let groupKeys ← ofExcept (plan.resultColumns.mapM (keyColumn resolver))
    let grouped ← pushNode
      (.aggregate projected plan.resultColumns groupKeys [hiddenCount] [none] false)
    pushNode (.project grouped plan.resultColumns)
  else pure projected

/-- The checks at the beginning: what a view must not contain. -/
def unsupportedPart : Option String :=
  if !plan.orderBy.isEmpty then some "ORDER BY"
  else if plan.limit.isSome || plan.offset.isSome then some "LIMIT or OFFSET"
  else if !plan.values.isEmpty then some "VALUES"
  else if plan.hasWindow then some "window functions"
  else if !plan.nonFromClauseSubqueries.isEmpty then some "subqueries"
  else if plan.joinedTables.isEmpty then some "SELECT without a FROM clause"
  else none

end

/-- `build_select_plan_dag`. -/
def buildSelectPlanDag (buildPlanDagNode : Sub → Build NodeId) (plan : SelectPlan Sub) :
    Build NodeId :=
  match unsupportedPart plan with
  | some what => failWith (.unsupported what)
  | none => do
    let inputs ← plan.joinedTables.mapM (buildInput buildPlanDagNode)
    let tables := plan.joinedTables.map JoinedTable.internalId
    let joinTypes := plan.joinedTables.map JoinedTable.joinType
    let placements ← ofExcept (plan.whereClause.mapM (placeTerm tables joinTypes))
    let joined ← buildChain joinTypes (plan.whereClause.zip placements) inputs
    let grouped ← buildGroups resolver plan joined
    buildResult resolver plan grouped

end

end

/-! ## The meaning of a SELECT -/

section Meaning

variable {Value Sub : Type} [DecidableEq Value] (ev : Evaluator Value)

/-- The subqueries in FROM: how they are lowered and the rows they stand for. -/
structure Subqueries (Sub : Type) where
  build : Sub → Build NodeId
  rows : Sub → Database Value → Multiset (List Value)
  build_spec : ∀ sub builder id builder', build sub builder = .ok (id, builder') →
    builder <+: builder' ∧ id < builder'.length ∧ ∀ database,
      (ev.rowsAt database builder' id).map (fun row => row.columns.map Prod.snd) =
        rows sub database

variable {ev} in
/-- The rows of what stands in FROM. -/
def Source.rows (subqueries : Subqueries ev Sub) (database : Database Value) :
    Source Sub → Multiset (TableRow Value)
  | .btree table => database table.rootPage
  | .fromClauseSubquery plan _ => (subqueries.rows plan database).map fun values => ⟨values, none⟩
  | _ => 0

variable {ev} in
/-- The rows of the tables of a plan. -/
def SelectPlan.tableRows (subqueries : Subqueries ev Sub) (database : Database Value)
    (plan : SelectPlan Sub) : Translate.Contents (TableRow Value) := fun table =>
  match plan.joinedTables.find? fun joined => joined.internalId = table with
  | some joined => joined.table.rows subqueries database
  | none => 0

/-- The truth of a condition on a joined row. -/
def Evaluator.truth : Truth (TableRow Value) := fun expr env => some (ev.isTrue (ev.eval [] env expr))

variable (plan : SelectPlan Sub)

/-- A WHERE term that reads the table of a semi or anti join is part of its ON: the table is invisible
after the join. -/
def SelectPlan.ownedTerm (term : WhereTerm) : WhereTerm :=
  match term.origin.joinOrigin, plan.joinedTables.find? fun joined =>
      hidesTable joined.joinType && term.expr.tables.contains joined.internalId with
  | none, some joined => ⟨term.expr, .join (.inner joined.internalId)⟩
  | _, _ => term

/-- The joined rows: all joins in order with their ON terms, then the WHERE terms. -/
def SelectPlan.joinedRows (terms : List WhereTerm) (contents : Translate.Contents (TableRow Value))
    :
    Multiset (Env TableInternalId (TableRow Value)) :=
  queryRows ev.truth contents (terms.map plan.ownedTerm) (plan.joinedTables.map JoinedTable.link)

/-- The row of a group. -/
def Evaluator.groupValue (groupExprs : List Expr) (keys : List Value) (aggregates : List Aggregate)
    (members : Multiset (Expr → Value)) : Expr → Value :=
  ev.eval (groupExprs.zip keys ++
    aggregates.map fun aggregate => (aggregate.originalExpr, ev.aggregate aggregate members)) Env.empty

/-- Grouping, where a row is what the expressions evaluate to. -/
def SelectPlan.groupedRows (resolver : Resolver) (plan : SelectPlan Sub)
    (rows : Multiset (Expr → Value)) : Multiset (Expr → Value) :=
  if plan.groupExprs ≠ [] then
    (groups (fun row => ev.classOf (plan.groupExprs.map resolver.keyColumn)
      (plan.groupExprs.map row)) rows).map fun members =>
        ev.groupValue plan.groupExprs (ev.shown (members.map fun row => plan.groupExprs.map row))
          plan.aggregates members
  else if plan.isGrouped then {ev.groupValue [] [] plan.aggregates rows}
  else rows

/-- HAVING keeps the groups on which its condition is TRUE. -/
def SelectPlan.havingHolds (row : Expr → Value) : Bool :=
  (combinePredicates plan.having).all fun condition => ev.isTrue (row condition)

/-- Grouping, HAVING, projection and DISTINCT. -/
def SelectPlan.resultRows (resolver : Resolver) (plan : SelectPlan Sub)
    (rows : Multiset (Expr → Value)) : Multiset (List Value) :=
  let grouped := (plan.groupedRows ev resolver rows).filter fun row => plan.havingHolds ev row
  let projected := grouped.map plan.resultColumns.map
  if plan.isDistinct then
    (groups (ev.classOf (plan.resultColumns.map resolver.keyColumn)) projected).map ev.shown
  else projected

/-- The rows of a SELECT over the given contents of its tables. -/
def SelectPlan.rows (resolver : Resolver) (plan : SelectPlan Sub)
    (contents : Translate.Contents (TableRow Value)) : Multiset (List Value) :=
  plan.resultRows ev resolver
    ((plan.joinedRows ev plan.whereClause contents).map fun env => ev.eval [] env)

end Meaning

end Turso.Incremental
