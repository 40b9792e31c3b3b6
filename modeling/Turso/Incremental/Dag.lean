import Mathlib.Data.List.GetD
import Turso.Translate.WhereTerm
import Turso.Types.Value

/-!
# The operators of a materialized view

A materialized view is maintained by a graph of operators (`core/incremental/dag.rs`).  Here is the
graph with its builder, and what the operators mean: the rows that each node yields when the graph is
evaluated once on the contents of the tables.

A row of a stream holds the rows of the tables bound in it, and the columns that a projection or an
aggregate publishes under an expression.  How an expression is evaluated on such a row is left to an
`Evaluator`.
-/

namespace Turso.Incremental

open List

open Joins (Env)
open Turso.Translate (TableInternalId Expr)

abbrev NodeId := ℕ

/-- The errors of the planner: what is not supported, and what should not happen. -/
inductive PlanError where
  | unsupported (what : String)
  | internal (message : String)
  deriving DecidableEq, Repr

/-- A row of a table; the rows of a derived table have no rowid. -/
structure TableRow (Value : Type) where
  values : List Value
  rowid : Option Value
  deriving DecidableEq, Repr

/-- `BTreeTable`, as far as a stream needs it: a column without a name cannot be referenced. -/
structure BTreeTable where
  rootPage : ℕ
  columns : List (Option String)

structure KeyColumn where
  collation : CollationSeq
  ambiguous : Bool

inductive AggFunc where
  | min
  | max
  | other (code : ℕ)
  deriving DecidableEq, Repr

/-- `Aggregate`. -/
structure Aggregate where
  func : AggFunc
  args : List Expr
  originalExpr : Expr
  isDistinct : Bool

/-- `StreamSchema`: the expression by which each column is bound, and the tables in the stream. -/
structure StreamSchema where
  columns : List (Option Expr)
  bindings : List TableInternalId

inductive JoinKind where
  | inner
  | semi
  | anti
  deriving DecidableEq, Repr

/-- `OpNode`.  The branches of a `setOp` are combined by UNION ALL. -/
inductive OpNode where
  | scan (table : BTreeTable) (logicalId : TableInternalId)
  | filter (input : NodeId) (predicate : Expr)
  | project (input : NodeId) (projections : List Expr)
  | aliased (input : NodeId) (table : BTreeTable) (logicalId : TableInternalId)
  | join (left right : NodeId) (on : List Expr) (kind : JoinKind)
  | pad (input : NodeId) (before after : StreamSchema)
  | aggregate (input : NodeId) (groupExprs : List Expr) (groupKeys : List KeyColumn)
      (aggregates : List Aggregate) (multisetKeys : List (Option KeyColumn)) (scalar : Bool)
  | setOp (inputs : List NodeId) (arity : ℕ)

def OpNode.inputs : OpNode → List NodeId
  | scan _ _ => []
  | filter input _ | project input _ | aliased input _ _ | pad input _ _
  | aggregate input _ _ _ _ _ => [input]
  | join left right _ _ => [left, right]
  | setOp inputs _ => inputs

/-! ## The builder -/

/-- `DagBuilder`: the nodes pushed so far, each with its output schema. -/
abbrev DagBuilder := List (OpNode × StreamSchema)

namespace DagBuilder

variable (builder : DagBuilder)

/-- `output_schema`. -/
def outputSchema (node : NodeId) : StreamSchema :=
  ((map Prod.snd builder)[node]?).getD ⟨[], []⟩

/-- The columns of a table that can be referenced. -/
def tableColumns (table : BTreeTable) (logicalId : TableInternalId) : List (Option Expr) :=
  table.columns.zipIdx.map fun (name, index) => name.map fun _ => .column logicalId index

/-- `derive_output_schema`. -/
def deriveOutputSchema : OpNode → Except PlanError StreamSchema
  | .scan table logicalId => .ok ⟨tableColumns table logicalId, [logicalId]⟩
  | .filter input _ => .ok (builder.outputSchema input)
  | .project input projections => .ok ⟨projections.map some, (builder.outputSchema input).bindings⟩
  | .aliased input table logicalId =>
    if (builder.outputSchema input).columns.length ≠ table.columns.length then
      .error (.internal "derived-table alias arity does not match its input stream")
    else .ok ⟨tableColumns table logicalId, [logicalId]⟩
  | .join left right _ .inner =>
    .ok ⟨(builder.outputSchema left).columns ++ (builder.outputSchema right).columns,
      (builder.outputSchema left).bindings ++ (builder.outputSchema right).bindings⟩
  | .join left _ _ _ => .ok (builder.outputSchema left)
  | .pad input before after =>
    .ok ⟨before.columns ++ (builder.outputSchema input).columns ++ after.columns,
      before.bindings ++ (builder.outputSchema input).bindings ++ after.bindings⟩
  | .aggregate input groupExprs _ aggregates _ _ =>
    .ok ⟨groupExprs.map some ++ aggregates.zipIdx.map fun (aggregate, index) =>
        if index ≠ 0 then some aggregate.originalExpr else none,
      (builder.outputSchema input).bindings⟩
  | .setOp [] _ => .error (.internal "set-op DAG must have at least one input")
  | .setOp (first :: rest) arity =>
    if (first :: rest).any fun input => (builder.outputSchema input).columns.length ≠ arity then
      .error (.internal "set-op DAG inputs have inconsistent output schemas")
    else .ok (builder.outputSchema first)

/-- Append a node whose inputs were already pushed. -/
def push (node : OpNode) (builder : DagBuilder) : Except PlanError (NodeId × DagBuilder) :=
  if node.inputs.all fun input => input < builder.length then
    (deriveOutputSchema builder node).map fun schema =>
      (builder.length, builder ++ [(node, schema)])
  else .error (.internal "operator inputs must be built before the operator")

theorem push_ok {node : OpNode} {b b' : DagBuilder} {id : NodeId}
    (hpush : push node b = .ok (id, b')) :
    id = b.length ∧ ∃ schema, deriveOutputSchema b node = .ok schema ∧
      b' = b ++ [(node, schema)] := by
  unfold push at hpush
  split at hpush
  · cases hschema : deriveOutputSchema b node with
    | error error =>
      rw [hschema] at hpush
      cases hpush
    | ok schema =>
      rw [hschema] at hpush
      cases hpush
      exact ⟨rfl, schema, rfl, rfl⟩
  · cases hpush

end DagBuilder

/-! ## Groups -/

section Groups

variable {α β κ : Type*} [DecidableEq κ]

/-- The rows with the same key, for each key. -/
def groups (key : α → κ) (rows : Multiset α) : Multiset (Multiset α) :=
  (rows.map key).dedup.map fun group => rows.filter fun row => key row = group

theorem groups_map (k : β → κ) (f : α → β) (rows : Multiset α) :
    groups k (rows.map f) = (groups (fun r => k (f r)) rows).map (Multiset.map f) := by
  simp only [groups, Multiset.map_map, Function.comp_def, Multiset.filter_map]

theorem ne_zero_of_mem_groups {k : α → κ} {rows members : Multiset α}
    (hmembers : members ∈ groups k rows) : members ≠ 0 := by
  rw [groups, Multiset.mem_map] at hmembers
  obtain ⟨group, hgroup, rfl⟩ := hmembers
  rw [Multiset.mem_dedup, Multiset.mem_map] at hgroup
  obtain ⟨r, hr, rfl⟩ := hgroup
  exact fun hzero => Multiset.filter_eq_nil.mp hzero r hr rfl

end Groups

/-! ## The meaning of the operators -/

/-- A row of a stream. -/
structure StreamRow (Value : Type) where
  bindings : List (TableInternalId × Option (TableRow Value))
  columns : List (Option Expr × Value)

variable {Value : Type}

namespace StreamRow

variable (row : StreamRow Value)

/-- The rows of the tables bound in the stream. -/
def env : Env TableInternalId (TableRow Value) :=
  fun table => (row.bindings.lookup table).join

/-- The columns that an expression can refer to. -/
def published : List (Expr × Value) :=
  row.columns.filterMap fun column => column.1.map fun expr => (expr, column.2)

def append (left right : StreamRow Value) : StreamRow Value :=
  ⟨left.bindings ++ right.bindings, left.columns ++ right.columns⟩

end StreamRow

/-- The literal `0`. -/
def literalZero : Expr := .opaqueExpr (.other 0) []

/-- How expressions and aggregates are evaluated.  Some expressions may have a published value; a
table without a row has NULL columns.  SQL leaves open which of several values that are equal under
a collation is shown. -/
structure Evaluator (Value : Type) where
  eval : List (Expr × Value) → Env TableInternalId (TableRow Value) → Expr → Value
  isTrue : Value → Bool
  aggregate : Aggregate → Multiset (Expr → Value) → Value
  classOf : List KeyColumn → List Value → List Value
  shown : Multiset (List Value) → List Value
  eval_congr : ∀ env env' expr, (∀ table ∈ expr.tables, env table = env' table) →
    eval [] env expr = eval [] env' expr
  isTrue_and : ∀ env lhs rhs, isTrue (eval [] env (.binary lhs .and rhs)) =
    (isTrue (eval [] env lhs) && isTrue (eval [] env rhs))
  eval_published : ∀ published env expr value, (expr, value) ∈ published →
    (∀ other, (expr, other) ∈ published → other = value) → eval published env expr = value
  eval_literalZero : ∀ published env expr,
    eval ((literalZero, eval [] Env.empty literalZero) :: published) env expr =
      eval published env expr
  shown_mem : ∀ rows, rows ≠ 0 → shown rows ∈ rows

/-- The contents of the tables, by their root page. -/
abbrev Database (Value : Type) := ℕ → Multiset (TableRow Value)

namespace Evaluator

variable (ev : Evaluator Value)

def value (row : StreamRow Value) : Expr → Value :=
  ev.eval row.published row.env

/-- All conditions are TRUE. -/
def allTrue (conditions : List Expr) (row : StreamRow Value) : Bool :=
  conditions.all fun condition => ev.isTrue (ev.value row condition)

def joinRows (on : List Expr) (lefts rights : Multiset (StreamRow Value)) :
    JoinKind → Multiset (StreamRow Value)
  | .inner => lefts.bind fun left => (rights.map left.append).filter fun row => ev.allTrue on row
  | .semi => lefts.filter fun left => ¬∀ right ∈ rights, ¬ev.allTrue on (left.append right)
  | .anti => lefts.filter fun left => ∀ right ∈ rights, ¬ev.allTrue on (left.append right)

/-- The row of a group: the values of the group keys, then those of the aggregates.  The first
aggregate counts the rows of the group and is not published. -/
def groupRow (groupExprs : List Expr) (keys : List Value) (aggregates : List Aggregate)
    (members : Multiset (StreamRow Value)) : StreamRow Value :=
  ⟨[], (groupExprs.map some).zip keys ++ aggregates.zipIdx.map fun (aggregate, index) =>
    (if index ≠ 0 then some aggregate.originalExpr else none,
      ev.aggregate aggregate (members.map ev.value))⟩

variable [DecidableEq Value] (database : Database Value)

/-- The rows a node yields, from those of the nodes before it. -/
def nodeRows (rows : List (Multiset (StreamRow Value))) : OpNode → Multiset (StreamRow Value)
  | .scan table logicalId =>
    (database table.rootPage).map fun row => ⟨[(logicalId, some row)], []⟩
  | .filter input predicate =>
    (rows.getD input 0).filter fun row => ev.isTrue (ev.value row predicate)
  | .project input projections =>
    (rows.getD input 0).map fun row =>
      ⟨[], projections.map fun expr => (some expr, ev.value row expr)⟩
  | .aliased input _ logicalId =>
    (rows.getD input 0).map fun row =>
      ⟨[(logicalId, some ⟨row.columns.map Prod.snd, none⟩)], []⟩
  | .join left right on kind => ev.joinRows on (rows.getD left 0) (rows.getD right 0) kind
  | .pad input before after =>
    (rows.getD input 0).map fun row =>
      ⟨before.bindings.map (fun table => (table, none)) ++ row.bindings ++
        after.bindings.map (fun table => (table, none)), row.columns⟩
  | .aggregate input groupExprs groupKeys aggregates _ scalar =>
    if scalar then
      {ev.groupRow groupExprs (groupExprs.map (ev.eval [] Env.empty)) aggregates
        (rows.getD input 0)}
    else
      (groups (fun row => ev.classOf groupKeys (groupExprs.map (ev.value row)))
        (rows.getD input 0)).map fun members =>
          ev.groupRow groupExprs
            (ev.shown (members.map fun row => groupExprs.map (ev.value row))) aggregates members
  | .setOp inputs _ => (inputs.map fun input => rows.getD input 0).sum

variable (builder : DagBuilder)

/-- The rows of all nodes. -/
def rowsOf : List (Multiset (StreamRow Value)) :=
  builder.foldl (fun rows entry => rows ++ [ev.nodeRows database rows entry.1]) []

/-- The rows of a node. -/
def rowsAt (node : NodeId) : Multiset (StreamRow Value) :=
  (ev.rowsOf database builder).getD node 0

variable (db : Database Value)

theorem rowsOf_concat (b : DagBuilder) (e : OpNode × StreamSchema) :
    ev.rowsOf db (b ++ [e]) = ev.rowsOf db b ++ [ev.nodeRows db (ev.rowsOf db b) e.1] := by
  rw [rowsOf, foldl_append]
  rfl

theorem length_rowsOf (b : DagBuilder) : (ev.rowsOf db b).length = b.length := by
  induction b using reverseRecOn with
  | nil => rfl
  | append_singleton b e ih =>
    rw [rowsOf_concat, length_append, length_append, ih]
    rfl

section
variable (db : Database Value) {builder builder' : DagBuilder}

theorem rowsOf_grows (hgrows : builder <+: builder') :
    ev.rowsOf db builder <+: ev.rowsOf db builder' := by
  obtain ⟨rest, rfl⟩ := hgrows
  induction rest using reverseRecOn with
  | nil => rw [append_nil]
  | append_singleton rest e ih =>
    rw [← append_assoc, rowsOf_concat]
    exact ih.trans (prefix_append _ _)

/-- Later nodes do not change the rows of a node. -/
theorem rowsAt_of_grows (hgrows : builder <+: builder') {node : NodeId}
    (hnode : node < builder.length) :
    ev.rowsAt db builder' node = ev.rowsAt db builder node := by
  obtain ⟨rest, hrest⟩ := ev.rowsOf_grows db hgrows
  rw [rowsAt, rowsAt, ← hrest]
  exact getD_append _ _ _ _ (by rw [length_rowsOf]; exact hnode)

theorem push_spec {node : OpNode} {id : NodeId}
    (hpush : DagBuilder.push node builder = .ok (id, builder')) :
    builder <+: builder' ∧ id < builder'.length ∧
      ev.rowsAt db builder' id = ev.nodeRows db (ev.rowsOf db builder) node ∧
      builder.deriveOutputSchema node = .ok (builder'.outputSchema id) := by
  obtain ⟨rfl, schema, hschema, rfl⟩ := DagBuilder.push_ok hpush
  refine ⟨prefix_append _ _, by simp, ?_, ?_⟩
  · rw [rowsAt, rowsOf_concat, ← ev.length_rowsOf db builder, getD_append_right _ _ _ _
      (le_refl _), Nat.sub_self]
    rfl
  · rw [hschema, DagBuilder.outputSchema]
    simp

end

end Evaluator

theorem DagBuilder.outputSchema_of_grows {b b' : DagBuilder}
    (hgrows : b <+: b') {node : NodeId} (hnode : node < b.length) :
    b'.outputSchema node = b.outputSchema node := by
  obtain ⟨rest, rfl⟩ := hgrows
  rw [outputSchema, outputSchema, map_append, getElem?_append_left (by simpa using hnode)]

end Turso.Incremental
