import Turso.Foundation.Joins

/-!
# Joined tables and the terms of a query

The FROM clause of a query is a chain of tables, each joined to the ones before it; the conditions of
its ON, USING and WHERE clauses are one list of terms that are tagged with their origin
(`core/translate/plan.rs`).  The meaning of a query before projection is the chain of joins
followed by the WHERE terms.
-/

namespace Turso.Translate

open List

open Joins (Env)

/-- `TableInternalId`. -/
abbrev TableInternalId := ℕ

/-! ## Expressions -/

/-- The operators of `ast::Operator` that compute a value. -/
inductive ValueOperator where
  | add
  | subtract
  | multiply
  | divide
  | modulus
  | bitwiseAnd
  | bitwiseOr
  | leftShift
  | rightShift
  | concat
  | arrowRight
  | arrowRightShift
  | arrayContains
  | arrayOverlap
  deriving DecidableEq, Repr

/-- `ast::UnaryOperator`. -/
inductive UnaryOperator where
  | bitwiseNot
  | negative
  | not
  | positive
  deriving DecidableEq, Repr

/-- `ast::Operator`. -/
inductive Operator where
  | is
  | isNot
  | and
  | or
  | equals
  | notEquals
  | less
  | lessEquals
  | greater
  | greaterEquals
  | compute (operator : ValueOperator)
  deriving DecidableEq, Repr

/-- Expressions that may be TRUE although all their parts are NULL, or of which nothing is known. -/
inductive OpaqueKind where
  | isNull
  | notNull
  | case
  | functionCall (name : ℕ)
  | functionCallStar (name : ℕ)
  | like
  | other (code : ℕ)
  deriving DecidableEq, Repr

/-- `ast::Expr` after name resolution. -/
inductive Expr where
  | column (table : TableInternalId) (column : ℕ)
  | rowId (table : TableInternalId)
  | binary (lhs : Expr) (operator : Operator) (rhs : Expr)
  | inList (lhs : Expr) (not : Bool) (rhs : List Expr)
  | between (lhs : Expr) (not : Bool) (start finish : Expr)
  | unary (operator : UnaryOperator) (inner : Expr)
  | cast (inner : Expr) (type : ℕ)
  | collate (inner : Expr) (collation : ℕ)
  | parenthesized (exprs : List Expr)
  | opaqueExpr (kind : OpaqueKind) (args : List Expr)

mutual

/-- The tables whose columns or rowid an expression reads. -/
def Expr.tables : Expr → List TableInternalId
  | .column table _ | .rowId table => [table]
  | .binary lhs _ rhs => lhs.tables ++ rhs.tables
  | .inList lhs _ rhs => lhs.tables ++ tablesOfAll rhs
  | .between lhs _ start finish => lhs.tables ++ start.tables ++ finish.tables
  | .unary _ inner | .cast inner _ | .collate inner _ => inner.tables
  | .parenthesized exprs | .opaqueExpr _ exprs => tablesOfAll exprs

def tablesOfAll : List Expr → List TableInternalId
  | [] => []
  | expr :: exprs => expr.tables ++ tablesOfAll exprs

end

/-! ## Terms and their origin -/

/-- `JoinOrigin`: the join that supplied a term and whether it keeps unmatched rows. -/
inductive JoinOrigin where
  | inner (table : TableInternalId)
  | outer (table : TableInternalId)
  deriving DecidableEq, Repr

namespace JoinOrigin

def rightTable : JoinOrigin → TableInternalId
  | inner table | outer table => table

def isOuter : JoinOrigin → Bool
  | inner _ => false
  | outer _ => true

end JoinOrigin

/-- `WhereTermOrigin`. -/
inductive WhereTermOrigin where
  | whereClause
  | join (origin : JoinOrigin)
  | tableFunction (origin : JoinOrigin)
  deriving DecidableEq, Repr

namespace WhereTermOrigin

def joinOrigin : WhereTermOrigin → Option JoinOrigin
  | whereClause => none
  | join origin | tableFunction origin => some origin

def isOuterJoin (origin : WhereTermOrigin) : Bool :=
  origin.joinOrigin.any JoinOrigin.isOuter

end WhereTermOrigin

/-- `WhereTerm`. -/
structure WhereTerm where
  expr : Expr
  origin : WhereTermOrigin

/-- `JoinType`. -/
inductive JoinType where
  | inner
  | leftOuter
  | rightOuter
  | fullOuter
  | semi
  | anti
  deriving DecidableEq, Repr

namespace JoinType

def keepsRightRows : JoinType → Bool
  | rightOuter | fullOuter => true
  | _ => false

/-- The join keeps unmatched rows of a side. -/
def isOuter : JoinType → Bool
  | leftOuter | rightOuter | fullOuter => true
  | _ => false

def kind : JoinType → Joins.Kind
  | inner => .inner
  | leftOuter => .left
  | rightOuter => .right
  | fullOuter => .full
  | semi => .semi
  | anti => .anti

end JoinType

/-! ## The meaning of a chain -/

/-- The truth value of an expression on a joined row; `none` is unknown. -/
abbrev Truth (Row : Type) := Expr → Env TableInternalId Row → Option Bool

/-- The contents of the tables. -/
abbrev Contents (Row : Type) := TableInternalId → Multiset Row

variable {Row : Type} (truth : Truth Row)

/-- All terms are TRUE on the row. -/
def holds (terms : List WhereTerm) (env : Env TableInternalId Row) : Bool :=
  terms.all fun term => truth term.expr env == some true

/-- The ON terms of the join with `table`. -/
def onTerms (terms : List WhereTerm) (table : TableInternalId) : List WhereTerm :=
  terms.filter fun term => term.origin.joinOrigin.map JoinOrigin.rightTable = some table

/-- The terms of the WHERE clause. -/
def whereTerms (terms : List WhereTerm) : List WhereTerm :=
  terms.filter fun term => term.origin.joinOrigin.isNone

/-- A table of a chain and how it is joined to those before it. -/
structure Link where
  table : TableInternalId
  joinType : JoinType
  deriving DecidableEq, Repr

variable (contents : Contents Row)

/-- Join one more table to the rows collected so far. -/
def joinLink (terms : List WhereTerm) (lefts : Multiset (Env TableInternalId Row)) (link : Link) :
    Multiset (Env TableInternalId Row) :=
  Joins.join link.table (contents link.table) (holds truth (onTerms terms link.table)) lefts
    link.joinType.kind

/-- Join the tables of a chain to the rows collected so far, one after the other. -/
def joinChain (terms : List WhereTerm) (chain : List Link)
    (lefts : Multiset (Env TableInternalId Row)) : Multiset (Env TableInternalId Row) :=
  chain.foldl (joinLink truth contents terms) lefts

/-- The rows of a query: all joins in order, then the WHERE terms. -/
def queryRows (terms : List WhereTerm) (chain : List Link) : Multiset (Env TableInternalId Row) :=
  (joinChain truth contents terms chain {Env.empty}).filter fun env =>
    holds truth (whereTerms terms) env

end Turso.Translate
