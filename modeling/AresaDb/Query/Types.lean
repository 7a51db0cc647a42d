import AresaDb.Store.Tiered
import AresaDb.Vectors.Index

/-! # Queries

The parsed query (`query/mod.rs`): the operation, its target and its clauses, and what a condition
of a WHERE clause says of a value.  Regular expressions are those of a library; `RegexEngine`
stands for it. -/

namespace AresaDb.Query

open AresaDb.Store

inductive QueryOperation where
  | select
  | insert
  | update
  | delete
  | traverse
  | createSchema
  | dropSchema
  | vectorSearch
  | createIndex
  | dropIndex
  | fullTextSearch
  | createFullTextIndex
deriving DecidableEq, Repr

inductive Operator where
  | eq
  | ne
  | lt
  | le
  | gt
  | ge
  | like
  | in_
  | isNull
  | isNotNull
deriving DecidableEq, Repr

structure Condition where
  column : String
  operator : Operator
  value : Value

structure OrderBy where
  column : String
  descending : Bool

structure VectorSearchParams where
  /-- Components are `f32`s, widened. -/
  queryVector : List Binary64
  embeddingField : String
  /-- How many results to return. -/
  k : ℕ
  metric : Vectors.DistanceMetric
  /-- Conditions on the nodes searched. -/
  filters : List Condition

structure FullTextSearchParams where
  field : String
  query : String
  /-- How many results to return. -/
  limit : ℕ

/-- A query, from SQL or from one of the search commands. -/
structure ParsedQuery where
  operation : QueryOperation
  target : String
  /-- No columns mean all of them. -/
  columns : List String
  conditions : List Condition
  orderBy : List OrderBy
  limit : Option ℕ
  offset : Option ℕ
  /-- The data of an INSERT or an UPDATE. -/
  data : Option Props
  vectorSearch : Option VectorSearchParams := none
  fulltextSearch : Option FullTextSearchParams := none

/-! ### Operators -/

/-- Regular expressions: whether a pattern matches somewhere in a text, `none` for a pattern that is
none. -/
structure RegexEngine where
  isMatch : String → String → Option Bool

namespace Operator

/-- Compare two numbers of either kind, or two strings; other values do not compare. -/
def compareWith (ints : ℤ → ℤ → Bool) (floats : Binary64 → Binary64 → Bool)
    (strings : String → String → Bool) : Value → Value → Bool
  | .int l, .int r => ints l r
  | .float l, .float r => floats l r
  | .int l, .float r => floats (.ofInt l) r
  | .float l, .int r => floats l (.ofInt r)
  | .string l, .string r => strings l r
  | _, _ => false

/-- The regular expression of a LIKE pattern: every `%` replaced by `.*` and every `_` by `.`, and
nothing escaped. -/
def likeRegex (pattern : String) : String :=
  let replaced := pattern.toList.flatMap fun c =>
    if c = '%' then ['.', '*'] else if c = '_' then ['.'] else [c]
  "^" ++ String.ofList replaced ++ "$"

/-- What an operator says of the value of a column, on its left, and the value of the condition. -/
def matches_ (R : RegexEngine) (op : Operator) (left right : Value) : Bool :=
  match op with
  | eq => left.eq right
  | ne => !left.eq right
  | lt => compareWith (fun l r => decide (l < r)) (fun l r => l.lt r) (fun l r => decide (l < r))
      left right
  | le => compareWith (fun l r => decide (l ≤ r)) (fun l r => l.le r) (fun l r => decide (l ≤ r))
      left right
  | gt => compareWith (fun l r => decide (r < l)) (fun l r => r.lt l) (fun l r => decide (r < l))
      left right
  | ge => compareWith (fun l r => decide (r ≤ l)) (fun l r => r.le l) (fun l r => decide (r ≤ l))
      left right
  | like =>
      match left, right with
      | .string l, .string pattern => (R.isMatch (likeRegex pattern) l).getD false
      | _, _ => false
  | in_ =>
      match right with
      | .array values => values.any fun value => value.eq left
      | _ => false
  | isNull => left.isNull
  | isNotNull => !left.isNull

end Operator

/-! ### Conditions -/

/-- The value of a column: the id and the type of the node have names of their own, and a missing
property is null. -/
def columnValue (node : Node) (column : String) : Value :=
  if column = "id" then .string node.id.display
  else if column = "type" then .string node.nodeType
  else node.properties[column]?.getD .null

/-- The condition holds of the node. -/
def Condition.admits (R : RegexEngine) (node : Node) (c : Condition) : Bool :=
  c.operator.matches_ R (columnValue node c.column) c.value

/-- All conditions hold of the node. -/
def matchesConditions (R : RegexEngine) (node : Node) (conditions : List Condition) : Bool :=
  conditions.all fun c => c.admits R node

end AresaDb.Query
