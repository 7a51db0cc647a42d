import AresaDb.Query.Sql

/-! # The parser

`QueryParser::convert_statement` (`query/parser.rs`) turns the syntax tree of a SELECT, INSERT,
UPDATE or DELETE into a query.  `none` is an error. -/

namespace AresaDb.Query

open AresaDb.Store

/-! ### Expressions -/

def convertSqlValue : SqlValue → Option Value
  | .number text =>
      if '.' ∈ text.toList then (Binary64.parse text).map .float
      else (parseI64 text).map .int
  | .singleQuotedString s => some (.string s)
  | .doubleQuotedString s => some (.string s)
  | .boolean b => some (.bool b)
  | .null => some .null

def convertExpr : Expr → Option Value
  | .value v => convertSqlValue v
  | .identifier ident => some (.string ident.text)
  | .unaryOp .minus e =>
      match convertExpr e with
      | some (.int i) => some (.int (-i))
      | some (.float f) => some (.float f.neg)
      | _ => none
  | _ => none

/-- The operator of a comparison. -/
def comparisonOperator : BinaryOperator → Option Operator
  | .eq => some .eq
  | .notEq => some .ne
  | .lt => some .lt
  | .ltEq => some .le
  | .gt => some .gt
  | .gtEq => some .ge
  | .and | .or => none

/-- The conditions of a WHERE expression, from left to right. -/
def extractConditions : Expr → Option (List Condition)
  | .binaryOp left .and right => do
      let conditions ← extractConditions left
      let conditions' ← extractConditions right
      return conditions ++ conditions'
  | .binaryOp (.identifier ident) op right =>
      match comparisonOperator op with
      | some operator => (convertExpr right).map fun value => [⟨ident.text, operator, value⟩]
      | none => some []
  | .like _ (.identifier ident) pattern =>
      (convertExpr pattern).map fun value => [⟨ident.text, .like, value⟩]
  | .isNull (.identifier ident) => some [⟨ident.text, .isNull, .null⟩]
  | .isNotNull (.identifier ident) => some [⟨ident.text, .isNotNull, .null⟩]
  | .inList (.identifier ident) list _ =>
      (list.mapM convertExpr).map fun values => [⟨ident.text, .in_, .array values⟩]
  -- Every other expression is passed over.
  | _ => some []

/-! ### Statements -/

inductive SelectItem where
  | unnamedExpr (e : Expr)
  | exprWithAlias (e : Expr) (alias_ : Ident)
  | wildcard

/-- A SELECT; a table of its FROM clause that is no plain table has no name. -/
structure Select where
  from_ : List (Option String)
  projection : List SelectItem
  selection : Option Expr
  /-- The expressions to order by, with ASC or DESC if it is there. -/
  orderBy : List (Expr × Option Bool)
  limit : Option Expr
  offset : Option Expr

/-- The source of an INSERT: the rows of its VALUES, or another query. -/
inductive InsertSource where
  | values (rows : List (List Expr))
  | other

inductive Statement where
  /-- A query; its body may be something else than a SELECT. -/
  | query (select : Option Select)
  /-- An INSERT; DEFAULT VALUES are no source. -/
  | insert (table : String) (columns : List Ident) (source : Option InsertSource)
  | update (table : Option String) (assignments : List (List Ident × Expr))
      (selection : Option Expr)
  | delete (from_ : List (Option String)) (selection : Option Expr)
  /-- Any other statement. -/
  | other

/-- The WHERE expression of a statement. -/
def Statement.selection : Statement → Option Expr
  | query select => select.bind Select.selection
  | update _ _ selection => selection
  | delete _ selection => selection
  | insert _ _ _ | other => none

/-- The target of a FROM clause. -/
def fromTarget (from_ : List (Option String)) : String :=
  (from_.head?.bind id).getD "unknown"

/-- The conditions of a WHERE clause; without one there are none. -/
def whereConditions (selection : Option Expr) : Option (List Condition) :=
  match selection with
  | some e => extractConditions e
  | none => some []

/-- The column of an item of a projection, if it is one. -/
def SelectItem.column : SelectItem → Option String
  | unnamedExpr (.identifier ident) => some ident.text
  | exprWithAlias (.identifier ident) _ => some ident.text
  | _ => none

/-- A key to order by, if it is a column. -/
def orderKey : Expr × Option Bool → Option OrderBy
  | (.identifier ident, asc) => some ⟨ident.text, !asc.getD true⟩
  | _ => none

/-- The number of a LIMIT or OFFSET; anything else is passed over. -/
def countOf : Expr → Option ℕ
  | .value (.number text) => parseUsize text
  | _ => none

def convertSelect (select : Select) : Option ParsedQuery :=
  (whereConditions select.selection).map fun conditions =>
    { operation := .select
      target := fromTarget select.from_
      columns := select.projection.filterMap SelectItem.column
      conditions := conditions
      orderBy := select.orderBy.filterMap orderKey
      limit := select.limit.bind countOf
      offset := select.offset.bind countOf
      data := none }

/-- The data of an UPDATE, a later assignment of a column over an earlier one. -/
def convertAssignments (assignments : List (List Ident × Expr)) : Option Props :=
  assignments.foldlM (fun (data : Props) assignment =>
    (convertExpr assignment.2).map fun value =>
      data.insert (".".intercalate (assignment.1.map Ident.text)) value) ∅

/-- The column that a value of a row is put under. -/
def insertColumn (columns : List String) (i : ℕ) : String := columns.getD i s!"col{i}"

/-- The data of one row of values, a later one over an earlier one of the same column. -/
def convertRow (columns : List String) (row : List Expr) : Option Props :=
  row.zipIdx.foldlM (fun (data : Props) cell =>
    (convertExpr cell.1).map fun value => data.insert (insertColumn columns cell.2) value) ∅

/-- The data of an INSERT: that of the first row of its VALUES, if there is one. -/
def extractInsertValues (columns : List String) : InsertSource → Option (Option Props)
  | .values (row :: _) => (convertRow columns row).map some
  | .values [] | .other => some none

def convertStatement : Statement → Option ParsedQuery
  | .query select => select.bind convertSelect
  | .insert table columns source =>
      let columnNames := columns.map Ident.text
      (source.elim (some none) (extractInsertValues columnNames)).map fun data =>
        { operation := .insert
          target := table
          columns := columnNames
          conditions := []
          orderBy := []
          limit := none
          offset := none
          data := data }
  | .update table assignments selection => do
      let target ← table
      let data ← convertAssignments assignments
      let conditions ← whereConditions selection
      return {
        operation := .update
        target := target
        columns := []
        conditions := conditions
        orderBy := []
        limit := none
        offset := none
        data := some data }
  | .delete from_ selection =>
      (whereConditions selection).map fun conditions =>
        { operation := .delete
          target := fromTarget from_
          columns := []
          conditions := conditions
          orderBy := []
          limit := none
          offset := none
          data := none }
  | .other => none

end AresaDb.Query
