import AresaDb.Lib.FloatText
import AresaDb.Lib.Text
import AresaDb.Query.Parser

/-! # Search and index commands

`QueryParser::parse` (`query/parser.rs`) tries the VECTOR SEARCH, FULLTEXT SEARCH and INDEX commands
before it hands a text to the SQL library.  The commands are read by places of substrings, in part
of an upper-cased copy of the text.

A slice at a place that is none is a panic.  So the result of each function is `none` for a panic,
`some none` for a text that is no such command (or, of `parse`, an error), and `some (some q)`. -/

namespace AresaDb.Query

open AresaDb.Store Text

/-! ### Conditions -/

/-- The operators of a condition, in the order in which they are looked for. -/
def whereOperators : List (List Char × Operator) :=
  [("!=".toList, .ne), (">=".toList, .ge), ("<=".toList, .le), ("<>".toList, .ne),
    ("=".toList, .eq), (">".toList, .gt), ("<".toList, .lt)]

/-- The first operator of that order that occurs, and its first place. -/
def findOperator (s : List Char) : Option (List Char × Operator × ℕ) :=
  whereOperators.findSome? fun (text, op) => (find text s).map fun idx => (text, op, idx)

/-- A value without quotes. -/
def plainValue (value : List Char) : Value :=
  match parseI64 (String.ofList value) with
  | some i => .int i
  | none =>
      match Binary64.parseF64 value with
      | some f => .float f
      | none =>
          if eqIgnoreAsciiCase value "true".toList then .bool true
          else if eqIgnoreAsciiCase value "false".toList then .bool false
          else if eqIgnoreAsciiCase value "null".toList then .null
          else .string (String.ofList value)

/-- The value of a condition, between its quotes if it starts and ends with one. -/
def conditionValue (value : List Char) : Option Value :=
  if value.head? = some '\'' ∧ value.getLast? = some '\'' then
    (slice 1 (size value - 1) value).map fun text => .string (String.ofList text)
  else some (plainValue value)

def parseSingleCondition (s : List Char) : Option (Option Condition) :=
  match findOperator s with
  | none => some none
  | some (text, op, idx) => do
      let column ← sliceTo idx s
      let rest ← sliceFrom (idx + size text) s
      let value ← conditionValue (trim rest)
      return some ⟨String.ofList (trim column), op, value⟩

def parseSimpleWhere (clause : List Char) : Option (List Condition) :=
  let parts := ((split " AND ".toList clause).map trim).filter (· ≠ [])
  (parts.mapM parseSingleCondition).map List.reduceOption

section

variable (C : Casing)

/-- The end of a WHERE clause that starts at a place: a LIMIT or METRIC after it, or the end. -/
def whereEnd (sql after : List Char) (start : ℕ) : ℕ :=
  (([" LIMIT ", " METRIC "].filterMap fun keyword =>
    (find keyword.toList after).map (start + ·)).min?).getD (size sql)

def parseVectorWhere (sql : List Char) : Option (List Condition) :=
  let sqlUpper := C.toUppercase sql
  match find " WHERE ".toList sqlUpper with
  | none => some []
  | some idx => do
      let start := idx + 7
      let after ← sliceFrom start sqlUpper
      let clause ← slice start (whereEnd sql after start) sql
      if trim clause = [] then return [] else parseSimpleWhere (trim clause)

/-! ### Vector search -/

/-- The word after a keyword. -/
def wordAfter (keyword : String) (parts : List (List Char)) : Option (List Char) :=
  parts[parts.findIdx (fun part => eqIgnoreAsciiCase part keyword.toList) + 1]?

def metricOf (word : List Char) : Vectors.DistanceMetric :=
  let lower := C.lower word
  if lower = "euclidean".toList ∨ lower = "l2".toList then .euclidean
  else if lower = "dot".toList ∨ lower = "dotproduct".toList then .dotProduct
  else if lower = "manhattan".toList ∨ lower = "l1".toList then .manhattan
  else .cosine

/-- The components of a vector; what is no number is passed over. -/
def vectorComponents (text : List Char) : List Binary64 :=
  (text.splitOn ',').filterMap fun part => Binary64.parseF32 (trim part)

def parseVectorSearch (sql : List Char) : Option (Option ParsedQuery) :=
  let parts := words sql
  if ¬ "VECTOR SEARCH".toList <+: C.toUppercase sql ∨ parts.length < 6 then some none
  else
    match wordAfter "FIELD" parts, find ['['] sql, find [']'] sql with
    | some embeddingField, some opening, some closing => do
        let vectorText ← slice (opening + 1) closing sql
        let queryVector := vectorComponents vectorText
        if queryVector = [] then return none
        else
          let k := ((wordAfter "LIMIT" parts).bind fun word =>
            parseUsize (String.ofList word)).getD 10
          let filters ← parseVectorWhere C sql
          return some {
            operation := .vectorSearch
            target := String.ofList (parts.getD 2 [])
            columns := []
            conditions := filters
            orderBy := []
            limit := some k
            offset := none
            data := none
            vectorSearch := some {
              queryVector := queryVector
              embeddingField := String.ofList embeddingField
              k := k
              metric := ((wordAfter "METRIC" parts).map (metricOf C)).getD .cosine
              filters := filters } }
    | _, _, _ => some none

/-! ### Full-text search -/

/-- Go on with what has been read, unless reading it was a panic or there was nothing to read. -/
def andThen {α β : Type} (x : Option (Option α)) (f : α → Option (Option β)) :
    Option (Option β) :=
  match x with
  | none => none
  | some none => some none
  | some (some a) => f a

/-- What comes after a keyword of ASCII characters, if the text in upper case starts with it. -/
def afterKeyword (keyword : String) (t : List Char) : Option (Option (List Char)) :=
  if keyword.toList <+: C.toUppercase t then
    (sliceFrom keyword.length t).map fun rest => some (trim rest)
  else some none

/-- A text up to its closing quote, and what comes after it. -/
def takeQuoted (quote : Char) (stripped : List Char) : Option (Option (List Char × List Char)) :=
  match find [quote] stripped with
  | none => some none
  | some stop => do
      let text ← sliceTo stop stripped
      let rest ← sliceFrom (stop + 1) stripped
      return some (text, trim rest)

/-- A text in quotes, or up to the next white space, and what comes after it. -/
def takeQuery : List Char → Option (Option (List Char × List Char))
  | '\'' :: stripped => takeQuoted '\'' stripped
  | '"' :: stripped => takeQuoted '"' stripped
  | rest => do
      let stop := size (beforeWhitespace rest)
      let text ← sliceTo stop rest
      let rest ← sliceFrom stop rest
      return some (text, trim rest)

/-- The number of a LIMIT, or 10. -/
def takeLimit (rest : List Char) : Option ℕ :=
  (afterKeyword C "LIMIT " rest).map fun rest =>
    (rest.bind fun number => parseUsize (String.ofList number)).getD 10

def parseFulltextSearch (sql : List Char) : Option (Option ParsedQuery) :=
  andThen (afterKeyword C "FULLTEXT SEARCH" sql) fun rest =>
  andThen (some (splitOnce rest)) fun (target, rest) =>
  andThen (afterKeyword C "FIELD " (trim rest)) fun rest =>
  andThen (some (splitOnce rest)) fun (field, rest) =>
  andThen (afterKeyword C "FOR " (trim rest)) fun rest =>
  andThen (takeQuery rest) fun (query, rest) =>
  (takeLimit C rest).map fun limit =>
    some {
      operation := .fullTextSearch
      target := String.ofList target
      columns := []
      conditions := []
      orderBy := []
      limit := some limit
      offset := none
      data := none
      fulltextSearch := some ⟨String.ofList field, String.ofList query, limit⟩ }

/-! ### Index commands -/

def indexKeywords : List (String × QueryOperation) :=
  [("CREATE FULLTEXT INDEX", .createFullTextIndex), ("CREATE INDEX", .createIndex),
    ("DROP INDEX", .dropIndex)]

/-- `<table> (<field>)` -/
def parseIndexTarget (operation : QueryOperation) (rest : List Char) :
    Option (Option ParsedQuery) :=
  match find ['('] rest, find [')'] rest with
  | some opening, some closing =>
      if closing ≤ opening then some none
      else do
        let table ← sliceTo opening rest
        let field ← slice (opening + 1) closing rest
        if trim table = [] ∨ trim field = [] then return none
        else
          return some {
            operation := operation
            target := String.ofList (trim table)
            columns := []
            conditions := []
            orderBy := []
            limit := none
            offset := none
            data := some ((∅ : Props).insert "field" (.string (String.ofList (trim field)))) }
  | _, _ => some none

def parseIndexCommand (sql : List Char) : Option (Option ParsedQuery) :=
  let t := trim sql
  match indexKeywords.find? fun k => k.1.toList.isPrefixOf (C.toUppercase t) with
  | none => some none
  | some (keyword, operation) =>
      andThen (afterKeyword C keyword t) fun rest =>
      andThen (afterKeyword C "ON " rest) fun rest =>
      parseIndexTarget operation rest

end

/-! ### Statements -/

/-- Converting the expression negates the least integer. -/
def Expr.negationOverflows : Expr → Bool
  | .unaryOp .minus e =>
      e.negationOverflows ||
        match convertExpr e with
        | some (.int i) => i = -2 ^ 63
        | _ => false
  | _ => false

/-- Converting the expressions in turn, up to the first error, negates the least integer. -/
def negationPanics : List Expr → Bool
  | [] => false
  | e :: es => e.negationOverflows || ((convertExpr e).isSome && negationPanics es)

/-- The expressions that `extract_conditions` converts, in its order. -/
def conditionExprs : Expr → List Expr
  | .binaryOp left .and right => conditionExprs left ++ conditionExprs right
  | .binaryOp (.identifier _) op right =>
      if (comparisonOperator op).isSome then [right] else []
  | .like _ (.identifier _) pattern => [pattern]
  | .inList (.identifier _) list _ => list
  | _ => []

/-- The expressions of a WHERE clause that are converted. -/
def whereExprs (selection : Option Expr) : List Expr := selection.elim [] conditionExprs

/-- The expressions of a statement that are converted, in the order of `convert_statement`. -/
def Statement.converted : Statement → List Expr
  | query select => whereExprs (select.bind Select.selection)
  | insert _ _ (some (.values (row :: _))) => row
  | update (some _) assignments selection => assignments.map Prod.snd ++ whereExprs selection
  | delete _ selection => whereExprs selection
  | _ => []

/-- The end of `parse`: what the SQL library reads has to be one statement. -/
def parseStatement (parseSql : List Char → Option (List Statement)) (sql : List Char) :
    Option (Option ParsedQuery) :=
  match parseSql sql with
  | some [stmt] => if negationPanics stmt.converted then none else some (convertStatement stmt)
  | _ => some none

/-- Try one reading, and another if the text is no such command. -/
def orTry {α : Type} (x y : Option (Option α)) : Option (Option α) :=
  match x with
  | some none => y
  | x => x

/-- `QueryParser::parse` -/
def parse (C : Casing) (parseSql : List Char → Option (List Statement)) (sql : List Char) :
    Option (Option ParsedQuery) :=
  orTry (parseVectorSearch C sql) <|
  orTry (parseFulltextSearch C sql) <|
  orTry (parseIndexCommand C sql) <|
  parseStatement parseSql sql

end AresaDb.Query
