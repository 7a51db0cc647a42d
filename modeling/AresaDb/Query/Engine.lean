import AresaDb.Query.Commands
import AresaDb.Query.Filters
import AresaDb.Query.Results
import AresaDb.Vectors.Handle

/-! # The query engine

`QueryEngine::execute_sql` (`query/executor.rs`) reads a text, puts the limit of its caller into the
query, and executes it: a search through its index, an index command on the storage, and everything
else by a plan.  A search is limited by its own parameters, not by the limit of the query. -/

namespace AresaDb.Query

open AresaDb.Store AresaDb.Vectors Text

/-- What the engine takes from libraries and from its surroundings. -/
structure Surroundings where
  casing : Casing
  parseSql : List Char → Option (List Statement)
  json : JsonFormat
  unicode : Unicode
  regex : RegexEngine
  draws : Draws
  floats : Platform
  scoring : Scoring
  hashOrder : HashOrder

structure QueryEngine where
  db : Handle
  planner : QueryPlanner

/-- The limit of the caller, if there is one, and that of the query, whichever is less. -/
def ParsedQuery.withLimit (limit : Option ℕ) (query : ParsedQuery) : ParsedQuery :=
  match limit with
  | some l => { query with limit := some ((query.limit.map fun own => min own l).getD l) }
  | none => query

/-- The names of the properties of some nodes, but for those that are left out. -/
def propertyKeys (leftOut : String → Bool) (nodes : List Node) : List String :=
  let keys := nodes.flatMap fun node => node.properties.keys
  ((keys.filter fun key => !leftOut key).dedup).insertionSort (· ≤ ·)

def propertyCells (keys : List String) (node : Node) : List Value :=
  keys.map fun key => node.properties[key]?.getD .null

section

variable (E : Surroundings) (db : Handle) (query : ParsedQuery)

/-! ### Full-text search -/

/-- The columns of the properties come after the rank, the node and the score. -/
def fulltextResult (found : List (Node × Binary64)) : QueryResult :=
  if found.isEmpty then .empty
  else
    let keys := propertyKeys (fun _ => false) (found.map Prod.fst)
    { columns := ["rank", "id", "type", "score"] ++ keys
      rows := found.zipIdx.map fun ((node, score), i) =>
        [.int (i + 1), .string node.id.display, .string node.nodeType, .float score] ++
          propertyCells keys node
      rowsAffected := 0 }

def executeFulltextSearch : Option (QueryResult × Handle) := do
  let params ← query.fulltextSearch
  let results ← db.tiered.local_.fulltextSearch E.unicode E.scoring E.hashOrder query.target
    params.field params.query params.limit
  (db.tiered.readNodes E.json.serde results).map fun (found, tiered) =>
    (fulltextResult found, { db with tiered := tiered })

/-! ### Vector search -/

/-- The index of the database is searched when there are no filters, and the nodes that pass them
otherwise. -/
def executeVectorSearch : Option (List SimilarityResult × Handle) := do
  let params ← query.vectorSearch
  if params.filters.isEmpty then
    let (results, db) := db.similaritySearch E.json E.floats params.queryVector query.target
      params.embeddingField params.k params.metric
    return (← results, db)
  else
    let (nodes, tiered) ← Database.getAllByType E.json db.tiered query.target none
    let filtered := nodes.filter fun node => nodeMatchesConditions node params.filters
    let results ← vectorSearch E.floats params.metric params.queryVector filtered
      params.embeddingField params.k
    return (results, { db with tiered := tiered })

/-- The properties that are not shown beside a vector search. -/
def isHiddenKey (key : String) : Bool := key = "embedding" || "$".toList.isPrefixOf key.toList

/-- The nodes of the results, each with its place among them. -/
def vectorResult (found : List (Node × SimilarityResult × ℕ)) : QueryResult :=
  let keys := propertyKeys isHiddenKey (found.map Prod.fst)
  { columns := ["rank", "id", "type", "score", "distance"] ++ keys
    rows := found.map fun (node, result, i) =>
      [.int (i + 1), .string node.id.display, .string node.nodeType, .float result.score,
        .float result.distance] ++ propertyCells keys node
    rowsAffected := 0 }

/-- The ids of some results, with the results and their places. -/
def placedIds (results : List SimilarityResult) : List (NodeId × SimilarityResult × ℕ) :=
  results.zipIdx.map fun e => (e.1.nodeId, e)

/-- `none` is the error of a read. -/
def vectorResultsToQueryResult (results : List SimilarityResult) : Option (QueryResult × Handle) :=
  (db.tiered.readNodes E.json.serde (placedIds results)).map fun (found, tiered) =>
    (vectorResult found, { db with tiered := tiered })

/-! ### Index commands -/

/-- The one row of an index command. -/
def indexResult (text : String) (rowsAffected : ℕ) : QueryResult :=
  ⟨["result"], [[.string text]], rowsAffected⟩

/-- `none` is the error that the command names no field, or that a payload does not parse. -/
def executeIndexCommand : Option (QueryResult × Handle) :=
  match query.data.bind fun data => data["field"]? with
  | some (.string field) =>
      let setLocal := fun storage => { db with tiered := { db.tiered with local_ := storage } }
      match query.operation with
      | .createIndex =>
          (db.tiered.local_.createPropertyIndex E.json.serde query.target field).map
            fun (count, storage) =>
              (indexResult s!"Index created on {query.target}.{field} ({count} entries indexed)"
                count, setLocal storage)
      | .dropIndex =>
          some (indexResult s!"Index on {query.target}.{field} dropped" 0,
            setLocal (db.tiered.local_.dropPropertyIndex query.target field))
      | .createFullTextIndex =>
          (db.tiered.local_.createFulltextIndex E.unicode query.target field).map
            fun (count, storage) =>
              (indexResult
                s!"Full-text index created on {query.target}.{field} ({count} documents indexed)"
                count, setLocal storage)
      | _ => none
  | _ => none

end

/-! ### Queries -/

namespace QueryEngine

variable (E : Surroundings) (engine : QueryEngine)

/-- Execute a query that has its limit; `none` is an error. -/
def execute (query : ParsedQuery) : Option (QueryResult × Handle) :=
  match query.operation with
  | .vectorSearch => do
      let (results, db) ← executeVectorSearch E engine.db query
      vectorResultsToQueryResult E db results
  | .createIndex | .dropIndex | .createFullTextIndex => executeIndexCommand E engine.db query
  | .fullTextSearch => executeFulltextSearch E engine.db query
  | _ =>
      (executeQuery E.json E.unicode E.regex E.draws engine.planner engine.db.tiered query).map
        fun (r, tiered) => (r, { engine.db with tiered := tiered })

/-- `none` is an error, or a panic of the parser. -/
def executeSql (sql : String) (limit : Option ℕ) : Option (QueryResult × Handle) := do
  let query ← (parse E.casing E.parseSql sql.toList).join
  engine.execute E (query.withLimit limit)

end QueryEngine

end AresaDb.Query
