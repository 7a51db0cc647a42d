import AresaDb.Query.Planner

/-! # The executor

`QueryEngine::execute_plan` (`query/executor.rs`) runs the steps of a plan on the storage.  What
the data of an INSERT or UPDATE becomes on its way through JSON is a parameter, as are the ids and
times that a statement draws. -/

namespace AresaDb.Query

open AresaDb.Store

/-! ### Sorting -/

/-- The order of two numbers or strings, equal where they do not compare. -/
def orderOf (lt gt : Bool) : Ordering := if lt then .lt else if gt then .gt else .eq

/-- The order of sorting: null first, values of one kind by their order, the rest equal. -/
def compareValues : Value → Value → Ordering
  | .null, .null => .eq
  | .null, _ => .lt
  | _, .null => .gt
  | .int a, .int b => compare a b
  | .float a, .float b => orderOf (a.lt b) (b.lt a)
  | .int a, .float b => orderOf (Binary64.lt (.ofInt a) b) (Binary64.lt b (.ofInt a))
  | .float a, .int b => orderOf (Binary64.lt a (.ofInt b)) (Binary64.lt (.ofInt b) a)
  | .string a, .string b => compare a b
  | .bool a, .bool b => compare a b
  | _, _ => .eq

/-- The order of two nodes by a property. -/
def compareNodes (field : String) (descending : Bool) (a b : Node) : Ordering :=
  let cmp := compareValues (a.properties[field]?.getD .null) (b.properties[field]?.getD .null)
  if descending then cmp.swap else cmp

/-- Sort by a property, nodes of one rank in the order they had.  A comparison that is no preorder
leaves it open what the library's sort does; here it merges. -/
def sortNodes (field : String) (descending : Bool) (nodes : List Node) : List Node :=
  nodes.mergeSort fun a b => compareNodes field descending a b ≠ .gt

/-! ### Steps -/

/-- What a statement draws from its surroundings. -/
structure Draws where
  /-- The id of an inserted node. -/
  newId : NodeId
  insertedAt : Timestamp
  /-- The time at which a node is updated. -/
  updatedAt : NodeId → Timestamp

/-- The state of `execute_plan` between two steps. -/
structure Execution where
  store : TieredStorage
  nodes : Option (List Node)
  inserted : Option Node
  rowsAffected : ℕ

section

variable (J : Serde) (U : Unicode) (R : RegexEngine) (viaJson : Value → Option Value) (D : Draws)

/-- All nodes of a type. -/
def Execution.scan (x : Execution) (nodeType : String) : Option Execution :=
  (x.store.getNodesByType J nodeType none).map fun (nodes, store) =>
    { x with store := store, nodes := some nodes }

/-- `Database::insert_node` -/
def insertNode (store : TieredStorage) (nodeType : String) (data : Props) :
    Option (Node × TieredStorage) :=
  (viaJson (.object data.toList)).map fun value =>
    let node : Node :=
      { id := D.newId
        nodeType := nodeType
        properties := match value with
          | .object fields => fields.foldl (fun p kv => p.insert kv.1 kv.2) ∅
          | value => (∅ : Props).insert "value" value
        createdAt := D.insertedAt
        updatedAt := D.insertedAt }
    (node, store.insertNode J U node)

/-- `Database::update_node` of each node in turn; the first failure is the failure of all. -/
def updateAll (data : Props) : TieredStorage → List Node → Option TieredStorage
  | store, [] => some store
  | store, node :: rest => do
      let value ← viaJson (.object data.toList)
      let (_, store') ← store.updateNode J (D.updatedAt node.id) node.id value
      updateAll data store' rest

def executeStep (x : Execution) : PlanStep → Option Execution
  | .fullScan nodeType => x.scan J nodeType
  | .indexLookup nodeType field value => do
      match ← x.store.indexLookup J nodeType field value with
      | (some nodes, store) => return { x with store := store, nodes := some nodes }
      | (none, store) => Execution.scan J { x with store := store } nodeType
  | .filter conditions =>
      some { x with
        nodes := x.nodes.map fun nodes => nodes.filter fun n => matchesConditions R n conditions }
  | .sort field descending => some { x with nodes := x.nodes.map (sortNodes field descending) }
  | .limit count offset =>
      some { x with nodes := x.nodes.map fun nodes => (nodes.drop offset).take count }
  | .project _ => some x
  | .insertNode nodeType data =>
      (insertNode J U viaJson D x.store nodeType data).map fun (node, store) =>
        { x with store := store, inserted := some node, rowsAffected := 1 }
  | .updateNodes data =>
      match x.nodes with
      | some nodes =>
          (updateAll J viaJson D data x.store nodes).map fun store =>
            { x with store := store, rowsAffected := x.rowsAffected + nodes.length }
      | none => some x
  | .deleteNodes =>
      match x.nodes with
      | some nodes =>
          (nodes.foldlM (fun store node => TieredStorage.deleteNode store node.id) x.store).map
              fun store =>
            { x with store := store, rowsAffected := x.rowsAffected + nodes.length }
      | none => some x
  | .traverse _ _ => some x

/-- Run a plan; an error of a step ends it. -/
def executePlan (store : TieredStorage) (plan : QueryPlan) : Option Execution :=
  plan.steps.foldlM (executeStep J U R viaJson D) ⟨store, none, none, 0⟩

end

end AresaDb.Query
