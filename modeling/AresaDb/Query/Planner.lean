import AresaDb.Query.Types

/-! # The planner

`QueryPlanner::plan` (`query/planner.rs`) turns a parsed query into a list of steps.  The first
condition on a column that the planner believes indexed makes the plan begin with an index lookup;
costs, which nothing but the printed plan uses, are left out. -/

namespace AresaDb.Query

open AresaDb.Store

inductive PlanStep where
  | fullScan (nodeType : String)
  | indexLookup (nodeType field : String) (value : Value)
  | filter (conditions : List Condition)
  | sort (field : String) (descending : Bool)
  | limit (count offset : ℕ)
  | project (columns : List String)
  | traverse (startNode : String) (depth : ℕ)
  | insertNode (nodeType : String) (data : Props)
  | updateNodes (data : Props)
  | deleteNodes

structure QueryPlan where
  steps : List PlanStep
  usesIndex : Bool

/-- What the planner knows: the fields it believes indexed, with their node types.  Only membership
is asked of the list. -/
structure QueryPlanner where
  indexedFields : List (String × String)

namespace QueryPlanner

/-- A planner without indexes. -/
def new : QueryPlanner := ⟨[]⟩

variable (P : QueryPlanner)

/-- The condition is on a column that the planner believes indexed. -/
def Indexes (nodeType : String) (c : Condition) : Prop := (nodeType, c.column) ∈ P.indexedFields

instance (nodeType : String) (c : Condition) : Decidable (P.Indexes nodeType c) := by
  unfold Indexes
  infer_instance

/-- The scan of a plan; whether it uses an index comes with it. -/
def planScan (nodeType : String) (conditions : List Condition) : PlanStep × Bool :=
  match conditions.find? fun c => P.Indexes nodeType c with
  | some c => (.indexLookup nodeType c.column c.value, true)
  | none => (.fullScan nodeType, false)

/-- The conditions that a SELECT keeps after its scan: those on columns without an index. -/
def remainingConditions (query : ParsedQuery) (usesIndex : Bool) : List Condition :=
  let indexConditions :=
    if usesIndex then
      (query.conditions.filter fun c => P.Indexes query.target c).map Condition.column
    else []
  query.conditions.filter fun c => c.column ∉ indexConditions

/-- A filter step, unless there is nothing to filter by. -/
def filterStep (conditions : List Condition) : List PlanStep :=
  if conditions = [] then [] else [.filter conditions]

def plan (query : ParsedQuery) : QueryPlan :=
  let (scanStep, foundIndex) := P.planScan query.target query.conditions
  match query.operation with
  | .select =>
      { steps :=
          scanStep :: filterStep (P.remainingConditions query foundIndex) ++
            query.orderBy.map (fun order => .sort order.column order.descending) ++
            query.limit.toList.map (fun limit => .limit limit (query.offset.getD 0)) ++
            if query.columns = [] then [] else [.project query.columns]
        usesIndex := foundIndex }
  | .insert =>
      { steps := query.data.toList.map fun data => .insertNode query.target data
        usesIndex := false }
  | .update =>
      { steps := scanStep :: filterStep query.conditions ++
          query.data.toList.map fun data => .updateNodes data
        usesIndex := foundIndex }
  | .delete =>
      { steps := scanStep :: filterStep query.conditions ++ [.deleteNodes]
        usesIndex := foundIndex }
  | .traverse =>
      -- The depth is cast to a `u32`.
      { steps := [.traverse query.target (query.limit.getD 2 % 2 ^ 32)]
        usesIndex := false }
  | _ => { steps := [], usesIndex := false }

end QueryPlanner

end AresaDb.Query
