import AresaDb.Query.Where
import AresaDb.Query.Executor
import AresaDb.Store.Json

/-! # Results

The rows that `execute_plan` makes of the nodes it ends with (`query/executor.rs`,
`QueryResult::from_nodes` in `query/mod.rs`).  The columns are gathered from all nodes; a projection
drops columns, and then takes of every row the cells at the places that the kept columns have among
themselves.  So a row has as many cells as there are columns, but they are the first ones that it
had (`rows_project`), and stand under their own columns only if these are kept in place
(`projection_aligned_iff`). -/

namespace AresaDb.Query

open AresaDb.Store

structure QueryResult where
  columns : List String
  rows : List (List Value)
  rowsAffected : ℕ

/-- The columns of the nodes: the id, the type, and all their properties by name. -/
def gatheredColumns (nodes : List Node) : List String :=
  let found := ("id" :: "type" :: nodes.flatMap fun node => node.properties.keys).dedup
  "id" :: "type" :: (found.insertionSort (· ≤ ·)).filter fun c => c ≠ "id" && c ≠ "type"

/-- A column that the query selects, or that is shown anyhow. -/
def keepsColumn (selected : List String) (c : String) : Bool :=
  selected.contains c || c == "id" || c == "type"

namespace QueryResult

def empty : QueryResult := ⟨[], [], 0⟩

def fromNodes (nodes : List Node) : QueryResult :=
  if nodes.isEmpty then empty
  else
    let columns := gatheredColumns nodes
    ⟨columns, nodes.map fun node => columns.map (columnValue node), 0⟩

/-- The projection on the columns of a query; no columns are all.  `none` is a panic: a row ends
before a place that is asked of it. -/
def project (selected : List String) (r : QueryResult) : Option QueryResult :=
  if selected.isEmpty then some r
  else
    let columns := r.columns.filter (keepsColumn selected)
    let keepIndices := (columns.zipIdx.filter fun c => keepsColumn selected c.1).map Prod.snd
    (r.rows.mapM fun row => keepIndices.mapM fun i => row[i]?).map fun rows =>
      { r with columns := columns, rows := rows }

end QueryResult

/-- The result of a query from the end of its plan. -/
def queryResult (query : ParsedQuery) (x : Execution) : Option QueryResult :=
  let result : Option QueryResult :=
    match x.inserted, x.nodes with
    | some node, _ => some (QueryResult.fromNodes [node])
    | none, some nodes => (QueryResult.fromNodes nodes).project query.columns
    | none, none => some .empty
  result.map fun r => { r with rowsAffected := x.rowsAffected }

/-- The data of a statement on its way through JSON. -/
def viaJson (F : JsonFormat) (v : Value) : Option Value := Value.fromJson F v.toJson

/-- Plan a query and execute it.  `none` is an error. -/
def executeQuery (F : JsonFormat) (U : Unicode) (R : RegexEngine) (D : Draws) (P : QueryPlanner)
    (store : TieredStorage) (query : ParsedQuery) : Option (QueryResult × TieredStorage) := do
  let x ← executePlan F.serde U R (viaJson F) D store (P.plan query)
  let r ← queryResult query x
  return (r, x.store)

/-- The nodes that a result is made of. -/
def Execution.shown (x : Execution) : List Node :=
  match x.inserted with
  | some node => [node]
  | none => x.nodes.getD []

/-! ### Rows -/

/-- Every cell is the value of its column. -/
def QueryResult.Aligned (nodes : List Node) (r : QueryResult) : Prop :=
  r.rows = nodes.map fun node => r.columns.map (columnValue node)

theorem mapM_eq_some {α β : Type} {f : α → Option β} (g : α → β) {l : List α}
    (h : ∀ a ∈ l, f a = some (g a)) : l.mapM f = some (l.map g) := by
  induction l with
  | nil => rfl
  | cons a l ih =>
      obtain ⟨ha, hl⟩ := List.forall_mem_cons.mp h
      rw [List.mapM_cons, ha, ih hl]
      rfl

/-- All places of a list of kept columns are kept. -/
theorem keepIndices_eq (selected columns : List String) :
    (((columns.filter (keepsColumn selected)).zipIdx.filter fun c =>
      keepsColumn selected c.1).map Prod.snd) =
      List.range (columns.filter (keepsColumn selected)).length := by
  have hall : ((columns.filter (keepsColumn selected)).zipIdx.filter fun c =>
      keepsColumn selected c.1) = (columns.filter (keepsColumn selected)).zipIdx := by
    refine List.filter_eq_self.mpr fun c hc => ?_
    exact (List.mem_filter.mp (List.fst_mem_of_mem_zipIdx hc)).2
  rw [hall, List.zipIdx_map_snd, List.range_eq_range']

/-- The first places of a row. -/
theorem mapM_getElem?_range {α : Type} {row : List α} {k : ℕ} (h : k ≤ row.length) :
    (List.range k).mapM (fun i => row[i]?) = some (row.take k) := by
  induction k with
  | zero => rfl
  | succ k ih =>
      have hk : k < row.length := h
      rw [List.range_succ, List.mapM_append, ih (by omega), List.mapM_cons, List.mapM_nil,
        List.getElem?_eq_getElem hk, List.take_add_one, List.getElem?_eq_getElem hk]
      rfl

/-- A projection keeps the first cells of every row, as many as there are kept columns. -/
theorem rows_project {selected : List String} (hselected : selected ≠ []) {nodes : List Node}
    (hnodes : nodes ≠ []) :
    (QueryResult.fromNodes nodes).project selected =
      let kept := (gatheredColumns nodes).filter (keepsColumn selected)
      some ⟨kept, nodes.map fun node =>
        ((gatheredColumns nodes).take kept.length).map (columnValue node), 0⟩ := by
  have hkept := List.length_filter_le (keepsColumn selected) (gatheredColumns nodes)
  unfold QueryResult.project QueryResult.fromNodes
  simp only [List.isEmpty_eq_false_iff.mpr hnodes, List.isEmpty_eq_false_iff.mpr hselected,
    Bool.false_eq_true, if_false, keepIndices_eq, List.mapM_map]
  rw [mapM_eq_some fun node => ((gatheredColumns nodes).take
    ((gatheredColumns nodes).filter (keepsColumn selected)).length).map (columnValue node)]
  · rfl
  · intro node _
    rw [Function.comp_apply, mapM_getElem?_range (by rw [List.length_map]; exact hkept),
      List.map_take]

/-! ### Places -/

/-- Every kept column has in every node the value of the column that was gathered at the place where
it comes to stand. -/
def KeptInPlace (selected : List String) (nodes : List Node) : Prop :=
  ∀ node ∈ nodes, ∀ (j : ℕ) (kept gathered : String),
    ((gatheredColumns nodes).filter (keepsColumn selected))[j]? = some kept →
      (gatheredColumns nodes)[j]? = some gathered →
        columnValue node kept = columnValue node gathered

/-- It is enough that no dropped column comes before a kept one. -/
theorem keptInPlace_of_prefix {selected : List String} {nodes : List Node}
    (h : (gatheredColumns nodes).filter (keepsColumn selected) <+: gatheredColumns nodes) :
    KeptInPlace selected nodes := by
  obtain ⟨dropped, hdropped⟩ := h
  intro node _ j kept gathered hkept hgathered
  obtain ⟨hj, -⟩ := List.getElem?_eq_some_iff.mp hkept
  rw [← hdropped, List.getElem?_append_left hj, hkept] at hgathered
  rw [Option.some.inj hgathered]

/-- The first members of a list have the values of those of another one, place by place. -/
theorem map_take_eq_iff {α β : Type} (f : α → β) {l l' : List α} (h : l.length ≤ l'.length) :
    (l'.take l.length).map f = l.map f ↔
      ∀ (j : ℕ) (a a' : α), l[j]? = some a → l'[j]? = some a' → f a = f a' := by
  induction l generalizing l' with
  | nil => simp
  | cons a l ih =>
      cases l' with
      | nil => simp at h
      | cons a' l' =>
          rw [List.length_cons, List.take_succ_cons, List.map_cons, List.map_cons, List.cons.injEq,
            ih (by simpa using h)]
          constructor
          · rintro ⟨hhead, htail⟩ (_ | j)
            · simp [hhead]
            · simpa using htail j
          · intro hall
            exact ⟨(hall 0 a a' rfl rfl).symm, fun j => by simpa using hall (j + 1)⟩

theorem fromNodes_rows (nodes : List Node) :
    (QueryResult.fromNodes nodes).rows =
      nodes.map fun node => (QueryResult.fromNodes nodes).columns.map (columnValue node) := by
  unfold QueryResult.fromNodes
  split_ifs with hempty
  · rw [List.isEmpty_iff.mp hempty]
    rfl
  · rfl

/-- The rows of a result that has not been projected. -/
theorem aligned_fromNodes (nodes : List Node) (rowsAffected : ℕ) :
    let r := { QueryResult.fromNodes nodes with rowsAffected := rowsAffected }
    r.rows.length = nodes.length ∧ (∀ row ∈ r.rows, row.length = r.columns.length) ∧
      r.Aligned nodes := by
  refine ⟨?_, fun row hrow => ?_, fromNodes_rows nodes⟩
  · rw [fromNodes_rows, List.length_map]
  · rw [fromNodes_rows] at hrow
    obtain ⟨node, -, rfl⟩ := List.mem_map.mp hrow
    rw [List.length_map]

/-- A result has a row for every node, each with as many cells as there are columns.  The cells are
the values of the columns exactly when the result is that of an insert, or there is no projection,
or the kept columns are in place. -/
theorem projection_aligned_iff {query : ParsedQuery} {x : Execution} (hshown : x.shown ≠ []) :
    ∃ r, queryResult query x = some r ∧ r.rows.length = x.shown.length ∧
      (∀ row ∈ r.rows, row.length = r.columns.length) ∧
      (r.Aligned x.shown ↔
        x.inserted.isSome ∨ query.columns = [] ∨ KeptInPlace query.columns x.shown) := by
  obtain ⟨store, nodes, inserted, rowsAffected⟩ := x
  cases inserted with
  | some node =>
      obtain ⟨hrows, hcells, haligned⟩ := aligned_fromNodes [node] rowsAffected
      exact ⟨_, rfl, hrows, hcells, iff_of_true haligned (.inl rfl)⟩
  | none =>
      cases nodes with
      | none => exact absurd rfl hshown
      | some nodes =>
          change nodes ≠ [] at hshown
          by_cases hselected : query.columns = []
          · obtain ⟨hrows, hcells, haligned⟩ := aligned_fromNodes nodes rowsAffected
            refine ⟨_, ?_, hrows, hcells, iff_of_true haligned (.inr (.inl hselected))⟩
            unfold queryResult QueryResult.project
            rw [hselected]
            rfl
          · have hkept := List.length_filter_le (keepsColumn query.columns) (gatheredColumns nodes)
            let kept := (gatheredColumns nodes).filter (keepsColumn query.columns)
            refine ⟨⟨kept, nodes.map fun node =>
              ((gatheredColumns nodes).take kept.length).map (columnValue node), rowsAffected⟩,
              ?_, ?_, ?_, ?_⟩
            · unfold queryResult
              simp only [rows_project hselected hshown]
              rfl
            · exact List.length_map _
            · intro row hrow
              obtain ⟨node, -, rfl⟩ := List.mem_map.mp hrow
              rw [List.length_map, List.length_take, min_eq_left hkept]
            · simp only [QueryResult.Aligned, Option.isSome_none, Bool.false_eq_true, hselected,
                false_or]
              exact List.map_inj_left.trans
                (forall₂_congr fun node _ => map_take_eq_iff (columnValue node) hkept)

/-- A node with two properties. -/
def twoProperties : Node :=
  ⟨⟨1⟩, "users", ((∅ : Props).insert "a" (.int 1)).insert "b" (.int 2), 0, 0⟩

/-- The columns `id`, `type` and another one of such a node. -/
def selecting (column : String) : ParsedQuery where
  operation := .select
  target := "users"
  columns := [column]
  conditions := []
  orderBy := []
  limit := none
  offset := none
  data := none

/-- A plan that ended with the node. -/
def endedWith (node : Node) : Execution := ⟨.new ⟨1000, 0, false⟩ false, some [node], none, 0⟩

theorem projection_aligned_iff_sample :
    (endedWith twoProperties).shown ≠ [] ∧
    ∃ r, queryResult (selecting "a") (endedWith twoProperties) = some r ∧
      r.rows.length = (endedWith twoProperties).shown.length ∧
      (∀ row ∈ r.rows, row.length = r.columns.length) ∧
      (r.Aligned (endedWith twoProperties).shown ↔
        (endedWith twoProperties).inserted.isSome ∨ (selecting "a").columns = [] ∨
          KeptInPlace (selecting "a").columns (endedWith twoProperties).shown) := by
  have hshown : (endedWith twoProperties).shown ≠ [] := List.cons_ne_nil _ _
  exact ⟨hshown, projection_aligned_iff hshown⟩

/-- `SELECT b` shows the property `a`. -/
theorem projection_misaligned :
    ¬ ∀ (query : ParsedQuery) (x : Execution), x.shown ≠ [] →
      ∃ r, queryResult query x = some r ∧ r.Aligned x.shown := by
  intro h
  obtain ⟨r, hr, haligned⟩ := h (selecting "b") (endedWith twoProperties) (List.cons_ne_nil _ _)
  have hcells : (queryResult (selecting "b") (endedWith twoProperties)).map (fun r =>
      (r.columns, r.rows.map fun row => row.map fun v => v.eq (.int 1))) =
        some (["id", "type", "b"], [[false, false, true]]) := by
    decide +kernel
  rw [hr, Option.map_some, Option.some.injEq, Prod.mk.injEq] at hcells
  obtain ⟨hcolumns, hrows⟩ := hcells
  rw [haligned, hcolumns] at hrows
  revert hrows
  decide +kernel

end AresaDb.Query
