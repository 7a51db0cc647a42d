import AresaDb.Query.Engine
import AresaDb.Query.IndexPlans
import AresaDb.Query.ParserPanics
import AresaDb.Store.IdText
import AresaDb.Vectors.Freshness

/-! # Limits of the caller

`QueryEngine::execute_sql` puts the limit of its caller into the query, where the plan of a SELECT
reads it.  There it brings the OFFSET to bear, which a plan without a limit passes over, and fewer
nodes may make fewer columns.  The searches read limits of their own, and give what they give
without a caller.

So the rows are the first ones of those that the statement gives without a limit when the statement
itself asks for no more, or finds no more; of what a SELECT finds, when no OFFSET stands alone and
the first nodes have the cells that they have among all (`LimitKept`, `caller_limit_iff`). -/

namespace AresaDb.Query

open AresaDb.Store AresaDb.Vectors Text

/-! ### Rows of a SELECT -/

/-- The columns whose values the rows of some nodes show. -/
def shownColumns (selected : List String) (nodes : List Node) : List String :=
  let columns := gatheredColumns nodes
  if selected = [] then columns
  else columns.take (columns.filter (keepsColumn selected)).length

def shownRows (selected : List String) (nodes : List Node) : List (List Value) :=
  nodes.map fun node => (shownColumns selected nodes).map (columnValue node)

/-- The rows of some nodes have the same cells whether these are all nodes or the first of all. -/
structure SameCells (selected : List String) (first all : List Node) : Prop where
  width : (shownColumns selected first).length = (shownColumns selected all).length
  cells : ∀ node ∈ first, ∀ (j : ℕ) (c c' : String), (shownColumns selected first)[j]? = some c →
    (shownColumns selected all)[j]? = some c' → columnValue node c = columnValue node c'

section

variable {selected : List String} {nodes first all found : List Node} {l : ℕ}

/-- The id of its node is the first cell of a row. -/
theorem head?_shownColumns (selected : List String) (nodes : List Node) :
    (shownColumns selected nodes).head? = some "id" := by
  unfold shownColumns
  dsimp only
  split_ifs
  · rfl
  · have hpos : 0 < ((gatheredColumns nodes).filter (keepsColumn selected)).length := by
      unfold gatheredColumns
      rw [List.filter_cons_of_pos (by simp [keepsColumn])]
      exact Nat.succ_pos _
    rw [List.head?_take, if_neg hpos.ne']
    rfl

theorem heads_shownRows (selected : List String) (nodes : List Node) :
    (shownRows selected nodes).map List.head? =
      nodes.map fun node => some (.string node.id.display) := by
  unfold shownRows
  rw [List.map_map]
  refine List.map_congr_left fun node _ => ?_
  rw [Function.comp_apply, List.head?_map, head?_shownColumns]
  rfl

/-- Rows tell the ids of their nodes. -/
theorem ids_eq_of_heads (h : first.map (fun node => some (Value.string node.id.display)) =
    all.map fun node => some (.string node.id.display)) : first.map Node.id = all.map Node.id := by
  have hinj : Function.Injective fun id : NodeId => some (Value.string id.display) := by
    intro a b hab
    exact NodeId.display_injective (Value.string.inj (Option.some.inj hab))
  refine List.map_injective_iff.mpr hinj ?_
  rw [List.map_map, List.map_map]
  exact h

/-- The rows of the first nodes alone are the first rows of all exactly when the cells are the
same. -/
theorem shownRows_take_iff (all : List Node) (l : ℕ) :
    shownRows selected (all.take l) = (shownRows selected all).take l ↔
      l = 0 ∨ all = [] ∨ SameCells selected (all.take l) all := by
  by_cases hempty : all.take l = []
  · have hnone : l = 0 ∨ all = [] := List.take_eq_nil_iff.mp hempty
    refine iff_of_true ?_ (hnone.imp_right .inl)
    unfold shownRows
    rw [← List.map_take, hempty]
    rfl
  · have hsome : ¬ l = 0 ∧ ¬ all = [] := not_or.mp (mt List.take_eq_nil_iff.mpr hempty)
    rw [or_iff_right hsome.1, or_iff_right hsome.2]
    unfold shownRows
    rw [← List.map_take, List.map_inj_left]
    constructor
    · intro h
      have hlength : (shownColumns selected (all.take l)).length =
          (shownColumns selected all).length := by
        obtain ⟨node, hnode⟩ := List.exists_mem_of_ne_nil _ hempty
        simpa using congrArg List.length (h node hnode)
      refine ⟨hlength, fun node hnode => (map_take_eq_iff (columnValue node) hlength.le).mp ?_⟩
      rw [hlength, List.take_length]
      exact (h node hnode).symm
    · rintro ⟨hlength, hcells⟩ node hnode
      have heq := (map_take_eq_iff (columnValue node) hlength.le).mpr (hcells node hnode)
      rw [hlength, List.take_length] at heq
      exact heq.symm

/-- Rows from another place are not the first ones. -/
theorem shownRows_drop_ne {offset : ℕ} (hids : (all.map Node.id).Nodup) (hoffset : offset ≠ 0)
    (hl : l ≠ 0) (hall : all ≠ []) :
    shownRows selected ((all.drop offset).take l) ≠ (shownRows selected all).take l := by
  intro h
  have hheads := congrArg (List.map List.head?) h
  rw [List.map_take, heads_shownRows, heads_shownRows, ← List.map_take] at hheads
  have hmap := ids_eq_of_heads hheads
  rw [List.map_take, List.map_take, List.map_drop] at hmap
  have hfirst := congrArg (fun ids : List NodeId => ids[0]?) hmap
  simp only [List.getElem?_take, List.getElem?_drop, Nat.pos_of_ne_zero hl, if_true,
    Nat.add_zero] at hfirst
  obtain ⟨node, rest, rfl⟩ := List.exists_cons_of_ne_nil hall
  exact hoffset ((List.getElem?_inj (Nat.succ_pos _) hids).mp hfirst.symm).symm

/-- A SELECT shows the rows of the nodes that its plan ends with. -/
theorem queryResult_select (q : ParsedQuery) (s : TieredStorage) (nodes : List Node) :
    (queryResult q ⟨s, some nodes, none, 0⟩).map QueryResult.rows =
      some (shownRows q.columns nodes) := by
  unfold queryResult
  rw [Option.map_map]
  change ((QueryResult.fromNodes nodes).project q.columns).map QueryResult.rows = _
  by_cases hselected : q.columns = []
  · have hproject : (QueryResult.fromNodes nodes).project q.columns =
        some (QueryResult.fromNodes nodes) := by
      unfold QueryResult.project
      rw [hselected]
      rfl
    rw [hproject, Option.map_some]
    unfold shownRows shownColumns QueryResult.fromNodes
    split_ifs with hempty
    · rw [List.isEmpty_iff.mp hempty]
      rfl
    · rfl
  · cases nodes with
    | nil =>
        unfold QueryResult.project
        rw [if_neg (by simpa using hselected)]
        rfl
    | cons node nodes =>
        rw [rows_project hselected (List.cons_ne_nil node nodes)]
        unfold shownRows shownColumns
        dsimp only
        rw [if_neg hselected, Option.map_some]

end

/-! ### Without a selection -/

/-- The names of properties. -/
def propertyNames (nodes : List Node) : List String :=
  nodes.flatMap fun node => node.properties.keys

/-- The columns after the id and the type. -/
def otherColumns (nodes : List Node) : List String :=
  ((("id" :: "type" :: propertyNames nodes).dedup).insertionSort (· ≤ ·)).filter fun c =>
    c ≠ "id" && c ≠ "type"

theorem gatheredColumns_eq (nodes : List Node) :
    gatheredColumns nodes = "id" :: "type" :: otherColumns nodes := rfl

theorem nodup_otherColumns (nodes : List Node) : (otherColumns nodes).Nodup :=
  ((List.perm_insertionSort _ _).nodup_iff.mpr (List.nodup_dedup _)).filter _

theorem mem_otherColumns {nodes : List Node} {c : String} :
    c ∈ otherColumns nodes ↔ c ≠ "id" ∧ c ≠ "type" ∧ c ∈ propertyNames nodes := by
  unfold otherColumns
  simp only [List.mem_filter, List.mem_insertionSort, List.mem_dedup, List.mem_cons]
  by_cases hid : c = "id" <;> by_cases htype : c = "type" <;> simp [hid, htype]

/-- The columns depend on the names only. -/
theorem otherColumns_congr {a b : List Node}
    (h : ∀ c, c ∈ otherColumns a ↔ c ∈ otherColumns b) : otherColumns a = otherColumns b := by
  have hsorted : ∀ nodes, (otherColumns nodes).Pairwise (· ≤ ·) := fun nodes =>
    (List.pairwise_insertionSort (· ≤ ·) _).sublist List.filter_sublist
  have hperm := (List.perm_ext_iff_of_nodup (nodup_otherColumns a) (nodup_otherColumns b)).mpr h
  exact hperm.eq_of_pairwise (fun c d _ _ hcd hdc => le_antisymm hcd hdc) (hsorted a) (hsorted b)

/-- When all columns are shown, the cells are the same exactly if the first nodes have all property
names. -/
theorem sameCells_iff {first all : List Node} (hsub : first ⊆ all) :
    SameCells [] first all ↔
      ∀ c ∈ propertyNames all, c = "id" ∨ c = "type" ∨ c ∈ propertyNames first := by
  have hnames : propertyNames first ⊆ propertyNames all := fun c hc => by
    obtain ⟨node, hnode, hkey⟩ := List.mem_flatMap.mp hc
    exact List.mem_flatMap.mpr ⟨node, hsub hnode, hkey⟩
  have hothers : otherColumns first ⊆ otherColumns all := fun c hc => by
    obtain ⟨hid, htype, hname⟩ := mem_otherColumns.mp hc
    exact mem_otherColumns.mpr ⟨hid, htype, hnames hname⟩
  constructor
  · intro h c hc
    have hlength : (otherColumns all).length ≤ (otherColumns first).length := by
      have hwidth := h.width
      unfold shownColumns at hwidth
      rw [if_pos rfl, if_pos rfl, gatheredColumns_eq, gatheredColumns_eq] at hwidth
      simp only [List.length_cons, Nat.add_right_cancel_iff] at hwidth
      exact hwidth.ge
    have hperm := ((nodup_otherColumns first).subperm hothers).perm_of_length_le hlength
    by_cases hid : c = "id"
    · exact .inl hid
    · by_cases htype : c = "type"
      · exact .inr (.inl htype)
      · have hin := hperm.symm.subset (mem_otherColumns.mpr ⟨hid, htype, hc⟩)
        exact .inr (.inr (mem_otherColumns.mp hin).2.2)
  · intro h
    have heq : otherColumns first = otherColumns all := by
      refine otherColumns_congr fun c => ⟨fun hc => hothers hc, fun hc => ?_⟩
      obtain ⟨hid, htype, hname⟩ := mem_otherColumns.mp hc
      exact mem_otherColumns.mpr ⟨hid, htype, ((h c hname).resolve_left hid).resolve_left htype⟩
    have hcolumns : shownColumns [] first = shownColumns [] all := by
      unfold shownColumns
      rw [if_pos rfl, if_pos rfl, gatheredColumns_eq, gatheredColumns_eq, heq]
    refine ⟨congrArg List.length hcolumns, fun node _ j c c' hc hc' => ?_⟩
    rw [hcolumns, hc'] at hc
    rw [Option.some.inj hc]

/-! ### Rows that are there -/

/-- There is a node at the id, whether it can be read or not. -/
def isStored (F : JsonFormat) (s : TieredStorage) (id : NodeId) : Bool :=
  (s.local_.recordOf F.serde id).isSome

/-- A read of a list of ids finds those that are stored. -/
theorem length_readNodes {τ : Type} {F : JsonFormat} {s s' : TieredStorage}
    {ids : List (NodeId × τ)} {found : List (Node × τ)}
    (h : s.readNodes F.serde ids = some (found, s')) :
    found.length = (ids.map Prod.fst).countP (isStored F s) := by
  have hspec := congrArg List.length (readNodes_spec h)
  rw [List.length_map, ← List.countP_eq_length_filter] at hspec
  rw [hspec, List.countP_map]
  rfl

/-- Different ids that are hits when they are stored. -/
theorem countP_isStored_le {F : JsonFormat} {s : TieredStorage} {ids hits : List NodeId}
    (hids : ids.Nodup) (hsub : ∀ id ∈ ids, isStored F s id → id ∈ hits) :
    ids.countP (isStored F s) ≤ hits.length := by
  rw [List.countP_eq_length_filter]
  refine (List.subperm_of_subset (hids.filter _) fun id hid => ?_).length_le
  obtain ⟨hin, hstored⟩ := List.mem_filter.mp hid
  exact hsub id hin hstored

/-! ### What a caller asks for -/

/-- The rows of a limited run, if it succeeds, are the first ones of the other run. -/
def FirstRows (l : ℕ) (limited whole : Option (List (List Value))) : Prop :=
  ∀ rows, limited = some rows →
    rows.length ≤ l ∧ ∃ all, whole = some all ∧ rows = all.take l

theorem firstRows_none {l : ℕ} {whole : Option (List (List Value))} : FirstRows l none whole :=
  nofun

theorem firstRows_some {l : ℕ} {rows all : List (List Value)} :
    FirstRows l (some rows) (some all) ↔ rows = all.take l := by
  constructor
  · intro h
    obtain ⟨-, all', hall, heq⟩ := h rows rfl
    rwa [Option.some.inj hall]
  · rintro heq rows' hrows
    obtain rfl := Option.some.inj hrows
    exact ⟨heq ▸ List.length_take_le _ _, all, rfl, heq⟩

theorem firstRows_self {l : ℕ} {rows : Option (List (List Value))} :
    FirstRows l rows rows ↔ ∀ r, rows = some r → r.length ≤ l := by
  constructor
  · exact fun h r hr => (h r hr).1
  · exact fun h r hr => ⟨h r hr, r, hr, (List.take_of_length_le (h r hr)).symm⟩

section

variable (E : Surroundings) (engine : QueryEngine)

/-- The rows of a statement. -/
def QueryEngine.rows (sql : String) (limit : Option ℕ) : Option (List (List Value)) :=
  (engine.executeSql E sql limit).map fun r => r.1.rows

/-- The statement asks for rows. -/
def ParsedQuery.Reads (q : ParsedQuery) : Prop :=
  q.operation = .select ∨ q.operation = .vectorSearch ∨ q.operation = .fullTextSearch

/-- With a limit a statement that asks for rows gives the first ones of those that it gives
without. -/
def CallerLimited (sql : String) (l : ℕ) : Prop :=
  ∀ q, parse E.casing E.parseSql sql.toList = some (some q) → q.Reads →
    FirstRows l (engine.rows E sql (some l)) (engine.rows E sql none)

/-! ### When it is so -/

/-- The nodes that a SELECT finds; `none` is the error of a read. -/
def foundBy (q : ParsedQuery) : Option (List Node) :=
  (nodesAt E.json.serde engine.db.tiered
    (scannedIds E.json.serde engine.db.tiered engine.planner q)).map
      (List.filter fun n => matchesConditions E.regex n (unindexedConditions engine.planner q))

/-- A SELECT shows none of the nodes that it finds, or with an OFFSET there is a LIMIT, and the
first of the nodes on its page have the cells that they have among all of them. -/
def SelectWithin (q : ParsedQuery) (found : List Node) (l : ℕ) : Prop :=
  l = 0 ∨ arrange q found = [] ∨
    (q.limit.isSome ∨ q.offset.getD 0 = 0) ∧
      SameCells q.columns ((arrange q found).take l) (arrange q found)

section

variable (db : Handle) (q : ParsedQuery)

/-- The nodes of the type; none when one of them cannot be read. -/
def typedNodes : List Node :=
  (nodesAt E.json.serde db.tiered (db.tiered.local_.nodeTypeIndex.get q.target)).getD []

/-- The index of the field, if it has vectors. -/
def readyIndex (p : VectorSearchParams) : Option VectorIndex :=
  (db.vectorIndexes[toLex (q.target, p.embeddingField)]?).filter fun ix => !ix.vectors.isEmpty

/-- The stored nodes that a vector search is about: those in the index, or, if it has none, those of
the type with a vector of the dimension; with filters, those that pass them and have a vector to
compare. -/
def vectorHits (p : VectorSearchParams) : List NodeId :=
  if p.filters.isEmpty then
    match readyIndex db q p with
    | some ix => ix.vectors.keys.filter (isStored E.json db.tiered)
    | none =>
        ((typedNodes E db q).filter fun node =>
          (vectorOfDim p.embeddingField p.queryVector.length node).isSome).map Node.id
  else
    (comparable E.floats p.metric p.queryVector p.embeddingField
      ((typedNodes E db q).filter fun node => nodeMatchesConditions node p.filters)).map Node.id

/-- The documents that the index lists for a word of the query. -/
def listedDocuments (p : FullTextSearchParams) : List NodeId :=
  ((tokenize E.unicode p.query).flatMap fun token =>
    db.tiered.local_.fulltextFields.lookup q.target p.field token).dedup

/-- The stored nodes that a full-text search is about. -/
def fulltextHits (p : FullTextSearchParams) : List NodeId :=
  (listedDocuments E db q p).filter (isStored E.json db.tiered)

/-- The index that a search goes to. -/
def searchedIndex (p : VectorSearchParams) : Option VectorIndex :=
  (readyIndex db q p).or
    ((detectDimension p.embeddingField (typedNodes E db q)).map fun dimension =>
      indexNodes E.floats p.embeddingField
        (db.getOrCreateVectorIndex (toLex (q.target, p.embeddingField)) dimension)
        (typedNodes E db q))

/-- The index of the search lists stored nodes only; the one of a vector search leads to all its
vectors, and is searched as wide as it is. -/
def IndexSound : Prop :=
  match q.operation with
  | .vectorSearch => ∀ p, q.vectorSearch = some p → p.filters.isEmpty →
      ∀ ix, searchedIndex E db q p = some ix →
        ix.Entered ∧ ix.Linked ∧ ix.vectors.size ≤ max p.k ix.efConstruction ∧
          ∀ id ∈ ix.vectors.keys, isStored E.json db.tiered id
  | .fullTextSearch => ∀ p, q.fulltextSearch = some p →
      ∀ id ∈ listedDocuments E db q p, isStored E.json db.tiered id
  | _ => True

end

/-- The limit of the caller is kept. -/
def LimitKept (q : ParsedQuery) (l : ℕ) : Prop :=
  match q.operation with
  | .select => ∀ found, foundBy E engine q = some found → SelectWithin q found l
  | .vectorSearch => ∀ p, q.vectorSearch = some p →
      p.k ≤ l ∨ (vectorHits E engine.db q p).length ≤ l
  | .fullTextSearch => ∀ p, q.fulltextSearch = some p →
      p.limit ≤ l ∨ (fulltextHits E engine.db q p).length ≤ l
  | _ => True

end

section

variable {E : Surroundings} {engine : QueryEngine} {q : ParsedQuery} {l : ℕ}

/-- A SELECT with a limit of the caller. -/
theorem arrange_withLimit (q : ParsedQuery) (l : ℕ) (found : List Node) :
    arrange (q.withLimit (some l)) found =
      if q.limit.isSome then (arrange q found).take l
      else ((arrange q found).drop (q.offset.getD 0)).take l := by
  unfold ParsedQuery.withLimit arrange
  cases q.limit with
  | none => rfl
  | some own =>
      simp only [Option.map_some, Option.getD_some, Option.isSome_some, if_true]
      rw [List.take_take, min_comm]

theorem shownRows_arrange_iff {found : List Node} (hids : (found.map Node.id).Nodup) :
    shownRows q.columns (arrange (q.withLimit (some l)) found) =
        (shownRows q.columns (arrange q found)).take l ↔
      SelectWithin q found l := by
  unfold SelectWithin
  rw [arrange_withLimit]
  by_cases hlimit : q.limit.isSome
  · rw [if_pos hlimit, shownRows_take_iff, and_iff_right (.inl hlimit)]
  · rw [if_neg hlimit]
    by_cases hoffset : q.offset.getD 0 = 0
    · rw [hoffset, List.drop_zero, shownRows_take_iff, and_iff_right (.inr rfl)]
    · rw [or_iff_left (not_and.mpr fun h => absurd h (not_or.mpr ⟨hlimit, hoffset⟩))]
      by_cases hl : l = 0
      · subst hl
        exact iff_of_true rfl (.inl rfl)
      · by_cases hall : arrange q found = []
        · refine iff_of_true ?_ (.inr hall)
          rw [hall, List.drop_nil, List.take_nil]
          exact List.take_nil.symm
        · have hnodup : ((arrange q found).map Node.id).Nodup := by
            have hperm := arrange_perm (Option.not_isSome_iff_eq_none.mp hlimit) found
            exact (hperm.map Node.id).nodup_iff.mpr hids
          exact iff_of_false (shownRows_drop_ne hnodup hoffset hl hall) (not_or.mpr ⟨hl, hall⟩)

/-- A SELECT with whatever limit of the caller. -/
theorem rows_select (hop : q.operation = .select) (limit : Option ℕ) :
    (engine.execute E (q.withLimit limit)).map (fun r => r.1.rows) =
      (selectFound E.json.serde E.unicode E.regex (viaJson E.json) E.draws engine.db.tiered
        engine.planner q).map fun e => shownRows q.columns (arrange (q.withLimit limit) e.2) := by
  have hop' : (q.withLimit limit).operation = .select := by
    cases limit <;> exact hop
  have hcolumns : (q.withLimit limit).columns = q.columns := by
    cases limit <;> rfl
  have hfound : selectFound E.json.serde E.unicode E.regex (viaJson E.json) E.draws
      engine.db.tiered engine.planner (q.withLimit limit) = selectFound E.json.serde E.unicode
        E.regex (viaJson E.json) E.draws engine.db.tiered engine.planner q := by
    cases limit <;> rfl
  unfold QueryEngine.execute executeQuery
  simp only [hop', executePlan_select hop', hfound]
  cases selectFound E.json.serde E.unicode E.regex (viaJson E.json) E.draws engine.db.tiered
      engine.planner q with
  | none => rfl
  | some e =>
      obtain ⟨s', found⟩ := e
      have hrows := queryResult_select (q.withLimit limit) s' (arrange (q.withLimit limit) found)
      obtain ⟨r, hr, hrows⟩ := Option.map_eq_some_iff.mp hrows
      simp only [Option.map_some, Option.bind_eq_bind, Option.bind_some, hr]
      rw [← hcolumns, ← hrows]
      rfl

theorem firstRows_select_iff (hop : q.operation = .select) :
    FirstRows l ((engine.execute E (q.withLimit (some l))).map fun r => r.1.rows)
        ((engine.execute E (q.withLimit none)).map fun r => r.1.rows) ↔
      LimitKept E engine q l := by
  have hnodes := selectFound_nodes (J := E.json.serde) (U := E.unicode) (R := E.regex)
    (V := viaJson E.json) (D := E.draws) engine.db.tiered engine.planner q
  unfold LimitKept foundBy
  rw [rows_select hop, rows_select hop, hop, ← hnodes]
  cases hfound : selectFound E.json.serde E.unicode E.regex (viaJson E.json) E.draws
      engine.db.tiered engine.planner q with
  | none => exact iff_of_true firstRows_none nofun
  | some e =>
      rw [Option.map_some, Option.map_some, firstRows_some]
      refine (shownRows_arrange_iff (selectFound_nodup hfound)).trans ?_
      exact ⟨fun h all hall => Option.some.inj hall ▸ h, fun h => h _ rfl⟩

theorem length_rows_fulltextResult (found : List (Node × Binary64)) :
    (fulltextResult found).rows.length = found.length := by
  unfold fulltextResult
  split_ifs with hempty
  · rw [List.isEmpty_iff.mp hempty]
    rfl
  · rw [List.length_map, List.length_zipIdx]

/-- The documents that a full-text search ranks: so many as it is asked for, or all of them. -/
theorem fulltextSearch_spec {db : Handle} {p : FullTextSearchParams}
    {results : List (NodeId × Binary64)}
    (h : db.tiered.local_.fulltextSearch E.unicode E.scoring E.hashOrder q.target p.field p.query
      p.limit = some results) :
    (results.map Prod.fst).Nodup ∧ results.map Prod.fst ⊆ listedDocuments E db q p ∧
      results.length = min p.limit (listedDocuments E db q p).length := by
  unfold LocalStorage.fulltextSearch at h
  split_ifs at h
  obtain rfl := Option.some.inj h
  let scores := (tokenize E.unicode p.query).foldl
    (db.tiered.local_.scoreToken E.scoring q.target p.field) ∅
  have hranked : ((E.hashOrder.order scores.toList).mergeSort fun a b => !(a.2.lt b.2)).Perm
      scores.toList := (List.mergeSort_perm _ _).trans (E.hashOrder.perm _)
  have hnodup : (scores.toList.map Prod.fst).Nodup :=
    Std.ExtTreeMap.map_fst_toList_eq_keys (t := scores) ▸ Std.ExtTreeMap.nodup_keys
  have hkeys : (scores.toList.map Prod.fst).Perm (listedDocuments E db q p) := by
    refine (List.perm_ext_iff_of_nodup hnodup (List.nodup_dedup _)).mpr fun id => ?_
    rw [List.mem_dedup, List.mem_flatMap, ← LocalStorage.mem_scores (A := E.scoring)]
    constructor
    · intro hid
      obtain ⟨⟨id', score⟩, hmem, rfl⟩ := List.mem_map.mp hid
      exact ⟨score, (OrdMap.mem_toList _ _ _).mp hmem⟩
    · rintro ⟨score, hscore⟩
      exact List.mem_map.mpr ⟨(id, score), (OrdMap.mem_toList _ _ _).mpr hscore, rfl⟩
  refine ⟨?_, fun id hid => ?_, ?_⟩
  · exact ((hranked.map Prod.fst).nodup_iff.mpr hnodup).sublist ((List.take_sublist _ _).map _)
  · rw [List.map_take] at hid
    exact hkeys.mem_iff.mp ((hranked.map Prod.fst).mem_iff.mp (List.mem_of_mem_take hid))
  · rw [List.length_take, hranked.length_eq, ← hkeys.length_eq, List.length_map]

/-- The rows of a full-text search. -/
theorem length_rows_fulltext {db db' : Handle} {p : FullTextSearchParams} {r : QueryResult}
    (hp : q.fulltextSearch = some p) (h : executeFulltextSearch E db q = some (r, db')) :
    r.rows.length ≤ min p.limit (fulltextHits E db q p).length ∧
      ((∀ id ∈ listedDocuments E db q p, isStored E.json db.tiered id) →
        r.rows.length = min p.limit (fulltextHits E db q p).length) := by
  unfold executeFulltextSearch at h
  rw [hp] at h
  simp only [Option.bind_eq_bind, Option.bind_some] at h
  obtain ⟨results, hresults, h⟩ := Option.bind_eq_some_iff.mp h
  obtain ⟨⟨found, tiered⟩, hread, heq⟩ := Option.map_eq_some_iff.mp h
  obtain ⟨rfl, -⟩ := Prod.mk.inj heq
  obtain ⟨hnodup, hsub, hlength⟩ := fulltextSearch_spec (q := q) hresults
  rw [length_rows_fulltextResult, length_readNodes hread]
  refine ⟨le_min ?_ ?_, fun hall => ?_⟩
  · refine List.countP_le_length.trans ?_
    rw [List.length_map, hlength]
    exact min_le_left _ _
  · exact countP_isStored_le hnodup fun id hid hstored =>
      List.mem_filter.mpr ⟨hsub hid, hstored⟩
  · rw [List.countP_eq_length.mpr fun id hid => hall id (hsub hid), List.length_map, hlength,
      fulltextHits, List.filter_eq_self.mpr hall]

theorem length_rows_vectorResult (found : List (Node × SimilarityResult × ℕ)) :
    (vectorResult found).rows.length = found.length := List.length_map _

theorem ready_of_isEmpty {ix : VectorIndex} (h : ix.vectors.isEmpty = true) : Ready ix :=
  fun hne => absurd (h.symm.trans hne) (by decide)

/-- The vectors of an index that is filled from nodes. -/
theorem mem_keys_filled {ix : VectorIndex} (hempty : ix.vectors.isEmpty = true) (field : String)
    (nodes : List Node) (id : NodeId) :
    id ∈ (indexNodes E.floats field ix nodes).vectors.keys ↔
      id ∈ (nodes.filter fun node => (vectorOfDim field ix.dimension node).isSome).map Node.id := by
  rw [VectorIndex.mem_keys, (indexNodes_isSome (ready_of_isEmpty hempty) id).2,
    VectorIndex.vectorOf_eq_none_of_isEmpty hempty]
  simp only [Option.isSome_none, Bool.false_eq_true, false_or, List.mem_map, List.mem_filter]
  exact exists_congr fun node => by rw [and_assoc, and_comm (a := node.id = id)]

/-- What a search of an index finds is in the index, so much as it is asked for, or all of it if the
index is linked. -/
theorem search_hits {ix : VectorIndex} {p : VectorSearchParams} {results : List SimilarityResult}
    (h : (ix.search E.floats p.queryVector p.k).map (fun l => l.map (toResult E.floats p.metric)) =
      some results) :
    p.queryVector.length = ix.dimension ∧ (results.map SimilarityResult.nodeId).Nodup ∧
      results.map SimilarityResult.nodeId ⊆ ix.vectors.keys ∧ results.length ≤ p.k ∧
      (ix.Entered → ix.Linked → ix.vectors.size ≤ max p.k ix.efConstruction →
        results.length = min p.k ix.vectors.size) := by
  obtain ⟨found, hfound, rfl⟩ := Option.map_eq_some_iff.mp h
  have hdim : p.queryVector.length = ix.dimension := by
    by_contra hne
    rw [VectorIndex.search, if_neg hne] at hfound
    cases hfound
  have hids : (found.map (toResult E.floats p.metric)).map SimilarityResult.nodeId =
      found.map Prod.fst := by
    rw [List.map_map]
    rfl
  obtain ⟨hnodup, hkeys⟩ := VectorIndex.search_keys hfound
  rw [hids, List.length_map]
  refine ⟨hdim, hnodup, fun id hid => ?_, VectorIndex.length_search hfound,
    fun hentered hlinked hsize => ?_⟩
  · obtain ⟨e, he, rfl⟩ := List.mem_map.mp hid
    exact VectorIndex.mem_keys.mpr (hkeys e he)
  · obtain ⟨l, hl, hlength⟩ := VectorIndex.length_search_of_linked (P := E.floats) hentered
      hdim hsize hlinked
    obtain rfl := Option.some.inj (hfound.symm.trans hl)
    exact hlength

/-- The results of a vector search: no more than it is asked for, each of them once, and those that
are stored are hits. -/
structure HitsOnly (E : Surroundings) (db : Handle) (q : ParsedQuery) (p : VectorSearchParams)
    (results : List SimilarityResult) : Prop where
  bounded : results.length ≤ p.k
  nodup : (results.map SimilarityResult.nodeId).Nodup
  hits : ∀ id ∈ results.map SimilarityResult.nodeId,
    isStored E.json db.tiered id → id ∈ vectorHits E db q p
  complete : IndexSound E db q → results.length = min p.k (vectorHits E db q p).length ∧
    ∀ id ∈ results.map SimilarityResult.nodeId, isStored E.json db.tiered id

/-- Where there is no index with vectors, a search begins with an empty one. -/
theorem isEmpty_getOrCreate {db : Handle} {p : VectorSearchParams}
    (h : readyIndex db q p = none) (dimension : ℕ) :
    (db.getOrCreateVectorIndex (toLex (q.target, p.embeddingField)) dimension).vectors.isEmpty =
      true := by
  unfold readyIndex at h
  unfold Handle.getOrCreateVectorIndex
  cases hix : db.vectorIndexes[toLex (q.target, p.embeddingField)]? with
  | none => rfl
  | some ix =>
      rw [hix, Option.filter_eq_none_iff] at h
      simpa using h ix rfl

/-- A scan of the type has read its nodes. -/
theorem typedNodes_eq {db : Handle} {nodes : List Node} {tiered : TieredStorage}
    (h : Database.getAllByType E.json db.tiered q.target none = some (nodes, tiered)) :
    typedNodes E db q = nodes ∧ (nodes.map Node.id).Nodup ∧ tiered.local_ = db.tiered.local_ ∧
      ∀ node ∈ nodes, isStored E.json db.tiered node.id := by
  obtain ⟨hids, hlocal, hstored⟩ := getNodesByType_ids h
  refine ⟨?_, hids, hlocal, hstored⟩
  unfold typedNodes
  rw [← map_fst_getNodesByType, show db.tiered.getNodesByType E.json.serde q.target none =
    some (nodes, tiered) from h]
  rfl

theorem hitsOnly_nil {db : Handle} {p : VectorSearchParams} (hhits : vectorHits E db q p = []) :
    HitsOnly E db q p [] where
  bounded := Nat.zero_le _
  nodup := List.nodup_nil
  hits := nofun
  complete := fun _ => ⟨by rw [hhits]; exact (Nat.min_zero _).symm, nofun⟩

/-- A search of an index whose vectors are the hits, as far as they are stored. -/
theorem hitsOnly_of_search {db : Handle} {p : VectorSearchParams} {ix : VectorIndex}
    {results : List SimilarityResult}
    (hsearch : (ix.search E.floats p.queryVector p.k).map
      (fun l => l.map (toResult E.floats p.metric)) = some results)
    (hkeys : ∀ id ∈ ix.vectors.keys, isStored E.json db.tiered id → id ∈ vectorHits E db q p)
    (hsize : (∀ id ∈ ix.vectors.keys, isStored E.json db.tiered id) →
      (vectorHits E db q p).length = ix.vectors.size)
    (hsound : IndexSound E db q → ix.Entered ∧ ix.Linked ∧
      ix.vectors.size ≤ max p.k ix.efConstruction ∧
        ∀ id ∈ ix.vectors.keys, isStored E.json db.tiered id) :
    HitsOnly E db q p results := by
  obtain ⟨-, hnodup, hfound, hlength, hlinked⟩ := search_hits hsearch
  refine ⟨hlength, hnodup, fun id hid hstored => hkeys id (hfound hid) hstored, fun h => ?_⟩
  obtain ⟨hentered, hall, hwide, hstored⟩ := hsound h
  rw [hsize hstored]
  exact ⟨hlinked hentered hall hwide, fun id hid => hstored id (hfound hid)⟩

/-- Where no node has a vector, a scan finds nothing. -/
theorem scan_of_no_vectors {p : VectorSearchParams} {nodes : List Node}
    (hdetect : detectDimension p.embeddingField nodes = none) {results : List SimilarityResult}
    (hscan : vectorSearch E.floats p.metric p.queryVector nodes p.embeddingField p.k =
      some results) :
    results = [] ∧ ∀ node ∈ nodes, fieldVector p.embeddingField node = none := by
  have hvectors : ∀ node ∈ nodes, fieldVector p.embeddingField node = none := by
    intro node hnode
    have hnil := List.head?_eq_none_iff.mp (Option.map_eq_none_iff.mp hdetect)
    exact List.filterMap_eq_nil_iff.mp hnil node hnode
  refine ⟨?_, hvectors⟩
  obtain ⟨-, rfl⟩ := vectorSearch_eq_some.mp hscan
  have hnone : comparable E.floats p.metric p.queryVector p.embeddingField nodes = [] :=
    List.filter_eq_nil_iff.mpr fun node hnode => by simp [hvectors node hnode]
  have hlength := length_highest (P := E.floats) p.metric p.queryVector nodes p.embeddingField p.k
  rw [hnone, List.length_nil, Nat.min_zero] at hlength
  exact List.eq_nil_of_length_eq_zero hlength

/-- The hits are the vectors of an index that is filled from the nodes of the type. -/
theorem hits_filled {ix : VectorIndex} (hempty : ix.vectors.isEmpty = true) (field : String)
    {nodes : List Node} (hids : (nodes.map Node.id).Nodup) :
    (indexNodes E.floats field ix nodes).vectors.keys.Perm
      ((nodes.filter fun node => (vectorOfDim field ix.dimension node).isSome).map Node.id) :=
  (List.perm_ext_iff_of_nodup Std.ExtTreeMap.nodup_keys
    (hids.sublist (List.filter_sublist.map _))).mpr (mem_keys_filled hempty field nodes)

theorem similaritySearch_hits (hop : q.operation = .vectorSearch) {db db' : Handle}
    {p : VectorSearchParams} (hp : q.vectorSearch = some p) (hfilters : p.filters.isEmpty = true)
    {results : List SimilarityResult}
    (h : db.similaritySearch E.json E.floats p.queryVector q.target p.embeddingField p.k p.metric =
      (some results, db')) :
    HitsOnly E db q p results ∧ db'.tiered.local_ = db.tiered.local_ := by
  have hsound : IndexSound E db q → ∀ ix, searchedIndex E db q p = some ix →
      ix.Entered ∧ ix.Linked ∧ ix.vectors.size ≤ max p.k ix.efConstruction ∧
        ∀ id ∈ ix.vectors.keys, isStored E.json db.tiered id := by
    intro hsound
    unfold IndexSound at hsound
    rw [hop] at hsound
    exact hsound p hp hfilters
  unfold Handle.similaritySearch at h
  dsimp only at h
  have hready : (db.vectorIndexes[toLex (q.target, p.embeddingField)]?).filter
      (fun index => !index.vectors.isEmpty) = readyIndex db q p := rfl
  have hhits : vectorHits E db q p = match readyIndex db q p with
      | some ix => ix.vectors.keys.filter (isStored E.json db.tiered)
      | none =>
          ((typedNodes E db q).filter fun node =>
            (vectorOfDim p.embeddingField p.queryVector.length node).isSome).map Node.id :=
    if_pos hfilters
  rw [hready] at h
  cases hindex : readyIndex db q p with
  | some ix =>
      rw [hindex] at h hhits
      dsimp only at hhits
      obtain ⟨hsearch, rfl⟩ := Prod.mk.inj h
      refine ⟨hitsOnly_of_search hsearch (fun id hid hstored => ?_) (fun hstored => ?_)
        fun hsound' => hsound hsound' ix ?_, rfl⟩
      · rw [hhits]
        exact List.mem_filter.mpr ⟨hid, hstored⟩
      · rw [hhits, List.filter_eq_self.mpr hstored, Std.ExtTreeMap.length_keys]
      · rw [searchedIndex, hindex]
        rfl
  | none =>
      rw [hindex] at h hhits
      dsimp only at hhits
      cases hread : Database.getAllByType E.json db.tiered q.target none with
      | none =>
          rw [hread] at h
          cases h
      | some read =>
          obtain ⟨nodes, tiered⟩ := read
          obtain ⟨htyped, hids, hlocal, -⟩ := typedNodes_eq hread
          rw [hread] at h
          rw [htyped] at hhits
          dsimp only at h
          split_ifs at h with hempty
          · obtain ⟨hresults, rfl⟩ := Prod.mk.inj h
            obtain rfl := Option.some.inj hresults
            refine ⟨hitsOnly_nil ?_, hlocal⟩
            rw [hhits, List.isEmpty_iff.mp hempty]
            rfl
          · cases hdetect : detectDimension p.embeddingField nodes with
            | none =>
                rw [hdetect] at h
                obtain ⟨hscan, rfl⟩ := Prod.mk.inj h
                obtain ⟨rfl, hvectors⟩ := scan_of_no_vectors hdetect hscan
                refine ⟨hitsOnly_nil ?_, hlocal⟩
                rw [hhits, List.filter_eq_nil_iff.mpr, List.map_nil]
                intro node hnode
                simp [vectorOfDim, hvectors node hnode]
            | some dimension =>
                rw [hdetect] at h
                dsimp only at h
                obtain ⟨hsearch, rfl⟩ := Prod.mk.inj h
                have hempty := isEmpty_getOrCreate hindex dimension
                rw [show Handle.getOrCreateVectorIndex { db with tiered := tiered } =
                  db.getOrCreateVectorIndex from rfl, if_pos hempty] at hsearch
                have halike : VectorIndex.Alike _ (indexNodes E.floats p.embeddingField _ nodes) :=
                  (indexNodes_isSome (ready_of_isEmpty hempty) ⟨0⟩).1
                have hperm := hits_filled (E := E) hempty p.embeddingField hids
                rw [← halike.dimension, ← (search_hits hsearch).1, ← hhits] at hperm
                refine ⟨hitsOnly_of_search hsearch (fun id hid _ => hperm.mem_iff.mp hid)
                  (fun _ => ?_) fun hsound' => hsound hsound' _ ?_, hlocal⟩
                · rw [← hperm.length_eq, Std.ExtTreeMap.length_keys]
                · rw [searchedIndex, hindex, htyped, hdetect]
                  rfl

theorem executeVectorSearch_hits (hop : q.operation = .vectorSearch) {db db' : Handle}
    {p : VectorSearchParams} (hp : q.vectorSearch = some p) {results : List SimilarityResult}
    (h : executeVectorSearch E db q = some (results, db')) :
    HitsOnly E db q p results ∧ db'.tiered.local_ = db.tiered.local_ := by
  unfold executeVectorSearch at h
  rw [hp] at h
  simp only [Option.bind_eq_bind, Option.bind_some] at h
  split_ifs at h with hfilters
  · obtain ⟨found, hfound, heq⟩ := Option.bind_eq_some_iff.mp h
    obtain ⟨rfl, rfl⟩ := Prod.mk.inj (Option.some.inj heq)
    exact similaritySearch_hits hop hp hfilters (Prod.ext hfound rfl)
  · obtain ⟨⟨nodes, tiered⟩, hread, h⟩ := Option.bind_eq_some_iff.mp h
    obtain ⟨found, hscan, heq⟩ := Option.bind_eq_some_iff.mp h
    obtain ⟨rfl, rfl⟩ := Prod.mk.inj (Option.some.inj heq)
    obtain ⟨htyped, hids, hlocal, hstored⟩ := typedNodes_eq hread
    obtain ⟨-, rfl⟩ := vectorSearch_eq_some.mp hscan
    have hlength := length_highest (P := E.floats) p.metric p.queryVector
      (nodes.filter fun node => nodeMatchesConditions node p.filters) p.embeddingField p.k
    have hhits : vectorHits E db q p =
        (comparable E.floats p.metric p.queryVector p.embeddingField
          (nodes.filter fun node => nodeMatchesConditions node p.filters)).map Node.id := by
      rw [vectorHits, if_neg hfilters, htyped]
    have hsub := ids_highest (P := E.floats) p.metric p.queryVector
      (nodes.filter fun node => nodeMatchesConditions node p.filters) p.embeddingField p.k
    have hnodup : ((highest E.floats p.metric p.queryVector
        (nodes.filter fun node => nodeMatchesConditions node p.filters) p.embeddingField p.k).map
          SimilarityResult.nodeId).Nodup := by
      obtain ⟨l, hperm, hl⟩ := hsub
      exact hperm.nodup_iff.mp ((hids.sublist
        ((List.filter_sublist.trans List.filter_sublist).map Node.id)).sublist hl)
    refine ⟨⟨?_, hnodup, fun id hid _ => ?_, fun _ => ⟨?_, fun id hid => ?_⟩⟩, hlocal⟩
    · rw [hlength]
      exact min_le_left _ _
    · rw [hhits]
      exact hsub.subset hid
    · rw [hlength, hhits, List.length_map]
    · obtain ⟨node, hnode, rfl⟩ := List.mem_map.mp (hsub.subset hid)
      exact hstored node (List.mem_filter.mp (List.mem_filter.mp hnode).1).1

/-- The rows of a vector search. -/
theorem length_rows_vector (hop : q.operation = .vectorSearch) {db db' db'' : Handle}
    {p : VectorSearchParams} (hp : q.vectorSearch = some p) {results : List SimilarityResult}
    {r : QueryResult} (h : executeVectorSearch E db q = some (results, db'))
    (hr : vectorResultsToQueryResult E db' results = some (r, db'')) :
    r.rows.length ≤ min p.k (vectorHits E db q p).length ∧
      (IndexSound E db q → r.rows.length = min p.k (vectorHits E db q p).length) := by
  obtain ⟨hits, hlocal⟩ := executeVectorSearch_hits hop hp h
  obtain ⟨⟨found, tiered⟩, hread, heq⟩ := Option.map_eq_some_iff.mp hr
  obtain ⟨rfl, -⟩ := Prod.mk.inj heq
  have hids : (placedIds results).map Prod.fst = results.map SimilarityResult.nodeId := by
    unfold placedIds
    rw [List.map_map]
    have hresults := congrArg (List.map SimilarityResult.nodeId) (List.zipIdx_map_fst 0 results)
    rw [List.map_map] at hresults
    exact hresults
  have hstored : isStored E.json db'.tiered = isStored E.json db.tiered := by
    unfold isStored
    rw [hlocal]
  rw [length_rows_vectorResult, length_readNodes hread, hids, hstored]
  refine ⟨le_min ?_ (countP_isStored_le hits.nodup hits.hits), fun hsound => ?_⟩
  · exact List.countP_le_length.trans (by rw [List.length_map]; exact hits.bounded)
  · obtain ⟨hlength, hall⟩ := hits.complete hsound
    rw [List.countP_eq_length.mpr hall, List.length_map, hlength]

/-! ### Limits -/

theorem execute_fulltext (hop : q.operation = .fullTextSearch) (limit : Option ℕ) :
    engine.execute E (q.withLimit limit) = executeFulltextSearch E engine.db q := by
  cases limit <;> simp only [QueryEngine.execute, ParsedQuery.withLimit, hop]
  rfl

theorem execute_vector (hop : q.operation = .vectorSearch) (limit : Option ℕ) :
    engine.execute E (q.withLimit limit) =
      (executeVectorSearch E engine.db q).bind fun e => vectorResultsToQueryResult E e.2 e.1 := by
  cases limit <;> simp only [QueryEngine.execute, ParsedQuery.withLimit, hop] <;> rfl

/-- The rows of a search: no more than it is asked for, nor than there are hits. -/
theorem search_rows (hop : q.operation = .vectorSearch ∨ q.operation = .fullTextSearch)
    {rows : List (List Value)}
    (h : (engine.execute E (q.withLimit none)).map (fun r => r.1.rows) = some rows) :
    (LimitKept E engine q l → rows.length ≤ l) ∧
      (IndexSound E engine.db q → rows.length ≤ l → LimitKept E engine q l) := by
  obtain ⟨⟨r, db''⟩, hrun, rfl⟩ := Option.map_eq_some_iff.mp h
  obtain hop | hop := hop
  · rw [execute_vector hop] at hrun
    obtain ⟨⟨results, db'⟩, hsearch, hrows⟩ := Option.bind_eq_some_iff.mp hrun
    have hsome : ∃ p, q.vectorSearch = some p := by
      obtain ⟨p, hp, -⟩ := Option.bind_eq_some_iff.mp hsearch
      exact ⟨p, hp⟩
    obtain ⟨p, hp⟩ := hsome
    obtain ⟨hle, heq⟩ := length_rows_vector hop hp hsearch hrows
    unfold LimitKept
    rw [hop]
    simp only [hp, Option.some.injEq, forall_eq']
    exact ⟨fun hkept => hle.trans (min_le_iff.mpr hkept), fun hsound hrows =>
      min_le_iff.mp ((heq hsound).symm.trans_le hrows)⟩
  · rw [execute_fulltext hop] at hrun
    have hsome : ∃ p, q.fulltextSearch = some p := by
      obtain ⟨p, hp, -⟩ := Option.bind_eq_some_iff.mp hrun
      exact ⟨p, hp⟩
    obtain ⟨p, hp⟩ := hsome
    obtain ⟨hle, heq⟩ := length_rows_fulltext hp hrun
    unfold LimitKept IndexSound
    rw [hop]
    simp only [hp, Option.some.injEq, forall_eq']
    exact ⟨fun hkept => hle.trans (min_le_iff.mpr hkept), fun hsound hrows =>
      min_le_iff.mp ((heq hsound).symm.trans_le hrows)⟩

end

/-- ASCII, integers and no SQL. -/
def plainSurroundings : Surroundings where
  casing := asciiCasing
  parseSql := noSql
  json := plainFormat
  unicode := asciiUnicode
  regex := ⟨fun _ _ => none⟩
  draws := ⟨⟨3⟩, 0, fun _ => 0⟩
  floats := plainPlatform
  scoring := ⟨.ofInt 0, fun x _ => x, fun _ _ _ => .ofInt 0⟩
  hashOrder := sampleOrder

/-- Two documents with vectors. -/
def twoVectors : QueryEngine := ⟨(sampleReached [embed 1 [1, 0], embed 2 [0, 1]]).db, .new⟩

end AresaDb.Query
