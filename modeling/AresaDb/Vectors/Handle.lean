import AresaDb.Lib.Nearest
import AresaDb.Vectors.Links
import AresaDb.Store.Database

/-! # Similarity search

The handle of a database keeps one vector index for each node type and field (`storage/mod.rs`).
An index is made by the first insert of an embedding, by the first search or on request, and only
inserts of embeddings add to it afterwards; a search goes to the index alone.

When there is nothing to index, a scan of the nodes answers instead (`storage/vector.rs`), and finds
nothing. -/

namespace AresaDb.Vectors

open AresaDb.Store

structure SimilarityResult where
  nodeId : NodeId
  /-- Higher is more similar. -/
  score : Binary64
  /-- Lower is closer. -/
  distance : Binary64

/-- The vector in a field. -/
def fieldVector (field : String) (node : Node) : Option (List Binary64) :=
  match node.properties[field]? with
  | some (.vector v) => some v
  | _ => none

/-! ### The scan -/

section

variable (P : Platform)

/-- A sum in `f64`, from zero. -/
def sum64 (l : List Binary64) : Binary64 := l.foldl P.f64.add (.ofInt 0)

def cosineSimilarity (a b : List Binary64) : Option Binary64 :=
  if a.length = b.length ∧ a.isEmpty = false then
    let dot := sum64 P (List.zipWith P.f64.mul a b)
    let normA := sum64 P (a.map fun x => P.f64.mul x x)
    let normB := sum64 P (b.map fun x => P.f64.mul x x)
    let magnitude := P.f64.sqrt (P.f64.mul normA normB)
    if magnitude.eq (.ofInt 0) then none else some (P.f64.div dot magnitude)
  else none

/-- The differences are `f32`s. -/
def euclideanDistance (a b : List Binary64) : Option Binary64 :=
  if a.length = b.length then
    let diffs := List.zipWith P.f32.sub a b
    some (P.f64.sqrt (sum64 P (diffs.map fun x => P.f64.mul x x)))
  else none

def dotProduct (a b : List Binary64) : Option Binary64 :=
  if a.length = b.length then some (sum64 P (List.zipWith P.f64.mul a b)) else none

def manhattanDistance (a b : List Binary64) : Option Binary64 :=
  if a.length = b.length then some (sum64 P ((List.zipWith P.f32.sub a b).map abs)) else none

/-- The score and the distance of two vectors. -/
def computeSimilarity (metric : DistanceMetric) (a b : List Binary64) :
    Option (Binary64 × Binary64) :=
  let near := fun dist => (P.f64.div one (P.f64.add one dist), dist)
  match metric with
  | .cosine => (cosineSimilarity P a b).map fun sim => (sim, P.f64.sub one sim)
  | .euclidean => (euclideanDistance P a b).map near
  | .dotProduct => (dotProduct P a b).map fun dot => (dot, dot.neg)
  | .manhattan => (manhattanDistance P a b).map near

/-- Whether there is room for a heap of `k + 1` results of 32 bytes.  The sum wraps, and an empty
heap is not allocated. -/
def canReserve (allocates : ℕ → Bool) (k : ℕ) : Bool :=
  let bytes := (k + 1) % 2 ^ 64 * 32
  bytes == 0 || allocates bytes

/-- A heap of the `k` highest scores. -/
def keepBest (k : ℕ) (heap : List SimilarityResult) (r : SimilarityResult) :
    List SimilarityResult :=
  BestFirst.keep (fun a b => a.score.lt b.score) k heap r

/-- The `k` highest scores of the nodes. -/
def highest (metric : DistanceMetric) (query : List Binary64) (nodes : List Node)
    (field : String) (k : ℕ) : List SimilarityResult :=
  let scored := nodes.filterMap fun node => do
    let v ← fieldVector field node
    let (score, distance) ← computeSimilarity P metric query v
    return ⟨node.id, score, distance⟩
  (scored.foldl (keepBest k) []).mergeSort fun a b => !(a.score.lt b.score)

/-- `none` is the panic that there is no room for the heap. -/
def vectorSearch (metric : DistanceMetric) (query : List Binary64) (nodes : List Node)
    (field : String) (k : ℕ) : Option (List SimilarityResult) :=
  if canReserve P.allocates k then some (highest P metric query nodes field k) else none

end

/-! ### The handle -/

/-- A node type and a field. -/
abbrev VectorIndexKey := String ×ₗ String

instance : Std.TransCmp (compare : VectorIndexKey → VectorIndexKey → Ordering) := inferInstance

structure Handle where
  tiered : TieredStorage
  vectorIndexes : OrdMap VectorIndexKey VectorIndex

structure IndexStats where
  numVectors : ℕ
  dimension : ℕ
  totalConnections : ℕ
  avgConnections : Binary64
  maxConnections : ℕ
  maxLayers : ℕ

def VectorIndex.stats (P : Platform) (ix : VectorIndex) : IndexStats :=
  let counts := ix.vectors.values.map fun entry => entry.neighbors.flatten.length
  let total := counts.foldl (· + ·) 0
  { numVectors := ix.vectors.size
    dimension := ix.dimension
    totalConnections := total
    avgConnections :=
      if 0 < ix.vectors.size then P.f64.div (.ofInt total) (.ofInt ix.vectors.size) else .ofInt 0
    maxConnections := counts.foldl max 0
    maxLayers := ix.maxLayers }

/-- An embedding is put among the fields of an object; other values have none. -/
def withEmbedding (field : String) (embedding : List Binary64) : Value → Value
  | .object o => .object (o.filter (fun e => e.1 ≠ field) ++ [(field, .vector embedding)])
  | v => v

/-- `none` is the error that the dimensions differ. -/
def indexNode (P : Platform) (field : String) (ix : VectorIndex) (node : Node) :
    Option VectorIndex :=
  match fieldVector field node with
  | some v => ix.insert P node.id v
  | none => some ix

/-- Index the nodes that have the dimension of the index. -/
def indexNodes (P : Platform) (field : String) (ix : VectorIndex) (nodes : List Node) :
    VectorIndex :=
  nodes.foldl (fun ix node => (indexNode P field ix node).getD ix) ix

/-- The dimension of the first vector. -/
def detectDimension (field : String) (nodes : List Node) : Option ℕ :=
  (nodes.filterMap (fieldVector field)).head?.map List.length

def toResult (P : Platform) (metric : DistanceMetric) (e : NodeId × Binary64) :
    SimilarityResult where
  nodeId := e.1
  score :=
    match metric with
    | .cosine => P.f64.sub one e.2
    | .dotProduct => e.2.neg
    | _ => P.f64.div one (P.f64.add one e.2)
  distance := e.2

namespace Handle

/-- The handle of a new database. -/
def new (config : TieredConfig) (hasBucket : Bool) : Handle := ⟨.new config hasBucket, ∅⟩

variable (F : JsonFormat) (P : Platform) (U : Unicode) (db : Handle)

def insertNode (id : NodeId) (now : Timestamp) (nodeType : String) (properties : Json) :
    Option Handle :=
  (Database.insertNode F U db.tiered id now nodeType properties).map fun tiered =>
    { db with tiered := tiered }

def updateNode (now : Timestamp) (id : NodeId) (properties : Json) : Option Handle :=
  (Database.updateNode F db.tiered now id properties).map fun tiered => { db with tiered := tiered }

def deleteNode (id : NodeId) : Option Handle :=
  (Database.deleteNode db.tiered id).map fun tiered => { db with tiered := tiered }

/-- A new index has no vectors. -/
def getOrCreateVectorIndex (key : VectorIndexKey) (dimension : ℕ) : VectorIndex :=
  (db.vectorIndexes[key]?).getD (.withParams dimension 16 4 .cosine)

/-- A vector of another dimension than that of the index is stored, but not indexed. -/
def insertWithEmbedding (id : NodeId) (now : Timestamp) (nodeType : String) (properties : Json)
    (field : String) (embedding : List Binary64) : Option Handle :=
  (Value.fromJson F properties).map fun value =>
    let props := withEmbedding field embedding value
    let key := toLex (nodeType, field)
    let index := db.getOrCreateVectorIndex key embedding.length
    { tiered := db.tiered.insertNode F.serde U (.new id now nodeType props)
      vectorIndexes := db.vectorIndexes.insert key ((index.insert P id embedding).getD index) }

/-- The nodes are read when there is no index to search.  `none` is the error of a read, that the
dimensions differ, or the panic of a scan. -/
def similaritySearch (query : List Binary64) (nodeType field : String) (k : ℕ)
    (metric : DistanceMetric) : Option (List SimilarityResult) × Handle :=
  let key := toLex (nodeType, field)
  let ready := (db.vectorIndexes[key]?).filter fun index => !index.vectors.isEmpty
  match ready with
  | some index => ((index.search P query k).map fun l => l.map (toResult P metric), db)
  | none =>
      match Database.getAllByType F db.tiered nodeType none with
      | none => (none, db)
      | some (nodes, tiered) =>
          let db := { db with tiered := tiered }
          if nodes.isEmpty then (some [], db)
          else
            match detectDimension field nodes with
            | none => (vectorSearch P metric query nodes field k, db)
            | some dimension =>
                let index := db.getOrCreateVectorIndex key dimension
                let index :=
                  if index.vectors.isEmpty then indexNodes P field index nodes else index
                ((index.search P query k).map fun l => l.map (toResult P metric),
                  { db with vectorIndexes := db.vectorIndexes.insert key index })

/-- `none` is the error of a read, that there are no vectors, or that the dimensions differ. -/
def rebuildVectorIndex (nodeType field : String) : Option IndexStats × Handle :=
  match Database.getAllByType F db.tiered nodeType none with
  | none => (none, db)
  | some (nodes, tiered) =>
      let db := { db with tiered := tiered }
      match detectDimension field nodes with
      | none => (none, db)
      | some dimension =>
          match nodes.foldlM (indexNode P field) (.withParams dimension 16 4 .cosine) with
          | none => (none, db)
          | some index =>
              (some (index.stats P),
                { db with
                  vectorIndexes := db.vectorIndexes.insert (toLex (nodeType, field)) index })

end Handle

/-! ### Filling an index -/

section

variable {P : Platform} {field : String} {ix : VectorIndex} {nodes : List Node}

/-- A rebuild that succeeds has indexed every vector. -/
theorem indexNodes_of_foldlM {ix' : VectorIndex}
    (h : nodes.foldlM (indexNode P field) ix = some ix') : indexNodes P field ix nodes = ix' := by
  induction nodes generalizing ix with
  | nil => exact Option.some.inj h
  | cons node nodes ih =>
      rw [List.foldlM_cons] at h
      obtain ⟨ix₁, hnode, hrest⟩ := Option.bind_eq_some_iff.mp h
      have hstep : indexNodes P field ix (node :: nodes) = indexNodes P field ix₁ nodes := by
        unfold indexNodes
        rw [List.foldl_cons, hnode]
        rfl
      exact hstep.trans (ih hrest)

/-- The vector of a node, if it has the dimension. -/
def vectorOfDim (field : String) (dimension : ℕ) (node : Node) : Option (List Binary64) :=
  (fieldVector field node).filter fun v => v.length = dimension

/-- The index has no vectors but the current ones. -/
def Within (P : Platform) (ix : VectorIndex) (current : NodeId → Option (List Binary64)) : Prop :=
  ∀ id, (ix.vectorOf id).isSome → ix.vectorOf id = (current id).map (VectorIndex.normalize P)

/-- The index has all current vectors. -/
def Covers (P : Platform) (ix : VectorIndex) (current : NodeId → Option (List Binary64)) : Prop :=
  ∀ id, (current id).isSome → ix.vectorOf id = (current id).map (VectorIndex.normalize P)

/-- An index that is not empty has an entry point. -/
def Ready (ix : VectorIndex) : Prop := ix.vectors.isEmpty = false → ix.Entered

theorem VectorIndex.Alike.trans {ix ix₁ ix₂ : VectorIndex} (h : Alike ix ix₁)
    (h' : Alike ix₁ ix₂) : Alike ix ix₂ :=
  ⟨h'.dimension.trans h.dimension, h'.maxConnections.trans h.maxConnections,
    h'.metric.trans h.metric, h'.efConstruction.trans h.efConstruction⟩

/-- A node is indexed with its current vector. -/
theorem indexNode_spec (hready : Ready ix) {current : NodeId → Option (List Binary64)} {node : Node}
    (hnode : vectorOfDim field ix.dimension node = current node.id) {ix' : VectorIndex}
    (h : (indexNode P field ix node).getD ix = ix') :
    VectorIndex.Alike ix ix' ∧ Ready ix' ∧ ∀ i, ix'.vectorOf i =
      if node.id = i ∧ (current i).isSome then (current i).map (VectorIndex.normalize P)
      else ix.vectorOf i := by
  have hsame : current node.id = none → ix' = ix →
      VectorIndex.Alike ix ix' ∧ Ready ix' ∧ ∀ i, ix'.vectorOf i =
        if node.id = i ∧ (current i).isSome then (current i).map (VectorIndex.normalize P)
        else ix.vectorOf i := by
    rintro hnone rfl
    refine ⟨⟨rfl, rfl, rfl, rfl⟩, hready, fun i => (if_neg ?_).symm⟩
    rintro ⟨rfl, hsome⟩
    rw [hnone] at hsome
    cases hsome
  unfold vectorOfDim at hnode
  unfold indexNode at h
  cases hv : fieldVector field node with
  | none =>
      rw [hv] at h hnode
      exact hsame hnode.symm h.symm
  | some v =>
      rw [hv] at h hnode
      change (ix.insert P node.id v).getD ix = ix' at h
      by_cases hdim : v.length = ix.dimension
      · rw [Option.filter_some, if_pos (decide_eq_true hdim)] at hnode
        obtain ⟨ix₁, hinsert, halike, hentered, hvectors⟩ :=
          VectorIndex.insert_of_eq (P := P) hready hdim node.id
        rw [hinsert] at h
        obtain rfl : ix₁ = ix' := h
        refine ⟨halike, fun _ => hentered, fun i => ?_⟩
        rw [hvectors]
        by_cases hi : node.id = i
        · subst hi
          rw [← hnode, if_pos rfl, if_pos ⟨rfl, rfl⟩]
          rfl
        · rw [if_neg hi, if_neg fun h => hi h.1]
      · rw [VectorIndex.insert_of_ne hdim] at h
        rw [Option.filter_some, if_neg (by simpa using hdim)] at hnode
        exact hsame hnode.symm h.symm

/-- Nodes with a vector of the dimension are indexed. -/
theorem indexNodes_isSome (hready : Ready ix) (i : NodeId) :
    VectorIndex.Alike ix (indexNodes P field ix nodes) ∧
      (((indexNodes P field ix nodes).vectorOf i).isSome ↔ (ix.vectorOf i).isSome ∨
        ∃ node ∈ nodes, node.id = i ∧ (vectorOfDim field ix.dimension node).isSome) := by
  induction nodes generalizing ix with
  | nil => exact ⟨⟨rfl, rfl, rfl, rfl⟩, by simp [indexNodes]⟩
  | cons node nodes ih =>
      obtain ⟨current, hcurrent⟩ : ∃ current : NodeId → Option (List Binary64), current =
          fun i => if node.id = i then vectorOfDim field ix.dimension node else none := ⟨_, rfl⟩
      have hnode : vectorOfDim field ix.dimension node = current node.id := by
        rw [hcurrent]
        exact (if_pos rfl).symm
      obtain ⟨halike, hready₁, hvectors⟩ := indexNode_spec (P := P) hready hnode rfl
      obtain ⟨halike', hrest⟩ := ih hready₁
      refine ⟨halike.trans halike', hrest.trans ?_⟩
      have hcons : (∃ n ∈ node :: nodes, n.id = i ∧ (vectorOfDim field ix.dimension n).isSome) ↔
          (node.id = i ∧ (vectorOfDim field ix.dimension node).isSome) ∨
            ∃ n ∈ nodes, n.id = i ∧ (vectorOfDim field ix.dimension n).isSome := by
        simp only [List.mem_cons, or_and_right, exists_or, exists_eq_left]
      rw [halike.dimension, hcons, ← or_assoc]
      refine or_congr_left ?_
      rw [hvectors]
      by_cases hi : node.id = i
      · have hfield : current i = vectorOfDim field ix.dimension node := by
          rw [hcurrent]
          exact if_pos hi
        rw [hfield]
        cases vectorOfDim field ix.dimension node <;> simp [hi]
      · simp [hi]

/-- A node with a new id leaves a small index complete. -/
theorem indexNode_small (hready : Ready ix) (h : ix.SmallComplete)
    (hwidth : ix.maxConnections ≤ ix.efConstruction) {node : Node}
    (hnew : ix.vectorOf node.id = none) :
    ((indexNode P field ix node).getD ix).SmallComplete := by
  unfold indexNode
  cases fieldVector field node with
  | none => exact h
  | some v =>
      dsimp only
      cases hinsert : ix.insert P node.id v with
      | none => exact h
      | some ix' => exact h.insert hready hwidth hnew hinsert

/-- The nodes are indexed with their current vectors. -/
theorem indexNodes_spec (hready : Ready ix) {current : NodeId → Option (List Binary64)}
    (hnodes : ∀ node ∈ nodes, vectorOfDim field ix.dimension node = current node.id)
    (hwithin : Within P ix current) (hsmall : ix.SmallComplete)
    (hwidth : ix.maxConnections ≤ ix.efConstruction) (hids : (nodes.map Node.id).Nodup)
    (hnew : ∀ node ∈ nodes, ix.vectorOf node.id = none) {ix' : VectorIndex}
    (h : indexNodes P field ix nodes = ix') :
    VectorIndex.Alike ix ix' ∧ Ready ix' ∧ Within P ix' current ∧ ix'.SmallComplete ∧
      (∀ i, (ix.vectorOf i).isSome → (ix'.vectorOf i).isSome) ∧
      ∀ node ∈ nodes, (current node.id).isSome → (ix'.vectorOf node.id).isSome := by
  induction nodes generalizing ix with
  | nil =>
      obtain rfl := h
      exact ⟨⟨rfl, rfl, rfl, rfl⟩, hready, hwithin, hsmall, fun _ hi => hi,
        fun _ hnode => (List.not_mem_nil hnode).elim⟩
  | cons node nodes ih =>
      obtain ⟨hnode, hnodes⟩ := List.forall_mem_cons.mp hnodes
      obtain ⟨halike, hready₁, hvectors⟩ := indexNode_spec (P := P) hready hnode rfl
      have hwithin₁ : Within P ((indexNode P field ix node).getD ix) current := by
        intro i hi
        rw [hvectors] at hi ⊢
        split_ifs at hi ⊢
        · rfl
        · exact hwithin i hi
      have hkept : ∀ i, (ix.vectorOf i).isSome →
          (((indexNode P field ix node).getD ix).vectorOf i).isSome := by
        intro i hi
        rw [hvectors]
        split_ifs with hnew
        · rw [Option.isSome_map]
          exact hnew.2
        · exact hi
      obtain ⟨hnotin, hids⟩ := List.nodup_cons.mp hids
      obtain ⟨hfresh, hnew⟩ := List.forall_mem_cons.mp hnew
      have hnew₁ : ∀ n ∈ nodes, ((indexNode P field ix node).getD ix).vectorOf n.id = none := by
        intro n hn
        rw [hvectors, if_neg]
        · exact hnew n hn
        · rintro ⟨heq, -⟩
          exact hnotin (heq ▸ List.mem_map_of_mem hn)
      obtain ⟨halike', hready', hwithin', hsmall', hkept', hfound⟩ :=
        ih hready₁ (by rwa [halike.dimension]) hwithin₁
          (indexNode_small hready hsmall hwidth hfresh)
          (by rwa [halike.maxConnections, halike.efConstruction]) hids hnew₁ h
      refine ⟨halike.trans halike', hready', hwithin', hsmall',
        fun i hi => hkept' i (hkept i hi), ?_⟩
      refine List.forall_mem_cons.mpr ⟨fun hsome => hkept' _ ?_, hfound⟩
      rw [hvectors, if_pos ⟨rfl, hsome⟩, Option.isSome_map]
      exact hsome

end

/-! ### How much is found -/

section

variable {P : Platform}

/-- The nodes whose vector in a field can be compared with the query. -/
def comparable (P : Platform) (metric : DistanceMetric) (query : List Binary64) (field : String)
    (nodes : List Node) : List Node :=
  nodes.filter fun node =>
    ((fieldVector field node).bind fun v => computeSimilarity P metric query v).isSome

theorem length_keepBest (k : ℕ) (heap : List SimilarityResult) (r : SimilarityResult)
    (h : heap.length ≤ k) : (keepBest k heap r).length = min k (heap.length + 1) := by
  unfold keepBest
  rcases BestFirst.keep_cases (fun a b : SimilarityResult => a.score.lt b.score) k heap r with
    ⟨hlt, heq⟩ | ⟨hk, m, hpop⟩
  · rw [heq, BinaryHeap.length_push]
    omega
  · have hlength := (BinaryHeap.pop_perm _ hpop).length_eq
    rw [List.length_cons, BinaryHeap.length_push] at hlength
    omega

theorem length_foldl_keepBest (k : ℕ) (l heap : List SimilarityResult) (h : heap.length ≤ k) :
    (l.foldl (keepBest k) heap).length = min k (heap.length + l.length) := by
  induction l generalizing heap with
  | nil => simp [h]
  | cons r l ih =>
      have hstep := length_keepBest k heap r h
      rw [List.foldl_cons, ih _ (by omega), hstep, List.length_cons]
      omega

/-- A scan finds as many nodes as were asked for, or as there are to compare. -/
theorem length_highest (metric : DistanceMetric) (query : List Binary64) (nodes : List Node)
    (field : String) (k : ℕ) : (highest P metric query nodes field k).length =
      min k (comparable P metric query field nodes).length := by
  unfold highest comparable
  dsimp only
  rw [List.length_mergeSort, length_foldl_keepBest _ _ _ (Nat.zero_le k), List.length_nil,
    Nat.zero_add, List.length_filterMap_eq_countP, ← List.countP_eq_length_filter]
  congr 2
  funext node
  cases fieldVector field node with
  | none => rfl
  | some v =>
      simp only [Option.bind_eq_bind, Option.bind_some]
      cases computeSimilarity P metric query v <;> rfl

theorem foldl_keepBest_subperm (k : ℕ) (l heap : List SimilarityResult) :
    (l.foldl (keepBest k) heap).Subperm (heap ++ l) := by
  induction l generalizing heap with
  | nil => rw [List.append_nil]; exact .refl heap
  | cons r l ih =>
      have hkeep : (keepBest k heap r).Subperm (r :: heap) := BestFirst.keep_subperm heap r
      refine (ih _).trans (((List.subperm_append_right l).mpr hkeep).trans ?_)
      exact List.perm_middle.symm.subperm

/-- What a scan gives when there is room for its heap. -/
theorem vectorSearch_eq_some {metric : DistanceMetric} {query : List Binary64} {nodes : List Node}
    {field : String} {k : ℕ} {l : List SimilarityResult} :
    vectorSearch P metric query nodes field k = some l ↔
      canReserve P.allocates k = true ∧ highest P metric query nodes field k = l := by
  unfold vectorSearch
  split_ifs with h
  · rw [Option.some_inj]
    exact ⟨fun heq => ⟨h, heq⟩, And.right⟩
  · exact ⟨nofun, fun hs => absurd hs.1 h⟩

/-- A scan finds nodes that it can compare, each of them once. -/
theorem ids_highest (metric : DistanceMetric) (query : List Binary64) (nodes : List Node)
    (field : String) (k : ℕ) :
    ((highest P metric query nodes field k).map SimilarityResult.nodeId).Subperm
      ((comparable P metric query field nodes).map Node.id) := by
  have hscored : (nodes.filterMap fun node => do
      let v ← fieldVector field node
      let (score, distance) ← computeSimilarity P metric query v
      return (⟨node.id, score, distance⟩ : SimilarityResult)).map SimilarityResult.nodeId =
      (comparable P metric query field nodes).map Node.id := by
    unfold comparable
    rw [List.map_filterMap, ← List.filterMap_eq_map, List.filterMap_filter]
    refine List.filterMap_congr fun node _ => ?_
    cases fieldVector field node with
    | none => rfl
    | some v => cases h : computeSimilarity P metric query v <;> simp [h]
  rw [← hscored]
  obtain ⟨l, hperm, hsub⟩ := (List.mergeSort_perm _ _).subperm.trans
    (foldl_keepBest_subperm k _ [])
  exact ⟨_, hperm.map _, hsub.map _⟩

theorem VectorIndex.length_search {ix : VectorIndex} {query : List Binary64} {k : ℕ}
    {l : List (NodeId × Binary64)} (h : ix.search P query k = some l) : l.length ≤ k := by
  unfold VectorIndex.search at h
  split_ifs at h
  · rw [← Option.some.inj h]
    exact Nat.zero_le k
  · split at h
    · rw [← Option.some.inj h]
      exact Nat.zero_le k
    · rw [← Option.some.inj h]
      exact List.length_take_le _ _

/-- A search finds no more than it was asked for. -/
theorem Handle.length_similaritySearch {F : JsonFormat} {db : Handle} {query : List Binary64}
    {nodeType field : String} {k : ℕ} {metric : DistanceMetric} {l : List SimilarityResult}
    (h : (db.similaritySearch F P query nodeType field k metric).1 = some l) : l.length ≤ k := by
  have hindex : ∀ {ix : VectorIndex},
      (ix.search P query k).map (fun l => l.map (toResult P metric)) = some l → l.length ≤ k := by
    intro ix hix
    obtain ⟨found, hfound, rfl⟩ := Option.map_eq_some_iff.mp hix
    rw [List.length_map]
    exact VectorIndex.length_search hfound
  unfold Handle.similaritySearch at h
  dsimp only at h
  split at h
  · exact hindex h
  · split at h
    · cases h
    · split_ifs at h
      · rw [← Option.some.inj h]
        exact Nat.zero_le k
      · split at h
        · obtain ⟨-, rfl⟩ := vectorSearch_eq_some.mp h
          rw [length_highest]
          exact min_le_left _ _
        · exact hindex h

end

end AresaDb.Vectors
