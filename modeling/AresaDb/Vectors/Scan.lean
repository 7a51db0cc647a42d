import AresaDb.Vectors.SearchExact

/-! # Similarity search over any numbers

The scan of nodes (`storage/vector.rs`) and the similarity search of a handle (`storage/mod.rs`),
for one node type and one field of vectors, with the operations on numbers as parameters.  The index
has the cosine metric whatever metric a search is for; that one only makes the score.

On the numbers of a machine these are the operations of the handle (`ofResult_vectorSearch`,
`ofResult_similaritySearch`, `ofIndex_embed`). -/

namespace AresaDb.Vectors.Generic

open AresaDb.Store

/-- What is left to the platform.  A number of 32 bits is one of 64 bits too. -/
structure Platform (α : Type) where
  f32 : Numbers α
  f64 : Numbers α
  /-- The layer that the hash of an id stands for, before it is capped. -/
  layer : NodeId → ℕ
  /-- Whether the allocator gives so many bytes. -/
  allocates : ℕ → Bool

structure SimilarityResult (α : Type) where
  nodeId : NodeId
  score : α
  distance : α

/-- A node, with the vector in the field if there is one. -/
abbrev FieldNode (α : Type) := NodeId × Option (List α)

section

variable {α : Type} (P : Platform α)

/-! ### The scan -/

/-- A sum in `f64`, from zero. -/
def sum64 (l : List α) : α := l.foldl P.f64.add P.f64.zero

def cosineSimilarity (a b : List α) : Option α :=
  if a.length = b.length ∧ a.isEmpty = false then
    let dot := sum64 P (List.zipWith P.f64.mul a b)
    let normA := sum64 P (a.map fun x => P.f64.mul x x)
    let normB := sum64 P (b.map fun x => P.f64.mul x x)
    let magnitude := P.f64.sqrt (P.f64.mul normA normB)
    if P.f64.eq magnitude P.f64.zero then none else some (P.f64.div dot magnitude)
  else none

/-- The differences are `f32`s. -/
def euclideanDistance (a b : List α) : Option α :=
  if a.length = b.length then
    let diffs := List.zipWith P.f32.sub a b
    some (P.f64.sqrt (sum64 P (diffs.map fun x => P.f64.mul x x)))
  else none

def dotProduct (a b : List α) : Option α :=
  if a.length = b.length then some (sum64 P (List.zipWith P.f64.mul a b)) else none

def manhattanDistance (a b : List α) : Option α :=
  if a.length = b.length then some (sum64 P ((List.zipWith P.f32.sub a b).map P.f64.abs)) else none

/-- The score and the distance of two vectors. -/
def computeSimilarity (metric : DistanceMetric) (a b : List α) : Option (α × α) :=
  let near := fun dist => (P.f64.div P.f64.one (P.f64.add P.f64.one dist), dist)
  match metric with
  | .cosine => (cosineSimilarity P a b).map fun sim => (sim, P.f64.sub P.f64.one sim)
  | .euclidean => (euclideanDistance P a b).map near
  | .dotProduct => (dotProduct P a b).map fun dot => (dot, P.f64.neg dot)
  | .manhattan => (manhattanDistance P a b).map near

/-- A heap of the `k` highest scores. -/
def keepBest (k : ℕ) (heap : List (SimilarityResult α)) (r : SimilarityResult α) :
    List (SimilarityResult α) :=
  BestFirst.keep (fun a b => P.f64.lt a.score b.score) k heap r

/-- The results for the nodes whose vectors can be compared with the query. -/
def scored (metric : DistanceMetric) (query : List α) (nodes : List (FieldNode α)) :
    List (SimilarityResult α) :=
  nodes.filterMap fun node => do
    let v ← node.2
    let (score, distance) ← computeSimilarity P metric query v
    return ⟨node.1, score, distance⟩

/-- The `k` highest scores of the nodes. -/
def highest (metric : DistanceMetric) (query : List α) (nodes : List (FieldNode α)) (k : ℕ) :
    List (SimilarityResult α) :=
  ((scored P metric query nodes).foldl (keepBest P k) []).mergeSort
    fun a b => !(P.f64.lt a.score b.score)

/-- `none` is the panic that there is no room for the heap. -/
def vectorSearch (metric : DistanceMetric) (query : List α) (nodes : List (FieldNode α)) (k : ℕ) :
    Option (List (SimilarityResult α)) :=
  if canReserve P.allocates k then some (highest P metric query nodes k) else none

/-! ### The index of the field -/

/-- A new index has no vectors. -/
def getOrCreateVectorIndex (index : Option (VectorIndex α)) (dimension : ℕ) : VectorIndex α :=
  index.getD (.withParams dimension 16 4 .cosine)

/-- The index after an insert with an embedding.  A vector of another dimension is not indexed. -/
def embed (index : Option (VectorIndex α)) (id : NodeId) (embedding : List α) :
    Option (VectorIndex α) :=
  let index := getOrCreateVectorIndex index embedding.length
  some ((index.insert P.f32 P.layer id embedding).getD index)

def indexNode (index : VectorIndex α) (node : FieldNode α) : VectorIndex α :=
  match node.2 with
  | some v => (index.insert P.f32 P.layer node.1 v).getD index
  | none => index

/-- The dimension of the first vector. -/
def detectDimension (nodes : List (FieldNode α)) : Option ℕ :=
  (nodes.filterMap Prod.snd).head?.map List.length

def toResult (metric : DistanceMetric) (e : NodeId × α) : SimilarityResult α where
  nodeId := e.1
  score :=
    match metric with
    | .cosine => P.f64.sub P.f64.one e.2
    | .dotProduct => P.f64.neg e.2
    | _ => P.f64.div P.f64.one (P.f64.add P.f64.one e.2)
  distance := e.2

/-- The answer of a search, from the index and the nodes of the type as they are read; `none` for
these is the error of a read, and `none` for the answer is that error, that the dimensions differ,
or the panic of a scan. -/
def similaritySearch (index : Option (VectorIndex α)) (nodes : Option (List (FieldNode α)))
    (query : List α) (k : ℕ) (metric : DistanceMetric) : Option (List (SimilarityResult α)) :=
  let ready := index.filter fun index => !index.vectors.isEmpty
  match ready with
  | some index => (index.search P.f32 query k).map fun l => l.map (toResult P metric)
  | none =>
      match nodes with
      | none => none
      | some nodes =>
          if nodes.isEmpty then some []
          else
            match detectDimension nodes with
            | none => vectorSearch P metric query nodes k
            | some dimension =>
                let index := getOrCreateVectorIndex index dimension
                let index :=
                  if index.vectors.isEmpty then nodes.foldl (indexNode P) index else index
                (index.search P.f32 query k).map fun l => l.map (toResult P metric)

end

/-! ### The numbers of a machine -/

def ofPlatform (P : Vectors.Platform) : Platform Binary64 where
  f32 := ofArith P.f32
  f64 := ofArith P.f64
  layer := P.layer
  allocates := P.allocates

def ofResult (r : Vectors.SimilarityResult) : SimilarityResult Binary64 :=
  ⟨r.nodeId, r.score, r.distance⟩

def ofNode (field : String) (node : Node) : FieldNode Binary64 := (node.id, fieldVector field node)

section

variable (P : Vectors.Platform) (metric : DistanceMetric) (query : List Binary64) (field : String)

theorem ofPlatform_computeSimilarity (a b : List Binary64) :
    computeSimilarity (ofPlatform P) metric a b = Vectors.computeSimilarity P metric a b := by
  cases metric <;> rfl

/-- The highest scores of the nodes. -/
theorem ofResult_highest (nodes : List Node) (k : ℕ) :
    (Vectors.highest P metric query nodes field k).map ofResult =
      highest (ofPlatform P) metric query (nodes.map (ofNode field)) k := by
  have hsort : ∀ l : List Vectors.SimilarityResult,
      (l.mergeSort fun a b => !(a.score.lt b.score)).map ofResult =
        (l.map ofResult).mergeSort fun a b => !((ofPlatform P).f64.lt a.score b.score) :=
    fun l => List.map_mergeSort fun _ _ _ _ => rfl
  have hkeeps : ∀ l : List Vectors.SimilarityResult,
      (l.foldl (Vectors.keepBest k) []).map ofResult =
        (l.map ofResult).foldl (keepBest (ofPlatform P) k) [] := by
    have hbefore : ∀ a b : Vectors.SimilarityResult,
        (ofPlatform P).f64.lt (ofResult a).score (ofResult b).score = a.score.lt b.score :=
      fun _ _ => rfl
    have hkeep : Vectors.keepBest k = BestFirst.keep (fun a b => a.score.lt b.score) k := rfl
    intro l
    rw [hkeep]
    exact BestFirst.keeps_map _ (fun a b : SimilarityResult Binary64 =>
      (ofPlatform P).f64.lt a.score b.score) ofResult hbefore l []
  unfold Vectors.highest highest scored
  dsimp only
  rw [hsort, hkeeps, List.map_filterMap, List.filterMap_map]
  refine congrArg (fun l : List (SimilarityResult Binary64) =>
    (l.foldl (keepBest (ofPlatform P) k) []).mergeSort _) ?_
  refine List.filterMap_congr fun node _ => ?_
  simp only [Function.comp_apply, ofNode]
  cases fieldVector field node with
  | none => rfl
  | some v =>
      simp only [Option.bind_eq_bind, Option.bind_some, ofPlatform_computeSimilarity]
      cases Vectors.computeSimilarity P metric query v <;> rfl

/-- The scan of the nodes. -/
theorem ofResult_vectorSearch (nodes : List Node) (k : ℕ) :
    (Vectors.vectorSearch P metric query nodes field k).map (List.map ofResult) =
      vectorSearch (ofPlatform P) metric query (nodes.map (ofNode field)) k := by
  unfold Vectors.vectorSearch vectorSearch
  rw [← ofResult_highest]
  change _ = if canReserve P.allocates k = true then _ else _
  split_ifs <;> rfl

/-- The results of a search of the index. -/
theorem ofResult_toResult (l : Option (List (NodeId × Binary64))) :
    (l.map fun l => l.map (Vectors.toResult P metric)).map (List.map ofResult) =
      l.map fun l => l.map (toResult (ofPlatform P) metric) := by
  cases l with
  | none => rfl
  | some l =>
      simp only [Option.map_some, List.map_map]
      refine congrArg some (List.map_congr_left fun e _ => ?_)
      cases metric <;> rfl

theorem ofIndex_indexNodes (index : Vectors.VectorIndex) (nodes : List Node) :
    (nodes.map (ofNode field)).foldl (indexNode (ofPlatform P)) (ofIndex index) =
      ofIndex (Vectors.indexNodes P field index nodes) := by
  induction nodes generalizing index with
  | nil => rfl
  | cons node nodes ih =>
      have hnode : indexNode (ofPlatform P) (ofIndex index) (ofNode field node) =
          ofIndex ((Vectors.indexNode P field index node).getD index) := by
        unfold indexNode Vectors.indexNode ofNode
        cases fieldVector field node with
        | none => rfl
        | some v =>
            have hinsert := ofIndex_insert P index node.id v
            dsimp only
            change ((ofIndex index).insert (ofArith P.f32) P.layer node.id v).getD _ = _
            rw [hinsert]
            cases index.insert P node.id v <;> rfl
      rw [List.map_cons, List.foldl_cons, hnode, ih]
      rfl

theorem ofIndex_getOrCreate (index : Option Vectors.VectorIndex) (dimension : ℕ) :
    getOrCreateVectorIndex (index.map ofIndex) dimension =
      ofIndex (index.getD (.withParams dimension 16 4 .cosine)) := by
  cases index with
  | none =>
      unfold getOrCreateVectorIndex VectorIndex.withParams Vectors.VectorIndex.withParams ofIndex
      rw [Option.map_none, Option.getD_none, Option.getD_none]
      congr 1
  | some index => rfl

/-- An insert with an embedding, if the properties can be read. -/
theorem ofIndex_embed (F : JsonFormat) (U : Unicode) (db : Handle) (id : NodeId) (now : Timestamp)
    (nodeType : String) (properties : Json) (embedding : List Binary64) {db' : Handle}
    (h : db.insertWithEmbedding F P U id now nodeType properties field embedding = some db') :
    db'.vectorIndexes[toLex (nodeType, field)]?.map ofIndex =
      embed (ofPlatform P) (db.vectorIndexes[toLex (nodeType, field)]?.map ofIndex) id
          embedding := by
  obtain ⟨value, -, rfl⟩ := Option.map_eq_some_iff.mp h
  dsimp only
  rw [OrdMap.get_insert_self, embed, ofIndex_getOrCreate]
  have hinsert := ofIndex_insert P
    ((db.vectorIndexes[toLex (nodeType, field)]?).getD (.withParams embedding.length 16 4 .cosine))
      id
    embedding
  unfold Handle.getOrCreateVectorIndex
  dsimp only [ofPlatform, Option.map_some]
  rw [hinsert]
  cases Vectors.VectorIndex.insert P _ id embedding <;> rfl

/-- The answer of a similarity search. -/
theorem ofResult_similaritySearch (F : JsonFormat) (db : Handle) (nodeType : String) (k : ℕ) :
    (db.similaritySearch F P query nodeType field k metric).1.map (List.map ofResult) =
      similaritySearch (ofPlatform P) (db.vectorIndexes[toLex (nodeType, field)]?.map ofIndex)
        ((Database.getAllByType F db.tiered nodeType none).map fun read =>
          read.1.map (ofNode field)) query k metric := by
  have hsearch : ∀ index : Vectors.VectorIndex,
      ((index.search P query k).map fun l => l.map (Vectors.toResult P metric)).map
          (List.map ofResult) =
        ((ofIndex index).search (ofPlatform P).f32 query k).map fun l =>
          l.map (toResult (ofPlatform P) metric) := by
    intro index
    have heq : (ofIndex index).search (ofPlatform P).f32 query k = index.search P query k :=
      ofIndex_search P index query k
    rw [heq, ofResult_toResult]
  have hready : ((db.vectorIndexes[toLex (nodeType, field)]?).map ofIndex).filter
        (fun index => !index.vectors.isEmpty) =
      ((db.vectorIndexes[toLex (nodeType, field)]?).filter
        fun index => !index.vectors.isEmpty).map ofIndex := by
    rw [Option.filter_map]
    refine congrArg (Option.map ofIndex) (congrArg (Option.filter · _) (funext fun index => ?_))
    exact congrArg not (ofIndex_isEmpty index)
  unfold Handle.similaritySearch similaritySearch
  dsimp only
  rw [hready]
  cases (db.vectorIndexes[toLex (nodeType, field)]?).filter fun index => !index.vectors.isEmpty with
  | some index => exact hsearch index
  | none =>
      cases Database.getAllByType F db.tiered nodeType none with
      | none => rfl
      | some read =>
          obtain ⟨nodes, tiered⟩ := read
          dsimp only [Option.map_none, Option.map_some]
          rw [List.isEmpty_map]
          split_ifs
          · rfl
          have hdetect : detectDimension (nodes.map (ofNode field)) =
              Vectors.detectDimension field nodes := by
            unfold detectDimension Vectors.detectDimension
            rw [List.filterMap_map]
            rfl
          rw [hdetect]
          cases Vectors.detectDimension field nodes with
          | none => exact ofResult_vectorSearch P metric query field nodes k
          | some dimension =>
              dsimp only
              rw [hsearch, ofIndex_getOrCreate, ofIndex_isEmpty, ofIndex_indexNodes]
              unfold Handle.getOrCreateVectorIndex
              split_ifs <;> rfl

end

end AresaDb.Vectors.Generic
