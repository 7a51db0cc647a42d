import AresaDb.Lib.BestFirst
import AresaDb.Store.Value

/-! # The vector index

The graph of vectors that answers similarity searches (`storage/vector_index.rs`).  A new vector is
joined to the closest ones that a search of the graph finds; these point back only while they have
connections to spare.

A search returns indexed vectors with their distances (`search_sound`).  When as many are asked for
as there are, it returns all of them exactly if the graph is linked, every vector being reached from
the entry point (`search_complete_iff`). -/

namespace AresaDb.Vectors

open AresaDb.Store

/-! ### Arithmetic -/

/-- The rounded operations of one width. -/
structure Arith where
  add : Binary64 → Binary64 → Binary64
  sub : Binary64 → Binary64 → Binary64
  mul : Binary64 → Binary64 → Binary64
  div : Binary64 → Binary64 → Binary64
  sqrt : Binary64 → Binary64
  /-- What an empty sum is. -/
  zero : Binary64

/-- What the index leaves to the platform. -/
structure Platform where
  f32 : Arith
  f64 : Arith
  /-- The layer that the hash of an id stands for, before it is capped. -/
  layer : NodeId → ℕ
  /-- Whether the allocator gives so many bytes.  It never gives more than `isize::MAX`. -/
  allocates : ℕ → Bool

def one : Binary64 := .ofInt 1

def abs (x : Binary64) : Binary64 := if x.isNegative then x.neg else x

def Arith.sum (A : Arith) (l : List Binary64) : Binary64 := l.foldl A.add A.zero

def Arith.dot (A : Arith) (a b : List Binary64) : Binary64 := A.sum (List.zipWith A.mul a b)

inductive DistanceMetric where
  | cosine
  | euclidean
  | dotProduct
  | manhattan

/-! ### The index -/

structure VectorEntry where
  vector : List Binary64
  /-- The neighbours at each layer. -/
  neighbors : List (List NodeId)

structure VectorIndex where
  vectors : OrdMap NodeId VectorEntry
  dimension : ℕ
  maxConnections : ℕ
  maxLayers : ℕ
  entryPoint : Option NodeId
  metric : DistanceMetric
  efConstruction : ℕ

namespace VectorIndex

def withParams (dimension maxConnections maxLayers : ℕ) (metric : DistanceMetric) : VectorIndex :=
  ⟨∅, dimension, maxConnections, maxLayers, none, metric, 100⟩

variable (P : Platform) (ix : VectorIndex)

def normalize (v : List Binary64) : List Binary64 :=
  let mag := P.f32.sqrt (P.f32.sum (v.map fun x => P.f32.mul x x))
  if (Binary64.ofInt 0).lt mag then v.map fun x => P.f32.div x mag else v

def distance (a b : List Binary64) : Binary64 :=
  match ix.metric with
  | .cosine => P.f32.sub one (P.f32.dot a b)
  | .euclidean =>
      P.f32.sqrt (P.f32.sum (List.zipWith
        (fun x y => P.f32.mul (P.f32.sub x y) (P.f32.sub x y)) a b))
  | .dotProduct => (P.f32.dot a b).neg
  | .manhattan => P.f32.sum (List.zipWith (fun x y => abs (P.f32.sub x y)) a b)

def randomLayer (id : NodeId) : ℕ := min (P.layer id) (ix.maxLayers - 1)

/-- The graph around a query: the distance of a vector, and its neighbours of all layers. -/
def look (query : List Binary64) (id : NodeId) : Option (Binary64 × List NodeId) :=
  ix.vectors[id]?.map fun entry => (ix.distance P query entry.vector, entry.neighbors.flatten)

/-- Every vector is a candidate once at most. -/
def searchLayer (query : List Binary64) (entryPoint : NodeId) (ef : ℕ) :
    List (NodeId × Binary64) :=
  BestFirst.search (ix.look P query) Binary64.lt ef ix.vectors.size entryPoint

end VectorIndex

/-- One more neighbour at the lowest layer, while there is room. -/
def VectorEntry.push (maxConnections : ℕ) (entry : VectorEntry) (id : NodeId) : VectorEntry :=
  if (entry.neighbors.headD []).length < maxConnections then
    { entry with neighbors := entry.neighbors.modifyHead (· ++ [id]) }
  else entry

/-- The way back from a neighbour. -/
def linkBack (maxConnections : ℕ) (id : NodeId) (vectors : OrdMap NodeId VectorEntry)
    (neighborId : NodeId) : OrdMap NodeId VectorEntry :=
  match vectors[neighborId]? with
  | some neighbor => vectors.insert neighborId (neighbor.push maxConnections id)
  | none => vectors

namespace VectorIndex

variable (P : Platform) (ix : VectorIndex)

/-- `none` is the error that the dimensions differ. -/
def insert (id : NodeId) (vector : List Binary64) : Option VectorIndex :=
  if vector.length = ix.dimension then
    let vector := normalize P vector
    let layer := ix.randomLayer P id
    let entry : VectorEntry := ⟨vector, List.replicate (layer + 1) []⟩
    if ix.vectors.isEmpty then
      some { ix with entryPoint := some id, vectors := ix.vectors.insert id entry }
    else
      match ix.entryPoint with
      | none => some ix
      | some ep =>
          let neighbors := ((ix.searchLayer P vector ep ix.efConstruction).take
            ix.maxConnections).map Prod.fst
          let entry := neighbors.foldl (VectorEntry.push ix.maxConnections) entry
          let vectors := neighbors.foldl (linkBack ix.maxConnections id) ix.vectors
          some
            { ix with
              vectors := vectors.insert id entry
              entryPoint := if 0 < layer then some id else some ep }
  else none

/-- `none` is the error that the dimensions differ. -/
def search (query : List Binary64) (k : ℕ) : Option (List (NodeId × Binary64)) :=
  if query.length = ix.dimension then
    if ix.vectors.isEmpty then some []
    else
      match ix.entryPoint with
      | none => some []
      | some ep =>
          some ((ix.searchLayer P (normalize P query) ep (max k ix.efConstruction)).take k)
  else none

/-! ### What is indexed -/

/-- The normalized vector of an id. -/
def vectorOf (id : NodeId) : Option (List Binary64) := ix.vectors[id]?.map VectorEntry.vector

/-- A search has where to start. -/
def Entered : Prop := ∃ ep, ix.entryPoint = some ep ∧ (ix.vectorOf ep).isSome

/-- The indexes are alike but for their vectors. -/
structure Alike (ix ix' : VectorIndex) : Prop where
  dimension : ix'.dimension = ix.dimension
  maxConnections : ix'.maxConnections = ix.maxConnections
  metric : ix'.metric = ix.metric
  efConstruction : ix'.efConstruction = ix.efConstruction

end VectorIndex

theorem VectorEntry.push_vector (maxConnections : ℕ) (entry : VectorEntry) (id : NodeId) :
    (entry.push maxConnections id).vector = entry.vector := by
  unfold push
  split_ifs <;> rfl

theorem VectorEntry.pushes_vector (maxConnections : ℕ) (entry : VectorEntry) (ids : List NodeId) :
    (ids.foldl (push maxConnections) entry).vector = entry.vector := by
  induction ids generalizing entry with
  | nil => rfl
  | cons id ids ih => exact (ih _).trans (push_vector maxConnections entry id)

theorem linkBack_vector (maxConnections : ℕ) (id : NodeId) (vectors : OrdMap NodeId VectorEntry)
    (neighborId i : NodeId) :
    (linkBack maxConnections id vectors neighborId)[i]?.map VectorEntry.vector =
      vectors[i]?.map VectorEntry.vector := by
  unfold linkBack
  cases h : vectors[neighborId]? with
  | none => rfl
  | some neighbor =>
      dsimp only
      rw [OrdMap.get_insert]
      split_ifs with hi
      · subst hi
        rw [h]
        exact congrArg some (neighbor.push_vector maxConnections id)
      · rfl

theorem linksBack_vector (maxConnections : ℕ) (id : NodeId) (vectors : OrdMap NodeId VectorEntry)
    (ids : List NodeId) (i : NodeId) :
    (ids.foldl (linkBack maxConnections id) vectors)[i]?.map VectorEntry.vector =
      vectors[i]?.map VectorEntry.vector := by
  induction ids generalizing vectors with
  | nil => rfl
  | cons neighborId ids ih => exact (ih _).trans (linkBack_vector _ _ _ _ _)

namespace VectorIndex

variable {P : Platform} {ix : VectorIndex}

theorem vectorOf_eq_none_of_isEmpty (h : ix.vectors.isEmpty = true) (id : NodeId) :
    ix.vectorOf id = none := by
  unfold vectorOf
  rw [Std.ExtTreeMap.isEmpty_iff.mp h]
  rfl

theorem mem_keys {id : NodeId} : id ∈ ix.vectors.keys ↔ (ix.vectorOf id).isSome := by
  have : Std.LawfulEqCmp (compare : NodeId → NodeId → Ordering) := ⟨compare_eq_iff_eq.mp⟩
  rw [Std.ExtTreeMap.mem_keys, Std.ExtTreeMap.mem_iff_isSome_getElem?, vectorOf, Option.isSome_map]

theorem insert_of_ne {v : List Binary64} (h : v.length ≠ ix.dimension) (id : NodeId) :
    ix.insert P id v = none := if_neg h

theorem length_of_insert {id : NodeId} {v : List Binary64} {ix' : VectorIndex}
    (h : ix.insert P id v = some ix') : v.length = ix.dimension := by
  by_contra hne
  rw [insert_of_ne hne] at h
  cases h

/-- The entry of a new vector, before it has neighbours. -/
def newEntry (P : Platform) (ix : VectorIndex) (id : NodeId) (v : List Binary64) : VectorEntry :=
  ⟨normalize P v, List.replicate (ix.randomLayer P id + 1) []⟩

/-- The neighbours that a new vector is joined to. -/
def closest (P : Platform) (ix : VectorIndex) (v : List Binary64) (ep : NodeId) : List NodeId :=
  ((ix.searchLayer P (normalize P v) ep ix.efConstruction).take ix.maxConnections).map Prod.fst

theorem insert_first (hempty : ix.vectors.isEmpty = true) {v : List Binary64}
    (h : v.length = ix.dimension) (id : NodeId) :
    ix.insert P id v = some
      { ix with
        entryPoint := some id
        vectors := ix.vectors.insert id (ix.newEntry P id v) } := by
  unfold insert
  rw [if_pos h, if_pos hempty]
  rfl

theorem insert_next (hempty : ix.vectors.isEmpty = false) {ep : NodeId}
    (hep : ix.entryPoint = some ep) {v : List Binary64} (h : v.length = ix.dimension)
    (id : NodeId) :
    ix.insert P id v = some
      { ix with
        vectors := ((ix.closest P v ep).foldl (linkBack ix.maxConnections id) ix.vectors).insert id
          ((ix.closest P v ep).foldl (VectorEntry.push ix.maxConnections) (ix.newEntry P id v))
        entryPoint := if 0 < ix.randomLayer P id then some id else some ep } := by
  unfold insert
  rw [if_pos h, if_neg (Bool.eq_false_iff.mp hempty), hep]
  rfl

/-- An insert adds a vector and changes no other. -/
theorem insert_of_eq (hix : ix.vectors.isEmpty = false → ix.Entered) {v : List Binary64}
    (h : v.length = ix.dimension) (id : NodeId) :
    ∃ ix', ix.insert P id v = some ix' ∧ Alike ix ix' ∧ ix'.Entered ∧
      ∀ i, ix'.vectorOf i = if id = i then some (normalize P v) else ix.vectorOf i := by
  cases hempty : ix.vectors.isEmpty with
  | true =>
      have hvector : ∀ i, (ix.vectors.insert id (ix.newEntry P id v))[i]?.map VectorEntry.vector =
          if id = i then some (normalize P v) else ix.vectorOf i := by
        intro i
        rw [OrdMap.get_insert]
        split_ifs <;> rfl
      refine ⟨_, insert_first hempty h id, ⟨rfl, rfl, rfl, rfl⟩, ⟨id, rfl, ?_⟩, hvector⟩
      exact (congrArg Option.isSome (hvector id)).trans (by rw [if_pos rfl]; rfl)
  | false =>
      obtain ⟨ep, hep, hthere⟩ := hix hempty
      have hvector : ∀ i, (((ix.closest P v ep).foldl (linkBack ix.maxConnections id)
          ix.vectors).insert id ((ix.closest P v ep).foldl (VectorEntry.push ix.maxConnections)
            (ix.newEntry P id v)))[i]?.map VectorEntry.vector =
            if id = i then some (normalize P v) else ix.vectorOf i := by
        intro i
        rw [OrdMap.get_insert]
        split_ifs
        · exact congrArg some (VectorEntry.pushes_vector _ _ _)
        · exact linksBack_vector _ _ _ _ _
      refine ⟨_, insert_next hempty hep h id, ⟨rfl, rfl, rfl, rfl⟩, ?_, hvector⟩
      by_cases hlayer : 0 < ix.randomLayer P id
      · refine ⟨id, if_pos hlayer, (congrArg Option.isSome (hvector id)).trans ?_⟩
        rw [if_pos rfl]
        rfl
      · refine ⟨ep, if_neg hlayer, (congrArg Option.isSome (hvector ep)).trans ?_⟩
        split_ifs
        · rfl
        · exact hthere

/-! ### What is found -/

/-- An id leads to another one in the graph. -/
def Leads (ix : VectorIndex) (a b : NodeId) : Prop :=
  ∃ entry, ix.vectors[a]? = some entry ∧ b ∈ entry.neighbors.flatten ∧ (ix.vectorOf b).isSome

/-- Every vector is reached from the entry point. -/
def Linked (ix : VectorIndex) : Prop :=
  ∀ ep id, ix.entryPoint = some ep → (ix.vectorOf id).isSome → Relation.ReflTransGen ix.Leads ep id

theorem look_isSome (q : List Binary64) (id : NodeId) :
    (ix.look P q id).isSome = (ix.vectorOf id).isSome := by
  unfold look vectorOf
  rw [Option.isSome_map, Option.isSome_map]

theorem edge_eq_leads (q : List Binary64) : BestFirst.Edge (ix.look P q) = ix.Leads := by
  funext a b
  refine propext ⟨?_, ?_⟩
  · rintro ⟨d, next, ha, hb, hsome⟩
    obtain ⟨entry, hentry, heq⟩ := Option.map_eq_some_iff.mp ha
    obtain ⟨-, rfl⟩ := Prod.mk.inj heq
    exact ⟨entry, hentry, hb, (look_isSome q b).symm.trans hsome⟩
  · rintro ⟨entry, hentry, hb, hsome⟩
    refine ⟨ix.distance P q entry.vector, entry.neighbors.flatten, ?_, hb, ?_⟩
    · rw [look, hentry]
      rfl
    · rw [look_isSome]
      exact hsome

theorem mem_searchLayer {q : List Binary64} {ep : NodeId} {ef : ℕ} {e : NodeId × Binary64}
    (he : e ∈ ix.searchLayer P q ep ef) :
    Relation.ReflTransGen ix.Leads ep e.1 ∧
      ∃ w, ix.vectorOf e.1 = some w ∧ e.2 = ix.distance P q w := by
  obtain ⟨hreach, next, hlook⟩ := BestFirst.search_sound he
  rw [BestFirst.Reaches, edge_eq_leads] at hreach
  obtain ⟨entry, hentry, heq⟩ := Option.map_eq_some_iff.mp hlook
  refine ⟨hreach, entry.vector, ?_, ((Prod.mk.inj heq).1).symm⟩
  rw [vectorOf, hentry]
  rfl

theorem length_searchLayer (q : List Binary64) (ep : NodeId) (ef : ℕ) :
    (ix.searchLayer P q ep ef).length ≤ ix.vectors.size := by
  rw [← List.length_map Prod.fst, ← Std.ExtTreeMap.length_keys]
  refine (List.subperm_of_subset (BestFirst.search_nodup _ _) fun i hi => ?_).length_le
  obtain ⟨e, he, rfl⟩ := List.mem_map.mp hi
  obtain ⟨-, w, hw, -⟩ := mem_searchLayer he
  exact mem_keys.mpr (Option.isSome_of_eq_some hw)

/-- A search of the layer that is wide enough finds what is reached. -/
theorem searchLayer_complete {q : List Binary64} {ep id : NodeId} {ef : ℕ}
    (hep : (ix.vectorOf ep).isSome) (hwidth : ix.vectors.size ≤ ef)
    (hreach : Relation.ReflTransGen ix.Leads ep id) :
    ∃ d, (id, d) ∈ ix.searchLayer P q ep ef := by
  have hkeys : ∀ i, (ix.look P q i).isSome → i ∈ ix.vectors.keys := by
    intro i hi
    rw [look_isSome] at hi
    exact mem_keys.mpr hi
  have hlen : ix.vectors.keys.length = ix.vectors.size := Std.ExtTreeMap.length_keys
  refine BestFirst.search_complete hkeys (hlen.le.trans hwidth) hlen.le ?_ ?_
  · rw [look_isSome]
    exact hep
  · rw [BestFirst.Reaches, edge_eq_leads]
    exact hreach

theorem Entered.isEmpty (h : ix.Entered) : ix.vectors.isEmpty = false := by
  obtain ⟨ep, -, hthere⟩ := h
  rw [Bool.eq_false_iff]
  intro hempty
  rw [vectorOf_eq_none_of_isEmpty hempty] at hthere
  cases hthere

/-- A search of an index that has an entry point. -/
theorem search_eq (hix : ix.Entered) {q : List Binary64} (hdim : q.length = ix.dimension) (k : ℕ) :
    ∃ ep, ix.entryPoint = some ep ∧ (ix.vectorOf ep).isSome ∧ ix.search P q k =
      some ((ix.searchLayer P (normalize P q) ep (max k ix.efConstruction)).take k) := by
  have hempty : ¬ ix.vectors.isEmpty = true := Bool.eq_false_iff.mp hix.isEmpty
  obtain ⟨ep, hep, hthere⟩ := hix
  refine ⟨ep, hep, hthere, ?_⟩
  unfold search
  rw [if_pos hdim, if_neg hempty, hep]

/-- The results of a search are vectors of the index with their distances. -/
theorem search_sound (hix : ix.Entered) {q : List Binary64} {k : ℕ} {l : List (NodeId × Binary64)}
    (h : ix.search P q k = some l) :
    q.length = ix.dimension ∧ ∀ e ∈ l,
      ∃ w, ix.vectorOf e.1 = some w ∧ e.2 = ix.distance P (normalize P q) w := by
  by_cases hdim : q.length = ix.dimension
  · obtain ⟨ep, -, -, hsearch⟩ := search_eq (P := P) hix hdim k
    obtain rfl := Option.some.inj (hsearch.symm.trans h)
    exact ⟨hdim, fun e he => (mem_searchLayer (List.mem_of_mem_take he)).2⟩
  · rw [search, if_neg hdim] at h
    cases h

/-- A search returns vectors of the index, each of them once. -/
theorem search_keys {q : List Binary64} {k : ℕ} {l : List (NodeId × Binary64)}
    (h : ix.search P q k = some l) :
    (l.map Prod.fst).Nodup ∧ ∀ e ∈ l, (ix.vectorOf e.1).isSome := by
  unfold search at h
  split_ifs at h
  · obtain rfl := Option.some.inj h
    exact ⟨List.nodup_nil, nofun⟩
  · split at h
    · obtain rfl := Option.some.inj h
      exact ⟨List.nodup_nil, nofun⟩
    · obtain rfl := Option.some.inj h
      refine ⟨(BestFirst.search_nodup _ _).sublist ((List.take_sublist _ _).map _), fun e he => ?_⟩
      obtain ⟨-, w, hw, -⟩ := mem_searchLayer (List.mem_of_mem_take he)
      exact Option.isSome_of_eq_some hw

/-- A search of linked vectors that is wide enough returns as many as it is asked for, or all. -/
theorem length_search_of_linked (hix : ix.Entered) {q : List Binary64}
    (hdim : q.length = ix.dimension) {k : ℕ} (hsize : ix.vectors.size ≤ max k ix.efConstruction)
    (hlinked : ix.Linked) : ∃ l, ix.search P q k = some l ∧ l.length = min k ix.vectors.size := by
  obtain ⟨ep, hep, hthere, hsearch⟩ := search_eq (P := P) hix hdim k
  refine ⟨_, hsearch, ?_⟩
  have hall : ix.vectors.keys ⊆
      (ix.searchLayer P (normalize P q) ep (max k ix.efConstruction)).map Prod.fst := by
    intro id hid
    obtain ⟨d, hd⟩ := searchLayer_complete (P := P) (q := normalize P q) hthere hsize
      (hlinked ep id hep (mem_keys.mp hid))
    exact List.mem_map.mpr ⟨_, hd, rfl⟩
  have hlength := (List.subperm_of_subset Std.ExtTreeMap.nodup_keys hall).length_le
  rw [List.length_map, Std.ExtTreeMap.length_keys] at hlength
  rw [List.length_take, (length_searchLayer _ _ _).antisymm hlength]

/-- A search for as many vectors as there are returns them all if they are linked. -/
theorem search_complete_iff (hix : ix.Entered) {q : List Binary64} (hdim : q.length = ix.dimension)
    {k : ℕ} (hk : ix.vectors.size ≤ k) :
    (∃ l, ix.search P q k = some l ∧ ∀ id, (ix.vectorOf id).isSome → ∃ d, (id, d) ∈ l) ↔
      ix.Linked := by
  obtain ⟨ep, hep, hthere, hsearch⟩ := search_eq (P := P) hix hdim k
  rw [hsearch, List.take_of_length_le ((length_searchLayer _ _ _).trans hk)]
  constructor
  · rintro ⟨l, hl, hall⟩ ep' id hep' hid
    obtain rfl := Option.some.inj (hep.symm.trans hep')
    obtain rfl := Option.some.inj hl
    obtain ⟨d, hd⟩ := hall id hid
    exact (mem_searchLayer hd).1
  · intro hlinked
    refine ⟨_, rfl, fun id hid => ?_⟩
    exact searchLayer_complete hthere (hk.trans (le_max_left _ _)) (hlinked ep id hep hid)

end VectorIndex

end AresaDb.Vectors
