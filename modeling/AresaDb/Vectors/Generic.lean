import AresaDb.Lib.Nearest
import AresaDb.Vectors.Handle

/-! # The vector index over any numbers

The vector index (`storage/vector_index.rs`) with the operations on its numbers as parameters, so
that it can be read in exact arithmetic.  A search has the two heaps of the source: neighbours come
out of a heap in the reversed order of their distances, and the results have negated ones, so that
the farthest of them comes out first.

When negation is its own inverse and reverses the order, this is a best-first search
(`searchLayer_eq`).  On the numbers of a machine it is the index of the handle (`ofIndex_search`,
`ofIndex_insert`). -/

namespace AresaDb.Vectors.Generic

open AresaDb.Store

/-! ### Numbers -/

/-- The operations on the floating-point numbers of one width. -/
structure Numbers (α : Type) where
  add : α → α → α
  sub : α → α → α
  mul : α → α → α
  div : α → α → α
  sqrt : α → α
  neg : α → α
  abs : α → α
  /-- What an empty sum is. -/
  emptySum : α
  zero : α
  one : α
  lt : α → α → Bool
  eq : α → α → Bool

/-- Negation is its own inverse and reverses the order. -/
structure Numbers.Mirrored {α : Type} (A : Numbers α) : Prop where
  neg_neg : ∀ x, A.neg (A.neg x) = x
  lt_neg : ∀ x y, A.lt (A.neg x) (A.neg y) = A.lt y x

variable {α : Type} (A : Numbers α)

def Numbers.sum (l : List α) : α := l.foldl A.add A.emptySum

def Numbers.dot (a b : List α) : α := A.sum (List.zipWith A.mul a b)

/-! ### Heaps of neighbours -/

structure Neighbor (α : Type) where
  id : NodeId
  distance : α

/-- The order is reversed; numbers that cannot be compared count as equal. -/
def Neighbor.cmp (a b : Neighbor α) : Ordering :=
  if A.lt a.distance b.distance then .gt else if A.lt b.distance a.distance then .lt else .eq

def pushNeighbor (heap : List (Neighbor α)) (n : Neighbor α) : List (Neighbor α) :=
  BinaryHeap.push (fun a b => (a.cmp A b).isGT) heap n

/-- The greatest neighbour of a heap, and what is left. -/
def popNeighbor (heap : List (Neighbor α)) : Option (Neighbor α × List (Neighbor α)) :=
  BinaryHeap.pop (fun a b => (a.cmp A b).isGT) heap

/-- The distance of the worst result; `none` is infinity. -/
def worstDist (results : List (Neighbor α)) : Option α :=
  (BinaryHeap.peek results).map fun worst => A.neg worst.distance

/-- `results.push`, and `results.pop` when there are too many. -/
def pushResult (ef : ℕ) (results : List (Neighbor α)) (n : Neighbor α) : List (Neighbor α) :=
  let results := pushNeighbor A results n
  if ef < results.length then ((popNeighbor A results).map Prod.snd).getD [] else results

/-! ### The index -/

structure VectorEntry (α : Type) where
  vector : List α
  /-- The neighbours at each layer. -/
  neighbors : List (List NodeId)

structure VectorIndex (α : Type) where
  vectors : OrdMap NodeId (VectorEntry α)
  dimension : ℕ
  maxConnections : ℕ
  maxLayers : ℕ
  entryPoint : Option NodeId
  metric : DistanceMetric
  efConstruction : ℕ

/-- The state of a search.  The distances of the visited vectors are not read. -/
structure Search (α : Type) where
  visited : List NodeId
  candidates : List (Neighbor α)
  results : List (Neighbor α)

namespace VectorIndex

def withParams (dimension maxConnections maxLayers : ℕ) (metric : DistanceMetric) : VectorIndex α :=
  ⟨∅, dimension, maxConnections, maxLayers, none, metric, 100⟩

def normalize (v : List α) : List α :=
  let mag := A.sqrt (A.sum (v.map fun x => A.mul x x))
  if A.lt A.zero mag then v.map fun x => A.div x mag else v

variable (ix : VectorIndex α)

def distance (a b : List α) : α :=
  match ix.metric with
  | .cosine => A.sub A.one (A.dot a b)
  | .euclidean =>
      A.sqrt (A.sum (List.zipWith (fun x y => A.mul (A.sub x y) (A.sub x y)) a b))
  | .dotProduct => A.neg (A.dot a b)
  | .manhattan => A.sum (List.zipWith (fun x y => A.abs (A.sub x y)) a b)

variable (query : List α) (ef : ℕ)

/-- A neighbour of the current vector is looked at. -/
def visit (s : Search α) (neighborId : NodeId) : Search α :=
  if neighborId ∈ s.visited then s
  else
    match ix.vectors[neighborId]? with
    | none => s
    | some neighborEntry =>
        let dist := ix.distance A query neighborEntry.vector
        let s := { s with visited := neighborId :: s.visited }
        if (worstDist A s.results).all (A.lt dist ·) || decide (s.results.length < ef) then
          { s with
            candidates := pushNeighbor A s.candidates ⟨neighborId, dist⟩
            results := pushResult A ef s.results ⟨neighborId, A.neg dist⟩ }
        else s

/-- The search, for a number of rounds: `none` when it has not ended by then. -/
def loop : ℕ → Search α → Option (Search α)
  | 0, _ => none
  | fuel + 1, s =>
      match popNeighbor A s.candidates with
      | none => some s
      | some (current, candidates) =>
          let s' := { s with candidates := candidates }
          if (worstDist A s.results).any (A.lt · current.distance) &&
              decide (ef ≤ s.results.length) then some s'
          else
            match ix.vectors[current.id]? with
            | none => loop fuel s'
            | some entry =>
                loop fuel (entry.neighbors.foldl
                  (fun s layer => layer.foldl (ix.visit A query ef) s) s')

/-- Where a search starts. -/
def start (entryPoint : NodeId) : Search α :=
  match ix.vectors[entryPoint]? with
  | some entry =>
      let dist := ix.distance A query entry.vector
      ⟨[entryPoint], [⟨entryPoint, dist⟩], [⟨entryPoint, A.neg dist⟩]⟩
  | none => ⟨[], [], []⟩

/-- `none` when the search has not ended within the rounds. -/
def searchLayer (fuel : ℕ) (entryPoint : NodeId) : Option (List (NodeId × α)) :=
  (ix.loop A query ef fuel (ix.start A query entryPoint)).map fun s =>
    (s.results.map fun n => (n.id, A.neg n.distance)).insertionSort fun a b => A.lt b.2 a.2 = false

/-- The rounds that any search ends within. -/
def rounds : ℕ := ix.vectors.size + 1

end VectorIndex

/-- One more neighbour at the lowest layer, while there is room. -/
def VectorEntry.push (maxConnections : ℕ) (entry : VectorEntry α) (id : NodeId) : VectorEntry α :=
  if (entry.neighbors.headD []).length < maxConnections then
    { entry with neighbors := entry.neighbors.modifyHead (· ++ [id]) }
  else entry

/-- The way back from a neighbour. -/
def linkBack (maxConnections : ℕ) (id : NodeId) (vectors : OrdMap NodeId (VectorEntry α))
    (neighborId : NodeId) : OrdMap NodeId (VectorEntry α) :=
  match vectors[neighborId]? with
  | some neighbor => vectors.insert neighborId (neighbor.push maxConnections id)
  | none => vectors

namespace VectorIndex

variable (ix : VectorIndex α)

/-- `none` is the error that the dimensions differ. -/
def insert (layerOf : NodeId → ℕ) (id : NodeId) (vector : List α) : Option (VectorIndex α) :=
  if vector.length = ix.dimension then
    let vector := normalize A vector
    let layer := min (layerOf id) (ix.maxLayers - 1)
    let entry : VectorEntry α := ⟨vector, List.replicate (layer + 1) []⟩
    if ix.vectors.isEmpty then
      some { ix with entryPoint := some id, vectors := ix.vectors.insert id entry }
    else
      match ix.entryPoint with
      | none => some ix
      | some ep =>
          let found := (ix.searchLayer A vector ix.efConstruction ix.rounds ep).getD []
          let neighbors := (found.take ix.maxConnections).map Prod.fst
          let entry := neighbors.foldl (VectorEntry.push ix.maxConnections) entry
          let vectors := neighbors.foldl (linkBack ix.maxConnections id) ix.vectors
          some
            { ix with
              vectors := vectors.insert id entry
              entryPoint := if 0 < layer then some id else some ep }
  else none

/-- The inner `none` is the error that the dimensions differ; the outer one, that the search has not
ended within the rounds. -/
def searchWithin (fuel : ℕ) (query : List α) (k : ℕ) : Option (Option (List (NodeId × α))) :=
  if query.length = ix.dimension then
    if ix.vectors.isEmpty then some (some [])
    else
      match ix.entryPoint with
      | none => some (some [])
      | some ep =>
          (ix.searchLayer A (normalize A query) (max k ix.efConstruction) fuel ep).map
              fun results =>
            some (results.take k)
  else some none

def search (query : List α) (k : ℕ) : Option (List (NodeId × α)) :=
  (ix.searchWithin A ix.rounds query k).join

end VectorIndex

/-! ### A best-first search -/

theorem isGT_cmp (a b : Neighbor α) : (a.cmp A b).isGT = A.lt a.distance b.distance := by
  unfold Neighbor.cmp
  split_ifs with h h'
  · exact h.symm
  · exact (Bool.eq_false_iff.mpr h).symm
  · exact (Bool.eq_false_iff.mpr h).symm

/-- The vertex of a best-first search that a candidate stands for. -/
def toCandidate (n : Neighbor α) : NodeId × α := (n.id, n.distance)

/-- The vertex of a best-first search that a result stands for. -/
def toFound (n : Neighbor α) : NodeId × α := (n.id, A.neg n.distance)

def Search.toState (s : Search α) : BestFirst.State NodeId α :=
  ⟨s.visited, s.candidates.map toCandidate, s.results.map (toFound A)⟩

theorem closer_toCandidate (a b : Neighbor α) :
    BestFirst.closer A.lt (toCandidate a) (toCandidate b) = (a.cmp A b).isGT :=
  (isGT_cmp A a b).symm

theorem pop_candidates (heap : List (Neighbor α)) :
    BinaryHeap.pop (BestFirst.closer A.lt) (heap.map toCandidate) =
      (popNeighbor A heap).map fun e => (toCandidate e.1, e.2.map toCandidate) :=
  BinaryHeap.pop_map (closer_toCandidate A) heap

theorem push_candidates (heap : List (Neighbor α)) (id : NodeId) (d : α) :
    BinaryHeap.push (BestFirst.closer A.lt) (heap.map toCandidate) (id, d) =
      (pushNeighbor A heap ⟨id, d⟩).map toCandidate :=
  BinaryHeap.push_map (closer_toCandidate A) heap ⟨id, d⟩

variable {A}

theorem farther_toFound (hA : A.Mirrored) (a b : Neighbor α) :
    BestFirst.farther A.lt (toFound A a) (toFound A b) = (a.cmp A b).isGT :=
  (hA.lt_neg b.distance a.distance).trans (isGT_cmp A a b).symm

theorem pop_results (hA : A.Mirrored) (heap : List (Neighbor α)) :
    BinaryHeap.pop (BestFirst.farther A.lt) (heap.map (toFound A)) =
      (popNeighbor A heap).map fun e => (toFound A e.1, e.2.map (toFound A)) :=
  BinaryHeap.pop_map (farther_toFound hA) heap

theorem worst_results (results : List (Neighbor α)) :
    BestFirst.worst (results.map (toFound A)) = worstDist A results := by
  unfold BestFirst.worst worstDist BinaryHeap.peek
  rw [List.head?_map, Option.map_map]
  rfl

theorem admits_toState (ef : ℕ) (s : Search α) (d : α) :
    BestFirst.admits A.lt ef (s.toState A).results d =
      ((worstDist A s.results).all (A.lt d ·) || decide (s.results.length < ef)) := by
  unfold BestFirst.admits Search.toState
  rw [worst_results, List.length_map]
  cases worstDist A s.results <;> rfl

theorem ends_toState (ef : ℕ) (s : Search α) (d : α) :
    BestFirst.ends A.lt ef (s.toState A).results d =
      ((worstDist A s.results).any (A.lt · d) && decide (ef ≤ s.results.length)) := by
  unfold BestFirst.ends Search.toState
  rw [worst_results, List.length_map]
  cases worstDist A s.results <;> rfl

theorem push_results (hA : A.Mirrored) (ef : ℕ) (results : List (Neighbor α)) (id : NodeId)
    (d : α) : (pushResult A ef results ⟨id, A.neg d⟩).map (toFound A) = BestFirst.trim A.lt ef
        (BinaryHeap.push (BestFirst.farther A.lt) (results.map (toFound A)) (id, d)) := by
  have hfound : toFound A ⟨id, A.neg d⟩ = (id, d) := by rw [toFound, hA.neg_neg]
  have hpush := BinaryHeap.push_map (farther_toFound hA) results ⟨id, A.neg d⟩
  rw [hfound] at hpush
  rw [hpush]
  change _ = BestFirst.trim A.lt ef ((pushNeighbor A results ⟨id, A.neg d⟩).map (toFound A))
  unfold BestFirst.trim pushResult
  rw [List.length_map, pop_results hA]
  dsimp only
  split_ifs
  · cases popNeighbor A (pushNeighbor A results ⟨id, A.neg d⟩) <;> rfl
  · rfl

namespace VectorIndex

variable (A) (ix : VectorIndex α) (query : List α)

/-- The graph around a query: the distance of a vector, and its neighbours of all layers. -/
def look (id : NodeId) : Option (α × List NodeId) :=
  ix.vectors[id]?.map fun entry => (ix.distance A query entry.vector, entry.neighbors.flatten)

variable {A}

theorem visit_toState (hA : A.Mirrored) (ef : ℕ) (s : Search α) (id : NodeId) :
    (ix.visit A query ef s id).toState A =
      BestFirst.visit (ix.look A query) A.lt ef (s.toState A) id := by
  unfold visit BestFirst.visit
  by_cases hid : id ∈ s.visited
  · rw [if_pos hid, if_pos (show id ∈ (s.toState A).visited from hid)]
  rw [if_neg hid, if_neg (show id ∉ (s.toState A).visited from hid), look]
  cases ix.vectors[id]? with
  | none => rfl
  | some entry =>
      dsimp only [Option.map_some]
      rw [admits_toState]
      split_ifs
      · unfold Search.toState
        rw [push_results hA, ← push_candidates]
      · rfl

theorem visits_toState (hA : A.Mirrored) (ef : ℕ) (s : Search α) (ids : List NodeId) :
    (ids.foldl (ix.visit A query ef) s).toState A =
      ids.foldl (BestFirst.visit (ix.look A query) A.lt ef) (s.toState A) := by
  induction ids generalizing s with
  | nil => rfl
  | cons id ids ih =>
      rw [List.foldl_cons, List.foldl_cons, ih, visit_toState ix query hA]

theorem loop_toState (hA : A.Mirrored) (ef fuel : ℕ) (s : Search α) :
    (ix.loop A query ef fuel s).map (Search.toState A) =
      BestFirst.loop (ix.look A query) A.lt ef fuel (s.toState A) := by
  induction fuel generalizing s with
  | zero => rfl
  | succ fuel ih =>
      have hpop : BinaryHeap.pop (BestFirst.closer A.lt) (s.toState A).candidates =
          (popNeighbor A s.candidates).map fun e => (toCandidate e.1, e.2.map toCandidate) :=
        pop_candidates A s.candidates
      rw [loop, BestFirst.loop, hpop]
      cases popNeighbor A s.candidates with
      | none => rfl
      | some e =>
          obtain ⟨current, rest⟩ := e
          dsimp only [Option.map_some, toCandidate]
          rw [ends_toState]
          split_ifs
          · rfl
          rw [look]
          cases ix.vectors[current.id]? with
          | none => exact ih _
          | some entry =>
              dsimp only [Option.map_some]
              rw [ih, ← List.foldl_flatten, visits_toState ix query hA]
              rfl

theorem look_isSome (id : NodeId) :
    (ix.look A query id).isSome → id ∈ ix.vectors.keys := by
  have : Std.LawfulEqCmp (compare : NodeId → NodeId → Ordering) := ⟨compare_eq_iff_eq.mp⟩
  intro h
  rw [look, Option.isSome_map] at h
  rwa [Std.ExtTreeMap.mem_keys, Std.ExtTreeMap.mem_iff_isSome_getElem?]

/-- A search of the layer ends, and is a best-first search. -/
theorem searchLayer_eq (hA : A.Mirrored) (ef : ℕ) {fuel : ℕ} (hfuel : ix.rounds ≤ fuel)
    (ep : NodeId) : ix.searchLayer A query ef fuel ep =
      some (BestFirst.search (ix.look A query) A.lt ef ix.vectors.size ep) := by
  have hkeys : ix.vectors.keys.length = ix.vectors.size := Std.ExtTreeMap.length_keys
  have hloop : (ix.loop A query ef fuel (ix.start A query ep)).map (Search.toState A) =
      some (BestFirst.explore (ix.look A query) A.lt ef ix.vectors.size
        ((ix.start A query ep).toState A)) := by
    rw [loop_toState ix query hA]
    refine BestFirst.loop_le (BestFirst.loop_explore ?_ (look_isSome ix query) ?_) hfuel
    · unfold start
      cases hep : ix.vectors[ep]? with
      | none => exact ⟨List.nodup_nil, nofun⟩
      | some entry =>
          refine ⟨List.nodup_singleton _, fun a ha => ?_⟩
          obtain rfl := List.mem_singleton.mp ha
          rw [look, hep]
          rfl
    · rw [hkeys]
      unfold start
      cases ix.vectors[ep]? with
      | none => exact le_of_eq (Nat.add_comm _ _)
      | some entry => exact le_of_eq (Nat.add_comm _ _)
  obtain ⟨s, hs, hstate⟩ := Option.map_eq_some_iff.mp hloop
  have hresults : s.results.map (toFound A) = (BestFirst.explore (ix.look A query) A.lt ef
      ix.vectors.size ((ix.start A query ep).toState A)).results :=
    congrArg BestFirst.State.results hstate
  rw [searchLayer, hs]
  change some (List.insertionSort _ (s.results.map (toFound A))) = _
  rw [hresults]
  unfold BestFirst.search start
  rw [look]
  cases ix.vectors[ep]? with
  | none => cases ix.vectors.size <;> rfl
  | some entry =>
      simp only [Option.map_some, Search.toState, List.map_cons, List.map_nil, toFound, hA.neg_neg]
      rfl

end VectorIndex

/-! ### The numbers of a machine -/

/-- The rounded operations of a width. -/
def ofArith (A : Arith) : Numbers Binary64 where
  add := A.add
  sub := A.sub
  mul := A.mul
  div := A.div
  sqrt := A.sqrt
  neg := Binary64.neg
  abs := Vectors.abs
  emptySum := A.zero
  zero := .ofInt 0
  one := Vectors.one
  lt := Binary64.lt
  eq := Binary64.eq

theorem mirrored_ofArith (A : Arith) : (ofArith A).Mirrored := ⟨Binary64.neg_neg, Binary64.lt_neg⟩

def ofEntry (entry : Vectors.VectorEntry) : VectorEntry Binary64 := ⟨entry.vector, entry.neighbors⟩

/-- The index of a handle. -/
def ofIndex (ix : Vectors.VectorIndex) : VectorIndex Binary64 where
  vectors := ix.vectors.map fun _ entry => ofEntry entry
  dimension := ix.dimension
  maxConnections := ix.maxConnections
  maxLayers := ix.maxLayers
  entryPoint := ix.entryPoint
  metric := ix.metric
  efConstruction := ix.efConstruction

section

variable (P : Vectors.Platform) (ix : Vectors.VectorIndex)

theorem ofIndex_get (id : NodeId) : (ofIndex ix).vectors[id]? = ix.vectors[id]?.map ofEntry :=
  OrdMap.get_map _ _ _

theorem ofIndex_size : (ofIndex ix).vectors.size = ix.vectors.size := Std.ExtTreeMap.size_map

theorem ofIndex_isEmpty : (ofIndex ix).vectors.isEmpty = ix.vectors.isEmpty := by
  rw [Std.ExtTreeMap.isEmpty_eq_size_beq_zero, Std.ExtTreeMap.isEmpty_eq_size_beq_zero,
    ofIndex_size]

theorem ofIndex_distance (a b : List Binary64) :
    (ofIndex ix).distance (ofArith P.f32) a b = ix.distance P a b := by
  unfold VectorIndex.distance Vectors.VectorIndex.distance ofIndex
  cases ix.metric <;> rfl

theorem ofIndex_searchLayer (query : List Binary64) (ep : NodeId) (ef : ℕ) {fuel : ℕ}
    (hfuel : (ofIndex ix).rounds ≤ fuel) :
    (ofIndex ix).searchLayer (ofArith P.f32) query ef fuel ep =
      some (ix.searchLayer P query ep ef) := by
  have hlook : (ofIndex ix).look (ofArith P.f32) query = ix.look P query := by
    funext id
    unfold VectorIndex.look Vectors.VectorIndex.look
    rw [ofIndex_get, Option.map_map]
    refine congrArg (Option.map · ix.vectors[id]?) (funext fun entry => ?_)
    exact congrArg (·, entry.neighbors.flatten) (ofIndex_distance P ix query entry.vector)
  rw [VectorIndex.searchLayer_eq _ query (mirrored_ofArith P.f32) ef hfuel, hlook, ofIndex_size]
  rfl

/-- A search of the index of a handle. -/
theorem ofIndex_search (query : List Binary64) (k : ℕ) :
    (ofIndex ix).search (ofArith P.f32) query k = ix.search P query k := by
  unfold VectorIndex.search VectorIndex.searchWithin Vectors.VectorIndex.search
  rw [ofIndex_isEmpty]
  change Option.join (if query.length = ix.dimension then _ else _) = _
  split_ifs
  · rfl
  · change Option.join (match ix.entryPoint with | none => _ | some ep => _) = _
    cases ix.entryPoint with
    | none => rfl
    | some ep =>
        dsimp only
        rw [ofIndex_searchLayer P ix _ ep _ le_rfl]
        rfl
  · rfl

theorem ofEntry_push (maxConnections : ℕ) (entry : Vectors.VectorEntry) (id : NodeId) :
    ofEntry (entry.push maxConnections id) = (ofEntry entry).push maxConnections id := by
  unfold Vectors.VectorEntry.push VectorEntry.push
  rw [apply_ite ofEntry]
  rfl

theorem ofEntry_pushes (maxConnections : ℕ) (entry : Vectors.VectorEntry) (ids : List NodeId) :
    ofEntry (ids.foldl (Vectors.VectorEntry.push maxConnections) entry) =
      ids.foldl (VectorEntry.push maxConnections) (ofEntry entry) := by
  induction ids generalizing entry with
  | nil => rfl
  | cons id ids ih => rw [List.foldl_cons, List.foldl_cons, ih, ofEntry_push]

/-- An entry is added before or after the change. -/
theorem map_insert (vectors : OrdMap NodeId Vectors.VectorEntry) (id : NodeId)
    (entry : Vectors.VectorEntry) : ((vectors.insert id entry).map fun _ entry => ofEntry entry) =
      (vectors.map fun _ entry => ofEntry entry).insert id (ofEntry entry) := by
  apply OrdMap.ext
  intro i
  rw [OrdMap.get_map, OrdMap.get_insert, OrdMap.get_insert, OrdMap.get_map]
  split_ifs <;> rfl

theorem map_linksBack (maxConnections : ℕ) (id : NodeId)
    (vectors : OrdMap NodeId Vectors.VectorEntry) (ids : List NodeId) :
    ((ids.foldl (Vectors.linkBack maxConnections id) vectors).map fun _ entry => ofEntry entry) =
      ids.foldl (linkBack maxConnections id) (vectors.map fun _ entry => ofEntry entry) := by
  induction ids generalizing vectors with
  | nil => rfl
  | cons n ids ih =>
      have hlink : ((Vectors.linkBack maxConnections id vectors n).map fun _ entry =>
        ofEntry entry) =
          linkBack maxConnections id (vectors.map fun _ entry => ofEntry entry) n := by
        unfold Vectors.linkBack linkBack
        rw [OrdMap.get_map]
        cases vectors[n]? with
        | none => rfl
        | some entry =>
            dsimp only [Option.map_some]
            rw [map_insert, ofEntry_push]
      rw [List.foldl_cons, List.foldl_cons, ih, hlink]

/-- An insert into the index of a handle. -/
theorem ofIndex_insert (id : NodeId) (v : List Binary64) :
    (ofIndex ix).insert (ofArith P.f32) P.layer id v = (ix.insert P id v).map ofIndex := by
  by_cases hdim : v.length = ix.dimension
  · unfold VectorIndex.insert Vectors.VectorIndex.insert
    rw [if_pos hdim, if_pos (show v.length = (ofIndex ix).dimension from hdim), ofIndex_isEmpty]
    by_cases hempty : ix.vectors.isEmpty = true
    · rw [if_pos hempty, if_pos hempty, Option.map_some]
      refine congrArg some ?_
      unfold ofIndex
      rw [map_insert]
      rfl
    · rw [if_neg hempty, if_neg hempty]
      have hentry : (ofIndex ix).entryPoint = ix.entryPoint := rfl
      rw [hentry]
      cases ix.entryPoint with
      | none => rfl
      | some ep =>
          dsimp only [Option.map_some]
          rw [ofIndex_searchLayer P ix _ ep _ le_rfl]
          refine congrArg some ?_
          unfold ofIndex
          rw [map_insert, map_linksBack, ofEntry_pushes]
          rfl
  · rw [Vectors.VectorIndex.insert_of_ne hdim]
    exact if_neg hdim

end

end AresaDb.Vectors.Generic
