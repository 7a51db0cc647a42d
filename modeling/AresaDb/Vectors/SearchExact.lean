import AresaDb.Vectors.Generic

/-! # What a search of the index finds

Distances in a linear order, with a negation that is its own inverse and reverses it.  In any index
a search ends, and its results are stored vectors, each once, in ascending order of their distances;
when the search is as wide as the index, they are the nearest ones of those that the links lead to
from the entry point (`search_exact`). -/

namespace AresaDb.Vectors.Generic

open AresaDb.Store

/-! ### Ordered numbers -/

/-- The comparison is a linear order, and negation is its own inverse and reverses it. -/
structure Numbers.Ordered {α : Type} [LinearOrder α] (A : Numbers α) : Prop where
  lt_iff : ∀ x y, A.lt x y = true ↔ x < y
  neg_neg : ∀ x, A.neg (A.neg x) = x
  neg_lt : ∀ x y, A.neg x < A.neg y ↔ y < x

theorem Numbers.Ordered.mirrored {α : Type} [LinearOrder α] {A : Numbers α} (hA : A.Ordered) :
    A.Mirrored where
  neg_neg := hA.neg_neg
  lt_neg x y := by rw [Bool.eq_iff_iff, hA.lt_iff, hA.lt_iff, hA.neg_lt]

namespace VectorIndex

/-! ### What is reached -/

section

variable {α : Type} (ix : VectorIndex α)

/-- The normalized vector of an id. -/
def vectorOf (id : NodeId) : Option (List α) := ix.vectors[id]?.map VectorEntry.vector

/-- An id has another one among its neighbours, which is stored. -/
def Leads (a b : NodeId) : Prop :=
  ∃ entry, ix.vectors[a]? = some entry ∧ b ∈ entry.neighbors.flatten ∧ (ix.vectorOf b).isSome

/-- A stored id that the neighbours lead to from the entry point. -/
def Reached (id : NodeId) : Prop :=
  (ix.vectorOf id).isSome ∧ ∃ ep, ix.entryPoint = some ep ∧ Relation.ReflTransGen ix.Leads ep id

variable {ix} {A : Numbers α} {query : List α}

theorem look_eq_some {id : NodeId} {d : α} {next : List NodeId}
    (h : ix.look A query id = some (d, next)) :
    ∃ w, ix.vectorOf id = some w ∧ d = ix.distance A query w := by
  obtain ⟨entry, hentry, heq⟩ := Option.map_eq_some_iff.mp h
  obtain ⟨rfl, -⟩ := Prod.mk.inj heq
  exact ⟨entry.vector, by rw [vectorOf, hentry]; rfl, rfl⟩

theorem isSome_look (id : NodeId) : (ix.look A query id).isSome = (ix.vectorOf id).isSome := by
  unfold look vectorOf
  rw [Option.isSome_map, Option.isSome_map]

theorem edge_eq_leads : BestFirst.Edge (ix.look A query) = ix.Leads := by
  funext a b
  refine propext ⟨?_, ?_⟩
  · rintro ⟨d, next, ha, hb, hsome⟩
    obtain ⟨entry, hentry, heq⟩ := Option.map_eq_some_iff.mp ha
    obtain ⟨-, rfl⟩ := Prod.mk.inj heq
    exact ⟨entry, hentry, hb, (isSome_look b).symm.trans hsome⟩
  · rintro ⟨entry, hentry, hb, hsome⟩
    refine ⟨ix.distance A query entry.vector, entry.neighbors.flatten, ?_, hb, ?_⟩
    · rw [look, hentry]
      rfl
    · rw [isSome_look]
      exact hsome

end

/-! ### What is found -/

section

variable {α : Type} [LinearOrder α] {A : Numbers α} (hA : A.Ordered) (ix : VectorIndex α)

include hA

/-- The results of a search of the layer: stored ids that are reached, with their distances, in
ascending order, and all of them when the search is as wide as the index. -/
theorem searchLayer_exact (query : List α) (ef : ℕ) {ep : NodeId} (hep : ix.entryPoint = some ep) :
    ∃ results, (∀ fuel, ix.rounds ≤ fuel →
        ix.searchLayer A query ef fuel ep = some results) ∧
      (results.map Prod.fst).Nodup ∧ (results.Pairwise fun e e' => e.2 ≤ e'.2) ∧
      (∀ e ∈ results, ix.Reached e.1 ∧
        ∃ w, ix.vectorOf e.1 = some w ∧ e.2 = ix.distance A query w) ∧
      (ix.vectors.size ≤ ef → ∀ id, ix.Reached id → ∃ d, (id, d) ∈ results) := by
  have hlen : ix.vectors.keys.length = ix.vectors.size := Std.ExtTreeMap.length_keys
  refine ⟨_, fun fuel hfuel => ix.searchLayer_eq query hA.mirrored ef hfuel ep,
    BestFirst.search_nodup _ _, BestFirst.search_sorted hA.lt_iff _ _, fun e he => ?_,
    fun hwidth id hid => ?_⟩
  · obtain ⟨hreach, next, hlook⟩ := BestFirst.search_sound he
    rw [BestFirst.Reaches, edge_eq_leads] at hreach
    obtain ⟨w, hw, hd⟩ := look_eq_some hlook
    exact ⟨⟨Option.isSome_of_eq_some hw, ep, hep, hreach⟩, w, hw, hd⟩
  · obtain ⟨hstored, ep', hep', hreach⟩ := hid
    obtain rfl := Option.some.inj (hep.symm.trans hep')
    refine BestFirst.search_complete (ix.look_isSome query) (hlen.le.trans hwidth) hlen.le ?_ ?_
    · rw [isSome_look]
      obtain rfl | ⟨b, hb, -⟩ := Relation.ReflTransGen.cases_head hreach
      · exact hstored
      · obtain ⟨entry, hentry, -⟩ := hb
        rw [vectorOf, hentry]
        rfl
    · rw [BestFirst.Reaches, edge_eq_leads]
      exact hreach

/-- A search of any index ends.  It returns no more than `k` stored ids, each once, with their
distances in ascending order; when it is as wide as the index, they are `k` nearest ones of those
that are reached, or all if there are fewer. -/
theorem search_exact {query : List α} (hdim : query.length = ix.dimension) (k : ℕ) :
    ∃ l, (∀ fuel, ix.rounds ≤ fuel → ix.searchWithin A fuel query k = some (some l)) ∧
      l.length ≤ k ∧ (l.map Prod.fst).Nodup ∧ (l.Pairwise fun e e' => e.2 ≤ e'.2) ∧
      (∀ e ∈ l, ix.Reached e.1 ∧
        ∃ w, ix.vectorOf e.1 = some w ∧ e.2 = ix.distance A (normalize A query) w) ∧
      (ix.vectors.size ≤ max k ix.efConstruction → ∀ id w, ix.Reached id →
        ix.vectorOf id = some w → (∃ e ∈ l, e.1 = id) ∨
          l.length = k ∧ ∀ e ∈ l, e.2 ≤ ix.distance A (normalize A query) w) := by
  by_cases hempty : ix.vectors.isEmpty = true
  · refine ⟨[], fun fuel _ => ?_, Nat.zero_le k, List.nodup_nil, .nil, nofun, fun _ id w _ hw => ?_⟩
    · rw [searchWithin, if_pos hdim, if_pos hempty]
    · rw [vectorOf, Std.ExtTreeMap.isEmpty_iff.mp hempty] at hw
      cases hw
  cases hep : ix.entryPoint with
  | none =>
      refine ⟨[], fun fuel _ => ?_, Nat.zero_le k, List.nodup_nil, .nil, nofun, ?_⟩
      · rw [searchWithin, if_pos hdim, if_neg hempty, hep]
      · rintro - id w ⟨-, ep, hep', -⟩
        rw [hep] at hep'
        cases hep'
  | some ep =>
      obtain ⟨results, hsearch, hnodup, hsorted, hsound, hcomplete⟩ :=
        searchLayer_exact hA ix (normalize A query) (max k ix.efConstruction) hep
      refine ⟨results.take k, fun fuel hfuel => ?_, List.length_take_le _ _,
        hnodup.sublist ((List.take_sublist _ _).map Prod.fst), hsorted.take,
        fun e he => hsound e (List.mem_of_mem_take he), fun hwidth id w hid hw => ?_⟩
      · rw [searchWithin, if_pos hdim, if_neg hempty, hep]
        dsimp only
        rw [hsearch fuel hfuel]
        rfl
      · obtain ⟨d, hd⟩ := hcomplete hwidth id hid
        obtain ⟨⟨-, rest, hperm, hfull, hle⟩, -⟩ := BestFirst.nearest_take hsorted k
        obtain hmem | hmem := List.mem_append.mp (hperm.mem_iff.mpr hd)
        · exact .inl ⟨_, hmem, rfl⟩
        · have hlength := hfull.resolve_left (List.ne_nil_of_mem hmem)
          refine .inr ⟨hlength, fun e he => ?_⟩
          obtain ⟨-, w', hw', rfl⟩ := hsound _ hd
          obtain rfl := Option.some.inj (hw.symm.trans hw')
          exact hle e he _ hmem

end

end VectorIndex

/-! ### On integers -/

/-- The operations on integers, with rounding. -/
def integers : Numbers ℤ where
  add := (· + ·)
  sub := (· - ·)
  mul := (· * ·)
  div := (· / ·)
  sqrt x := Nat.sqrt x.toNat
  neg := (- ·)
  abs x := |x|
  emptySum := 0
  zero := 0
  one := 1
  lt x y := decide (x < y)
  eq x y := decide (x = y)

theorem ordered_integers : integers.Ordered where
  lt_iff _ _ := decide_eq_true_iff
  neg_neg := Int.neg_neg
  neg_lt _ _ := Int.neg_lt_neg_iff

/-- Two vectors that are neighbours. -/
def sampleIndex : VectorIndex ℤ :=
  (((VectorIndex.withParams 2 16 4 .cosine).insert integers (fun _ => 0) ⟨1⟩ [2, 0]).bind fun ix =>
    ix.insert integers (fun _ => 0) ⟨2⟩ [0, 3]).getD (.withParams 2 16 4 .cosine)

theorem search_exact_sample :
    ∃ l, (∀ fuel, 3 ≤ fuel → sampleIndex.searchWithin integers fuel [0, 5] 1 = some (some l)) ∧
      l = [(⟨2⟩, 0)] := by
  obtain ⟨l, hl, -⟩ := VectorIndex.search_exact ordered_integers sampleIndex
    (show [0, 5].length = sampleIndex.dimension by decide +kernel) 1
  have hrounds : sampleIndex.rounds = 3 := by decide +kernel
  rw [hrounds] at hl
  refine ⟨l, hl, ?_⟩
  have hfound : sampleIndex.searchWithin integers 3 [0, 5] 1 = some (some [(⟨2⟩, 0)]) := by
    decide +kernel
  exact (Option.some.inj (Option.some.inj ((hl 3 le_rfl).symm.trans hfound)))

end AresaDb.Vectors.Generic
