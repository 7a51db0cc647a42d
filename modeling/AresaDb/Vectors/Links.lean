import AresaDb.Vectors.Index

/-! # Links of the vector index

As long as a new vector finds room for a connection to every other one, and every other one for the
way back, all vectors are neighbours (`Complete`) and the graph is linked.  With 16 connections this
is so up to 17 vectors (`SmallComplete.insert`). -/

namespace AresaDb.Vectors

open AresaDb.Store

section

variable {maxConnections : ℕ} {entry : VectorEntry} {first : List NodeId}
  {rest : List (List NodeId)}

theorem VectorEntry.push_neighbors (h : entry.neighbors = first :: rest)
    (hroom : first.length < maxConnections) (id : NodeId) :
    (entry.push maxConnections id).neighbors = (first ++ [id]) :: rest := by
  unfold push
  rw [h, List.headD_cons, if_pos hroom]
  rfl

theorem VectorEntry.pushes_neighbors {ids : List NodeId} (h : entry.neighbors = first :: rest)
    (hroom : first.length + ids.length ≤ maxConnections) :
    (ids.foldl (push maxConnections) entry).neighbors = (first ++ ids) :: rest := by
  induction ids generalizing entry first with
  | nil => rw [List.foldl_nil, h, List.append_nil]
  | cons id ids ih =>
      rw [List.length_cons] at hroom
      have hpush : (entry.push maxConnections id).neighbors = (first ++ [id]) :: rest :=
        push_neighbors h (by omega) id
      refine (ih hpush ?_).trans ?_
      · rw [List.length_append, List.length_singleton]
        omega
      · rw [List.append_assoc]
        rfl

theorem linkBack_get (id : NodeId) (vectors : OrdMap NodeId VectorEntry) (n i : NodeId) :
    (linkBack maxConnections id vectors n)[i]? =
      if n = i then vectors[i]?.map (·.push maxConnections id) else vectors[i]? := by
  unfold linkBack
  cases h : vectors[n]? with
  | none =>
      dsimp only
      split_ifs with hn
      · subst hn
        rw [h]
        rfl
      · rfl
  | some neighbor =>
      dsimp only
      rw [OrdMap.get_insert]
      split_ifs with hn
      · subst hn
        rw [h]
        rfl
      · rfl

theorem linksBack_get (id : NodeId) (vectors : OrdMap NodeId VectorEntry) {ids : List NodeId}
    (hids : ids.Nodup) (i : NodeId) :
    (ids.foldl (linkBack maxConnections id) vectors)[i]? =
      if i ∈ ids then vectors[i]?.map (·.push maxConnections id) else vectors[i]? := by
  induction ids generalizing vectors with
  | nil => rfl
  | cons n ids ih =>
      obtain ⟨hn, hids⟩ := List.nodup_cons.mp hids
      rw [List.foldl_cons, ih _ hids, linkBack_get]
      by_cases hi : n = i
      · subst hi
        rw [if_neg hn, if_pos rfl, if_pos List.mem_cons_self]
      · have hmem : i ∈ n :: ids ↔ i ∈ ids := by
          rw [List.mem_cons]
          exact or_iff_right (Ne.symm hi)
        rw [if_neg hi]
        simp only [hmem]

end

namespace VectorIndex

variable {P : Platform} {ix ix' : VectorIndex}

/-- Every vector has all others as its neighbours at the lowest layer. -/
def Complete (ix : VectorIndex) : Prop :=
  ∀ (a : NodeId) (entry : VectorEntry), ix.vectors[a]? = some entry →
    ∃ first rest, entry.neighbors = first :: rest ∧ first.Nodup ∧
      ∀ b, b ∈ first ↔ b ≠ a ∧ (ix.vectorOf b).isSome

theorem Complete.linked (h : ix.Complete) (hix : ix.Entered) : ix.Linked := by
  intro ep id hep hid
  by_cases hne : id = ep
  · rw [hne]
  · obtain ⟨ep', hep', hthere⟩ := hix
    obtain rfl := Option.some.inj (hep.symm.trans hep')
    rw [vectorOf, Option.isSome_map] at hthere
    obtain ⟨entry, hentry⟩ := Option.isSome_iff_exists.mp hthere
    obtain ⟨first, rest, hneighbors, -, hfirst⟩ := h ep entry hentry
    refine .single ⟨entry, hentry, ?_, hid⟩
    rw [hneighbors, List.flatten_cons]
    exact List.mem_append_left _ ((hfirst id).mpr ⟨hne, hid⟩)

/-- A vector has fewer neighbours than there are vectors. -/
theorem Complete.length_lt (h : ix.Complete) {a : NodeId} {entry : VectorEntry}
    (ha : ix.vectors[a]? = some entry) :
    ∃ first rest, entry.neighbors = first :: rest ∧ first.Nodup ∧
      (∀ b, b ∈ first ↔ b ≠ a ∧ (ix.vectorOf b).isSome) ∧ first.length < ix.vectors.size := by
  obtain ⟨first, rest, hneighbors, hnodup, hfirst⟩ := h a entry ha
  refine ⟨first, rest, hneighbors, hnodup, hfirst, ?_⟩
  have hnodup' : (a :: first).Nodup :=
    List.nodup_cons.mpr ⟨fun ha => ((hfirst a).mp ha).1 rfl, hnodup⟩
  have hsub : (a :: first) ⊆ ix.vectors.keys := by
    refine List.cons_subset.mpr ⟨?_, fun b hb => mem_keys.mpr ((hfirst b).mp hb).2⟩
    exact mem_keys.mpr (by rw [vectorOf, ha]; rfl)
  have hle := (List.subperm_of_subset hnodup' hsub).length_le
  rwa [List.length_cons, Std.ExtTreeMap.length_keys] at hle

/-- A new vector finds all others. -/
theorem Complete.neighbors (h : ix.Complete) (hix : ix.Entered) {ep : NodeId}
    (hep : ix.entryPoint = some ep) (hroom : ix.vectors.size ≤ ix.maxConnections)
    (hwidth : ix.maxConnections ≤ ix.efConstruction) (v : List Binary64) :
    (ix.closest P v ep).Nodup ∧ (ix.closest P v ep).length ≤ ix.maxConnections ∧
      ∀ b, b ∈ ix.closest P v ep ↔ (ix.vectorOf b).isSome := by
  have hlen := (ix.length_searchLayer (P := P) (normalize P v) ep ix.efConstruction).trans hroom
  unfold closest
  rw [List.take_of_length_le hlen]
  refine ⟨BestFirst.search_nodup _ _, by rwa [List.length_map],
    fun b => ⟨fun hb => ?_, fun hb => ?_⟩⟩
  · obtain ⟨e, he, rfl⟩ := List.mem_map.mp hb
    obtain ⟨-, w, hw, -⟩ := mem_searchLayer he
    exact Option.isSome_of_eq_some hw
  · have hreach := h.linked hix ep b hep hb
    obtain ⟨ep', hep', hthere⟩ := hix
    obtain rfl := Option.some.inj (hep.symm.trans hep')
    obtain ⟨d, hd⟩ := searchLayer_complete (P := P) (q := normalize P v) hthere
      (hroom.trans hwidth) hreach
    exact List.mem_map.mpr ⟨(b, d), hd, rfl⟩

/-- An insert that was made has changed one vector. -/
theorem of_insert (hready : ix.vectors.isEmpty = false → ix.Entered) {id : NodeId}
    {v : List Binary64} (h : ix.insert P id v = some ix') :
    ix'.Entered ∧
      ∀ i, ix'.vectorOf i = if id = i then some (normalize P v) else ix.vectorOf i := by
  obtain ⟨ix₁, hinsert, -, hentered, hvectors⟩ :=
    insert_of_eq (P := P) hready (length_of_insert h) id
  obtain rfl := Option.some.inj (hinsert.symm.trans h)
  exact ⟨hentered, hvectors⟩

/-- A new vector is one more. -/
theorem size_insert (hready : ix.vectors.isEmpty = false → ix.Entered) {id : NodeId}
    (hid : ix.vectorOf id = none) {v : List Binary64} (h : ix.insert P id v = some ix') :
    ix'.vectors.size = ix.vectors.size + 1 := by
  obtain ⟨-, hvectors⟩ := of_insert hready h
  have hnotin : id ∉ ix.vectors.keys := by
    intro hin
    rw [mem_keys, hid] at hin
    cases hin
  have hperm : ix'.vectors.keys.Perm (id :: ix.vectors.keys) := by
    refine (List.perm_ext_iff_of_nodup Std.ExtTreeMap.nodup_keys
      (List.nodup_cons.mpr ⟨hnotin, Std.ExtTreeMap.nodup_keys⟩)).mpr fun b => ?_
    rw [List.mem_cons, mem_keys, mem_keys, hvectors]
    by_cases hb : id = b
    · simp [hb]
    · simp [hb, Ne.symm hb]
  have hlen := hperm.length_eq
  rwa [List.length_cons, Std.ExtTreeMap.length_keys, Std.ExtTreeMap.length_keys] at hlen

/-- A new vector leaves the ids of the others. -/
theorem others_insert (hready : ix.vectors.isEmpty = false → ix.Entered) {id : NodeId}
    (hid : ix.vectorOf id = none) {v : List Binary64} (hinsert : ix.insert P id v = some ix')
    (b : NodeId) : b ≠ id ∧ (ix'.vectorOf b).isSome ↔ (ix.vectorOf b).isSome := by
  rw [(of_insert hready hinsert).2]
  by_cases hb : id = b
  · subst hb
    simp [hid]
  · simp [hb, Ne.symm hb]

theorem insert_first_complete (hempty : ix.vectors.isEmpty = true) {id : NodeId} {v : List Binary64}
    (hinsert : ix.insert P id v = some ix') : ix'.Complete := by
  have hnone := vectorOf_eq_none_of_isEmpty hempty
  have hnew := others_insert (fun hfull => by simp [hempty] at hfull) (hnone id) hinsert
  rw [insert_first hempty (length_of_insert hinsert)] at hinsert
  obtain rfl := Option.some.inj hinsert
  intro a entry ha
  dsimp only at ha
  rw [OrdMap.get_insert] at ha
  split_ifs at ha with hida
  · obtain rfl := hida
    obtain rfl := Option.some.inj ha
    refine ⟨[], _, List.replicate_succ, List.nodup_nil, fun b => ?_⟩
    rw [hnew, hnone]
    simp
  · have hgone := hnone a
    rw [vectorOf, ha] at hgone
    cases hgone

theorem insert_next_complete (hempty : ix.vectors.isEmpty = false) (hentered : ix.Entered)
    (h : ix.Complete) (hroom : ix.vectors.size ≤ ix.maxConnections)
    (hwidth : ix.maxConnections ≤ ix.efConstruction) {id : NodeId} (hid : ix.vectorOf id = none)
    {v : List Binary64} (hinsert : ix.insert P id v = some ix') : ix'.Complete := by
  obtain ⟨-, hvectors⟩ := of_insert (fun _ => hentered) hinsert
  have hnew := others_insert (fun _ => hentered) hid hinsert
  have hthere := hentered
  obtain ⟨ep, hep, -⟩ := hthere
  rw [insert_next hempty hep (length_of_insert hinsert)] at hinsert
  obtain rfl := Option.some.inj hinsert
  obtain ⟨hnodup, hlen, hmem⟩ := h.neighbors hentered hep hroom hwidth v
  intro a entry ha
  dsimp only at ha
  rw [OrdMap.get_insert] at ha
  by_cases hida : id = a
  · subst hida
    rw [if_pos rfl] at ha
    obtain rfl := Option.some.inj ha
    have hfirst : (ix.newEntry P id v).neighbors =
        [] :: List.replicate (ix.randomLayer P id) [] := List.replicate_succ
    refine ⟨ix.closest P v ep, List.replicate (ix.randomLayer P id) [], ?_, hnodup,
      fun b => (hmem b).trans (hnew b).symm⟩
    exact VectorEntry.pushes_neighbors hfirst (by simpa using hlen)
  · rw [if_neg hida, linksBack_get id ix.vectors hnodup] at ha
    obtain ⟨e, he⟩ : ∃ e, ix.vectors[a]? = some e := by
      split_ifs at ha
      · obtain ⟨e, he, -⟩ := Option.map_eq_some_iff.mp ha
        exact ⟨e, he⟩
      · exact ⟨entry, ha⟩
    rw [if_pos ((hmem a).mpr (by rw [vectorOf, he]; rfl)), he] at ha
    obtain rfl := Option.some.inj ha
    obtain ⟨first, rest, hneighbors, hfirstnodup, hfirst, hlt⟩ := h.length_lt he
    have hnotin : id ∉ first := by
      intro hin
      have hsome := ((hfirst id).mp hin).2
      rw [hid] at hsome
      cases hsome
    refine ⟨first ++ [id], rest,
      VectorEntry.push_neighbors hneighbors (hlt.trans_le hroom) id, ?_, fun b => ?_⟩
    · exact hfirstnodup.append (List.nodup_singleton id) (by simpa using hnotin)
    · rw [List.mem_append, List.mem_singleton, hfirst, hvectors]
      by_cases hb : id = b
      · subst hb
        simp [hida]
      · simp [hb, Ne.symm hb]

/-- A new vector is joined to all others while there is room. -/
theorem insert_complete (hready : ix.vectors.isEmpty = false → ix.Entered) (h : ix.Complete)
    (hroom : ix.vectors.size ≤ ix.maxConnections) (hwidth : ix.maxConnections ≤ ix.efConstruction)
    {id : NodeId} (hid : ix.vectorOf id = none) {v : List Binary64}
    (hinsert : ix.insert P id v = some ix') : ix'.Complete := by
  cases hempty : ix.vectors.isEmpty with
  | true => exact insert_first_complete hempty hinsert
  | false => exact insert_next_complete hempty (hready hempty) h hroom hwidth hid hinsert

/-- While there is room for all connections, all vectors are neighbours. -/
def SmallComplete (ix : VectorIndex) : Prop :=
  ix.vectors.size ≤ ix.maxConnections + 1 → ix.Complete

theorem SmallComplete.insert (hready : ix.vectors.isEmpty = false → ix.Entered)
    (h : ix.SmallComplete) (hwidth : ix.maxConnections ≤ ix.efConstruction) {id : NodeId}
    (hid : ix.vectorOf id = none) {v : List Binary64} (hinsert : ix.insert P id v = some ix') :
    ix'.SmallComplete := by
  intro hsmall
  obtain ⟨ix₁, hinsert₁, halike, -, -⟩ :=
    insert_of_eq (P := P) hready (length_of_insert hinsert) id
  obtain rfl := Option.some.inj (hinsert₁.symm.trans hinsert)
  rw [size_insert hready hid hinsert, halike.maxConnections] at hsmall
  have hroom : ix.vectors.size ≤ ix.maxConnections := by omega
  exact insert_complete hready (h (by omega)) hroom hwidth hid hinsert

end VectorIndex

end AresaDb.Vectors
