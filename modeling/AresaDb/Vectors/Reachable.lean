import AresaDb.Lib.Run
import AresaDb.Vectors.Freshness

/-! # What the vector index can reach

A vector is found when the links lead to it from the entry point.  An insert replaces the links of
its id, and asks the neighbours it has found to link back, which those do that have room; when the
hash of the id gives it a higher layer it becomes the entry point.  A removal takes its links away
and, when it was the entry point, makes any other one the entry point.

What is reached afterwards is said on the links before, around the id (`insert_linked_iff`,
`remove_linked_iff`).  So a run finds all its vectors at every moment if and only if each step meets
its condition (`run_findable_iff`). -/

namespace AresaDb.Vectors

open AresaDb.Store

/-! ### Paths around a vertex -/

section

variable {α : Type} {R : α → α → Prop} {v : α}

/-- A path that leaves the vertex nowhere. -/
def Around (R : α → α → Prop) (v : α) : α → α → Prop :=
  Relation.ReflTransGen fun a b => a ≠ v ∧ R a b

theorem Around.reaches {a b : α} (h : Around R v a b) : Relation.ReflTransGen R a b :=
  Relation.ReflTransGen.mono (fun _ _ h => h.2) a b h

/-- A path goes around a vertex, or leaves it a last time. -/
theorem reaches_iff_around {a b : α} : Relation.ReflTransGen R a b ↔
    Around R v a b ∨ Around R v a v ∧ ∃ c, R v c ∧ Around R v c b := by
  constructor
  · intro h
    induction h with
    | refl => exact .inl .refl
    | @tail b c _ hbc ih =>
        by_cases hb : b = v
        · subst hb
          have hav : Around R b a b := by
            obtain hav | ⟨hav, -⟩ := ih
            · exact hav
            · exact hav
          exact .inr ⟨hav, c, hbc, .refl⟩
        · obtain hab | ⟨hav, d, hd, hdb⟩ := ih
          · exact .inl (hab.tail ⟨hb, hbc⟩)
          · exact .inr ⟨hav, d, hd, hdb.tail ⟨hb, hbc⟩⟩
  · rintro (hab | ⟨hav, c, hc, hcb⟩)
    · exact hab.reaches
    · exact (hav.reaches.tail hc).trans hcb.reaches

/-- A path that comes by the vertex neither on its way nor at its end. -/
def Bypass (R : α → α → Prop) (v : α) : α → α → Prop :=
  Relation.ReflTransGen fun a b => a ≠ v ∧ b ≠ v ∧ R a b

theorem around_iff_bypass {a b : α} (hb : b ≠ v) : Around R v a b ↔ a ≠ v ∧ Bypass R v a b := by
  constructor
  · intro h
    induction h using Relation.ReflTransGen.head_induction_on with
    | refl => exact ⟨hb, .refl⟩
    | head hac _ ih => exact ⟨hac.1, .head ⟨hac.1, ih.1, hac.2⟩ ih.2⟩
  · rintro ⟨-, h⟩
    exact Relation.ReflTransGen.mono (fun _ _ h => ⟨h.1, h.2.2⟩) a b h

theorem around_self_iff {a : α} (ha : a ≠ v) :
    Around R v a v ↔ ∃ c, c ≠ v ∧ Bypass R v a c ∧ R c v := by
  constructor
  · intro h
    obtain heq | ⟨c, hac, hc, hcv⟩ := Relation.ReflTransGen.cases_tail h
    · exact absurd heq.symm ha
    · exact ⟨c, hc, ((around_iff_bypass hc).mp hac).2, hcv⟩
  · rintro ⟨c, hc, hac, hcv⟩
    exact ((around_iff_bypass hc).mpr ⟨ha, hac⟩).tail ⟨hc, hcv⟩

end

/-! ### Removal -/

/-- The order in which a hash map gives its keys out. -/
structure KeyOrder where
  order : List NodeId → List NodeId
  perm : ∀ l, (order l).Perm l

/-- A neighbour forgets an id at every layer. -/
def VectorEntry.drop (entry : VectorEntry) (id : NodeId) : VectorEntry :=
  { entry with neighbors := entry.neighbors.map fun layer => layer.filter fun n => n ≠ id }

/-- The links of a neighbour to a removed id are taken away. -/
def unlink (id : NodeId) (vectors : OrdMap NodeId VectorEntry) (neighborId : NodeId) :
    OrdMap NodeId VectorEntry :=
  match vectors[neighborId]? with
  | some neighbor => vectors.insert neighborId (neighbor.drop id)
  | none => vectors

/-- Whether there was something to remove comes first. -/
def VectorIndex.remove (O : KeyOrder) (ix : VectorIndex) (id : NodeId) : Bool × VectorIndex :=
  match ix.vectors[id]? with
  | some removed =>
      let vectors := removed.neighbors.flatten.foldl (unlink id) (ix.vectors.erase id)
      (true,
        { ix with
          vectors := vectors
          entryPoint :=
            if ix.entryPoint = some id then (O.order vectors.keys).head? else ix.entryPoint })
  | none => (false, ix)

/-- An entry has an id among its neighbours. -/
def Lists (vectors : OrdMap NodeId VectorEntry) (a b : NodeId) : Prop :=
  ∃ entry, vectors[a]? = some entry ∧ b ∈ entry.neighbors.flatten

theorem VectorIndex.leads_iff {ix : VectorIndex} {a b : NodeId} :
    ix.Leads a b ↔ Lists ix.vectors a b ∧ (ix.vectorOf b).isSome := by
  constructor
  · rintro ⟨entry, ha, hb, hsome⟩
    exact ⟨⟨entry, ha, hb⟩, hsome⟩
  · rintro ⟨⟨entry, ha, hb⟩, hsome⟩
    exact ⟨entry, ha, hb, hsome⟩

section

variable {vectors : OrdMap NodeId VectorEntry} {id : NodeId}

/-- An entry is exchanged for another one. -/
theorem lists_insert {n a b : NodeId} {entry : VectorEntry} :
    Lists (vectors.insert n entry) a b ↔
      if n = a then b ∈ entry.neighbors.flatten else Lists vectors a b := by
  unfold Lists
  rw [OrdMap.get_insert]
  split_ifs with h
  · simp
  · rfl

theorem VectorEntry.mem_drop {entry : VectorEntry} {b : NodeId} :
    b ∈ (entry.drop id).neighbors.flatten ↔ b ∈ entry.neighbors.flatten ∧ b ≠ id := by
  simp only [drop, List.mem_flatten, List.mem_map]
  constructor
  · rintro ⟨_, ⟨layer, hlayer, rfl⟩, hb⟩
    obtain ⟨hb, hne⟩ := List.mem_filter.mp hb
    exact ⟨⟨layer, hlayer, hb⟩, of_decide_eq_true hne⟩
  · rintro ⟨⟨layer, hlayer, hb⟩, hne⟩
    exact ⟨_, ⟨layer, hlayer, rfl⟩, List.mem_filter.mpr ⟨hb, decide_eq_true hne⟩⟩

theorem unlink_vector (n i : NodeId) :
    (unlink id vectors n)[i]?.map VectorEntry.vector = vectors[i]?.map VectorEntry.vector := by
  unfold unlink
  cases h : vectors[n]? with
  | none => rfl
  | some neighbor =>
      dsimp only
      rw [OrdMap.get_insert]
      split_ifs with hi
      · subst hi
        rw [h]
        rfl
      · rfl

theorem unlinks_vector (ns : List NodeId) (i : NodeId) :
    (ns.foldl (unlink id) vectors)[i]?.map VectorEntry.vector =
      vectors[i]?.map VectorEntry.vector := by
  induction ns generalizing vectors with
  | nil => rfl
  | cons n ns ih => exact ih.trans (unlink_vector n i)

/-- Only links to the id are taken away. -/
theorem unlink_lists (n : NodeId) {a b : NodeId} (hb : b ≠ id) :
    Lists (unlink id vectors n) a b ↔ Lists vectors a b := by
  unfold unlink
  cases h : vectors[n]? with
  | none => rfl
  | some neighbor =>
      dsimp only
      rw [lists_insert]
      split_ifs with ha
      · subst ha
        rw [VectorEntry.mem_drop, and_iff_left hb]
        unfold Lists
        rw [h]
        simp
      · rfl

theorem unlinks_lists (ns : List NodeId) {a b : NodeId} (hb : b ≠ id) :
    Lists (ns.foldl (unlink id) vectors) a b ↔ Lists vectors a b := by
  induction ns generalizing vectors with
  | nil => rfl
  | cons n ns ih => exact ih.trans (unlink_lists n hb)

end

namespace VectorIndex

variable {P : Platform} {O : KeyOrder} {ix ix' : VectorIndex} {id : NodeId}

theorem remove_of_none (h : ix.vectorOf id = none) : ix.remove O id = (false, ix) := by
  have hnone : ix.vectors[id]? = none := Option.map_eq_none_iff.mp h
  unfold remove
  rw [hnone]

/-- The entry point after a removal. -/
def entryLeft (O : KeyOrder) (ix : VectorIndex) (id : NodeId) : Option NodeId :=
  if ix.entryPoint = some id then (O.order (ix.vectors.erase id).keys).head? else ix.entryPoint

/-- What a removal leaves. -/
theorem remove_of_some (h : (ix.vectorOf id).isSome) :
    ∃ ix', ix.remove O id = (true, ix') ∧
      (∀ i, ix'.vectorOf i = if id = i then none else ix.vectorOf i) ∧
      (∀ a b, b ≠ id → (Lists ix'.vectors a b ↔ a ≠ id ∧ Lists ix.vectors a b)) ∧
      ix'.entryPoint = ix.entryLeft O id ∧ ix'.dimension = ix.dimension := by
  rw [vectorOf, Option.isSome_map] at h
  obtain ⟨removed, hremoved⟩ := Option.isSome_iff_exists.mp h
  have hremove : ∃ ix', ix.remove O id = (true, ix') ∧
      ix'.vectors = removed.neighbors.flatten.foldl (unlink id) (ix.vectors.erase id) ∧
      ix'.entryPoint =
        (if ix.entryPoint = some id then (O.order ix'.vectors.keys).head? else ix.entryPoint) ∧
      ix'.dimension = ix.dimension := by
    unfold remove
    rw [hremoved]
    exact ⟨_, rfl, rfl, rfl, rfl⟩
  obtain ⟨ix', hremove, hvectors, hentry, hdim⟩ := hremove
  have hkeys : ix'.vectors.keys = (ix.vectors.erase id).keys := by
    refine OrdMap.keys_congr VectorEntry.vector fun i => ?_
    rw [hvectors, unlinks_vector]
  refine ⟨ix', hremove, fun i => ?_, fun a b hb => ?_, by rw [hentry, hkeys, entryLeft], hdim⟩
  · rw [vectorOf, hvectors, unlinks_vector, OrdMap.get_erase]
    split_ifs <;> rfl
  · rw [hvectors, unlinks_lists _ hb]
    unfold Lists
    rw [OrdMap.get_erase]
    split_ifs with ha
    · exact iff_of_false (by simp) fun hne => hne.1 ha.symm
    · exact (and_iff_right (Ne.symm ha)).symm

/-- The links that are left are those that touch the id nowhere. -/
theorem leads_remove (hvectors : ∀ i, ix'.vectorOf i = if id = i then none else ix.vectorOf i)
    (hlists : ∀ a b, b ≠ id → (Lists ix'.vectors a b ↔ a ≠ id ∧ Lists ix.vectors a b)) :
    ix'.Leads = fun a b => a ≠ id ∧ b ≠ id ∧ ix.Leads a b := by
  funext a b
  refine propext ?_
  rw [leads_iff, leads_iff, hvectors]
  by_cases hb : b = id
  · subst hb
    simp
  · rw [hlists a b hb, if_neg (Ne.symm hb)]
    tauto

/-- What a removal needs to leave the index linked: what is left is reached around the id, from the
entry point afterwards. -/
def RemoveKeeps (O : KeyOrder) (ix : VectorIndex) (id : NodeId) : Prop :=
  ∀ ep b, ix.entryLeft O id = some ep → b ≠ id → (ix.vectorOf b).isSome → Bypass ix.Leads id ep b

theorem remove_linked_iff (h : (ix.vectorOf id).isSome) :
    (ix.remove O id).2.Linked ↔ ix.RemoveKeeps O id := by
  obtain ⟨ix', hremove, hvectors, hlists, hentry, -⟩ := remove_of_some (O := O) h
  rw [hremove]
  unfold Linked RemoveKeeps Bypass
  rw [leads_remove hvectors hlists, hentry]
  refine forall_congr' fun ep => forall_congr' fun b => forall_congr' fun _ => ?_
  rw [hvectors]
  by_cases hb : b = id
  · simp [hb]
  · rw [if_neg (Ne.symm hb)]
    exact ⟨fun hreach _ => hreach, fun hreach => hreach hb⟩

/-- An index that is not empty after a removal has an entry point. -/
theorem remove_entered (hentered : ix.vectors.isEmpty = false → ix.Entered)
    (h : (ix.vectorOf id).isSome) (hleft : (ix.remove O id).2.vectors.isEmpty = false) :
    (ix.remove O id).2.Entered := by
  obtain ⟨ix', hremove, hvectors, -, hentry, -⟩ := remove_of_some (O := O) h
  have hempty : ix.vectors.isEmpty = false := by
    rw [Bool.eq_false_iff]
    intro hempty
    rw [vectorOf_eq_none_of_isEmpty hempty] at h
    cases h
  obtain ⟨ep, hep, hthere⟩ := hentered hempty
  rw [hremove] at hleft ⊢
  by_cases hid : ep = id
  · subst hid
    rw [entryLeft, if_pos hep] at hentry
    have hkeys : ix'.vectors.keys = (ix.vectors.erase ep).keys := by
      refine OrdMap.keys_congr VectorEntry.vector fun i => (hvectors i).trans ?_
      rw [vectorOf, OrdMap.get_erase]
      split_ifs <;> rfl
    cases hkeys' : O.order (ix.vectors.erase ep).keys with
    | nil =>
        have hnil := (O.perm (ix.vectors.erase ep).keys).length_eq
        rw [hkeys', ← hkeys, Std.ExtTreeMap.length_keys, List.length_nil] at hnil
        rw [Std.ExtTreeMap.isEmpty_eq_size_beq_zero, ← hnil] at hleft
        cases hleft
    | cons ep' rest =>
        refine ⟨ep', by rw [hentry, hkeys']; rfl, ?_⟩
        rw [← mem_keys, hkeys, ← (O.perm (ix.vectors.erase ep).keys).mem_iff, hkeys']
        exact List.mem_cons_self
  · refine ⟨ep, ?_, ?_⟩
    · rw [hentry, entryLeft, if_neg fun heq => hid (Option.some.inj (hep.symm.trans heq)), hep]
    · rw [hvectors, if_neg (Ne.symm hid)]
      exact hthere

/-! ### Insertion -/

/-- The entry has room for one more neighbour at the lowest layer. -/
def HasRoom (ix : VectorIndex) (a : NodeId) : Prop :=
  ∃ entry first rest, ix.vectors[a]? = some entry ∧ entry.neighbors = first :: rest ∧
    first.length < ix.maxConnections

theorem mem_push {maxConnections : ℕ} {entry : VectorEntry} {b : NodeId} :
    b ∈ (entry.push maxConnections id).neighbors.flatten ↔ b ∈ entry.neighbors.flatten ∨
      b = id ∧ ∃ first rest, entry.neighbors = first :: rest ∧ first.length < maxConnections := by
  unfold VectorEntry.push
  cases hneighbors : entry.neighbors with
  | nil =>
      split_ifs <;> simp [hneighbors]
  | cons first rest =>
      rw [List.headD_cons]
      split_ifs with hroom
      · simp only [List.modifyHead_cons, List.flatten_cons, List.mem_append, List.mem_singleton]
        constructor
        · rintro ((hb | rfl) | hb)
          · exact .inl (.inl hb)
          · exact .inr ⟨rfl, first, rest, rfl, hroom⟩
          · exact .inl (.inr hb)
        · rintro ((hb | hb) | ⟨rfl, -⟩)
          · exact .inl (.inl hb)
          · exact .inr hb
          · exact .inl (.inr rfl)
      · rw [hneighbors]
        refine (or_iff_left ?_).symm
        rintro ⟨-, first', rest', heq, hlt⟩
        obtain ⟨rfl, rfl⟩ := List.cons.inj heq
        exact hroom hlt

theorem nodup_closest (P : Platform) (ix : VectorIndex) (v : List Binary64) (ep : NodeId) :
    (ix.closest P v ep).Nodup :=
  (BestFirst.search_nodup _ _).sublist ((List.take_sublist _ _).map Prod.fst)

theorem length_closest_le (P : Platform) (ix : VectorIndex) (v : List Binary64) (ep : NodeId) :
    (ix.closest P v ep).length ≤ ix.maxConnections := by
  unfold closest
  rw [List.length_map]
  exact List.length_take_le _ _

theorem isSome_of_mem_closest {v : List Binary64} {ep n : NodeId} (h : n ∈ ix.closest P v ep) :
    (ix.vectorOf n).isSome := by
  obtain ⟨e, he, rfl⟩ := List.mem_map.mp h
  obtain ⟨-, w, hw, -⟩ := mem_searchLayer (List.mem_of_mem_take he)
  exact Option.isSome_of_eq_some hw

/-- The links after an insert: those of the id are what was found, and of that what has room links
back. -/
theorem lists_insert_next (hempty : ix.vectors.isEmpty = false) {ep : NodeId}
    (hep : ix.entryPoint = some ep) {v : List Binary64} (h : ix.insert P id v = some ix')
    (a b : NodeId) :
    Lists ix'.vectors a b ↔ if a = id then b ∈ ix.closest P v ep
      else Lists ix.vectors a b ∨ b = id ∧ a ∈ ix.closest P v ep ∧ ix.HasRoom a := by
  rw [insert_next hempty hep (length_of_insert h)] at h
  obtain rfl := Option.some.inj h
  dsimp only
  rw [lists_insert]
  by_cases ha : id = a
  · rw [if_pos ha, if_pos ha.symm]
    have hfirst : (ix.newEntry P id v).neighbors =
        [] :: List.replicate (ix.randomLayer P id) [] := List.replicate_succ
    have hroom : ([] : List NodeId).length + (ix.closest P v ep).length ≤ ix.maxConnections := by
      simpa using length_closest_le P ix v ep
    rw [VectorEntry.pushes_neighbors hfirst hroom]
    simp
  · rw [if_neg ha, if_neg (Ne.symm ha)]
    unfold Lists
    rw [linksBack_get id ix.vectors (nodup_closest P ix v ep)]
    split_ifs with hmem
    · simp only [Option.map_eq_some_iff]
      constructor
      · rintro ⟨_, ⟨entry, hentry, rfl⟩, hb⟩
        obtain hb | ⟨rfl, first, rest, hneighbors, hroom⟩ := mem_push.mp hb
        · exact .inl ⟨entry, hentry, hb⟩
        · exact .inr ⟨rfl, hmem, entry, first, rest, hentry, hneighbors, hroom⟩
      · rintro (⟨entry, hentry, hb⟩ | ⟨rfl, -, entry, first, rest, hentry, hneighbors, hroom⟩)
        · exact ⟨_, ⟨entry, hentry, rfl⟩, mem_push.mpr (.inl hb)⟩
        · exact ⟨_, ⟨entry, hentry, rfl⟩, mem_push.mpr (.inr ⟨rfl, first, rest, hneighbors, hroom⟩)⟩
    · exact (or_iff_left fun hback => hmem hback.2.1).symm

/-- What an insert needs to leave the index linked, said on the links before it.  The id becomes the
entry point, or something that is reached around it leads to it: because it did before, or because
it was found and has room.  And every other vector is reached around it, from the entry point if
that is another one or from something that was found. -/
structure InsertKeeps (P : Platform) (ix : VectorIndex) (id : NodeId) (v : List Binary64)
    (ep : NodeId) (ep' : NodeId) : Prop where
  joined : ep' = id ∨ ∃ a, a ≠ id ∧ Bypass ix.Leads id ep' a ∧
    (Lists ix.vectors a id ∨ a ∈ ix.closest P v ep ∧ ix.HasRoom a)
  others : ∀ b, b ≠ id → (ix.vectorOf b).isSome → ep' ≠ id ∧ Bypass ix.Leads id ep' b ∨
    ∃ n ∈ ix.closest P v ep, n ≠ id ∧ Bypass ix.Leads id n b

/-- The entry point after an insert. -/
def entryAfter (P : Platform) (ix : VectorIndex) (id ep : NodeId) : NodeId :=
  if 0 < ix.randomLayer P id then id else ep

section

variable {ep : NodeId} {v : List Binary64}

theorem isSome_insert (hentered : ix.Entered) (h : ix.insert P id v = some ix') (b : NodeId) :
    (ix'.vectorOf b).isSome ↔ id = b ∨ (ix.vectorOf b).isSome := by
  rw [(of_insert (fun _ => hentered) h).2]
  split_ifs with hb <;> simp [hb]

theorem entryPoint_insert (hempty : ix.vectors.isEmpty = false) (hep : ix.entryPoint = some ep)
    (h : ix.insert P id v = some ix') : ix'.entryPoint = some (ix.entryAfter P id ep) := by
  rw [insert_next hempty hep (length_of_insert h)] at h
  obtain rfl := Option.some.inj h
  unfold entryAfter
  dsimp only
  split_ifs <;> rfl

/-- Links that come by the new id nowhere are those from before. -/
theorem bypass_insert (hempty : ix.vectors.isEmpty = false) (hentered : ix.Entered)
    (hep : ix.entryPoint = some ep) (h : ix.insert P id v = some ix') :
    Bypass ix'.Leads id = Bypass ix.Leads id := by
  refine congrArg Relation.ReflTransGen (funext fun a => funext fun b => propext ?_)
  refine and_congr_right fun ha => and_congr_right fun hb => ?_
  rw [leads_iff, leads_iff, lists_insert_next hempty hep h, if_neg ha, isSome_insert hentered h,
    or_iff_right (Ne.symm hb)]
  exact and_congr_left fun _ => or_iff_left fun hback => hb hback.1

theorem leads_to_insert (hempty : ix.vectors.isEmpty = false) (hentered : ix.Entered)
    (hep : ix.entryPoint = some ep) (h : ix.insert P id v = some ix') {a : NodeId} (ha : a ≠ id) :
    ix'.Leads a id ↔ Lists ix.vectors a id ∨ a ∈ ix.closest P v ep ∧ ix.HasRoom a := by
  rw [leads_iff, lists_insert_next hempty hep h, if_neg ha, isSome_insert hentered h]
  simp

theorem leads_from_insert (hempty : ix.vectors.isEmpty = false) (hentered : ix.Entered)
    (hep : ix.entryPoint = some ep) (h : ix.insert P id v = some ix') {b : NodeId} (hb : b ≠ id) :
    ix'.Leads id b ↔ b ∈ ix.closest P v ep := by
  rw [leads_iff, lists_insert_next hempty hep h, if_pos rfl, isSome_insert hentered h,
    or_iff_right (Ne.symm hb)]
  exact and_iff_left_of_imp isSome_of_mem_closest

end

theorem insert_linked_iff (hempty : ix.vectors.isEmpty = false) (hentered : ix.Entered)
    {ep : NodeId}
    (hep : ix.entryPoint = some ep) {v : List Binary64} (h : ix.insert P id v = some ix') :
    ix'.Linked ↔ ix.InsertKeeps P id v ep (ix.entryAfter P id ep) := by
  have hvectors := isSome_insert hentered h
  have hentry := entryPoint_insert hempty hep h
  have hbypass := bypass_insert hempty hentered hep h
  have hback : ∀ a, a ≠ id → (ix'.Leads a id ↔
      Lists ix.vectors a id ∨ a ∈ ix.closest P v ep ∧ ix.HasRoom a) := fun a =>
    leads_to_insert hempty hentered hep h
  have hforth : ∀ b, b ≠ id → (ix'.Leads id b ↔ b ∈ ix.closest P v ep) := fun b =>
    leads_from_insert hempty hentered hep h
  generalize ix.entryAfter P id ep = ep' at hentry ⊢
  constructor
  · intro hlinked
    constructor
    · by_cases hid : ep' = id
      · exact .inl hid
      · have hreach := hlinked ep' id hentry ((hvectors id).mpr (.inl rfl))
        have haround : Around ix'.Leads id ep' id := by
          obtain haround | ⟨haround, -⟩ := reaches_iff_around.mp hreach <;> exact haround
        obtain ⟨a, ha, hbypass', hleads⟩ := (around_self_iff hid).mp haround
        rw [hbypass] at hbypass'
        exact .inr ⟨a, ha, hbypass', (hback a ha).mp hleads⟩
    · intro b hb hsome
      have hreach := hlinked ep' b hentry ((hvectors b).mpr (.inr hsome))
      obtain haround | ⟨-, n, hn, haround⟩ := reaches_iff_around.mp hreach
      · rw [around_iff_bypass hb, hbypass] at haround
        exact .inl haround
      · rw [around_iff_bypass hb, hbypass] at haround
        exact .inr ⟨n, (hforth n haround.1).mp hn, haround.1, haround.2⟩
  · rintro ⟨hjoined, hothers⟩ ep₁ b hep₁ hsome
    obtain rfl := Option.some.inj (hentry.symm.trans hep₁)
    have hjoins : Relation.ReflTransGen ix'.Leads ep' id := by
      by_cases hid : ep' = id
      · rw [hid]
      · obtain ⟨a, ha, hbypass', hleads⟩ := hjoined.resolve_left hid
        rw [← hbypass] at hbypass'
        exact ((around_self_iff hid).mpr ⟨a, ha, hbypass', (hback a ha).mpr hleads⟩).reaches
    by_cases hb : b = id
    · rw [hb]
      exact hjoins
    · obtain hdirect | ⟨n, hn, hne, hbypass'⟩ :=
        hothers b hb (((hvectors b).mp hsome).resolve_left (Ne.symm hb))
      · rw [← hbypass] at hdirect
        exact ((around_iff_bypass hb).mpr hdirect).reaches
      · rw [← hbypass] at hbypass'
        exact (hjoins.tail ((hforth n hne).mpr hn)).trans
          ((around_iff_bypass hb).mpr ⟨hne, hbypass'⟩).reaches

/-- The neighbours come from the links before, so an index that was empty is linked. -/
theorem insert_first_linked (hempty : ix.vectors.isEmpty = true) {v : List Binary64}
    (h : ix.insert P id v = some ix') : ix'.Linked := by
  have hready : ix.vectors.isEmpty = false → ix.Entered := by
    intro hfull
    rw [hempty] at hfull
    cases hfull
  obtain ⟨-, hvectors⟩ := of_insert hready h
  rw [insert_first hempty (length_of_insert h)] at h
  obtain rfl := Option.some.inj h
  intro ep b hep hb
  obtain rfl : id = ep := Option.some.inj hep
  rw [hvectors, vectorOf_eq_none_of_isEmpty hempty] at hb
  split_ifs at hb with hid
  · subst hid
    exact .refl
  · cases hb

end VectorIndex

/-! ### Runs -/

/-- A call that changes an index.  The keys of a hash map come out in any order. -/
inductive IndexOp where
  | insert (id : NodeId) (vector : List Binary64)
  | remove (O : KeyOrder) (id : NodeId)

namespace VectorIndex

/-- An insert of a wrong dimension fails, and changes nothing. -/
def step (P : Platform) (ix : VectorIndex) : IndexOp → VectorIndex
  | .insert id v => (ix.insert P id v).getD ix
  | .remove O id => (ix.remove O id).2

/-- Every vector can be found. -/
structure Findable (P : Platform) (ix : VectorIndex) : Prop where
  entered : ix.vectors.isEmpty = false → ix.Entered
  linked : ix.Linked
  found : ∀ q k, q.length = ix.dimension → ix.vectors.size ≤ k →
    ∃ l, ix.search P q k = some l ∧ ∀ id, (ix.vectorOf id).isSome → ∃ d, (id, d) ∈ l

/-- What a call needs to leave every vector findable. -/
def Keeps (P : Platform) (ix : VectorIndex) : IndexOp → Prop
  | .insert id v => v.length = ix.dimension → ∀ ep, ix.entryPoint = some ep →
      ix.vectors.isEmpty = false → ix.InsertKeeps P id v ep (ix.entryAfter P id ep)
  | .remove O id => (ix.vectorOf id).isSome → ix.RemoveKeeps O id

variable {P : Platform} {ix : VectorIndex}

theorem findable_iff (hentered : ix.vectors.isEmpty = false → ix.Entered) :
    ix.Findable P ↔ ix.Linked := by
  refine ⟨Findable.linked, fun hlinked => ⟨hentered, hlinked, fun q k hdim hk => ?_⟩⟩
  cases hempty : ix.vectors.isEmpty with
  | true =>
      refine ⟨[], ?_, fun id hid => ?_⟩
      · rw [search, if_pos hdim, if_pos hempty]
      · rw [vectorOf_eq_none_of_isEmpty hempty] at hid
        cases hid
  | false => exact (search_complete_iff (hentered hempty) hdim hk).mpr hlinked

/-- An index always has an entry point. -/
theorem step_entered (hentered : ix.vectors.isEmpty = false → ix.Entered) (op : IndexOp) :
    (ix.step P op).vectors.isEmpty = false → (ix.step P op).Entered := by
  cases op with
  | insert id v =>
      rw [step]
      cases hinsert : ix.insert P id v with
      | none => exact hentered
      | some ix' => exact fun _ => (of_insert hentered hinsert).1
  | remove O id =>
      rw [step]
      cases hid : ix.vectorOf id with
      | none =>
          rw [remove_of_none hid]
          exact hentered
      | some v => exact remove_entered hentered (Option.isSome_of_eq_some hid)

/-- One call leaves every vector findable if and only if it meets its condition. -/
theorem Findable.step_iff (h : ix.Findable P) (op : IndexOp) :
    (ix.step P op).Findable P ↔ ix.Keeps P op := by
  rw [findable_iff (step_entered h.entered op)]
  cases op with
  | insert id v =>
      rw [step, Keeps]
      cases hinsert : ix.insert P id v with
      | none =>
          have hdim : v.length ≠ ix.dimension := by
            intro hdim
            obtain ⟨ix', hinsert', -⟩ := insert_of_eq (P := P) h.entered hdim id
            rw [hinsert'] at hinsert
            cases hinsert
          exact iff_of_true h.linked fun heq => absurd heq hdim
      | some ix' =>
          rw [forall_prop_of_true (length_of_insert hinsert)]
          cases hempty : ix.vectors.isEmpty with
          | true => exact iff_of_true (insert_first_linked hempty hinsert) nofun
          | false =>
              obtain ⟨ep, hep, hthere⟩ := h.entered hempty
              refine (insert_linked_iff hempty ⟨ep, hep, hthere⟩ hep hinsert).trans ?_
              constructor
              · intro hkeeps ep' hep' _
                obtain rfl := Option.some.inj (hep.symm.trans hep')
                exact hkeeps
              · exact fun hkeeps => hkeeps ep hep rfl
  | remove O id =>
      rw [step, Keeps]
      cases hid : ix.vectorOf id with
      | none =>
          rw [remove_of_none hid]
          exact iff_of_true h.linked nofun
      | some v =>
          have hsome : (ix.vectorOf id).isSome := Option.isSome_of_eq_some hid
          rw [remove_linked_iff hsome]
          exact ⟨fun hkeeps _ => hkeeps, fun hkeeps => hkeeps rfl⟩

/-- The index that a list of calls makes. -/
def reached (P : Platform) (dimension maxConnections maxLayers : ℕ) (metric : DistanceMetric)
    (ops : List IndexOp) : VectorIndex :=
  Run.run (step P) (.withParams dimension maxConnections maxLayers metric) ops

theorem findable_withParams (P : Platform) (dimension maxConnections maxLayers : ℕ)
    (metric : DistanceMetric) :
    (withParams dimension maxConnections maxLayers metric).Findable P := by
  rw [findable_iff fun hempty => by cases hempty]
  intro ep id hep
  cases hep

end VectorIndex

end AresaDb.Vectors
