import AresaDb.Query.Executor
import AresaDb.Store.IndexLookup

/-! # What the executor reads

A storage serves a content when it holds the nodes, lists them under their types, and lists their
values in every registered index (`Serves`).  Then a scan returns the nodes of a type in the order
of their ids, and a lookup those of them whose value has the text of the value looked up. -/

namespace AresaDb.Query

open AresaDb.Store

/-- The storage holds the nodes, and its type listing and its registered property indexes are exact
for them; ids without a node may be listed anyhow. -/
structure Serves (J : Serde) (nodes : OrdMap NodeId Node) (s : TieredStorage) : Prop where
  coherent : Coherent nodes s
  listed : ∀ (id : NodeId) (n : Node), nodes[id]? = some n →
    ∀ nodeType, (nodeType, id) ∈ s.local_.nodeTypeIndex ↔ nodeType = n.nodeType
  indexed : ∀ (id : NodeId) (n : Node), nodes[id]? = some n →
    FieldIndex.ListsRight (propertyTerms J) s.local_.propertyFields id n

/-- The nodes of a type, by id. -/
def nodesOfType (nodes : OrdMap NodeId Node) (s : TieredStorage) (nodeType : String) : List Node :=
  (s.local_.nodeTypeIndex.get nodeType).filterMap fun id => nodes[id]?

/-- The property has the text of the value in the keys of an index. -/
def hasText (J : Serde) (field : String) (value : Value) (n : Node) : Bool :=
  match n.properties[field]? with
  | some w => valueText J w = valueText J value
  | none => false

section

variable {J : Serde} {nodes : OrdMap NodeId Node} {s : TieredStorage}

theorem hasText_iff {field : String} {value : Value} {n : Node} :
    hasText J field value n = true ↔
      ∃ w, n.properties[field]? = some w ∧ valueText J w = valueText J value := by
  unfold hasText
  cases n.properties[field]? <;> simp

theorem Serves.mem_nodesOfType (h : Serves J nodes s) {nodeType : String} {n : Node} :
    n ∈ nodesOfType nodes s nodeType ↔ nodes[n.id]? = some n ∧ n.nodeType = nodeType := by
  unfold nodesOfType
  rw [List.mem_filterMap]
  constructor
  · rintro ⟨id, hid, hn⟩
    obtain rfl := h.coherent.node_id hn
    exact ⟨hn, ((h.listed _ n hn nodeType).mp (Multimap.mem_get.mp hid)).symm⟩
  · rintro ⟨hn, rfl⟩
    exact ⟨n.id, Multimap.mem_get.mpr ((h.listed _ n hn n.nodeType).mpr rfl), hn⟩

theorem Serves.nodesOfType_nodup (h : Serves J nodes s) (nodeType : String) :
    ((nodesOfType nodes s nodeType).map Node.id).Nodup := by
  have hids : (nodesOfType nodes s nodeType).map Node.id =
      (s.local_.nodeTypeIndex.get nodeType).filter fun id => nodes[id]?.isSome := by
    unfold nodesOfType
    rw [List.map_filterMap, ← List.filterMap_eq_filter]
    refine List.filterMap_congr fun id _ => ?_
    cases hn : nodes[id]? with
    | none => simp only [Option.guard, Option.map_none, hn, Option.isSome_none, Bool.false_eq_true,
        if_false]
    | some n => simp only [Option.guard, Option.map_some, hn, Option.isSome_some, if_true,
        h.coherent.node_id hn]
  rw [hids]
  exact (Multimap.get_nodup _ _).filter _

/-- The payloads of the nodes parse. -/
def allRead (l : List Node) : Bool := l.all fun n => parses n.properties

/-- A scan returns the nodes of the type if it can read them all. -/
theorem Serves.getNodesByType (h : Serves J nodes s) (nodeType : String) :
    ∃ s', s.getNodesByType J nodeType none =
        (if allRead (nodesOfType nodes s nodeType) then
          some (nodesOfType nodes s nodeType, s') else none) ∧
      Coherent nodes s' := by
  obtain ⟨s', hread, -, hs'⟩ := h.coherent.getNodesByType (J := J) nodeType none
  rw [h.coherent.listed_nodes] at hread
  exact ⟨s', hread, hs'⟩

/-- The ids that a lookup finds are those of the nodes of the type whose value has the text. -/
theorem Serves.lookedUp (h : Serves J nodes s) {nodeType field : String}
    (hreg : s.local_.propertyFields.Registered nodeType field) (value : Value) :
    (s.local_.propertyIndex.get (makePropertyIndexKey J nodeType field value)).filterMap
        (fun id => nodes[id]?) =
      (nodesOfType nodes s nodeType).filter (hasText J field value) := by
  let ids := s.local_.propertyIndex.get (makePropertyIndexKey J nodeType field value)
  -- Both sides go through sorted lists of ids.
  unfold nodesOfType
  rw [List.filter_filterMap]
  have hcut : ids.filterMap (fun id => nodes[id]?) =
      ids.filterMap fun id => nodes[id]?.filter (hasText J field value) := by
    refine List.filterMap_congr fun id hid => ?_
    cases hn : nodes[id]? with
    | none => rfl
    | some n =>
        have hterm := (h.indexed id n hn nodeType field hreg _).mp (Multimap.mem_get.mp hid)
        rw [hasTerm_propertyTerms] at hterm
        rw [Option.filter_some, if_pos (hasText_iff.mpr hterm.2)]
  rw [hcut]
  refine Multimap.filterMap_congr_of_sorted (Multimap.get_sorted _ _) (Multimap.get_sorted _ _) ?_
  intro id n hn
  obtain ⟨hn, htext⟩ := Option.filter_eq_some_iff.mp hn
  have hlists := h.indexed id n hn nodeType field hreg (valueText J value)
  rw [Multimap.mem_get, Multimap.mem_get, h.listed id n hn]
  rw [hasTerm_propertyTerms] at hlists
  exact hlists.trans (and_iff_left (hasText_iff.mp htext))

/-- A lookup in a registered index returns the nodes of the type whose value has the text, if it
can read these. -/
theorem Serves.indexLookup (h : Serves J nodes s) {nodeType field : String}
    (hreg : s.local_.propertyFields.Registered nodeType field) (value : Value) :
    ∃ s', s.indexLookup J nodeType field value =
        (if allRead ((nodesOfType nodes s nodeType).filter (hasText J field value)) then
          some (some ((nodesOfType nodes s nodeType).filter (hasText J field value)), s')
        else none) ∧
      Coherent nodes s' := by
  let ids := s.local_.propertyIndex.get (makePropertyIndexKey J nodeType field value)
  obtain ⟨s', hread, -, hs'⟩ := readNodes_eq (J := J) h.coherent (ids.map fun id => (id, ()))
  refine ⟨s', ?_, hs'⟩
  have hlookup : s.local_.indexLookup J nodeType field value = some ids := if_pos hreg
  have hfound : ((ids.map fun id => (id, ())).filterMap fun e =>
      nodes[e.1]?.map fun n => (n, e.2)).map Prod.fst = ids.filterMap fun id => nodes[id]? := by
    rw [List.filterMap_map, List.map_filterMap]
    congr 1
    funext id
    exact (Option.map_map _ _ _).trans (congrFun Option.map_id _)
  have hread_ids : ((ids.map fun id => (id, ())).filterMap fun e => nodes[e.1]?) =
      ids.filterMap fun id => nodes[id]? := by
    rw [List.filterMap_map]
    rfl
  unfold TieredStorage.indexLookup
  rw [hlookup]
  simp only [hread, hread_ids]
  rw [← h.lookedUp hreg value]
  unfold allRead
  split_ifs
  · rw [Option.map_some, hfound]
  · rfl

/-- Without an index there is nothing to look up. -/
theorem indexLookup_of_unregistered {nodeType field : String}
    (hreg : ¬ s.local_.propertyFields.Registered nodeType field) (value : Value) :
    s.indexLookup J nodeType field value = some (none, s) := by
  have hlookup : s.local_.indexLookup J nodeType field value = none := if_neg hreg
  unfold TieredStorage.indexLookup
  rw [hlookup]

end

/-! ### Any storage -/

/-- What a read of a node finds; `none` is an error. -/
def readNode (J : Serde) (s : TieredStorage) (id : NodeId) : Option (Option Node) :=
  (s.getNode J id).map Prod.fst

/-- The nodes that there are of a list of ids; `none` is an error. -/
def nodesAt (J : Serde) (s : TieredStorage) (ids : List NodeId) : Option (List Node) :=
  (ids.mapM (readNode J s)).map List.reduceOption

section

variable {J : Serde} {s s' : TieredStorage}

theorem map_fst_resolvePayload (s : TieredStorage) (id : NodeId) (index : NodeIndex) :
    (s.resolvePayload J id index).map Prod.fst =
      ((s.copies id).find J index).filter parses := by
  unfold TieredStorage.resolvePayload Copies.find
  have hcached : s.cache[id]? = (s.copies id).cached := rfl
  rw [hcached]
  cases (s.copies id).cached with
  | some p =>
      simp only [Option.filter_some]
      split_ifs <;> rfl
  | none =>
      cases index.payloadLocation with
      | «local» =>
          simp only [TieredStorage.getPayload_eq, Option.map_map]
          exact congrFun Option.map_id _
      | cloud =>
          simp only [Option.map_map]
          exact congrFun Option.map_id _

/-- A read finds what the copies of the node say. -/
theorem readNode_eq (s : TieredStorage) (id : NodeId) :
    readNode J s id =
      ((s.copies id).getNodeIndex J).bind fun record =>
        match record with
        | none => some none
        | some index =>
            (((s.copies id).find J index).filter parses).map fun p => some (index.toNode id p) := by
  unfold readNode TieredStorage.getNode
  rw [TieredStorage.getNodeIndex_eq]
  cases (s.copies id).getNodeIndex J with
  | none => rfl
  | some record =>
      cases record with
      | none => rfl
      | some index =>
          simp only [← map_fst_resolvePayload, Option.bind_eq_bind, Option.bind_some,
            Option.map_map]
          cases s.resolvePayload J id index <;> rfl

theorem readNode_congr {id : NodeId} (h : s'.copies id = s.copies id) :
    readNode J s' id = readNode J s id := by
  rw [readNode_eq, readNode_eq, h]

/-- A read of a payload leaves what reads find. -/
theorem readNode_of_resolvePayload {id : NodeId} {index : NodeIndex} {p : Props}
    (hrecord : s.local_.getNodeIndex J id = some (some index))
    (h : s.resolvePayload J id index = some (p, s')) (id' : NodeId) :
    readNode J s' id' = readNode J s id' := by
  have hfound := (map_fst_resolvePayload s id index).symm.trans (congrArg _ h)
  obtain ⟨hfind, hparses⟩ := Option.filter_eq_some_iff.mp hfound
  obtain ⟨s₂, hread, -, hchanges⟩ := TieredStorage.resolvePayload_eq J s id p hfind hparses
  obtain ⟨-, rfl⟩ := Prod.mk.inj (Option.some.inj (h.symm.trans hread))
  by_cases hid : id = id'
  · subst hid
    rw [TieredStorage.getNodeIndex_eq] at hrecord
    rw [readNode_eq, readNode_eq, hchanges.at_id]
    -- The copy in the cache is what was found.
    have hrecord' : Copies.getNodeIndex J { s.copies id with cached := some p } =
        (s.copies id).getNodeIndex J := rfl
    have hfind' : Copies.find J { s.copies id with cached := some p } index = some p := rfl
    rw [hrecord', hrecord, Option.bind_some, Option.bind_some]
    dsimp only
    rw [hfind', hfind]
  · exact readNode_congr (hchanges.off_id id' hid)

/-- A read leaves what other reads find. -/
theorem readNode_of_getNode {id : NodeId} {node : Option Node}
    (h : s.getNode J id = some (node, s')) (id' : NodeId) :
        readNode J s' id' = readNode J s id' := by
  obtain ⟨record, hrecord, h⟩ := Option.bind_eq_some_iff.mp h
  cases record with
  | none =>
      obtain ⟨-, rfl⟩ := Prod.mk.inj (Option.some.inj h)
      rfl
  | some index =>
      obtain ⟨⟨p, s₁⟩, hpayload, heq⟩ := Option.bind_eq_some_iff.mp h
      obtain ⟨-, rfl⟩ := Prod.mk.inj (Option.some.inj heq)
      exact readNode_of_resolvePayload hrecord hpayload id'

/-- The record of a node, if it can be read. -/
theorem getNodeIndex_of_recordOf (l : LocalStorage) (id : NodeId) :
    l.getNodeIndex J id = if l.recordParses id then some (l.recordOf J id) else none := by
  unfold LocalStorage.getNodeIndex LocalStorage.recordParses LocalStorage.recordOf readRow
  cases l.nodeIndexes[id]? with
  | some index => rfl
  | none =>
      rw [Option.isSome_none, Bool.false_or]
      split_ifs <;> rfl

/-- A read of a list of ids is a read of each. -/
theorem map_fst_readNodes {τ : Type} (s : TieredStorage) (l : List (NodeId × τ)) :
    (s.readNodes J l).map Prod.fst =
      (l.mapM fun e => (readNode J s e.1).map fun node =>
        node.toList.map fun n => (n, e.2)).map List.flatten := by
  induction l generalizing s with
  | nil => rfl
  | cons e l ih =>
      obtain ⟨id, tag⟩ := e
      unfold TieredStorage.readNodes
      rw [List.mapM_cons]
      unfold readNode at ih ⊢
      cases hnode : s.getNode J id with
      | none => rfl
      | some read =>
          obtain ⟨node, s₁⟩ := read
          have hrest := ih s₁
          have hsame : (fun e : NodeId × τ => ((s₁.getNode J e.1).map Prod.fst).map fun node =>
              node.toList.map fun n => (n, e.2)) =
              fun e => ((s.getNode J e.1).map Prod.fst).map fun node =>
                node.toList.map fun n => (n, e.2) :=
            funext fun e => congrArg _ (readNode_of_getNode hnode e.1)
          rw [hsame] at hrest
          simp only [Option.bind_eq_bind, Option.bind_some, Option.map_some, Option.pure_def]
          cases hread : s₁.readNodes J l with
          | none =>
              rw [hread, Option.map_none] at hrest
              rw [Option.map_eq_none_iff.mp hrest.symm]
              rfl
          | some rest =>
              rw [hread, Option.map_some] at hrest
              obtain ⟨lists, hlists, hflat⟩ := Option.map_eq_some_iff.mp hrest.symm
              rw [hlists]
              simp only [Option.bind_some, Option.map_some, List.flatten_cons, hflat]

/-- The nodes of a lookup. -/
theorem map_fst_indexLookup {nodeType field : String} {value : Value} {ids : List NodeId}
    (h : s.local_.indexLookup J nodeType field value = some ids) :
    (s.indexLookup J nodeType field value).map Prod.fst = (nodesAt J s ids).map some := by
  have hread := map_fst_readNodes (J := J) s (ids.map fun id => (id, ()))
  unfold TieredStorage.indexLookup nodesAt
  rw [h]
  dsimp only
  rw [Option.map_map, Option.map_map]
  have hlists : ((ids.map fun id => (id, ())).mapM fun e : NodeId × Unit =>
      (readNode J s e.1).map fun node => node.toList.map fun n => (n, e.2)) =
      (ids.mapM (readNode J s)).map (List.map fun node => node.toList.map fun n => (n, ())) := by
    generalize readNode J s = read
    clear h hread
    induction ids with
    | nil => rfl
    | cons id ids ih =>
        rw [List.map_cons, List.mapM_cons, List.mapM_cons, ih]
        cases read id with
        | none => rfl
        | some node => cases ids.mapM read <;> rfl
  rw [hlists, Option.map_map] at hread
  calc (s.readNodes J (ids.map fun id => (id, ()))).map
        (Prod.fst ∘ fun r => (some (r.1.map Prod.fst), r.2))
      = ((s.readNodes J (ids.map fun id => (id, ()))).map Prod.fst).map
          (some ∘ List.map Prod.fst) := by rw [Option.map_map]; rfl
    _ = (ids.mapM (readNode J s)).map (some ∘ List.reduceOption) := by
        rw [hread, Option.map_map]
        congr 1
        funext nodes
        simp only [Function.comp_apply, List.map_flatten, List.map_map, Option.some.injEq]
        induction nodes with
        | nil => rfl
        | cons node nodes ih =>
            rw [List.map_cons, List.flatten_cons, ih]
            cases node <;> rfl

/-- An id with neither a record nor a row names no node. -/
theorem readNode_of_no_record {id : NodeId} (h : s.local_.recordOf J id = none) :
    readNode J s id = some none := by
  have hparses : s.local_.recordParses id = true := by
    unfold LocalStorage.recordOf at h
    unfold LocalStorage.recordParses
    split at h
    · cases h
    · rw [Option.map_eq_none_iff.mp h]
      exact Bool.or_true _
  unfold readNode TieredStorage.getNode
  rw [getNodeIndex_of_recordOf, if_pos hparses, h]
  rfl

theorem readNode_unparsed {id : NodeId} (h : ¬ s.local_.recordParses id = true) :
    readNode J s id = none := by
  unfold readNode TieredStorage.getNode
  rw [getNodeIndex_of_recordOf, if_neg h]
  rfl

/-- The nodes of a scan. -/
theorem map_fst_getNodesByType (s : TieredStorage) (nodeType : String) :
    (s.getNodesByType J nodeType none).map Prod.fst =
      nodesAt J s (s.local_.nodeTypeIndex.get nodeType) := by
  unfold TieredStorage.getNodesByType LocalStorage.getNodeIndexesByType LocalStorage.takeLimit
    LocalStorage.recordsOfType nodesAt
  generalize s.local_.nodeTypeIndex.get nodeType = ids
  dsimp only
  induction ids generalizing s with
  | nil => rfl
  | cons id ids ih =>
      rw [List.mapM_cons]
      have hindex := getNodeIndex_of_recordOf (J := J) s.local_ id
      cases hrecord : s.local_.recordOf J id with
      | none =>
          rw [List.filterMap_cons_none (by rw [hrecord]; rfl), ih s, readNode_of_no_record hrecord]
          cases ids.mapM (readNode J s) <;> rfl
      | some index =>
          rw [List.filterMap_cons_some (by rw [hrecord]; rfl)]
          unfold readRows at ih ⊢
          rw [List.all_cons]
          by_cases hparses : s.local_.recordParses id = true
          · rw [hparses, Bool.true_and]
            rw [if_pos hparses, hrecord] at hindex
            unfold readNode at ih ⊢
            have hnode : s.getNode J id = (s.resolvePayload J id index).map fun r =>
                (some (index.toNode id r.1), r.2) := by
              unfold TieredStorage.getNode
              simp only [hindex, Option.bind_eq_bind, Option.bind_some]
              cases s.resolvePayload J id index <;> rfl
            cases hpayload : s.resolvePayload J id index with
            | none =>
                rw [hnode, hpayload]
                split_ifs
                · rw [Option.bind_some, TieredStorage.resolveAll, hpayload]
                  rfl
                · rfl
            | some r =>
                obtain ⟨p, s₁⟩ := r
                have hlocal := resolvePayload_local hpayload
                rw [hpayload] at hnode
                have hrest := ih s₁
                have hsame : (fun id => (s₁.getNode J id).map Prod.fst) =
                    fun id => (s.getNode J id).map Prod.fst :=
                  funext fun id => readNode_of_getNode hnode id
                rw [hsame, hlocal] at hrest
                rw [hnode]
                simp only [Option.map_some, Option.bind_eq_bind, Option.bind_some, Option.pure_def]
                split_ifs at hrest ⊢ with hall
                · rw [Option.bind_some, TieredStorage.resolveAll, hpayload]
                  rw [Option.bind_some] at hrest
                  simp only [Option.bind_eq_bind, Option.bind_some, Option.pure_def]
                  cases hread : s₁.resolveAll J _ with
                  | none =>
                      rw [hread, Option.map_none] at hrest
                      rw [Option.map_eq_none_iff.mp hrest.symm]
                      rfl
                  | some rest =>
                      rw [hread, Option.map_some] at hrest
                      obtain ⟨nodes, hnodes, hreduce⟩ := Option.map_eq_some_iff.mp hrest.symm
                      rw [hnodes]
                      simp only [Option.bind_some, Option.map_some, List.reduceOption_cons_of_some,
                        hreduce]
                · rw [Option.map_eq_none_iff.mp hrest.symm]
                  rfl
          · rw [Bool.eq_false_of_not_eq_true hparses, Bool.false_and, if_neg Bool.false_ne_true,
              readNode_unparsed hparses]
            rfl

theorem getNode_id {id : NodeId} {node : Node} (h : s.getNode J id = some (some node, s')) :
    node.id = id := by
  obtain ⟨record, -, h⟩ := Option.bind_eq_some_iff.mp h
  cases record with
  | none => cases h
  | some index =>
      obtain ⟨⟨p, s₁⟩, -, heq⟩ := Option.bind_eq_some_iff.mp h
      obtain rfl := Option.some.inj (Prod.mk.inj (Option.some.inj heq)).1
      rfl

/-- What a successful lookup of a record returns. -/
theorem recordOf_of_getNodeIndex {l : LocalStorage} {id : NodeId} {record : Option NodeIndex}
    (h : l.getNodeIndex J id = some record) : l.recordOf J id = record := by
  unfold LocalStorage.getNodeIndex at h
  unfold LocalStorage.recordOf
  cases hindex : l.nodeIndexes[id]? with
  | some index =>
      rw [hindex] at h
      exact Option.some.inj h
  | none =>
      rw [hindex] at h
      obtain ⟨row, hrow, rfl⟩ := Option.map_eq_some_iff.mp h
      rw [(readRow_eq_some hrow).2]

theorem getNode_isSome {id : NodeId} {node : Option Node} (h : s.getNode J id = some (node, s')) :
    node.isSome = (s.local_.recordOf J id).isSome := by
  obtain ⟨record, hrecord, h⟩ := Option.bind_eq_some_iff.mp h
  rw [recordOf_of_getNodeIndex hrecord]
  cases record with
  | none =>
      rw [← (Prod.mk.inj (Option.some.inj h)).1]
      rfl
  | some index =>
      obtain ⟨⟨p, s₁⟩, -, heq⟩ := Option.bind_eq_some_iff.mp h
      rw [← (Prod.mk.inj (Option.some.inj heq)).1]
      rfl

/-- The nodes that a read of ids returns are those that have an index record. -/
theorem readNodes_spec {τ : Type} {l : List (NodeId × τ)} {found : List (Node × τ)}
    (h : s.readNodes J l = some (found, s')) :
    found.map (fun e => (e.1.id, e.2)) =
      l.filter fun e => (s.local_.recordOf J e.1).isSome := by
  induction l generalizing s s' found with
  | nil =>
      obtain ⟨rfl, -⟩ := Prod.mk.inj (Option.some.inj h)
      rfl
  | cons e l ih =>
      obtain ⟨id, tag⟩ := e
      unfold TieredStorage.readNodes at h
      obtain ⟨⟨node, s₁⟩, hnode, h⟩ := Option.bind_eq_some_iff.mp h
      obtain ⟨⟨rest, s₂⟩, hrest, h⟩ := Option.bind_eq_some_iff.mp h
      obtain ⟨rfl, -⟩ := Prod.mk.inj (Option.some.inj h)
      have ih := ih hrest
      have hsome := getNode_isSome hnode
      rw [getNode_local hnode] at ih
      rw [List.map_append, ih]
      cases node with
      | none => rw [List.filter_cons_of_neg (by simp [← hsome])]; rfl
      | some node =>
          rw [List.filter_cons_of_pos (by simp [← hsome]), ← getNode_id hnode]
          rfl

theorem resolveAll_ids {entries : List (NodeId × NodeIndex)} {nodes : List Node}
    (h : s.resolveAll J entries = some (nodes, s')) :
    nodes.map Node.id = entries.map Prod.fst ∧ s'.local_ = s.local_ := by
  induction entries generalizing s s' nodes with
  | nil =>
      obtain ⟨rfl, rfl⟩ := Prod.mk.inj (Option.some.inj h)
      exact ⟨rfl, rfl⟩
  | cons e entries ih =>
      unfold TieredStorage.resolveAll at h
      obtain ⟨⟨p, s₁⟩, hpayload, h⟩ := Option.bind_eq_some_iff.mp h
      obtain ⟨⟨rest, s₂⟩, hrest, h⟩ := Option.bind_eq_some_iff.mp h
      obtain ⟨rfl, rfl⟩ := Prod.mk.inj (Option.some.inj h)
      obtain ⟨hids, hlocal⟩ := ih hrest
      refine ⟨?_, hlocal.trans (resolvePayload_local hpayload)⟩
      rw [List.map_cons, List.map_cons, hids]
      rfl

/-- A scan returns nodes of distinct ids, all with an index record. -/
theorem getNodesByType_ids {nodeType : String} {nodes : List Node}
    (h : s.getNodesByType J nodeType none = some (nodes, s')) :
    (nodes.map Node.id).Nodup ∧ s'.local_ = s.local_ ∧
      ∀ node ∈ nodes, (s.local_.recordOf J node.id).isSome := by
  obtain ⟨entries, hread, h⟩ := Option.bind_eq_some_iff.mp h
  have hentries : entries.map Prod.fst =
      (s.local_.nodeTypeIndex.get nodeType).filter fun id =>
        (s.local_.recordOf J id).isSome := by
    obtain rfl := (readRows_eq_some hread).2
    unfold LocalStorage.recordsOfType LocalStorage.takeLimit
    rw [List.map_filterMap, ← List.filterMap_eq_filter]
    refine List.filterMap_congr fun id _ => ?_
    cases hindex : s.local_.recordOf J id <;> simp [Option.guard, hindex]
  have hids := (resolveAll_ids h).1.trans hentries
  refine ⟨hids ▸ (Multimap.get_nodup _ _).filter _, (resolveAll_ids h).2, fun node hnode => ?_⟩
  have hmem := List.mem_map_of_mem (f := Node.id) hnode
  rw [hids] at hmem
  exact (List.mem_filter.mp hmem).2

theorem indexLookup_ids {nodeType field : String} {value : Value} {nodes : List Node}
    (h : s.indexLookup J nodeType field value = some (some nodes, s')) :
    (nodes.map Node.id).Nodup := by
  unfold TieredStorage.indexLookup at h
  split at h
  · cases h
  · next ids hids =>
      obtain ⟨⟨found, s₁⟩, hread, heq⟩ := Option.map_eq_some_iff.mp h
      obtain rfl := Option.some.inj (Prod.mk.inj heq).1
      have hfound := congrArg (List.map Prod.fst) (readNodes_spec hread)
      have hnodup : ids.Nodup := by
        unfold LocalStorage.indexLookup at hids
        split_ifs at hids
        rw [← Option.some.inj hids]
        exact Multimap.get_nodup _ _
      have hsub : ((found.map Prod.fst).map Node.id).Sublist ids := by
        have hmap : (found.map Prod.fst).map Node.id =
            (found.map fun e => (e.1.id, e.2)).map Prod.fst := by
          simp [Function.comp_def]
        have hall : (ids.map fun id => (id, ())).map Prod.fst = ids := by
          simp [Function.comp_def]
        rw [hmap, hfound]
        conv_rhs => rw [← hall]
        exact List.filter_sublist.map Prod.fst
      exact hnodup.sublist hsub

end

end AresaDb.Query
