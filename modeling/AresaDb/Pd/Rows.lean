import AresaDb.Pd.CatalogLoad
import AresaDb.Pd.StateMachine

/-! # The rows of a catalog

`Stored K ranges nodes m rows` is the simulation relation between memory and disk: the backend
holds one row for each range, one for each node, the meta row if there is one, and nothing else.

Each single write keeps it, with the map updated accordingly; so the batch of an accepted command
takes the rows of the catalog before it to those of the catalog after it (`Effect.stored`), a scan
lists what the maps hold, and opening a backend rebuilds the catalog (`open_stored`). -/

namespace AresaDb.Pd

open ByteOrder AresaDb.Core

variable {K : PdCodec} {ranges : OrdMap RangeId RangeDescriptor} {nodes : OrdMap NodeId NodeInfo}
  {m : Option PersistedPdMeta} {rows : Rows}

/-- The backend holds the rows of the two maps and of the meta, and nothing else. -/
structure Stored (K : PdCodec) (ranges : OrdMap RangeId RangeDescriptor)
    (nodes : OrdMap NodeId NodeInfo) (m : Option PersistedPdMeta) (rows : Rows) : Prop where
  range : ∀ id : RangeId, rows[rangeKey id]? = ranges[id]?.map K.range.encode
  node : ∀ id : NodeId, rows[nodeKey id]? = nodes[id]?.map K.node.encode
  pdMeta : rows[pdRaftMetaKey]? = m.map K.pdMeta.encode
  other : ∀ key : Bytes, (∀ id, rangeKey id ≠ key) → (∀ id, nodeKey id ≠ key) →
    pdRaftMetaKey ≠ key → rows[key]? = none

theorem stored_empty : Stored K ∅ ∅ none ∅ := by
  constructor <;> simp

/-! ### Single writes -/

theorem Stored.putRange (h : Stored K ranges nodes m rows) (id : RangeId) (d : RangeDescriptor) :
    Stored K (ranges.insert id d) nodes m (rows.insert (rangeKey id) (K.range.encode d)) where
  range := by
    intro i
    rw [OrdMap.get_insert, OrdMap.get_insert]
    simp only [rangeKey_inj, h.range]
    split_ifs
    · rfl
    · rfl
  node := by
    intro i
    rw [OrdMap.get_insert_of_ne _ _ (rangeKey_ne_nodeKey id i), h.node]
  pdMeta := by rw [OrdMap.get_insert_of_ne _ _ (rangeKey_ne_metaKey id), h.pdMeta]
  other := by
    intro key hr hn hm
    rw [OrdMap.get_insert_of_ne _ _ (hr id), h.other key hr hn hm]

theorem Stored.eraseRange (h : Stored K ranges nodes m rows) (id : RangeId) :
    Stored K (ranges.erase id) nodes m (rows.erase (rangeKey id)) where
  range := by
    intro i
    rw [OrdMap.get_erase, OrdMap.get_erase]
    simp only [rangeKey_inj, h.range]
    split_ifs
    · rfl
    · rfl
  node := by
    intro i
    rw [OrdMap.get_erase_of_ne _ (rangeKey_ne_nodeKey id i), h.node]
  pdMeta := by rw [OrdMap.get_erase_of_ne _ (rangeKey_ne_metaKey id), h.pdMeta]
  other := by
    intro key hr hn hm
    rw [OrdMap.get_erase_of_ne _ (hr id), h.other key hr hn hm]

theorem Stored.putNode (h : Stored K ranges nodes m rows) (id : NodeId) (info : NodeInfo) :
    Stored K ranges (nodes.insert id info) m (rows.insert (nodeKey id) (K.node.encode info)) where
  range := by
    intro i
    rw [OrdMap.get_insert_of_ne _ _ (rangeKey_ne_nodeKey i id).symm, h.range]
  node := by
    intro i
    rw [OrdMap.get_insert, OrdMap.get_insert]
    simp only [nodeKey_inj, h.node]
    split_ifs
    · rfl
    · rfl
  pdMeta := by rw [OrdMap.get_insert_of_ne _ _ (nodeKey_ne_metaKey id), h.pdMeta]
  other := by
    intro key hr hn hm
    rw [OrdMap.get_insert_of_ne _ _ (hn id), h.other key hr hn hm]

theorem Stored.putMeta (h : Stored K ranges nodes m rows) (p : PersistedPdMeta) :
    Stored K ranges nodes (some p) (rows.insert pdRaftMetaKey (K.pdMeta.encode p)) where
  range := by
    intro i
    rw [OrdMap.get_insert_of_ne _ _ (rangeKey_ne_metaKey i).symm, h.range]
  node := by
    intro i
    rw [OrdMap.get_insert_of_ne _ _ (nodeKey_ne_metaKey i).symm, h.node]
  pdMeta := OrdMap.get_insert_self _ _ _
  other := by
    intro key hr hn hm
    rw [OrdMap.get_insert_of_ne _ _ hm, h.other key hr hn hm]

/-! ### The batch of an accepted command -/

namespace Catalog

variable {c c' : Catalog} {cmd : PdCommand} {resp : PdResponse}

theorem stored_withNode (h : Stored K c.ranges c.nodes m rows) {id : NodeId} {info : NodeInfo}
    (hid : info.nodeId = id) :
    Stored K (c.withNode id info).ranges (c.withNode id info).nodes m
      ((putNode K .new info).run rows) := by
  rw [putNode, WriteBatch.run_put, hid]
  exact h.putNode id info

theorem stored_withRange (h : Stored K c.ranges c.nodes m rows) {id : RangeId}
    {d : RangeDescriptor} (hid : d.rangeId = id) :
    Stored K (c.withRange id d).ranges (c.withRange id d).nodes m
      ((putRange K .new d).run rows) := by
  rw [putRange, WriteBatch.run_put, hid]
  exact h.putRange id d

/-- A split writes the row it finds under the parent's id, then that of the right-hand range. -/
theorem stored_splitInto (hr : c.Routed) {id : RangeId} {parent : RangeDescriptor} (key : Bytes)
    (hparent : c.ranges[id]? = some parent) :
    ∃ d, (c.splitInto id parent key).getRange id = some d ∧
      ∀ m rows, Stored K c.ranges c.nodes m rows →
        Stored K (c.splitInto id parent key).ranges (c.splitInto id parent key).nodes m
          ((putRange K (putRange K .new d) (c.splitRhs parent key)).run rows) := by
  have hlhs : (splitLhs parent key).rangeId = id := hr.keyed id parent hparent
  by_cases hid : id = c.nextRangeId
  · -- The allocated id is the parent's own: its row is written twice, with the same content.
    have hget : (c.splitInto id parent key).getRange id = some (c.splitRhs parent key) := by
      rw [getRange, ranges_splitInto, if_pos hid.symm]
    have hmap : (c.splitInto id parent key).ranges =
        c.ranges.insert c.nextRangeId (c.splitRhs parent key) := by
      unfold splitInto
      rw [hid, OrdMap.insert_insert_self]
    refine ⟨_, hget, ?_⟩
    intro m rows h
    rw [putRange, putRange, WriteBatch.run_put, WriteBatch.run_put, WriteBatch.run_new,
      OrdMap.insert_insert_self, hmap]
    exact h.putRange _ _
  · have hget : (c.splitInto id parent key).getRange id = some (splitLhs parent key) := by
      rw [getRange, ranges_splitInto, if_neg (fun he => hid he.symm), if_pos rfl]
    refine ⟨_, hget, ?_⟩
    intro m rows h
    rw [putRange, putRange, WriteBatch.run_put, WriteBatch.run_put, WriteBatch.run_new, hlhs]
    exact (h.putRange _ _).putRange _ _

/-- A merge writes the row of the left range and deletes that of the right one. -/
theorem stored_mergeInto (hr : c.Routed) {left right : RangeId} {l : RangeDescriptor}
    (r : RangeDescriptor) (hl : c.ranges[left]? = some l) (hne : left ≠ right)
    (h : Stored K c.ranges c.nodes m rows) :
    Stored K (c.mergeInto left right l r).ranges (c.mergeInto left right l r).nodes m
      (((putRange K .new (mergedLeft l r)).delete (rangeKey right)).run rows) := by
  have hleft : (mergedLeft l r).rangeId = left := hr.keyed left l hl
  have hmap : (c.mergeInto left right l r).ranges =
      (c.ranges.insert left (mergedLeft l r)).erase right := by
    rw [OrdMap.erase_insert_comm _ hne]
    rfl
  rw [WriteBatch.run_delete, putRange, WriteBatch.run_put, WriteBatch.run_new, hleft, hmap]
  exact (h.putRange _ _).eraseRange _

/-- **The batch is the difference**: the batch built for an accepted command takes the rows of the
catalog before it to the rows of the catalog after it. -/
theorem Effect.stored (he : Effect c cmd resp c') (hr : c.Routed) (hn : c.NodesKeyed) :
    ∃ batch, buildWriteBatch K cmd resp c' = some batch ∧
      ∀ m rows, Stored K c.ranges c.nodes m rows →
        Stored K c'.ranges c'.nodes m (batch.run rows) := by
  cases he with
  | register info =>
      have hget : (c.withNode info.nodeId (c.registeredInfo info)).getNode info.nodeId =
          some (c.registeredInfo info) := OrdMap.get_insert_self _ _ _
      refine ⟨_, by rw [buildWriteBatch, hget, Option.map_some], ?_⟩
      exact fun m rows h => stored_withNode h (registeredInfo_nodeId c info)
  | heartbeat id seen info hinfo =>
      refine ⟨_, by rw [buildWriteBatch, getNode, withNode, OrdMap.get_insert_self,
        Option.map_some], ?_⟩
      exact fun m rows h => stored_withNode h (hn id info hinfo)
  | create desc hspan hid hgroup hfree =>
      refine ⟨_, rfl, ?_⟩
      intro m rows h
      rw [putRange, WriteBatch.run_put]
      exact h.putRange _ _
  | split id key parent hparent hlo hhi =>
      obtain ⟨d, hget, hstored⟩ := stored_splitInto (K := K) hr key hparent
      exact ⟨_, by rw [buildWriteBatch, hget, Option.map_some], hstored⟩
  | merge left right l r hl hr' hadj hend hrep hne =>
      have hget : (c.mergeInto left right l r).getRange left = some (mergedLeft l r) := by
        rw [getRange, ranges_mergeInto, if_pos rfl]
      refine ⟨_, by rw [buildWriteBatch, hget, Option.map_some], ?_⟩
      exact fun m rows h => stored_mergeInto hr r hl hne h
  | membership id replicas epoch d hd hepoch =>
      refine ⟨_, by rw [buildWriteBatch, getRange, ranges_withRange, if_pos rfl, Option.map_some],
        ?_⟩
      exact fun m rows h => stored_withRange h (hr.keyed id d hd)
  | lease id lease d hd =>
      refine ⟨_, by rw [buildWriteBatch, getRange, ranges_withRange, if_pos rfl, Option.map_some],
        ?_⟩
      exact fun m rows h => stored_withRange h (hr.keyed id d hd)

end Catalog

/-! ### Opening a backend -/

open Catalog

theorem mapM_eq_some {α β : Type} {f : α → Option β} {l : List α} (h : ∀ x ∈ l, ∃ y, f x = some y) :
    ∃ ys, l.mapM f = some ys ∧ ∀ y, y ∈ ys ↔ ∃ x ∈ l, f x = some y := by
  induction l with
  | nil => exact ⟨[], rfl, by simp⟩
  | cons x l ih =>
      obtain ⟨y, hy⟩ := h x (by simp)
      obtain ⟨ys, hys, hmem⟩ := ih fun z hz => h z (by simp [hz])
      refine ⟨y :: ys, by simp [List.mapM_cons, hy, hys], ?_⟩
      intro z
      simp only [List.mem_cons, hmem, exists_eq_or_imp, hy, Option.some.injEq]
      rw [eq_comm]

/-- A scan of the rows of a map lists the map. -/
theorem scanRows_stored {α : Type} {codec : RowCodec α} {pre up : Bytes} {b : Backend}
    {t : OrdMap UInt64 α} (hup : prefixUpperBound pre = some up)
    (h : ∀ id : UInt64, b.rows[idKey pre id]? = t[id]?.map codec.encode) :
    ∃ l, scanRows codec pre b = .ok l ∧ OrdMap.Lists l t := by
  have hkey : ∀ k v, (k, v) ∈ (b.scan ⟨pre, up⟩).filter (fun kv => (idFromKey pre kv.1).isSome) ↔
      ∃ (id : UInt64) (x : α), k = idKey pre id ∧ t[id]? = some x ∧ v = codec.encode x := by
    intro k v
    rw [List.mem_filter, Backend.mem_scan]
    constructor
    · rintro ⟨⟨hv, _⟩, hid⟩
      obtain ⟨id, hid⟩ := Option.isSome_iff_exists.mp hid
      have hk : k = idKey pre id := idFromKey_eq_some_iff.mp hid
      rw [hk, h id, Option.map_eq_some_iff] at hv
      obtain ⟨x, hx, hxv⟩ := hv
      exact ⟨id, x, hk, hx, hxv.symm⟩
    · rintro ⟨id, x, rfl, hx, rfl⟩
      have hpre : pre <+: idKey pre id := List.prefix_append _ _
      obtain ⟨hle, hlt⟩ := (mem_prefixUpperBound_iff hup).mpr hpre
      refine ⟨⟨by rw [h id, hx]; rfl, ?_⟩, ?_⟩
      · simp [KeyRange.contains, hle, hlt]
      · exact Option.isSome_iff_exists.mpr ⟨id, idFromKey_eq_some_iff.mpr rfl⟩
  unfold scanRows
  rw [hup]
  have hdec : ∀ kv ∈ (b.scan ⟨pre, up⟩).filter (fun kv => (idFromKey pre kv.1).isSome),
      ∃ x, codec.decode kv.2 = some x := by
    intro kv hkv
    obtain ⟨id, x, _, _, hv⟩ := (hkey kv.1 kv.2).mp hkv
    exact ⟨x, by rw [hv, codec.decode_encode]⟩
  obtain ⟨l, hl, hmem⟩ := mapM_eq_some hdec
  refine ⟨l, by simp only [hl], ?_⟩
  intro x
  rw [hmem x]
  constructor
  · rintro ⟨kv, hkv, hx⟩
    obtain ⟨id, y, _, hy, hv⟩ := (hkey kv.1 kv.2).mp hkv
    rw [hv, codec.decode_encode] at hx
    exact ⟨id, by rw [hy, hx]⟩
  · rintro ⟨id, hx⟩
    exact ⟨(idKey pre id, codec.encode x), (hkey _ _).mpr ⟨id, x, rfl, hx, rfl⟩,
      codec.decode_encode x⟩

/-- **Opening rebuilds the catalog** from the rows, and the meta from its row. -/
theorem open_stored {b : Backend} (h : Stored K ranges nodes m b.rows) :
    ∃ l ns, OrdMap.Lists l ranges ∧ OrdMap.Lists ns nodes ∧
      PdRaftStateMachine.open_ K b =
        .ok { inner := { data := b, catalog := .load l ns (nextHint l) }
              pdMeta := m.getD .default } := by
  obtain ⟨l, hl, hlists⟩ := scanRows_stored prefixUpperBound_rangePrefix h.range
  obtain ⟨ns, hns, hnlists⟩ := scanRows_stored prefixUpperBound_nodePrefix h.node
  refine ⟨l, ns, hlists, hnlists, ?_⟩
  have hopen : PdStateMachine.open_ K b =
      .ok { data := b, catalog := .load l ns (nextHint l) } := by
    simp only [PdStateMachine.open_, rehydrate, scanRanges, scanNodes, hl, hns]
    rfl
  have hmeta : PdStateMachine.readRaftMeta { data := b, catalog := .load l ns (nextHint l) } =
      m.map K.pdMeta.encode := h.pdMeta
  unfold PdRaftStateMachine.open_
  simp only [hopen, bind, Except.bind, hmeta]
  cases m with
  | none => rfl
  | some p =>
      simp only [Option.map_some, K.pdMeta.decode_encode]
      rfl

/-- The hint adds nothing to the counter that the rows give. -/
theorem nextHint_le (l : List RangeDescriptor) :
    nextHint l ≤ l.foldl (fun n d => max n (d.rangeId + 1)) 1 := by
  have hmax := foldl_max_le_iff.mp (le_refl (l.foldl (fun n d => max n (d.rangeId + 1)) 1))
  unfold nextHint
  cases h : (l.map (·.rangeId)).max? with
  | none => exact hmax.1
  | some i =>
      obtain ⟨d, hd, rfl⟩ := List.mem_map.mp (List.max?_mem h)
      exact hmax.2 d hd

/-! ### Installing a snapshot -/

/-- A range delete up to the bumped end of a prefix deletes the keys with that prefix. -/
theorem get_run_deletePrefix {pre up : Bytes} (hup : prefixUpperBound pre = some up)
    (b : WriteBatch) (rows : Rows) (key : Bytes) :
    ((b.deleteRange pre up).run rows)[key]? = if pre <+: key then none else (b.run rows)[key]? := by
  rw [WriteBatch.get_run_deleteRange]
  simp only [mem_prefixUpperBound_iff hup]

theorem Stored.clearRanges (h : Stored K ranges nodes m rows) {b : WriteBatch} {rows₀ : Rows}
    (hb : b.run rows₀ = rows) :
    Stored K ∅ nodes m ((b.deleteRange rangePrefix rangeEnd).run rows₀) := by
  have hget : ∀ key, ((b.deleteRange rangePrefix rangeEnd).run rows₀)[key]? =
      if rangePrefix <+: key then none else rows[key]? := by
    intro key
    rw [get_run_deletePrefix prefixUpperBound_rangePrefix, hb]
  constructor
  · intro id
    rw [hget, rangeKey, if_pos (prefix_idKey _ _)]
    simp
  · intro id
    have hne := not_prefix_idKey (by decide) rangePrefix_ne_nodePrefix id
    rw [hget, nodeKey, if_neg hne, ← nodeKey, h.node]
  · rw [hget, if_neg (by decide), h.pdMeta]
  · intro key hr hn hm
    rw [hget, h.other key hr hn hm]
    simp

theorem Stored.clearNodes (h : Stored K ranges nodes m rows) {b : WriteBatch} {rows₀ : Rows}
    (hb : b.run rows₀ = rows) :
    Stored K ranges ∅ m ((b.deleteRange nodePrefix nodeEnd).run rows₀) := by
  have hget : ∀ key, ((b.deleteRange nodePrefix nodeEnd).run rows₀)[key]? =
      if nodePrefix <+: key then none else rows[key]? := by
    intro key
    rw [get_run_deletePrefix prefixUpperBound_nodePrefix, hb]
  constructor
  · intro id
    have hne := not_prefix_idKey (by decide) rangePrefix_ne_nodePrefix.symm id
    rw [hget, rangeKey, if_neg hne, ← rangeKey, h.range]
  · intro id
    rw [hget, nodeKey, if_pos (prefix_idKey _ _)]
    simp
  · rw [hget, if_neg (by decide), h.pdMeta]
  · intro key hr hn hm
    rw [hget, h.other key hr hn hm]
    simp

theorem Stored.putRanges (h : Stored K ranges nodes m rows) (l : List RangeDescriptor) :
    Stored K (ranges.insertAll (·.rangeId) id l) nodes m
      (rows.insertAll (fun d => rangeKey d.rangeId) K.range.encode l) := by
  induction l generalizing ranges rows with
  | nil => exact h
  | cons d l ih => exact ih (h.putRange d.rangeId d)

theorem Stored.putNodes (h : Stored K ranges nodes m rows) (l : List NodeInfo) :
    Stored K ranges (nodes.insertAll (·.nodeId) id l) m
      (rows.insertAll (fun i => nodeKey i.nodeId) K.node.encode l) := by
  induction l generalizing nodes rows with
  | nil => exact h
  | cons i l ih => exact ih (h.putNode i.nodeId i)

/-- The snapshot batch replaces the rows of one catalog by those of another. -/
theorem snapshotBatch_stored (K : PdCodec) (p : PersistedPdMeta) (l : List RangeDescriptor)
    (ns : List NodeInfo) :
    ∃ batch, PdStateMachine.snapshotBatch K l ns (K.pdMeta.encode p) = some batch ∧
      ∀ ranges nodes m rows, Stored K ranges nodes m rows →
        Stored K (OrdMap.insertAll ∅ (·.rangeId) id l) (OrdMap.insertAll ∅ (·.nodeId) id ns)
          (some p) (batch.run rows) := by
  refine ⟨_, by
    unfold PdStateMachine.snapshotBatch
    rw [prefixUpperBound_rangePrefix, prefixUpperBound_nodePrefix]
    rfl, ?_⟩
  intro ranges nodes m rows h
  have hcleared := (h.clearRanges (WriteBatch.run_new rows)).clearNodes rfl
  rw [WriteBatch.run_put]
  have hnodes : ∀ b : WriteBatch, ns.foldl (putNode K) b =
      b.putAll (fun i => nodeKey i.nodeId) K.node.encode ns := fun _ => rfl
  have hranges : ∀ b : WriteBatch, l.foldl (putRange K) b =
      b.putAll (fun d => rangeKey d.rangeId) K.range.encode l := fun _ => rfl
  rw [hnodes, hranges, WriteBatch.run_putAll, WriteBatch.run_putAll]
  exact ((hcleared.putRanges l).putNodes ns).putMeta p

/-- **Installing a payload** that lists a catalog leaves a hydrated copy in memory and its rows on
disk, whatever the replica held before. -/
theorem installSnapshot_stored (sm : PdRaftStateMachine) {payload : SnapshotPayload} {c : Catalog}
    (hr : c.Routed) (hn : c.NodesKeyed) (hl : OrdMap.Lists payload.ranges c.ranges)
    (hns : OrdMap.Lists payload.nodes c.nodes) :
    ∃ data, sm.installSnapshot K (K.payload.encode payload) =
        .ok { inner := { data, catalog := .load payload.ranges payload.nodes payload.nextRangeId }
              pdMeta := ⟨payload.lastApplied, payload.lastMembership⟩ } ∧
      ∀ ranges nodes m, Stored K ranges nodes m sm.inner.data.rows →
        Stored K c.ranges c.nodes (some ⟨payload.lastApplied, payload.lastMembership⟩)
            data.rows := by
  obtain ⟨batch, hbatch, hstored⟩ := snapshotBatch_stored K
    ⟨payload.lastApplied, payload.lastMembership⟩ payload.ranges payload.nodes
  refine ⟨sm.inner.data.writeBatch batch, ?_, ?_⟩
  · unfold PdRaftStateMachine.installSnapshot
    rw [K.payload.decode_encode]
    simp only [PdStateMachine.installCatalogSnapshot, hbatch]
    rfl
  · intro ranges nodes m h
    have hrows := hstored ranges nodes m _ h
    rw [OrdMap.insertAll_lists hl hr.keyed, OrdMap.insertAll_lists hns hn] at hrows
    rw [Backend.rows_writeBatch]
    exact hrows

/-- When the start-key index names live ranges only, the payload lists the catalog. -/
theorem snapshotPayload_lists {c : Catalog} (hr : c.Routed) (hlive : c.StartLive)
    (pdMeta : PersistedPdMeta) :
    ∃ payload, PdRaftStateMachine.snapshotPayload pdMeta c = some payload ∧
      payload.lastApplied = pdMeta.lastApplied ∧ payload.lastMembership = pdMeta.lastMembership ∧
      payload.nextRangeId = c.nextRangeId ∧ OrdMap.Lists payload.ranges c.ranges ∧
      OrdMap.Lists payload.nodes c.nodes := by
  obtain ⟨l, hl, hmem⟩ := mapM_eq_some hlive
  refine ⟨_, by
    unfold PdRaftStateMachine.snapshotPayload Catalog.iterRangesByStart
    rw [hl]
    rfl, rfl, rfl, rfl, ?_, ?_⟩
  · intro d
    rw [hmem d]
    constructor
    · rintro ⟨id, _, hd⟩
      exact ⟨id, hd⟩
    · rintro ⟨id, hd⟩
      exact ⟨id, (OrdMap.mem_values _ _).mpr ⟨d.startKey, hr.indexed id d hd⟩, hd⟩
  · intro info
    exact OrdMap.mem_values _ _

end AresaDb.Pd
