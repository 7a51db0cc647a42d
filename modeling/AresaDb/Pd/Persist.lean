import AresaDb.Core.Storage
import AresaDb.Pd.Types

/-! # Row keys of the placement driver

The on-disk layout of `persist.rs`: a range row sits under `/m/pd/r/` and a node row under
`/m/pd/n/`, each followed by the big-endian id, and the Raft meta row under a reserved `0xff` key.
The id is read back from a row key exactly (`rangeIdFromKey_eq_some_iff`), no two kinds of row
share a key, and the half-open scan of a prefix meets the rows of that kind and no others. -/

namespace AresaDb.Pd

open ByteOrder AresaDb.Core

/-- Prefix of the range rows, `/m/pd/r/`. -/
def rangePrefix : Bytes := [47, 109, 47, 112, 100, 47, 114, 47]

/-- Prefix of the node rows, `/m/pd/n/`. -/
def nodePrefix : Bytes := [47, 109, 47, 112, 100, 47, 110, 47]

/-- Row key of the Raft meta row, `0xff` followed by `/pd/sm/meta`. -/
def pdRaftMetaKey : Bytes := [255, 47, 112, 100, 47, 115, 109, 47, 109, 101, 116, 97]

/-- A row key: a prefix and a big-endian id. -/
def idKey (pre : Bytes) (id : UInt64) : Bytes := pre ++ beBytes id

def rangeKey (rangeId : RangeId) : Bytes := idKey rangePrefix rangeId

def nodeKey (nodeId : NodeId) : Bytes := idKey nodePrefix nodeId

/-- `key` without a leading `pre`. -/
def stripPrefix (pre key : Bytes) : Option Bytes :=
  if pre <+: key then some (key.drop pre.length) else none

/-- The id in a row key of the given prefix. -/
def idFromKey (pre key : Bytes) : Option UInt64 := do
  let rest ← stripPrefix pre key
  if rest.length ≠ 8 then none else some (ofBeBytes rest)

def rangeIdFromKey (key : Bytes) : Option RangeId := idFromKey rangePrefix key

def nodeIdFromKey (key : Bytes) : Option NodeId := idFromKey nodePrefix key

/-- End of a prefix scan: the prefix with its last byte bumped; `none` is the failed assertion on
an empty prefix or one that ends in `0xff`. -/
def prefixUpperBound (pre : Bytes) : Option Bytes :=
  match pre.getLast? with
  | none => none
  | some last => if last = 0xff then none else some (pre.dropLast ++ [last + 1])

/-! ### Reading ids back -/

theorem beBytes_ofBeBytes {b : Bytes} (h : b.length = 8) : beBytes (ofBeBytes b) = b := by
  match b, h with
  | [b₀, b₁, b₂, b₃, b₄, b₅, b₆, b₇], _ =>
      have h₀ := b₀.toNat_lt
      have h₁ := b₁.toNat_lt
      have h₂ := b₂.toNat_lt
      have h₃ := b₃.toNat_lt
      have h₄ := b₄.toNat_lt
      have h₅ := b₅.toNat_lt
      have h₆ := b₆.toNat_lt
      have h₇ := b₇.toNat_lt
      simp only [beBytes, ofBeBytes, List.map_cons, List.map_nil, List.foldl_cons, List.foldl_nil,
        UInt64.toNat_ofNat']
      simp only [List.cons.injEq, and_true]
      refine ⟨?_, ?_, ?_, ?_, ?_, ?_, ?_, ?_⟩ <;>
      · apply UInt8.toNat.inj
        rw [UInt8.toNat_ofNat']
        omega

theorem stripPrefix_eq_some_iff {pre key rest : Bytes} :
    stripPrefix pre key = some rest ↔ key = pre ++ rest := by
  unfold stripPrefix
  constructor
  · intro h
    split_ifs at h with hp
    obtain ⟨t, rfl⟩ := hp
    rw [List.drop_left] at h
    rw [Option.some.inj h]
  · intro h
    subst h
    rw [if_pos (List.prefix_append _ _), List.drop_left]

/-- **Ids are read back exactly**: a row key yields an id if and only if it is the key of that
id. -/
theorem idFromKey_eq_some_iff {pre key : Bytes} {id : UInt64} :
    idFromKey pre key = some id ↔ key = idKey pre id := by
  unfold idFromKey idKey
  rw [Option.bind_eq_bind, Option.bind_eq_some_iff]
  constructor
  · rintro ⟨rest, hrest, hid⟩
    rw [stripPrefix_eq_some_iff] at hrest
    split_ifs at hid with hlen
    have hlen' : rest.length = 8 := not_not.mp hlen
    rw [hrest, ← Option.some.inj hid, beBytes_ofBeBytes hlen']
  · intro h
    refine ⟨beBytes id, stripPrefix_eq_some_iff.mpr h, ?_⟩
    rw [if_neg (by simp), ofBeBytes_beBytes]

theorem rangeIdFromKey_eq_some_iff {key : Bytes} {id : RangeId} :
    rangeIdFromKey key = some id ↔ key = rangeKey id := idFromKey_eq_some_iff

theorem nodeIdFromKey_eq_some_iff {key : Bytes} {id : NodeId} :
    nodeIdFromKey key = some id ↔ key = nodeKey id := idFromKey_eq_some_iff

@[simp] theorem rangeIdFromKey_rangeKey (id : RangeId) : rangeIdFromKey (rangeKey id) = some id :=
  rangeIdFromKey_eq_some_iff.mpr rfl

@[simp] theorem nodeIdFromKey_nodeKey (id : NodeId) : nodeIdFromKey (nodeKey id) = some id :=
  nodeIdFromKey_eq_some_iff.mpr rfl

/-! ### Keys do not collide -/

theorem rangeKey_inj {i j : RangeId} : rangeKey i = rangeKey j ↔ i = j := by
  unfold rangeKey idKey
  rw [List.append_cancel_left_eq]
  exact ⟨fun h => beBytes_injective h, fun h => congrArg beBytes h⟩

theorem nodeKey_inj {i j : NodeId} : nodeKey i = nodeKey j ↔ i = j := by
  unfold nodeKey idKey
  rw [List.append_cancel_left_eq]
  exact ⟨fun h => beBytes_injective h, fun h => congrArg beBytes h⟩

/-- A row key of one prefix yields no id under another of the same length. -/
theorem idFromKey_idKey_of_ne {pre pre' : Bytes} (hlen : pre.length = pre'.length)
    (hne : pre ≠ pre') (id : UInt64) : idFromKey pre (idKey pre' id) = none := by
  cases h : idFromKey pre (idKey pre' id) with
  | none => rfl
  | some j =>
      have hkey := idFromKey_eq_some_iff.mp h
      exact absurd (List.append_inj_left hkey hlen.symm).symm hne

theorem rangePrefix_ne_nodePrefix : rangePrefix ≠ nodePrefix := by decide

@[simp] theorem rangeIdFromKey_nodeKey (id : NodeId) : rangeIdFromKey (nodeKey id) = none := by
  exact idFromKey_idKey_of_ne (by decide) rangePrefix_ne_nodePrefix id

@[simp] theorem rangeIdFromKey_metaKey : rangeIdFromKey pdRaftMetaKey = none := by decide

@[simp] theorem nodeIdFromKey_metaKey : nodeIdFromKey pdRaftMetaKey = none := by decide

theorem rangeKey_ne_nodeKey (i : RangeId) (j : NodeId) : rangeKey i ≠ nodeKey j := by
  intro h
  have := rangeIdFromKey_rangeKey i
  rw [h] at this
  simp at this

theorem rangeKey_ne_metaKey (i : RangeId) : rangeKey i ≠ pdRaftMetaKey := by
  intro h
  have := rangeIdFromKey_rangeKey i
  rw [h] at this
  simp at this

theorem nodeKey_ne_metaKey (i : NodeId) : nodeKey i ≠ pdRaftMetaKey := by
  intro h
  have := nodeIdFromKey_nodeKey i
  rw [h] at this
  simp at this

/-! ### Prefix scans -/

/-- The half-open interval up to the bumped prefix holds exactly the keys with that prefix. -/
theorem mem_prefixUpperBound_iff {pre up key : Bytes} (h : prefixUpperBound pre = some up) :
    pre ≤ key ∧ key < up ↔ pre <+: key := by
  unfold prefixUpperBound at h
  cases hlast : pre.getLast? with
  | none => simp [hlast] at h
  | some last =>
      simp only [hlast] at h
      split_ifs at h with hff
      have hpre : pre.dropLast ++ [last] = pre := List.dropLast_append_getLast? last hlast
      have hkey := between_bump_iff (p := pre.dropLast) (k := key) hff
      rw [hpre] at hkey
      rw [← Option.some.inj h, hkey]

/-- What the scan of the range rows runs up to. -/
def rangeEnd : Bytes := [47, 109, 47, 112, 100, 47, 114, 48]

/-- What the scan of the node rows runs up to. -/
def nodeEnd : Bytes := [47, 109, 47, 112, 100, 47, 110, 48]

theorem prefixUpperBound_rangePrefix : prefixUpperBound rangePrefix = some rangeEnd := by decide

theorem prefixUpperBound_nodePrefix : prefixUpperBound nodePrefix = some nodeEnd := by decide

theorem prefix_idKey (pre : Bytes) (id : UInt64) : pre <+: idKey pre id := List.prefix_append _ _

/-- A row key of one prefix does not start with another of the same length. -/
theorem not_prefix_idKey {pre pre' : Bytes} (hlen : pre.length = pre'.length) (hne : pre ≠ pre')
    (id : UInt64) : ¬ pre <+: idKey pre' id := by
  intro ⟨t, ht⟩
  exact hne (List.append_inj_left ht hlen)

end AresaDb.Pd
