import AresaDb.Lib.OrdMap
import AresaDb.Pd.Types

/-! # The range directory of a node

`RangeDirectory` of `aresadb-cluster/src/range.rs`: the ranges that run on one node, found by
range id and by Raft group id.  The two indexes are kept exact by the type itself: every runtime
stands under its own two ids, and nothing else stands anywhere.

A runtime is represented by the descriptor it was opened with.  The source uses hash maps; where
it lists them the order is unspecified, and here it is the order of the ids. -/

namespace AresaDb.Cluster

open AresaDb.Pd (RangeId GroupId NodeId RangeDescriptor)

/-- A running range. -/
structure RangeRuntime where
  descriptor : RangeDescriptor
deriving DecidableEq, Repr

def RangeRuntime.rangeId (r : RangeRuntime) : RangeId := r.descriptor.rangeId

def RangeRuntime.groupId (r : RangeRuntime) : GroupId := r.descriptor.raftGroupId

inductive RangeDirectoryError where
  | duplicateRangeId (rangeId : RangeId)
  | duplicateGroupId (groupId : GroupId)
deriving DecidableEq, Repr

def RangeDirectoryError.display : RangeDirectoryError → String
  | duplicateRangeId rangeId => s!"range id {rangeId} is already registered"
  | duplicateGroupId groupId => s!"raft_group_id {groupId} is already registered"

/-- The runtimes of a node, with both indexes exact. -/
structure RangeDirectory where
  byRange : OrdMap RangeId RangeRuntime
  byGroup : OrdMap GroupId RangeRuntime
  range_exact : ∀ (i : RangeId) (r : RangeRuntime), byRange[i]? = some r →
    r.rangeId = i ∧ byGroup[r.groupId]? = some r
  group_exact : ∀ (g : GroupId) (r : RangeRuntime), byGroup[g]? = some r →
    r.groupId = g ∧ byRange[r.rangeId]? = some r

namespace RangeDirectory

variable (dir : RangeDirectory)

def new : RangeDirectory where
  byRange := ∅
  byGroup := ∅
  range_exact := by simp
  group_exact := by simp

/-- Look a range up by its id. -/
def getRange (rangeId : RangeId) : Option RangeRuntime := dir.byRange[rangeId]?

/-- Look a range up by its group id. -/
def getGroup (groupId : GroupId) : Option RangeRuntime := dir.byGroup[groupId]?

/-- The descriptors of the registered ranges. -/
def descriptors : List RangeDescriptor := dir.byRange.values.map (·.descriptor)

/-- The directory with one more runtime, whose two ids are free. -/
def insertFresh (r : RangeRuntime) (hrange : dir.byRange[r.rangeId]? = none)
    (hgroup : dir.byGroup[r.groupId]? = none) : RangeDirectory where
  byRange := dir.byRange.insert r.rangeId r
  byGroup := dir.byGroup.insert r.groupId r
  range_exact := by
    intro i t ht
    by_cases hi : r.rangeId = i
    · subst hi
      rw [OrdMap.get_insert_self] at ht
      cases ht
      exact ⟨rfl, OrdMap.get_insert_self _ _ _⟩
    · rw [OrdMap.get_insert_of_ne _ _ hi] at ht
      obtain ⟨hid, hg⟩ := dir.range_exact i t ht
      refine ⟨hid, ?_⟩
      rw [OrdMap.get_insert_of_ne _ _ ?_]
      · exact hg
      · intro he
        rw [← he, hgroup] at hg
        cases hg
  group_exact := by
    intro g t ht
    by_cases hg : r.groupId = g
    · subst hg
      rw [OrdMap.get_insert_self] at ht
      cases ht
      exact ⟨rfl, OrdMap.get_insert_self _ _ _⟩
    · rw [OrdMap.get_insert_of_ne _ _ hg] at ht
      obtain ⟨hid, hr⟩ := dir.group_exact g t ht
      refine ⟨hid, ?_⟩
      rw [OrdMap.get_insert_of_ne _ _ ?_]
      · exact hr
      · intro he
        rw [← he, hrange] at hr
        cases hr

/-- The directory of a node that runs one range. -/
def single (r : RangeRuntime) : RangeDirectory :=
  new.insertFresh r (OrdMap.get_empty _) (OrdMap.get_empty _)

/-- Register a runtime unless one of its ids is taken. -/
def insert (r : RangeRuntime) : Except RangeDirectoryError RangeDirectory :=
  if hrange : dir.byRange[r.rangeId]? = none then
    if hgroup : dir.byGroup[r.groupId]? = none then .ok (dir.insertFresh r hrange hgroup)
    else .error (.duplicateGroupId r.groupId)
  else .error (.duplicateRangeId r.rangeId)

/-- The directory without a registered runtime. -/
def erase (r : RangeRuntime) (hr : dir.byRange[r.rangeId]? = some r) : RangeDirectory where
  byRange := dir.byRange.erase r.rangeId
  byGroup := dir.byGroup.erase r.groupId
  range_exact := by
    intro i t ht
    by_cases hi : r.rangeId = i
    · subst hi
      simp at ht
    · rw [OrdMap.get_erase_of_ne _ hi] at ht
      obtain ⟨hid, hg⟩ := dir.range_exact i t ht
      refine ⟨hid, ?_⟩
      rw [OrdMap.get_erase_of_ne _ ?_]
      · exact hg
      · intro he
        rw [← he, (dir.range_exact _ r hr).2] at hg
        cases hg
        exact hi hid
  group_exact := by
    intro g t ht
    by_cases hg : r.groupId = g
    · subst hg
      simp at ht
    · rw [OrdMap.get_erase_of_ne _ hg] at ht
      obtain ⟨hid, ht'⟩ := dir.group_exact g t ht
      refine ⟨hid, ?_⟩
      rw [OrdMap.get_erase_of_ne _ ?_]
      · exact ht'
      · intro he
        rw [← he, hr] at ht'
        cases ht'
        exact hg hid

/-- Remove a range by its id; the runtime is handed to the caller. -/
def remove (rangeId : RangeId) : Option RangeRuntime × RangeDirectory :=
  match h : dir.byRange[rangeId]? with
  | none => (none, dir)
  | some r => (some r, dir.erase r (by rw [(dir.range_exact rangeId r h).1, h]))

/-! ### What the operations do -/

variable {dir}

theorem rangeId_of_getRange {i : RangeId} {r : RangeRuntime} (h : dir.getRange i = some r) :
    r.rangeId = i := (dir.range_exact i r h).1

/-- A registration succeeds when both ids are free. -/
theorem insert_of_free {r : RangeRuntime} (hrange : dir.getRange r.rangeId = none)
    (hgroup : ∀ i t, dir.getRange i = some t → t.groupId ≠ r.groupId) :
    ∃ dir', dir.insert r = .ok dir' := by
  have hg : dir.byGroup[r.groupId]? = none := by
    by_contra hne
    obtain ⟨t, ht⟩ := Option.ne_none_iff_exists'.mp hne
    obtain ⟨hid, hr⟩ := dir.group_exact _ t ht
    exact hgroup _ t hr hid
  have hr : dir.byRange[r.rangeId]? = none := hrange
  unfold insert
  rw [dif_pos hr, dif_pos hg]
  exact ⟨_, rfl⟩

/-- A successful registration adds the runtime under a free id. -/
theorem getRange_insert {r : RangeRuntime} {dir' : RangeDirectory} (h : dir.insert r = .ok dir') :
    dir.getRange r.rangeId = none ∧
      ∀ i, dir'.getRange i = if r.rangeId = i then some r else dir.getRange i := by
  unfold insert at h
  split_ifs at h with hrange hgroup
  cases h
  refine ⟨hrange, ?_⟩
  intro i
  exact OrdMap.get_insert dir.byRange r.rangeId i r

theorem getRange_remove (rangeId i : RangeId) :
    (dir.remove rangeId).2.getRange i = if rangeId = i then none else dir.getRange i := by
  unfold remove
  split
  next h =>
    by_cases hi : rangeId = i
    · rw [if_pos hi, ← hi]
      exact h
    · rw [if_neg hi]
  next r h =>
    have hid := (dir.range_exact rangeId r h).1
    show (dir.byRange.erase r.rangeId)[i]? = _
    rw [OrdMap.get_erase, hid]
    rfl

theorem mem_descriptors {d : RangeDescriptor} :
    d ∈ dir.descriptors ↔ dir.getRange d.rangeId = some ⟨d⟩ := by
  unfold descriptors
  rw [List.mem_map]
  constructor
  · rintro ⟨r, hr, rfl⟩
    obtain ⟨i, hi⟩ := (OrdMap.mem_values _ r).mp hr
    have hid := (dir.range_exact i r hi).1
    show dir.byRange[r.rangeId]? = some r
    rw [hid, hi]
  · intro h
    exact ⟨⟨d⟩, (OrdMap.mem_values _ _).mpr ⟨_, h⟩, rfl⟩

end RangeDirectory

end AresaDb.Cluster
