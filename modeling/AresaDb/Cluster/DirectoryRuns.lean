import AresaDb.Cluster.Directory
import AresaDb.Lib.Keyed
import AresaDb.Lib.Run

/-! # Runs of the range directory

`RangeDirectory` of `aresadb-cluster/src/range.rs` once more, with nothing that ties its two hash
maps to each other but the calls that write them.  Every call holds the lock from its beginning to
its end, so that what happens to a directory is a sequence of calls.

A runtime is registered when a call has inserted it and none since has taken it out (`Registered`).
After every sequence of calls both maps are indexes of the registered runtimes
(`directory_mirrored`); with the Raft instances forgotten they are a `RangeDirectory`. -/

namespace AresaDb.Cluster

open AresaDb.Pd (RangeId GroupId RangeDescriptor)

/-- A runtime as the directory shares it: the Raft instance that drives it, by a number, and its
range.  Two runtimes of one descriptor have different instances. -/
structure SharedRuntime where
  raft : ℕ
  range : RangeRuntime
deriving DecidableEq, Repr

def SharedRuntime.rangeId (r : SharedRuntime) : RangeId := r.range.rangeId

def SharedRuntime.groupId (r : SharedRuntime) : GroupId := r.range.groupId

/-- The two hash maps behind the lock. -/
structure RangeDirectoryInner where
  byRange : OrdMap RangeId SharedRuntime
  byGroup : OrdMap GroupId SharedRuntime

namespace RangeDirectoryInner

def new : RangeDirectoryInner := ⟨∅, ∅⟩

variable (dir : RangeDirectoryInner)

/-- Register a runtime in both maps; both ids are looked up before either map is written. -/
def insert (runtime : SharedRuntime) : Except RangeDirectoryError Unit × RangeDirectoryInner :=
  if dir.byRange[runtime.rangeId]?.isSome then
    (.error (.duplicateRangeId runtime.rangeId), dir)
  else if dir.byGroup[runtime.groupId]?.isSome then
    (.error (.duplicateGroupId runtime.groupId), dir)
  else
    (.ok (),
      { byRange := dir.byRange.insert runtime.rangeId runtime
        byGroup := dir.byGroup.insert runtime.groupId runtime })

/-- Remove a range by its id, and its group with it. -/
def remove (rangeId : RangeId) : Option SharedRuntime × RangeDirectoryInner :=
  match dir.byRange[rangeId]? with
  | none => (none, dir)
  | some runtime =>
      (some runtime,
        { byRange := dir.byRange.erase rangeId
          byGroup := dir.byGroup.erase runtime.groupId })

def drain : List SharedRuntime × RangeDirectoryInner := (dir.byRange.values, ⟨∅, ∅⟩)

def getRange (rangeId : RangeId) : Option SharedRuntime := dir.byRange[rangeId]?

def getGroup (raftGroupId : GroupId) : Option SharedRuntime := dir.byGroup[raftGroupId]?

/-- The Raft instance that a message for a group is handed to. -/
def raftFor (raftGroupId : GroupId) : Option ℕ := (dir.getGroup raftGroupId).map (·.raft)

theorem insert_eq (runtime : SharedRuntime) :
    (dir.byRange[runtime.rangeId]? = none ∧ dir.byGroup[runtime.groupId]? = none ∧
      dir.insert runtime = (.ok (), ⟨dir.byRange.insert runtime.rangeId runtime,
        dir.byGroup.insert runtime.groupId runtime⟩)) ∨
    ∃ e, dir.insert runtime = (.error e, dir) := by
  unfold insert
  by_cases hrange : dir.byRange[runtime.rangeId]?.isSome
  · exact .inr ⟨_, if_pos hrange⟩
  by_cases hgroup : dir.byGroup[runtime.groupId]?.isSome
  · exact .inr ⟨_, by rw [if_neg hrange, if_pos hgroup]⟩
  · refine .inl ⟨by simpa using hrange, by simpa using hgroup, ?_⟩
    rw [if_neg hrange, if_neg hgroup]

end RangeDirectoryInner

/-! ### Calls -/

/-- A call that writes. -/
inductive DirectoryCall where
  | insert (runtime : SharedRuntime)
  | remove (rangeId : RangeId)
  | drain

namespace DirectoryCall

def apply (dir : RangeDirectoryInner) : DirectoryCall → RangeDirectoryInner
  | insert runtime => (dir.insert runtime).2
  | remove rangeId => (dir.remove rangeId).2
  | drain => dir.drain.2

/-- The directory after a sequence of calls. -/
def after (calls : List DirectoryCall) : RangeDirectoryInner := Run.run apply .new calls

/-- The call takes the runtime out, if it is there. -/
def TakesOut (r : SharedRuntime) : DirectoryCall → Prop
  | insert _ => False
  | remove rangeId => rangeId = r.rangeId
  | drain => True

/-- Some call has inserted the runtime, with success, and none since has taken it out. -/
def Registered (calls : List DirectoryCall) (r : SharedRuntime) : Prop :=
  ∃ before rest, calls = before ++ insert r :: rest ∧
    ((after before).insert r).1 = .ok () ∧ ∀ c ∈ rest, ¬ c.TakesOut r

theorem after_concat (calls : List DirectoryCall) (c : DirectoryCall) :
    after (calls ++ [c]) = apply (after calls) c := Run.run_concat _ _ _ _

theorem not_registered_nil (r : SharedRuntime) : ¬ Registered [] r := by
  rintro ⟨before, rest, h, -⟩
  simp at h

/-- What one more call changes. -/
theorem registered_concat (calls : List DirectoryCall) (c : DirectoryCall) (r : SharedRuntime) :
    Registered (calls ++ [c]) r ↔
      Registered calls r ∧ ¬ c.TakesOut r ∨
        c = insert r ∧ ((after calls).insert r).1 = .ok () := by
  constructor
  · rintro ⟨before, rest, h, hok, hrest⟩
    rcases List.eq_nil_or_concat rest with rfl | ⟨rest, c', rfl⟩
    · -- The last call is the insertion.
      obtain ⟨rfl, hc⟩ := List.append_inj' h rfl
      obtain rfl := (List.cons.inj hc).1
      exact .inr ⟨rfl, hok⟩
    · rw [List.concat_eq_append, ← List.cons_append, ← List.append_assoc] at h
      obtain ⟨rfl, hc⟩ := List.append_inj' h rfl
      obtain rfl := (List.cons.inj hc).1
      rw [List.concat_eq_append, List.forall_mem_append, List.forall_mem_singleton] at hrest
      exact .inl ⟨⟨before, rest, rfl, hok, hrest.1⟩, hrest.2⟩
  · rintro (⟨⟨before, rest, rfl, hok, hrest⟩, hc⟩ | ⟨rfl, hok⟩)
    · refine ⟨before, rest ++ [c], by simp, hok, ?_⟩
      rw [List.forall_mem_append, List.forall_mem_singleton]
      exact ⟨hrest, hc⟩
    · exact ⟨calls, [], rfl, hok, by simp⟩

/-! ### Both maps are indexes -/

/-- Both maps of the directory hold the runtimes of a set, each under its own two ids. -/
structure Mirrors (dir : RangeDirectoryInner) (S : Set SharedRuntime) : Prop where
  range : OrdMap.IsKeyed dir.byRange SharedRuntime.rangeId S
  group : OrdMap.IsKeyed dir.byGroup SharedRuntime.groupId S

variable {dir : RangeDirectoryInner} {S : Set SharedRuntime}

theorem mirrors_new : Mirrors .new ∅ := ⟨OrdMap.isKeyed_empty _, OrdMap.isKeyed_empty _⟩

theorem Mirrors.congr (h : Mirrors dir S) {T : Set SharedRuntime} (hT : ∀ r, r ∈ S ↔ r ∈ T) :
    Mirrors dir T := ⟨h.range.congr hT, h.group.congr hT⟩

/-- A removal takes out the runtime with the id, if there is one. -/
theorem Mirrors.remove (h : Mirrors dir S) (rangeId : RangeId) :
    Mirrors (dir.remove rangeId).2 {r ∈ S | rangeId ≠ r.rangeId} := by
  unfold RangeDirectoryInner.remove
  cases hget : dir.byRange[rangeId]? with
  | none =>
      refine h.congr fun r => (and_iff_left_of_imp fun hr hid => ?_).symm
      rw [hid, h.range.get_key hr] at hget
      cases hget
  | some runtime =>
      obtain ⟨hmem, rfl⟩ := (h.range rangeId runtime).mp hget
      have hothers : ∀ r, r ∈ S \ {runtime} ↔ r ∈ {r ∈ S | runtime.rangeId ≠ r.rangeId} := by
        intro r
        refine and_congr_right fun hr => not_congr ?_
        exact ⟨fun heq => by rw [Set.mem_singleton_iff.mp heq],
          fun hid => (h.range.key_injOn hmem hr hid).symm⟩
      exact ⟨(h.range.erase hmem).congr hothers, (h.group.erase hmem).congr hothers⟩

/-- One call keeps the maps the indexes of what is registered. -/
theorem mirrors_apply {calls : List DirectoryCall} (c : DirectoryCall)
    (h : Mirrors (after calls) {r | Registered calls r}) :
    Mirrors (apply (after calls) c) {r | Registered (calls ++ [c]) r} := by
  cases c with
  | insert runtime =>
      rcases (after calls).insert_eq runtime with ⟨hrange, hgroup, heq⟩ | ⟨e, heq⟩
      · have hset : ∀ r, r ∈ Insert.insert runtime {r | Registered calls r} ↔
            r ∈ {r | Registered (calls ++ [insert runtime]) r} := by
          intro r
          rw [Set.mem_insert_iff, Set.mem_ofPred_eq, Set.mem_ofPred_eq, registered_concat,
            and_iff_left (by exact id), or_comm]
          refine or_congr_right ⟨?_, fun hr => (insert.inj hr.1).symm⟩
          rintro rfl
          exact ⟨rfl, by rw [heq]⟩
        rw [apply, heq]
        exact ⟨(h.range.insert hrange).congr hset, (h.group.insert hgroup).congr hset⟩
      · rw [apply, heq]
        refine h.congr fun r => ?_
        rw [Set.mem_ofPred_eq, Set.mem_ofPred_eq, registered_concat, and_iff_left (by exact id)]
        refine (or_iff_left ?_).symm
        rintro ⟨hr, hok⟩
        obtain rfl := insert.inj hr
        rw [heq] at hok
        cases hok
  | remove rangeId =>
      refine (h.remove rangeId).congr fun r => ?_
      show Registered calls r ∧ rangeId ≠ r.rangeId ↔ Registered (calls ++ [remove rangeId]) r
      rw [registered_concat]
      exact (or_iff_left fun hr => by cases hr.1).symm
  | drain =>
      refine mirrors_new.congr fun r => iff_of_false (Set.notMem_empty r) ?_
      rw [Set.mem_ofPred_eq, registered_concat]
      rintro (⟨-, hout⟩ | ⟨hr, -⟩)
      · exact hout trivial
      · cases hr

theorem mirrors_after (calls : List DirectoryCall) :
    Mirrors (after calls) {r | Registered calls r} := by
  induction calls using List.reverseRecOn with
  | nil => exact mirrors_new.congr fun r => iff_of_false (Set.notMem_empty r) (not_registered_nil r)
  | append_singleton calls c ih =>
      rw [after_concat]
      exact mirrors_apply c ih

/-- **The directory's indexes mirror each other.**  After every sequence of calls a lookup by range
id and a lookup by group id find the registered runtimes, each under its own descriptor's ids; a
group leads to a runtime exactly when the runtime is registered for it and found by its range id; a
refused insertion changes nothing; and a message for a group is handed to the instance of the
runtime registered for it, if there is one. -/
theorem directory_mirrored (calls : List DirectoryCall) :
    (∀ i r, (after calls).getRange i = some r ↔ Registered calls r ∧ r.rangeId = i) ∧
    (∀ g r, (after calls).getGroup g = some r ↔ Registered calls r ∧ r.groupId = g) ∧
    (∀ g r, (after calls).getGroup g = some r ↔
      r.groupId = g ∧ (after calls).getRange r.rangeId = some r) ∧
    (∀ r e, ((after calls).insert r).1 = .error e → ((after calls).insert r).2 = after calls) ∧
    (∀ g raft, (after calls).raftFor g = some raft ↔
      ∃ r, Registered calls r ∧ r.groupId = g ∧ r.raft = raft) := by
  have h := mirrors_after calls
  refine ⟨h.range, h.group, h.range.mirror h.group, fun r e herror => ?_, fun g raft => ?_⟩
  · rcases (after calls).insert_eq r with ⟨-, -, heq⟩ | ⟨e', heq⟩
    · rw [heq] at herror
      cases herror
    · rw [heq]
  · unfold RangeDirectoryInner.raftFor
    rw [Option.map_eq_some_iff]
    refine exists_congr fun r => ?_
    rw [← and_assoc]
    exact and_congr_left fun _ => h.group g r

/-- Draining hands out the registered runtimes. -/
theorem mem_drain (calls : List DirectoryCall) (r : SharedRuntime) :
    r ∈ (after calls).drain.1 ↔ Registered calls r := (mirrors_after calls).range.mem_values r

/-! ### The directory without its instances -/

/-- The ranges of a directory whose maps mirror each other. -/
def Mirrors.directory (h : Mirrors dir S) : RangeDirectory where
  byRange := dir.byRange.map fun _ r => r.range
  byGroup := dir.byGroup.map fun _ r => r.range
  range_exact := by
    intro i r hr
    rw [OrdMap.get_map] at hr
    obtain ⟨shared, hget, rfl⟩ := Option.map_eq_some_iff.mp hr
    obtain ⟨hmem, hid⟩ := (h.range i shared).mp hget
    refine ⟨hid, ?_⟩
    rw [OrdMap.get_map]
    exact congrArg (Option.map _) (h.group.get_key hmem)
  group_exact := by
    intro g r hr
    rw [OrdMap.get_map] at hr
    obtain ⟨shared, hget, rfl⟩ := Option.map_eq_some_iff.mp hr
    obtain ⟨hmem, hid⟩ := (h.group g shared).mp hget
    refine ⟨hid, ?_⟩
    rw [OrdMap.get_map]
    exact congrArg (Option.map _) (h.range.get_key hmem)

theorem getRange_directory (h : Mirrors dir S) (i : RangeId) :
    h.directory.getRange i = (dir.getRange i).map (·.range) := OrdMap.get_map _ _ _

/-- A runtime is refused for the same reason, and found afterwards in the same place. -/
theorem insert_directory (h : Mirrors dir S) (r : SharedRuntime) :
    (∃ e, h.directory.insert r.range = .error e ∧ dir.insert r = (.error e, dir)) ∨
      ∃ d, h.directory.insert r.range = .ok d ∧ (dir.insert r).1 = .ok () ∧
        ∀ i, d.getRange i = ((dir.insert r).2.getRange i).map (·.range) := by
  have hrange : h.directory.byRange[r.range.rangeId]? = none ↔
      ¬ dir.byRange[r.rangeId]?.isSome := by
    have hget := getRange_directory h r.rangeId
    rw [Option.not_isSome_iff_eq_none, ← Option.map_eq_none_iff (f := SharedRuntime.range)]
    exact iff_of_eq (congrArg (· = none) hget)
  have hgroup : h.directory.byGroup[r.range.groupId]? = none ↔
      ¬ dir.byGroup[r.groupId]?.isSome := by
    have hget := OrdMap.get_map dir.byGroup SharedRuntime.range r.groupId
    rw [Option.not_isSome_iff_eq_none, ← Option.map_eq_none_iff (f := SharedRuntime.range)]
    exact iff_of_eq (congrArg (· = none) hget)
  unfold RangeDirectory.insert RangeDirectoryInner.insert
  by_cases hr : dir.byRange[r.rangeId]?.isSome
  · exact .inl ⟨_, dif_neg (hrange.not.mpr (not_not_intro hr)), if_pos hr⟩
  rw [dif_pos (hrange.mpr hr), if_neg hr]
  by_cases hg : dir.byGroup[r.groupId]?.isSome
  · exact .inl ⟨_, dif_neg (hgroup.not.mpr (not_not_intro hg)), if_pos hg⟩
  rw [dif_pos (hgroup.mpr hg), if_neg hg]
  refine .inr ⟨_, rfl, rfl, fun i => ?_⟩
  show (h.directory.byRange.insert r.rangeId r.range)[i]? =
    (dir.byRange.insert r.rangeId r)[i]?.map _
  rw [OrdMap.get_insert, OrdMap.get_insert, apply_ite (Option.map _)]
  exact if_congr Iff.rfl rfl (getRange_directory h i)

/-- A removal hands out the range of the runtime, and leaves the others in their places. -/
theorem remove_directory (h : Mirrors dir S) (rangeId : RangeId) :
    (h.directory.remove rangeId).1 = (dir.remove rangeId).1.map (·.range) ∧
      ∀ i, (h.directory.remove rangeId).2.getRange i =
        ((dir.remove rangeId).2.getRange i).map (·.range) := by
  constructor
  · have hget := getRange_directory h rangeId
    have hremoved : (h.directory.remove rangeId).1 = h.directory.getRange rangeId := by
      unfold RangeDirectory.remove RangeDirectory.getRange
      split
      next hnone => exact hnone.symm
      next r hr => exact hr.symm
    rw [hremoved, hget]
    unfold RangeDirectoryInner.remove RangeDirectoryInner.getRange
    cases dir.byRange[rangeId]? <;> rfl
  · intro i
    have hi : (dir.remove rangeId).2.getRange i = if rangeId = i then none else dir.getRange i := by
      unfold RangeDirectoryInner.remove RangeDirectoryInner.getRange
      cases hget : dir.byRange[rangeId]? with
      | none =>
          split_ifs with hid
          · rw [← hid, hget]
          · rfl
      | some r => exact OrdMap.get_erase _ _ _
    rw [RangeDirectory.getRange_remove, hi, getRange_directory]
    split_ifs <;> rfl

end DirectoryCall

end AresaDb.Cluster
