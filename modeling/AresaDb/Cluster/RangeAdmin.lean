import AresaDb.Cluster.Directory

/-! # Adding and removing ranges

`AdminService::add_range` and `AdminService::remove_range` of `aresadb-cluster/src/admin.rs`.  Both
write the directory in the middle of steps that may fail: an AddRange registers the runtime before
it bootstraps it, and a RemoveRange takes the runtime out before it shuts it down.  Only a removal
refused for outstanding references puts back what it took.

A call that fails before its last step leaves the directory as it was; `rpc_atomic_iff` says which
failures do not. -/

namespace AresaDb.Cluster

open ByteOrder AresaDb.Pd

/-! ### Messages -/

inductive Code where
  | invalidArgument
  | notFound
  | alreadyExists
  | failedPrecondition
  | internal
deriving DecidableEq, Repr

/-- A refusal, with the text that reaches the caller. -/
structure RpcStatus where
  code : Code
  message : String
deriving DecidableEq, Repr

structure ReplicaPlacementPb where
  nodeId : NodeId
  storeId : StoreId
  /-- The number of a role on the wire. -/
  role : ℤ
deriving DecidableEq, Repr

/-- A range descriptor on the wire. -/
structure DescriptorPb where
  rangeId : RangeId
  startKey : Bytes
  endKey : Bytes
  replicas : List ReplicaPlacementPb
  raftGroupId : GroupId
  epoch : UInt64
  generation : UInt64
  lease : Option LeaseInfo
deriving DecidableEq, Repr

structure AddRangeRequest where
  descriptor : Option DescriptorPb
  bootstrapAsVoter : Bool
deriving DecidableEq, Repr

structure RemoveRangeRequest where
  rangeId : RangeId
  force : Bool
deriving DecidableEq, Repr

def replicaFromPb (r : ReplicaPlacementPb) : Except RpcStatus ReplicaPlacement :=
  let role := r.role
  let nodeId := r.nodeId
  if role = 0 then
    .error ⟨.invalidArgument, s!"replica on node {nodeId} has unspecified role"⟩
  else if role = 1 then .ok ⟨nodeId, r.storeId, .voter⟩
  else if role = 2 then .ok ⟨nodeId, r.storeId, .learner⟩
  else .error ⟨.invalidArgument, s!"unknown replica role {role}"⟩

def descriptorFromPb (p : DescriptorPb) : Except RpcStatus RangeDescriptor :=
  if p.rangeId = 0 then .error ⟨.invalidArgument, "range_id must be non-zero"⟩
  else
    (p.replicas.mapM replicaFromPb).map fun replicas =>
      { rangeId := p.rangeId
        startKey := p.startKey
        endKey := p.endKey
        replicas := replicas
        raftGroupId := if p.raftGroupId = 0 then p.rangeId else p.raftGroupId
        epoch := p.epoch
        generation := p.generation
        lease := p.lease }

def replicaToPb (r : ReplicaPlacement) : ReplicaPlacementPb :=
  ⟨r.nodeId, r.storeId, match r.role with | .voter => 1 | .learner => 2⟩

def descriptorToPb (d : RangeDescriptor) : DescriptorPb where
  rangeId := d.rangeId
  startKey := d.startKey
  endKey := d.endKey
  replicas := d.replicas.map replicaToPb
  raftGroupId := d.raftGroupId
  epoch := d.epoch
  generation := d.generation
  lease := d.lease

/-! ### The calls -/

/-- How the steps of a call come out that depend on more than its request and the directory, each
failure with its text. -/
structure Outcomes where
  /-- `Config::validate` -/
  config : Option String
  openOnDisk : Option String
  /-- Another call gets in between, and the directory refuses the insertion. -/
  raced : Option RangeDirectoryError
  bootstrap : Option String
  /-- Others hold references to the runtime. -/
  shared : Bool
  shutdown : Option String

/-- `RangeDirectory::insert` -/
def Outcomes.register (o : Outcomes) (dir : RangeDirectory) (runtime : RangeRuntime) :
    Except RangeDirectoryError RangeDirectory :=
  match o.raced with
  | some e => .error e
  | none => dir.insert runtime

variable (o : Outcomes) (dir : RangeDirectory)

/-- From the descriptor on: open the range, register it, bootstrap it. -/
def openRange (descriptor : RangeDescriptor) (bootstrapAsVoter : Bool) :
    Except RpcStatus DescriptorPb × RangeDirectory :=
  let rangeId := descriptor.rangeId
  let raftGroupId := descriptor.raftGroupId
  if (dir.getRange rangeId).isSome then
    (.error ⟨.alreadyExists, s!"range {rangeId} is already registered"⟩, dir)
  else if (dir.getGroup raftGroupId).isSome then
    (.error ⟨.alreadyExists, s!"raft_group_id {raftGroupId} is already registered"⟩, dir)
  else
    match o.config with
    | some e => (.error ⟨.internal, s!"invalid raft config: {e}"⟩, dir)
    | none =>
        match o.openOnDisk with
        | some e => (.error ⟨.internal, s!"open range: {e}"⟩, dir)
        | none =>
            match o.register dir ⟨descriptor⟩ with
            | .error (.duplicateRangeId id) =>
                (.error ⟨.alreadyExists,
                  s!"range {id} is already registered (raced with concurrent AddRange)"⟩, dir)
            | .error (.duplicateGroupId id) =>
                (.error ⟨.alreadyExists,
                  s!"raft_group_id {id} is already registered (raced with concurrent AddRange)"⟩,
                  dir)
            | .ok dir =>
                if bootstrapAsVoter then
                  match o.bootstrap with
                  | some e => (.error ⟨.failedPrecondition, s!"bootstrap voter: {e}"⟩, dir)
                  | none => (.ok (descriptorToPb descriptor), dir)
                else (.ok (descriptorToPb descriptor), dir)

def addRange (req : AddRangeRequest) : Except RpcStatus DescriptorPb × RangeDirectory :=
  match req.descriptor with
  | none => (.error ⟨.invalidArgument, "descriptor is required"⟩, dir)
  | some p =>
      match descriptorFromPb p with
      | .error e => (.error e, dir)
      | .ok descriptor =>
          if descriptor.hasNonEmptySpan then openRange o dir descriptor req.bootstrapAsVoter
          else (.error ⟨.invalidArgument, "range descriptor span is empty or inverted"⟩, dir)

/-- What becomes of a runtime that has been taken out of the directory. -/
def closeRange (force : Bool) (runtime : RangeRuntime) :
    Except RpcStatus Unit × RangeDirectory :=
  let rangeId := runtime.rangeId
  if o.shared then
    if force then
      match o.shutdown with
      | some e => (.error ⟨.internal, s!"force shutdown raft: {e}"⟩, dir)
      | none => (.ok (), dir)
    else
      -- Put it back.
      match o.register dir runtime with
      | .error e =>
          let text := e.display
          (.error ⟨.internal, s!"re-insert range {rangeId} after aborted remove: {text}"⟩, dir)
      | .ok dir =>
          (.error ⟨.failedPrecondition,
            s!"range {rangeId} has outstanding references; retry with force=true"⟩, dir)
  else
    match o.shutdown with
    | some e => (.error ⟨.internal, s!"shutdown range: {e}"⟩, dir)
    | none => (.ok (), dir)

def removeRange (req : RemoveRangeRequest) : Except RpcStatus Unit × RangeDirectory :=
  let rangeId := req.rangeId
  if rangeId = 0 then (.error ⟨.invalidArgument, "range_id must be non-zero"⟩, dir)
  else
    match dir.remove rangeId with
    | (none, dir) => (.error ⟨.notFound, s!"range {rangeId} is not registered"⟩, dir)
    | (some runtime, dir) => closeRange o dir req.force runtime

/-- A call of one of the two. -/
inductive RangeCall where
  | add (req : AddRangeRequest)
  | remove (req : RemoveRangeRequest)

/-! ### Failed calls -/

/-- If the call fails, the registered ranges are those of before. -/
def Unchanged {α : Type} (out : Except RpcStatus α × RangeDirectory) : Prop :=
  ∀ e, out.1 = .error e → ∀ i, out.2.getRange i = dir.getRange i

def RangeCall.Atomic : RangeCall → Prop
  | add req => Unchanged dir (addRange o dir req)
  | remove req => Unchanged dir (removeRange o dir req)

/-- The request opens and registers a range. -/
def AddRangeRequest.Opens (req : AddRangeRequest) : Prop :=
  ∃ p d, req.descriptor = some p ∧ descriptorFromPb p = .ok d ∧ d.hasNonEmptySpan ∧
    dir.getRange d.rangeId = none ∧ dir.getGroup d.raftGroupId = none ∧
    o.config = none ∧ o.openOnDisk = none ∧ o.raced = none

/-- No step fails that comes after the last write to the directory, nor the one that puts a runtime
back. -/
def RangeCall.EndsClean : RangeCall → Prop
  | add req => req.Opens o dir → req.bootstrapAsVoter → o.bootstrap = none
  | remove req => req.rangeId ≠ 0 → (dir.getRange req.rangeId).isSome →
      if o.shared ∧ ¬ req.force then o.raced = none else o.shutdown = none

variable {o dir}

/-- Free ids are registered. -/
theorem register_of_free {r : RangeRuntime} (hraced : o.raced = none)
    (hrange : dir.getRange r.rangeId = none) (hgroup : dir.getGroup r.groupId = none) :
    ∃ dir', o.register dir r = .ok dir' ∧
      ∀ i, dir'.getRange i = if r.rangeId = i then some r else dir.getRange i := by
  have hfree : ∀ i t, dir.getRange i = some t → t.groupId ≠ r.groupId := by
    intro i t ht hg
    have hget := (dir.range_exact i t ht).2
    rw [hg] at hget
    exact Option.some_ne_none _ (hget.symm.trans hgroup)
  obtain ⟨dir', hinsert⟩ := RangeDirectory.insert_of_free hrange hfree
  refine ⟨dir', ?_, (RangeDirectory.getRange_insert hinsert).2⟩
  unfold Outcomes.register
  rw [hraced]
  exact hinsert

/-- What is taken out can be put back, and is. -/
theorem register_of_removed {i : RangeId} {r : RangeRuntime} (hr : dir.getRange i = some r)
    (hraced : o.raced = none) :
    ∃ dir', o.register (dir.remove i).2 r = .ok dir' ∧
      ∀ j, dir'.getRange j = dir.getRange j := by
  obtain rfl := RangeDirectory.rangeId_of_getRange hr
  have hrange : (dir.remove r.rangeId).2.getRange r.rangeId = none := by
    rw [RangeDirectory.getRange_remove, if_pos rfl]
  have hgroup : (dir.remove r.rangeId).2.getGroup r.groupId = none := by
    by_contra hne
    obtain ⟨t, ht⟩ := Option.ne_none_iff_exists'.mp hne
    obtain ⟨hg, hget⟩ := (dir.remove r.rangeId).2.group_exact _ t ht
    -- Another range of the group would have been registered beside it.
    have hget' : (dir.remove r.rangeId).2.getRange t.rangeId = some t := hget
    rw [RangeDirectory.getRange_remove] at hget'
    split_ifs at hget' with hid
    have htgroup := (dir.range_exact _ t hget').2
    have hrgroup := (dir.range_exact _ r hr).2
    rw [hg] at htgroup
    obtain rfl := Option.some.inj (htgroup.symm.trans hrgroup)
    exact hid rfl
  obtain ⟨dir', hinsert, hget⟩ := register_of_free hraced hrange hgroup
  refine ⟨dir', hinsert, fun j => ?_⟩
  rw [hget, RangeDirectory.getRange_remove]
  split_ifs with hj
  · rw [← hj, hr]
  · rfl

theorem addRange_of_opens {req : AddRangeRequest} (h : req.Opens o dir) :
    ∃ d dir', dir.getRange d.rangeId = none ∧ dir'.getRange d.rangeId = some ⟨d⟩ ∧
      addRange o dir req =
        match if req.bootstrapAsVoter then o.bootstrap else none with
        | some e => (.error ⟨.failedPrecondition, s!"bootstrap voter: {e}"⟩, dir')
        | none => (.ok (descriptorToPb d), dir') := by
  obtain ⟨p, d, hp, hd, hspan, hrange, hgroup, hconfig, hopen, hraced⟩ := h
  obtain ⟨dir', hregister, hget⟩ := register_of_free (r := ⟨d⟩) hraced hrange hgroup
  refine ⟨d, dir', hrange, by rw [hget]; exact if_pos rfl, ?_⟩
  simp only [addRange, openRange, hp, hd, hspan, hrange, hgroup, hconfig, hopen, hregister]
  cases req.bootstrapAsVoter with
  | false => rfl
  | true => cases o.bootstrap <;> rfl

/-- An AddRange that does not get as far writes nothing. -/
theorem addRange_of_not_opens {req : AddRangeRequest} (h : ¬ req.Opens o dir) :
    (addRange o dir req).2 = dir := by
  unfold addRange
  split
  · rfl
  next p hp =>
    split
    · rfl
    next d hd =>
      by_cases hspan : d.hasNonEmptySpan
      swap
      · rw [if_neg hspan]
      rw [if_pos hspan]
      unfold openRange
      by_cases hrange : (dir.getRange d.rangeId).isSome
      · rw [if_pos hrange]
      by_cases hgroup : (dir.getGroup d.raftGroupId).isSome
      · rw [if_neg hrange, if_pos hgroup]
      rw [if_neg hrange, if_neg hgroup]
      split
      · rfl
      next hconfig =>
        split
        · rfl
        next hopen =>
          split
          · rfl
          · rfl
          next dir' hregister =>
            -- The insertion was not refused.
            have hraced : o.raced = none := by
              unfold Outcomes.register at hregister
              split at hregister
              · cases hregister
              next hraced => exact hraced
            exact absurd ⟨p, d, hp, hd, hspan, by simpa using hrange, by simpa using hgroup,
              hconfig, hopen, hraced⟩ h

theorem removeRange_of_zero {req : RemoveRangeRequest} (h : req.rangeId = 0) :
    (removeRange o dir req).2 = dir := by
  unfold removeRange
  simp [h]

theorem removeRange_of_none {req : RemoveRangeRequest} (h : dir.getRange req.rangeId = none) :
    (removeRange o dir req).2 = dir := by
  have hremove : dir.remove req.rangeId = (none, dir) := by
    unfold RangeDirectory.remove
    split
    · rfl
    next r hr =>
      rw [RangeDirectory.getRange, hr] at h
      cases h
  unfold removeRange
  simp only [hremove]
  split_ifs <;> rfl

theorem removeRange_of_some {req : RemoveRangeRequest} (hid : req.rangeId ≠ 0) {r : RangeRuntime}
    (h : dir.getRange req.rangeId = some r) :
    removeRange o dir req = closeRange o (dir.remove req.rangeId).2 req.force r := by
  have hremove : dir.remove req.rangeId = (some r, (dir.remove req.rangeId).2) := by
    unfold RangeDirectory.remove
    split
    next hnone =>
      rw [RangeDirectory.getRange, hnone] at h
      cases h
    next r' hr =>
      rw [RangeDirectory.getRange, hr] at h
      obtain rfl := Option.some.inj h
      rfl
  unfold removeRange
  simp only [hid, if_false]
  rw [hremove]

theorem unchanged_of_eq {α : Type} {out : Except RpcStatus α × RangeDirectory} (h : out.2 = dir) :
    Unchanged dir out := by
  intro e _ i
  rw [h]

/-- A failed call that has written is noticed. -/
theorem not_unchanged {α : Type} {e : RpcStatus} {dir' : RangeDirectory} {i : RangeId}
    (h : dir'.getRange i ≠ dir.getRange i) :
    ¬ Unchanged dir ((.error e, dir') : Except RpcStatus α × RangeDirectory) :=
  fun hall => h (hall e rfl i)

theorem unchanged_of_ok {α : Type} (a : α) (dir' : RangeDirectory) :
    Unchanged dir ((.ok a, dir') : Except RpcStatus α × RangeDirectory) := by
  rintro e h
  cases h

/-- A runtime that has been taken out is still out after a failed shutdown. -/
theorem closeRange_unchanged_iff {i : RangeId} {r : RangeRuntime} (hr : dir.getRange i = some r)
    (force : Bool) :
    Unchanged dir (closeRange o (dir.remove i).2 force r) ↔
      if o.shared ∧ ¬ force then o.raced = none else o.shutdown = none := by
  have hout : (dir.remove i).2.getRange i ≠ dir.getRange i := by
    rw [RangeDirectory.getRange_remove, if_pos rfl, hr]
    exact Option.some_ne_none r ∘ Eq.symm
  unfold closeRange
  cases hshared : o.shared with
  | false =>
      cases hshutdown : o.shutdown with
      | none => exact iff_of_true (unchanged_of_ok _ _) (by simp)
      | some e => exact iff_of_false (not_unchanged hout) (by simp)
  | true =>
      cases force with
      | true =>
          cases hshutdown : o.shutdown with
          | none => exact iff_of_true (unchanged_of_ok _ _) (by simp)
          | some e => exact iff_of_false (not_unchanged hout) (by simp)
      | false =>
          cases hraced : o.raced with
          | none =>
              obtain ⟨dir', hregister, hget⟩ := register_of_removed hr hraced
              simp only [hregister]
              exact iff_of_true (fun e _ j => hget j) (by simp)
          | some e =>
              have hregister : o.register (dir.remove i).2 r = .error e := by
                unfold Outcomes.register
                rw [hraced]
              simp only [hregister]
              exact iff_of_false (not_unchanged hout) (by simp)

/-- **Which failed calls leave the directory as it was.**  An AddRange or RemoveRange that returns
an error has the same ranges registered as before, exactly if no step fails that comes after the
last write to the directory, nor the one that puts a runtime back. -/
theorem rpc_atomic_iff (o : Outcomes) (dir : RangeDirectory) (call : RangeCall) :
    call.Atomic o dir ↔ call.EndsClean o dir := by
  cases call with
  | add req =>
      rw [RangeCall.Atomic, RangeCall.EndsClean]
      by_cases hopens : req.Opens o dir
      · obtain ⟨d, dir', hfree, hheld, heq⟩ := addRange_of_opens hopens
        have hin : dir'.getRange d.rangeId ≠ dir.getRange d.rangeId := by
          rw [hfree, hheld]
          exact Option.some_ne_none _
        rw [heq]
        cases req.bootstrapAsVoter with
        | false => exact iff_of_true (unchanged_of_ok _ _) (by simp)
        | true =>
            cases o.bootstrap with
            | none => exact iff_of_true (unchanged_of_ok _ _) (by simp)
            | some e => exact iff_of_false (not_unchanged hin) (by simp [hopens])
      · exact iff_of_true (unchanged_of_eq (addRange_of_not_opens hopens)) fun h => absurd h hopens
  | remove req =>
      rw [RangeCall.Atomic, RangeCall.EndsClean]
      by_cases hid : req.rangeId = 0
      · exact iff_of_true (unchanged_of_eq (removeRange_of_zero hid)) fun h => absurd hid h
      cases hr : dir.getRange req.rangeId with
      | none => exact iff_of_true (unchanged_of_eq (removeRange_of_none hr)) fun _ h => by cases h
      | some r =>
          rw [removeRange_of_some hid hr, closeRange_unchanged_iff hr]
          simp [hid]

/-- A range on the whole keyspace. -/
def wholeRange : DescriptorPb where
  rangeId := 7
  startKey := []
  endKey := []
  replicas := []
  raftGroupId := 0
  epoch := 0
  generation := 0
  lease := none

/-- The range opens, and its first election does not end in time. -/
def noLeader : Outcomes where
  config := none
  openOnDisk := none
  raced := none
  bootstrap := some "timeout"
  shared := false
  shutdown := none

/-- An AddRange with a bootstrap that fails leaves the range registered, and the same call again is
refused for that. -/
theorem failed_bootstrap_registered :
    (addRange noLeader .new ⟨some wholeRange, true⟩).1 =
        .error ⟨.failedPrecondition, "bootstrap voter: timeout"⟩ ∧
      (addRange noLeader (addRange noLeader .new ⟨some wholeRange, true⟩).2
          ⟨some wholeRange, true⟩).1 =
        .error ⟨.alreadyExists, "range 7 is already registered"⟩ ∧
      ¬ (RangeCall.add ⟨some wholeRange, true⟩).Atomic noLeader .new := by
  have hfails : (addRange noLeader .new ⟨some wholeRange, true⟩).1 =
      .error ⟨.failedPrecondition, "bootstrap voter: timeout"⟩ := by decide +kernel
  refine ⟨hfails, by decide +kernel, fun hatomic => ?_⟩
  have hsame := hatomic _ hfails 7
  revert hsame
  decide +kernel

end AresaDb.Cluster
