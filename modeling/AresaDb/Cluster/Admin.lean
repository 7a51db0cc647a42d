import AresaDb.Core.Engines
import AresaDb.Raft.StateMachine

/-! # The write path of a node

`AdminService::write` of `aresadb-cluster/src/admin.rs`, from the request to the rows: decode the
client's batch, pick the Raft group of the target range, propose the batch as a command, and apply
the committed entry to the state machine of that range.

No step on the way looks at the operations, so one that the backend cannot take reaches every
replica.  `apply_safe_iff` says which requests the reference backend survives, with the meaning that
a key range has elsewhere. -/

namespace AresaDb.Cluster

open ByteOrder AresaDb.Core AresaDb.Raft
open AresaDb.Pd (LeaderId LogId RangeId RangeDescriptor)

/-- The range that exists on every node. -/
def defaultRangeId : RangeId := 1

structure WriteRequest where
  batch : Bytes
  rangeId : RangeId
deriving DecidableEq, Repr

structure WriteResponse where
  logIndex : UInt64
  opsApplied : UInt64
  rangeId : RangeId
deriving DecidableEq, Repr

/-- How a write is refused: an empty or undecodable batch, a range this node does not run, or a
group that did not take the proposal. -/
inductive Status where
  | emptyWriteBatch
  | badWriteBatch
  | notRegistered (rangeId : RangeId)
  | raft
deriving DecidableEq, Repr

/-! ### The request -/

section Request

variable (K : KvCodec)

/-- The range that a request is routed to. -/
def WriteRequest.target (req : WriteRequest) : RangeId :=
  if req.rangeId = 0 then defaultRangeId else req.rangeId

/-- Decode a request and find its group: the target range and the command to propose.  The default
range needs no registration. -/
def prepareWrite (registered : RangeId → Bool) (req : WriteRequest) :
    Except Status (RangeId × AresaCommand) :=
  if req.batch.isEmpty then .error .emptyWriteBatch
  else
    match K.batch.decode req.batch with
    | none => .error .badWriteBatch
    | some serialisable =>
        let batch := serialisable.toWriteBatch
        if req.target = defaultRangeId then .ok (req.target, .batch batch)
        else if registered req.target then .ok (req.target, .batch batch)
        else .error (.notRegistered req.target)

/-- The operations of the client's batch. -/
def WriteRequest.ops (req : WriteRequest) : List WriteOp :=
  match K.batch.decode req.batch with
  | none => []
  | some serialisable => serialisable.toWriteBatch.ops

theorem prepareWrite_eq_ok {registered : RangeId → Bool} {req : WriteRequest} {rangeId : RangeId}
    {cmd : AresaCommand} (h : prepareWrite K registered req = .ok (rangeId, cmd)) :
    rangeId = req.target ∧ cmd = .batch ⟨req.ops K⟩ ∧
      (req.target = defaultRangeId ∨ registered req.target = true) := by
  unfold prepareWrite at h
  by_cases hempty : req.batch.isEmpty = true
  · rw [if_pos hempty] at h
    cases h
  rw [if_neg hempty] at h
  cases hdecode : K.batch.decode req.batch with
  | none => simp [hdecode] at h
  | some sb =>
      have hops : (⟨req.ops K⟩ : WriteBatch) = sb.toWriteBatch := by
        unfold WriteRequest.ops
        rw [hdecode]
      rw [hops]
      simp only [hdecode] at h
      split_ifs at h with htarget hreg
      · cases h
        exact ⟨rfl, rfl, Or.inl htarget⟩
      · cases h
        exact ⟨rfl, rfl, Or.inr hreg⟩

/-- The entry of a proposed batch carries its operations unchanged. -/
@[simp] theorem entryOps_batch (logId : LogId) (batch : WriteBatch) :
    entryOps ⟨logId, .normal (.batch batch)⟩ = batch.ops := by
  show (SerializableWriteBatch.ofWriteBatch batch).toWriteBatch.ops = _
  rw [SerializableWriteBatch.toWriteBatch_ofWriteBatch]

end Request

/-! ### Applying on the reference backend -/

section Memory

variable (K : KvCodec)

/-- One round of `apply` over a `MemoryBackend`, `none` being a panic. -/
def applyOnMemory (data : Rows) (inner : PersistedMeta) (e : Entry) :
    Option (Rows × PersistedMeta) :=
  (MemoryBackend.writeBatch data (StateMachineStore.entryBatch K inner e)).map
    fun rows => (rows, entryMeta inner e)

/-- Each range delete of a list clears its key range, read as a `KeyRange`, and nothing else. -/
def DeletesExactly (data : Rows) (ops : List WriteOp) : Prop :=
  ∀ before start stop after, ops = before ++ .deleteRange start stop :: after →
    ∀ rows rows', before.foldlM MemoryBackend.applyOp data = some rows →
      MemoryBackend.applyOp rows (.deleteRange start stop) = some rows' →
      ∀ k, rows'[k]? = if (KeyRange.mk start stop).contains k then none else rows[k]?

/-- Applying the entry ends normally, and its range deletes delete exactly their ranges. -/
def ApplySafe (data : Rows) (inner : PersistedMeta) (e : Entry) : Prop :=
  (∃ out, applyOnMemory K data inner e = some out) ∧ DeletesExactly data (entryOps e)

/-- A range delete with its bounds in order and an upper bound. -/
def rangeBounded : WriteOp → Bool
  | .put _ _ => true
  | .delete _ => true
  | .deleteRange start stop => decide (start ≤ stop) && !stop.isEmpty

theorem ordered_entryBatch (inner : PersistedMeta) (e : Entry) :
    (StateMachineStore.entryBatch K inner e).ordered = (entryOps e).all WriteOp.ordered := by
  show ((entryOps e) ++ [WriteOp.put _ _]).all WriteOp.ordered = _
  rw [List.all_append]
  simp [WriteOp.ordered]

/-- The entry panics exactly when one of its range deletes is inverted. -/
theorem applyOnMemory_isSome_iff (data : Rows) (inner : PersistedMeta) (e : Entry) :
    (∃ out, applyOnMemory K data inner e = some out) ↔ (entryOps e).all WriteOp.ordered = true := by
  unfold applyOnMemory
  rw [MemoryBackend.writeBatch_eq, ordered_entryBatch]
  cases (entryOps e).all WriteOp.ordered with
  | true => simp
  | false => simp

/-- With an upper bound the two readings of a range agree. -/
theorem contains_of_stop_ne_nil {start stop : Bytes} (h : stop ≠ []) (k : Bytes) :
    (KeyRange.mk start stop).contains k = true ↔ start ≤ k ∧ k < stop := by
  unfold KeyRange.contains
  cases stop with
  | nil => exact absurd rfl h
  | cons x stop => simp

theorem deletesExactly_of_bounded {ops : List WriteOp} (h : ops.all rangeBounded = true)
    (data : Rows) : DeletesExactly data ops := by
  rintro before start stop after rfl rows rows' _ hop k
  have hb : rangeBounded (.deleteRange start stop) = true :=
    List.all_eq_true.mp h _ (by simp)
  simp only [rangeBounded, Bool.and_eq_true, decide_eq_true_eq, Bool.not_eq_true',
    List.isEmpty_eq_false_iff] at hb
  rw [MemoryBackend.applyOp_eq, WriteOp.ordered, if_pos (decide_eq_true hb.1)] at hop
  cases hop
  rw [WriteOp.get_run, WriteOp.writes]
  by_cases hk : start ≤ k ∧ k < stop
  · rw [if_pos hk, if_pos ((contains_of_stop_ne_nil hb.2 k).mpr hk)]
    rfl
  · rw [if_neg hk, if_neg (fun hc => hk ((contains_of_stop_ne_nil hb.2 k).mp hc))]
    rfl

/-- The greatest key that an operation names. -/
def topKey : WriteOp → Bytes
  | .put key _ => key
  | .delete key => key
  | .deleteRange _ stop => stop

theorem writes_of_topKey_lt {op : WriteOp} {k : Bytes} (h : topKey op < k) :
    op.writes k = none := by
  cases op with
  | put key value => exact if_neg (ne_of_lt h)
  | delete key => exact if_neg (ne_of_lt h)
  | deleteRange start stop => exact if_neg fun hk => lt_asymm h hk.2

/-- Some key lies beyond all that a list of operations names. -/
theorem exists_topKey_lt (ops : List WriteOp) : ∃ k, ∀ op ∈ ops, topKey op < k := by
  induction ops with
  | nil => exact ⟨[], by simp⟩
  | cons op ops ih =>
      obtain ⟨k, hk⟩ := ih
      have hlt : topKey op < topKey op ++ [0] := by
        have h := (append_lt_append_left_iff (topKey op) [] [0]).mpr (by decide)
        rwa [List.append_nil] at h
      refine ⟨max k (topKey op ++ [0]), ?_⟩
      intro p hp
      rcases List.mem_cons.mp hp with rfl | hp
      · exact lt_of_lt_of_le hlt (le_max_right _ _)
      · exact lt_of_lt_of_le (hk p hp) (le_max_left _ _)

/-- A list that runs to its end is the fold of its operations. -/
theorem foldlM_applyOp {ops : List WriteOp} (h : ops.all WriteOp.ordered = true) (data : Rows) :
    ops.foldlM MemoryBackend.applyOp data = some (ops.foldl WriteOp.run data) := by
  have hordered : (WriteBatch.mk ops).ordered = true := h
  have hbatch := MemoryBackend.writeBatch_eq data ⟨ops⟩
  rw [if_pos hordered] at hbatch
  exact hbatch

/-- A range delete without bounds is ordered, but deletes nothing. -/
theorem not_deletesExactly_unbounded {before : List WriteOp} (after : List WriteOp)
    (h : before.all WriteOp.ordered = true) :
    ∃ data, ¬DeletesExactly data (before ++ .deleteRange [] [] :: after) := by
  obtain ⟨k, hk⟩ := exists_topKey_lt before
  refine ⟨(∅ : Rows).insert k [], ?_⟩
  intro hexact
  have hlast : Overwrite.last (WriteOp.writes k) before = none :=
    (Overwrite.last_eq_none_iff _ before).mpr fun op hop => writes_of_topKey_lt (hk op hop)
  have hrow : (before.foldl WriteOp.run ((∅ : Rows).insert k []))[k]? = some [] := by
    rw [WriteOp.get_foldl_run, hlast, Option.getD_none, OrdMap.get_insert_self]
  have hop := MemoryBackend.applyOp_eq (before.foldl WriteOp.run ((∅ : Rows).insert k []))
    (.deleteRange [] [])
  have hafter := hexact before [] [] after rfl _ _ (foldlM_applyOp h _) hop k
  rw [WriteOp.get_run, WriteOp.writes, if_neg (fun hc => absurd hc.2 (List.not_lt_nil k)),
    Option.getD_none, hrow] at hafter
  simp [KeyRange.contains, List.nil_le] at hafter

/-- **Which writes a replica survives.**  For every request that the RPC accepts: on every content
of the reference backend the entry applies normally and each of its range deletes clears exactly
its key range, if and only if every range delete of the request has its bounds in order and an
upper bound. -/
theorem apply_safe_iff {registered : RangeId → Bool} {req : WriteRequest} {rangeId : RangeId}
    {cmd : AresaCommand} (h : prepareWrite K registered req = .ok (rangeId, cmd)) :
    (∀ data inner logId, ApplySafe K data inner ⟨logId, .normal cmd⟩) ↔
      (req.ops K).all rangeBounded = true := by
  obtain ⟨_, rfl, _⟩ := prepareWrite_eq_ok K h
  unfold ApplySafe
  simp only [applyOnMemory_isSome_iff, entryOps_batch]
  constructor
  · intro hsafe
    obtain ⟨hordered, _⟩ := hsafe ∅ .default ⟨⟨0, 0⟩, 0⟩
    rw [List.all_eq_true]
    intro op hop
    cases op with
    | put key value => rfl
    | delete key => rfl
    | deleteRange start stop =>
        have hle : start ≤ stop := of_decide_eq_true (List.all_eq_true.mp hordered _ hop)
        by_cases hstop : stop = []
        · -- the bounds are both empty: some content shows that nothing is deleted
          obtain rfl := hstop
          obtain rfl : start = [] := List.le_nil.mp hle
          obtain ⟨before, after, hsplit⟩ := List.append_of_mem hop
          rw [hsplit, List.all_append, Bool.and_eq_true] at hordered
          obtain ⟨data, hdata⟩ := not_deletesExactly_unbounded after hordered.1
          refine absurd (hsafe data .default ⟨⟨0, 0⟩, 0⟩).2 ?_
          rw [hsplit]
          exact hdata
        · simp [rangeBounded, hle, hstop]
  · intro hbounded data inner logId
    refine ⟨?_, deletesExactly_of_bounded hbounded data⟩
    rw [List.all_eq_true] at *
    intro op hop
    have hb := hbounded op hop
    cases op with
    | put key value => rfl
    | delete key => rfl
    | deleteRange start stop =>
        rw [rangeBounded, Bool.and_eq_true] at hb
        exact hb.1

/-- A client's request. -/
def clientWrite (rangeId : RangeId) (ops : List WriteOp) : WriteRequest :=
  ⟨bincode.batch.encode (.ofWriteBatch ⟨ops⟩), rangeId⟩

/-- A put and an ordered range delete. -/
theorem apply_safe_iff_ordered :
    prepareWrite bincode (fun _ => false) (clientWrite 0 [.put [97] [1], .deleteRange [98] [99]]) =
        .ok (1, .batch ⟨[.put [97] [1], .deleteRange [98] [99]]⟩) ∧
      ((∀ data inner logId, ApplySafe bincode data inner
          ⟨logId, .normal (.batch ⟨[.put [97] [1], .deleteRange [98] [99]]⟩)⟩) ↔
        ((clientWrite 0 [.put [97] [1], .deleteRange [98] [99]]).ops bincode).all
          rangeBounded = true) := by
  have hprepare : prepareWrite bincode (fun _ => false)
      (clientWrite 0 [.put [97] [1], .deleteRange [98] [99]]) =
        .ok (1, .batch ⟨[.put [97] [1], .deleteRange [98] [99]]⟩) := by decide +kernel
  exact ⟨hprepare, apply_safe_iff bincode hprepare⟩

/-- An accepted request whose range delete is inverted. -/
theorem inverted_deleteRange_panics :
    prepareWrite bincode (fun _ => false) (clientWrite 0 [.deleteRange [98] [97]]) =
        .ok (1, .batch ⟨[.deleteRange [98] [97]]⟩) ∧
      applyOnMemory bincode ∅ .default
        ⟨⟨⟨1, 1⟩, 1⟩, .normal (.batch ⟨[.deleteRange [98] [97]]⟩)⟩ = none ∧
      ¬ApplySafe bincode ∅ .default
        ⟨⟨⟨1, 1⟩, 1⟩, .normal (.batch ⟨[.deleteRange [98] [97]]⟩)⟩ := by
  have hpanic : applyOnMemory bincode ∅ .default
      ⟨⟨⟨1, 1⟩, 1⟩, .normal (.batch ⟨[.deleteRange [98] [97]]⟩)⟩ = none := by decide +kernel
  refine ⟨by decide +kernel, hpanic, ?_⟩
  rintro ⟨⟨out, hout⟩, _⟩
  rw [hpanic] at hout
  cases hout

end Memory

end AresaDb.Cluster
