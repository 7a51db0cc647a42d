import AresaDb.Lib.Run
import AresaDb.Store.Copies

/-! # Concurrent calls on one node

`TieredStorage::get_node`, `update_node` and `evict_to_cloud` take no lock over the whole of the
call: each transaction on the local tables, each access to the cache and each access to the bucket
is one step, and the steps of several calls on one node come in any order.  `Call` is a call in
progress, `Concurrent` the storage with the calls in progress on it, and a run of moves an
interleaving.  The cache may lose the entry of the node at any moment.

A call that no other interrupts is the operation of `TieredStorage` (`get_alone`, `update_alone`,
`evict_alone`). -/

namespace AresaDb.Store

/-! ### Stages of a call -/

/-- How far the read of a node has come; the first part of `update_node` is one. -/
inductive ReadStage where
  | start
  /-- The index record is read. -/
  | indexed (index : NodeIndex)
  /-- The cache has no entry. -/
  | missed (index : NodeIndex)
  /-- The payload is read from where the index record says; the cache has no copy yet, and the
  payload is not parsed. -/
  | fetched (index : NodeIndex) (payload : Props)
  | resolved (index : NodeIndex) (payload : Props)
  /-- There is no node. -/
  | absent
  /-- A row or a payload does not parse, or there is no payload where the index record says. -/
  | failed

/-- How far an update has come. -/
inductive UpdateStage where
  | reading (stage : ReadStage)
  /-- The tables are written. -/
  | written (index : NodeIndex) (properties : Props)
  /-- The cache has the new payload. -/
  | cached (index : NodeIndex) (properties : Props)
  /-- The call has returned `index.toNode id properties`. -/
  | finished (index : NodeIndex) (properties : Props)

/-- How far an eviction has come. -/
inductive EvictStage where
  /-- The candidates of `run_eviction` are not yet read; `due` says that its loop, should the node
  be a candidate, gets to it before the bytes are down to the target. -/
  | selecting (due : Bool)
  | start
  /-- The local payload is read. -/
  | loaded (payload : Props)
  /-- The bucket has the payload. -/
  | uploaded (payload : Props)
  /-- The index record is read again. -/
  | indexed (payload : Props) (index : Option NodeIndex)
  /-- The index record points to the cloud. -/
  | pointed (payload : Props)
  /-- The local payload is deleted; the cache has no copy yet. -/
  | deleted (payload : Props)
  | finished
  | failed

/-- A call in progress. -/
inductive Call where
  | get (stage : ReadStage)
  | update (now : Timestamp) (newProperties : Value) (stage : UpdateStage)
  | evict (stage : EvictStage)

section

variable (J : Serde) (id : NodeId) (s : TieredStorage)

def ReadStage.step : ReadStage → TieredStorage × ReadStage
  | start =>
      match s.local_.getNodeIndex J id with
      | some (some index) => (s, indexed index)
      | some none => (s, absent)
      | none => (s, failed)
  | indexed index =>
      match s.cache[id]? with
      | some payload => (s, if parses payload then resolved index payload else failed)
      | none => (s, missed index)
  | missed index =>
      let payload := match index.payloadLocation with
        | .local => (s.local_.getPayload J id).join
        | .cloud => s.fetchCloudPayload id
      match payload with
      | some payload => (s, fetched index payload)
      | none => (s, failed)
  | fetched index payload =>
      (s.cachePut id payload, if parses payload then resolved index payload else failed)
  | resolved index payload => (s, resolved index payload)
  | absent => (s, absent)
  | failed => (s, failed)

def UpdateStage.step (now : Timestamp) (newProperties : Value) :
    UpdateStage → TieredStorage × UpdateStage
  | reading (.resolved index payload) =>
      let properties := mergeProps payload newProperties
      let updatedIndex := TieredStorage.updatedIndex J now index properties
      match s.local_.updateNodeTiered J id updatedIndex (J.props properties) with
      | some local' => ({ s with local_ := local' }, written updatedIndex properties)
      | none => (s, reading .failed)
  | reading stage => ((stage.step J id s).1, reading (stage.step J id s).2)
  | written index properties => (s.cachePut id (J.props properties), cached index properties)
  | cached index properties => (s.pushThrough id (J.props properties), finished index properties)
  | finished index properties => (s, finished index properties)

def EvictStage.step : EvictStage → TieredStorage × EvictStage
  | selecting due =>
      if due ∧ id ∈ (s.evictionCandidates s.config.minCloudPayloadBytes).map Prod.fst then
        (s, start)
      else (s, finished)
  | start =>
      if s.bucket.isSome then
        match (s.local_.getPayload J id).join with
        | some payload => (s, loaded payload)
        | none => (s, failed)
      else (s, failed)
  | loaded payload => (s.bucketPut id payload, uploaded payload)
  | uploaded payload =>
      match s.local_.getNodeIndex J id with
      | some index => (s, indexed payload index)
      | none => (s, failed)
  | indexed payload (some index) =>
      ({ s with local_ := s.local_.updateNodeIndex id { index with payloadLocation := .cloud } },
        pointed payload)
  | indexed payload none => (s, pointed payload)
  | pointed payload => ({ s with local_ := s.local_.deletePayload id }, deleted payload)
  | deleted payload => (s.cachePut id payload, finished)
  | finished => (s, finished)
  | failed => (s, failed)

def Call.step : Call → TieredStorage × Call
  | get stage => ((stage.step J id s).1, get (stage.step J id s).2)
  | update now newProperties stage =>
      ((stage.step J id s now newProperties).1,
        update now newProperties (stage.step J id s now newProperties).2)
  | evict stage => ((stage.step J id s).1, evict (stage.step J id s).2)

end

/-- The call has returned, with a result or an error. -/
def Call.isOver : Call → Bool
  | get (.resolved _ _) | get .absent | get .failed => true
  | update _ _ (.reading .absent) | update _ _ (.reading .failed) => true
  | update _ _ (.finished _ _) => true
  | evict .finished | evict .failed => true
  | _ => false

/-- A call that is over does nothing more. -/
theorem Call.step_over (J : Serde) (id : NodeId) (s : TieredStorage) {c : Call} (h : c.isOver) :
    c.step J id s = (s, c) := by
  unfold Call.isOver at h
  split at h <;> first | rfl | cases h

/-! ### Interleavings -/

/-- A storage with the calls in progress on one node of it. -/
structure Concurrent where
  store : TieredStorage
  calls : List Call

/-- The next step of a call, or the loss of the cache entry. -/
inductive Move where
  | call (i : ℕ)
  | loseCache
deriving DecidableEq

/-- One step of the system. -/
def Concurrent.step (J : Serde) (id : NodeId) (m : Concurrent) : Move → Concurrent
  | .call i =>
      match m.calls[i]? with
      | some c => ⟨(c.step J id m.store).1, m.calls.set i (c.step J id m.store).2⟩
      | none => m
  | .loseCache => { m with store := m.store.cacheRemove id }

namespace Concurrent

variable {J : Serde} {id : NodeId} {m : Concurrent} {i : ℕ}

theorem step_call {c : Call} (h : m.calls[i]? = some c) :
    m.step J id (.call i) = ⟨(c.step J id m.store).1, m.calls.set i (c.step J id m.store).2⟩ := by
  simp only [step, h]

theorem step_none (h : m.calls[i]? = none) : m.step J id (.call i) = m := by
  simp only [step, h]

/-- The call that moves, and the others. -/
theorem getElem?_step_call {c : Call} (h : m.calls[i]? = some c) (j : ℕ) :
    (m.step J id (.call i)).calls[j]? =
      if i = j then some (c.step J id m.store).2 else m.calls[j]? := by
  have hi : i < m.calls.length := (List.getElem?_eq_some_iff.mp h).1
  rw [step_call h, List.getElem?_set, if_pos hi]

end Concurrent

/-! ### Uninterrupted calls -/

section

variable (J : Serde) (id : NodeId)

/-- The steps of one call. -/
def Call.steps : ℕ → TieredStorage × Call → TieredStorage × Call
  | 0, r => r
  | n + 1, r => steps n (r.2.step J id r.1)

/-- A call alone makes its steps. -/
theorem run_alone (n : ℕ) (s : TieredStorage) (c : Call) :
    Run.run (Concurrent.step J id) ⟨s, [c]⟩ (List.replicate n (.call 0)) =
      ⟨(Call.steps J id n (s, c)).1, [(Call.steps J id n (s, c)).2]⟩ := by
  induction n generalizing s c with
  | zero => rfl
  | succ n ih =>
      rw [List.replicate_succ, Run.run_cons]
      exact ih _ _

@[simp] theorem step_resolved (s : TieredStorage) (index : NodeIndex) (payload : Props) :
    ReadStage.step J id s (.resolved index payload) = (s, .resolved index payload) := rfl

/-- The read of a payload, step by step. -/
theorem steps_read {s s' : TieredStorage} {index : NodeIndex} {payload : Props}
    (h : s.resolvePayload J id index = some (payload, s')) :
    (ReadStage.step J id s (.indexed index) = (s', .resolved index payload) ∧ s' = s) ∨
      (ReadStage.step J id s (.indexed index) = (s, .missed index) ∧
        ReadStage.step J id s (.missed index) = (s, .fetched index payload) ∧
          ReadStage.step J id s (.fetched index payload) = (s', .resolved index payload)) := by
  have hparses : parses payload = true := s.parses_of_resolvePayload J id payload h
  unfold TieredStorage.resolvePayload at h
  cases hc : s.cache[id]? with
  | some cached =>
      simp only [hc] at h
      split_ifs at h
      obtain ⟨rfl, rfl⟩ := Prod.mk.inj (Option.some.inj h)
      left
      exact ⟨by simp only [ReadStage.step, hc, if_pos hparses], rfl⟩
  | none =>
      simp only [hc, Option.map_eq_some_iff, Prod.mk.injEq] at h
      obtain ⟨found, hfound, rfl, rfl⟩ := h
      replace hfound := (Option.filter_eq_some_iff.mp hfound).1
      right
      refine ⟨by simp only [ReadStage.step, hc], ?_, by simp only [ReadStage.step, if_pos hparses]⟩
      cases hloc : index.payloadLocation with
      | «local» =>
          simp only [hloc] at hfound
          simp only [ReadStage.step, hloc, hfound]
      | cloud =>
          simp only [hloc] at hfound
          simp only [ReadStage.step, hloc, hfound]

/-- A `get_node` that is not interrupted. -/
theorem get_alone {s s' : TieredStorage} {index : NodeIndex} {payload : Props}
    (hindex : s.local_.getNodeIndex J id = some (some index))
    (hread : s.resolvePayload J id index = some (payload, s')) :
    Run.run (Concurrent.step J id) ⟨s, [.get .start]⟩ (List.replicate 4 (.call 0)) =
      ⟨s', [.get (.resolved index payload)]⟩ := by
  have hstart : ReadStage.step J id s .start = (s, .indexed index) := by
    simp only [ReadStage.step, hindex]
  rw [run_alone]
  obtain ⟨hhit, _⟩ | ⟨hmiss, hload, hfill⟩ := steps_read J id hread
  · simp only [Call.steps, Call.step, hstart, hhit, step_resolved]
  · simp only [Call.steps, Call.step, hstart, hmiss, hload, hfill]

/-- An `update_node` that is not interrupted. -/
theorem update_alone {s s' : TieredStorage} {now : Timestamp} {v : Value} {n : Node}
    (h : s.updateNode J now id v = some (n, s')) :
    ∃ index properties, n = index.toNode id properties ∧
      Run.run (Concurrent.step J id) ⟨s, [.update now v (.reading .start)]⟩
          (List.replicate 7 (.call 0)) =
        ⟨s', [.update now v (.finished index properties)]⟩ := by
  unfold TieredStorage.updateNode at h
  obtain ⟨index, hindex, h⟩ := Option.bind_eq_some_iff.mp h
  obtain ⟨⟨payload, s₁⟩, hread, h⟩ := Option.bind_eq_some_iff.mp h
  obtain ⟨written, hwrite, h⟩ := Option.bind_eq_some_iff.mp h
  obtain ⟨rfl, rfl⟩ := Prod.mk.inj (Option.some.inj h)
  have hstart : ReadStage.step J id s .start = (s, .indexed index) := by
    simp only [ReadStage.step, Option.join_eq_some_iff.mp hindex]
  refine ⟨_, _, rfl, ?_⟩
  rw [run_alone]
  obtain ⟨hhit, hsame⟩ | ⟨hmiss, hload, hfill⟩ := steps_read J id hread
  · simp only [Call.steps, Call.step, UpdateStage.step, hstart, hhit, hwrite]
  · simp only [Call.steps, Call.step, UpdateStage.step, hstart, hmiss, hload, hfill, hwrite]

/-- An `evict_to_cloud` that is not interrupted. -/
theorem evict_alone {s s' : TieredStorage} (h : s.evictToCloud J id = some s') :
    Run.run (Concurrent.step J id) ⟨s, [.evict .start]⟩ (List.replicate 6 (.call 0)) =
      ⟨s', [.evict .finished]⟩ := by
  unfold TieredStorage.evictToCloud at h
  split_ifs at h with hbucket
  obtain ⟨payload, hpayload, h⟩ := Option.bind_eq_some_iff.mp h
  obtain ⟨moved, hmoved, h⟩ := Option.bind_eq_some_iff.mp h
  obtain rfl := Option.some.inj h
  obtain ⟨index, hindex, rfl⟩ := Option.map_eq_some_iff.mp hmoved
  have hstart : EvictStage.step J id s .start = (s, .loaded payload) := by
    simp only [EvictStage.step, if_pos hbucket, hpayload]
  have hupload : EvictStage.step J id s (.loaded payload) =
      (s.bucketPut id payload, .uploaded payload) := rfl
  have hagain : EvictStage.step J id (s.bucketPut id payload) (.uploaded payload) =
      (s.bucketPut id payload, .indexed payload index) := by
    simp only [EvictStage.step, hindex]
  rw [run_alone]
  simp only [Call.steps, Call.step, hstart, hupload, hagain]
  cases index with
  | none => rfl
  | some index => rfl

end

end AresaDb.Store
