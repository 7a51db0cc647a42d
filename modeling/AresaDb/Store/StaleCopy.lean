import AresaDb.Store.LostUpdate

/-! # Stale copies

A read that misses the cache, and an eviction, carry a payload that they have read earlier, and
write it to the cache, to the bucket and behind the index record.  When an update of the node comes
in between, they bring the payload from before it back (`eviction_reverts`).

Once the update has written the tables, the local payload and the older row stay its own
(`Settled`).  As long as no step puts an older payload into the cache after the update has, none
leaves the index record pointing at an older object, and none deletes the local payload that a row
too deep to be parsed would have to stand for (`CopyCurrent`), a read returns what the update has
made of the node (`update_survives`). -/

namespace AresaDb.Store

/-- A call that is about to run beside an update; a run of evictions gets to the node, should it be
a candidate, if `due`. -/
inductive Request where
  | getNode
  | evictToCloud
  | runEviction (due : Bool)

def Request.call : Request → Call
  | getNode => .get .start
  | evictToCloud => .evict .start
  | runEviction due => .evict (.selecting due)

/-- A payload that an update has written, or what is left of it when it is written again. -/
def Fresh (J : Serde) (properties payload : Props) : Prop :=
  ∃ n, payload = J.props^[n + 1] properties

namespace UpdateStage

/-- The merged properties, once the tables are written. -/
def outcome : UpdateStage → Option Props
  | reading _ => none
  | written _ properties | cached _ properties | finished _ properties => some properties

/-- The cache has had the payload of the update. -/
def hasCached : UpdateStage → Bool
  | cached _ _ | finished _ _ => true
  | _ => false

end UpdateStage

/-- The update is still to put its payload in the bucket. -/
def PushPending (s : TieredStorage) (stage : UpdateStage) : Prop :=
  s.config.writeThrough ∧ s.bucket.isSome ∧ ¬ stage.returned

theorem pushPending_finished (s : TieredStorage) (index : NodeIndex) (properties : Props) :
    PushPending s (.finished index properties) = False := by
  simp [PushPending, UpdateStage.returned]

/-- The object of the node is that of the update, or will be. -/
def ObjectCurrent (J : Serde) (properties : Props) (pending : Prop) (c : Copies) : Prop :=
  pending ∨ ∃ p, c.object = some p ∧ Fresh J properties p

/-- The index record points to the cloud. -/
def InCloud (c : Copies) : Prop :=
  ∃ index, c.index = some index ∧ index.payloadLocation = .cloud

namespace Concurrent

/-- An update with other calls beside it. -/
def besideUpdate (s : TieredStorage) (now : Timestamp) (v : Value) (requests : List Request) :
    Concurrent :=
  ⟨s, .update now v (.reading .start) :: requests.map Request.call⟩

/-- What a call that carries an older payload must not do after the update. -/
def KeepsCurrent (J : Serde) (properties : Props) (pending : Prop) (hasCached : Bool) (c : Copies) :
    Call → Prop
  | .get (.fetched _ payload) => hasCached → Fresh J properties payload
  | .evict (.deleted payload) => hasCached → Fresh J properties payload
  | .evict (.loaded payload) => InCloud c → pending ∨ Fresh J properties payload
  | .evict (.indexed _ (some _)) => ObjectCurrent J properties pending c
  | .evict (.pointed _) => InCloud c ∨ parsesWithin 2 properties = true
  | _ => True

/-- No step brings a payload from before the update back. -/
def CopyCurrent (J : Serde) (id : NodeId) (m : Concurrent) : Move → Prop
  | .loseCache => True
  | .call i => ∀ now v stage properties call,
      m.calls[0]? = some (.update now v stage) → stage.outcome = some properties →
        m.calls[i]? = some call → KeepsCurrent J properties (PushPending m.store stage)
          stage.hasCached (m.store.copies id) call

end Concurrent

/-! ### The copies after the update -/

/-- The local copies are those of the update, and so is the object behind the index record; once
the update has put its payload into the cache, nothing older is in it. -/
structure Settled (J : Serde) (properties : Props) (pending : Prop) (hasCached : Bool)
    (c : Copies) : Prop where
  parsed : parses properties = true
  indexed : c.index.isSome
  row : ∃ node, c.row = some node ∧ Fresh J properties (J.props node.properties) ∧
    node.parses = parsesWithin 2 properties
  fallback : c.payload = none → InCloud c ∨ parsesWithin 2 properties = true
  payload : ∀ p, c.payload = some p → Fresh J properties p
  cached : hasCached → ∀ p, c.cached = some p → Fresh J properties p
  object : InCloud c → ObjectCurrent J properties pending c

section

variable {J : Serde} {id : NodeId} {s s' : TieredStorage} {properties p : Props} {pending : Prop}
  {hasCached : Bool} {c : Copies}

theorem fresh_written : Fresh J properties (J.props properties) := ⟨0, rfl⟩

theorem Fresh.props (h : Fresh J properties p) : Fresh J properties (J.props p) := by
  obtain ⟨n, rfl⟩ := h
  exact ⟨n + 1, (Function.iterate_succ_apply' _ _ _).symm⟩

/-- Written again, a payload parses as it did. -/
theorem Fresh.parses (h : Fresh J properties p) :
    AresaDb.Store.parses p = AresaDb.Store.parses properties := by
  obtain ⟨n, rfl⟩ := h
  induction n with
  | zero => exact J.parses_props properties
  | succ n ih => rw [Function.iterate_succ_apply', J.parses_props, ih]

/-- Written again, a payload keeps its fields. -/
theorem Fresh.contains (h : Fresh J properties p) (key : String) :
    p[key]?.isSome = properties[key]?.isSome := by
  obtain ⟨n, rfl⟩ := h
  induction n with
  | zero =>
      rw [Function.iterate_one, J.get_props, Option.isSome_map]
  | succ n ih => rw [Function.iterate_succ_apply', J.get_props, Option.isSome_map, ih]

/-- The local payload, or what the older row stands for. -/
theorem Settled.getPayload (h : Settled J properties pending hasCached c)
    (hlocal : ¬ InCloud c) : ∃ p, c.getPayload J = some p ∧ Fresh J properties p := by
  unfold Copies.getPayload
  cases hp : c.payload with
  | some p => exact ⟨p, rfl, h.payload p hp⟩
  | none =>
      obtain ⟨node, hnode, hfresh, hparses⟩ := h.row
      have hfits := (h.fallback hp).resolve_left hlocal
      refine ⟨_, ?_, hfresh⟩
      rw [hnode, Option.filter_some, if_pos (hparses.trans hfits)]
      rfl

/-- A read finds what the update has written. -/
theorem Settled.find (h : Settled J properties False true c) :
    ∃ index p, c.getNodeIndex J = some (some index) ∧ c.find J index = some p ∧
      Fresh J properties p := by
  obtain ⟨index, hindex⟩ := Option.isSome_iff_exists.mp h.indexed
  have hrecord : c.getNodeIndex J = some (some index) := by
    unfold Copies.getNodeIndex
    rw [hindex]
  refine ⟨index, ?_⟩
  unfold Copies.find
  cases hc : c.cached with
  | some p => exact ⟨p, hrecord, rfl, h.cached rfl p hc⟩
  | none =>
      cases hloc : index.payloadLocation with
      | «local» =>
          have hlocal : ¬ InCloud c := by
            rintro ⟨index', hindex', hcloud⟩
            obtain rfl := Option.some.inj (hindex.symm.trans hindex')
            rw [hloc] at hcloud
            cases hcloud
          obtain ⟨p, hp, hfresh⟩ := h.getPayload hlocal
          exact ⟨p, hrecord, hp, hfresh⟩
      | cloud =>
          obtain hfalse | ⟨p, hp, hfresh⟩ := h.object ⟨index, hindex, hloc⟩
          · exact hfalse.elim
          · exact ⟨p, hrecord, hp, hfresh⟩

theorem Settled.cache (h : Settled J properties pending hasCached c)
    (hp : hasCached → Fresh J properties p) :
    Settled J properties pending hasCached { c with cached := some p } := by
  refine { h with cached := fun hcached q hq => ?_ }
  obtain rfl := Option.some.inj hq
  exact hp hcached

theorem Settled.loseCache (h : Settled J properties pending hasCached c) :
    Settled J properties pending hasCached { c with cached := none } :=
  { h with cached := fun _ _ hq => by (cases hq) }

/-- The copies after the update has written the tables. -/
theorem settled_written {index : NodeIndex} (hlocal : index.payloadLocation = .local)
    (hparses : parses properties = true) : Settled J properties pending false
      { c with
        index := some index
        row := some (J.node (index.toNode id (J.props properties)))
        payload := some (J.props properties) } where
  parsed := hparses
  indexed := rfl
  row := by
    refine ⟨_, rfl, fresh_written.props.props, ?_⟩
    rw [J.parses_node]
    exact J.parsesWithin_props 2 properties
  fallback h := by cases h
  payload q hq := by
    obtain rfl := Option.some.inj hq
    exact fresh_written
  cached h := by cases h
  object hcloud := by
    obtain ⟨index', hindex, hloc⟩ := hcloud
    obtain rfl : index = index' := Option.some.inj hindex
    rw [hlocal] at hloc
    cases hloc

/-! ### Steps of the other calls -/

/-- A step of a read changes the cache, if anything. -/
theorem ReadStage.step_cases (J : Serde) (id : NodeId) (s : TieredStorage) (stage : ReadStage) :
    (∃ index payload, stage = .fetched index payload) ∨ (stage.step J id s).1 = s := by
  cases stage with
  | start =>
      right
      simp only [ReadStage.step]
      split <;> rfl
  | indexed index =>
      right
      simp only [ReadStage.step]
      split <;> rfl
  | missed index =>
      right
      simp only [ReadStage.step]
      split <;> rfl
  | fetched index payload => exact .inl ⟨index, payload, rfl⟩
  | _ => exact .inr rfl

theorem Settled.readStep (h : Settled J properties pending hasCached (s.copies id))
    {stage : ReadStage}
    (hsafe : Concurrent.KeepsCurrent J properties pending hasCached (s.copies id) (.get stage)) :
    ∃ c, Changes s (stage.step J id s).1 id c ∧ Settled J properties pending hasCached c := by
  obtain ⟨index, payload, rfl⟩ | hsame := stage.step_cases J id s
  · exact ⟨_, s.changes_cachePut id payload, h.cache hsafe⟩
  · rw [hsame]
    exact ⟨_, .refl s id, h⟩

/-- The upload of an eviction. -/
theorem Settled.upload (h : Settled J properties pending hasCached (s.copies id))
    (hp : InCloud (s.copies id) → pending ∨ Fresh J properties p) :
    ∃ c, Changes s (s.bucketPut id p) id c ∧ Settled J properties pending hasCached c := by
  by_cases hbucket : s.bucket.isSome = true
  · have hput := s.changes_bucketPut id p
    rw [if_pos hbucket] at hput
    refine ⟨_, hput, { h with object := fun hcloud => ?_ }⟩
    exact (hp hcloud).imp_right fun hfresh => ⟨p, rfl, hfresh⟩
  · have hnone : s.bucket = none := Option.not_isSome_iff_eq_none.mp hbucket
    have hsame : s.bucketPut id p = s := by
      unfold TieredStorage.bucketPut
      rw [hnone]
      obtain ⟨l, cache, bucket, config⟩ := s
      obtain rfl : bucket = none := hnone
      rfl
    rw [hsame]
    exact ⟨_, .refl s id, h⟩

/-- The index write of an eviction. -/
theorem Settled.point (h : Settled J properties pending hasCached (s.copies id))
    (hobject : ObjectCurrent J properties pending (s.copies id)) {index : NodeIndex}
    (hcloud : index.payloadLocation = .cloud) :
    ∃ c, Changes s { s with local_ := s.local_.updateNodeIndex id index } id c ∧
      Settled J properties pending hasCached c := by
  have hoff : TieredStorage.LocalOff id s.local_ (s.local_.updateNodeIndex id index) :=
    fun i hne => ⟨OrdMap.get_insert_of_ne _ _ hne, rfl, rfl⟩
  refine ⟨_, s.changes_local id hoff,
    { h with
      indexed := ?_, fallback := fun _ => .inl ⟨index, ?_, hcloud⟩, object := fun _ => hobject }⟩
  · simp only [LocalStorage.updateNodeIndex, OrdMap.get_insert_self, Option.isSome_some]
  · simp only [LocalStorage.updateNodeIndex, OrdMap.get_insert_self]

/-- The local delete of an eviction. -/
theorem Settled.deleteLocal (h : Settled J properties pending hasCached (s.copies id))
    (hfallback : InCloud (s.copies id) ∨ parsesWithin 2 properties = true) :
    ∃ c, Changes s { s with local_ := s.local_.deletePayload id } id c ∧
      Settled J properties pending hasCached c := by
  have hoff : TieredStorage.LocalOff id s.local_ (s.local_.deletePayload id) :=
    fun i hne => ⟨rfl, rfl, OrdMap.get_erase_of_ne _ hne⟩
  refine ⟨_, s.changes_local id hoff,
    { h with fallback := fun _ => hfallback, payload := fun q hq => ?_ }⟩
  simp only [LocalStorage.deletePayload, OrdMap.get_erase_self] at hq
  cases hq

theorem Settled.evictStep (h : Settled J properties pending hasCached (s.copies id))
    {stage : EvictStage}
    (hsafe : Concurrent.KeepsCurrent J properties pending hasCached (s.copies id) (.evict stage)) :
    ∃ c, Changes s (stage.step J id s).1 id c ∧ Settled J properties pending hasCached c := by
  have hsame : ∃ c, Changes s s id c ∧ Settled J properties pending hasCached c :=
    ⟨_, .refl s id, h⟩
  cases stage with
  | selecting due =>
      simp only [EvictStage.step]
      split_ifs <;> exact hsame
  | start =>
      simp only [EvictStage.step]
      split_ifs
      · split <;> exact hsame
      · exact hsame
  | loaded payload => exact h.upload hsafe
  | uploaded payload =>
      simp only [EvictStage.step]
      split <;> exact hsame
  | indexed payload index =>
      cases index with
      | some index => exact h.point hsafe rfl
      | none => exact hsame
  | pointed payload => exact h.deleteLocal hsafe
  | deleted payload => exact ⟨_, s.changes_cachePut id payload, h.cache hsafe⟩
  | finished => exact hsame
  | failed => exact hsame

/-! ### Steps of the update -/

/-- What is pending is read off the configuration and the bucket. -/
theorem Changes.pushPending (h : Changes s s' id c) (stage : UpdateStage) :
    PushPending s' stage ↔ PushPending s stage := by
  unfold PushPending
  rw [h.config, h.bucket]

/-- The storage is settled once the update has written the tables. -/
def Settling (J : Serde) (id : NodeId) (s : TieredStorage) (stage : UpdateStage) : Prop :=
  ∀ properties, stage.outcome = some properties →
    Settled J properties (PushPending s stage) stage.hasCached (s.copies id)

theorem Settling.of_changes {stage : UpdateStage} (hc : Changes s s' id c)
    (h : ∀ properties, stage.outcome = some properties →
      Settled J properties (PushPending s stage) stage.hasCached c) : Settling J id s' stage := by
  intro properties houtcome
  rw [hc.at_id, propext (hc.pushPending stage)]
  exact h properties houtcome

/-- The cache gets the payload of the update. -/
theorem Settled.fill (h : Settled J properties pending hasCached c) :
    Settled J properties pending true { c with cached := some (J.props properties) } := by
  refine { h with cached := fun _ q hq => ?_ }
  obtain rfl := Option.some.inj hq
  exact fresh_written

/-- After the push the update has nothing more to put in the bucket. -/
theorem Settled.push (h : Settled J properties (s.config.writeThrough ∧ s.bucket.isSome) hasCached
      (s.copies id)) :
    ∃ c, Changes s (s.pushThrough id (J.props properties)) id c ∧
      Settled J properties False hasCached c := by
  refine ⟨_, s.changes_pushThrough id _, { h with object := fun hcloud => ?_ }⟩
  right
  unfold TieredStorage.pushedObject
  split_ifs with hthrough hbucket
  · exact ⟨_, rfl, fresh_written⟩
  · -- Without a bucket no index record points to the cloud.
    obtain ⟨_, hbucket'⟩ | ⟨p, hp, _⟩ := h.object hcloud
    · exact absurd hbucket' hbucket
    · have hnone : s.bucket = none := Option.not_isSome_iff_eq_none.mp hbucket
      simp only [TieredStorage.copies, TieredStorage.fetchCloudPayload, hnone,
        Option.bind_none] at hp
      cases hp
  · obtain ⟨hthrough', _⟩ | hobject := h.object hcloud
    · exact absurd hthrough' hthrough
    · exact hobject

/-- The table write of the update. -/
theorem settling_write (now : Timestamp) (v : Value) (index : NodeIndex) (payload : Props) :
    Settling J id (UpdateStage.step J id s now v (.reading (.resolved index payload))).1
      (UpdateStage.step J id s now v (.reading (.resolved index payload))).2 := by
  let merged := mergeProps payload v
  let l := writtenTables J id s.local_ now v index payload
  simp only [UpdateStage.step, LocalStorage.updateNodeTiered, J.parses_props]
  by_cases hparses : parses merged = true
  swap
  · rw [if_neg hparses]
    intro properties houtcome
    cases houtcome
  rw [if_pos hparses]
  have hoff : TieredStorage.LocalOff id s.local_ l := fun i hne =>
    ⟨OrdMap.get_insert_of_ne _ _ hne, OrdMap.get_insert_of_ne _ _ hne,
      OrdMap.get_insert_of_ne _ _ hne⟩
  have hwrite := s.changes_local id hoff
  simp only [l, writtenTables, LocalStorage.writeNodeTiered, OrdMap.get_insert_self] at hwrite
  refine .of_changes hwrite fun properties houtcome => ?_
  obtain rfl : merged = properties := Option.some.inj houtcome
  exact settled_written rfl hparses

theorem Settling.updateStep {stage : UpdateStage} (h : Settling J id s stage) (now : Timestamp)
    (v : Value) : Settling J id (stage.step J id s now v).1 (stage.step J id s now v).2 := by
  cases stage with
  | reading r =>
      cases r with
      | resolved index payload => exact settling_write now v index payload
      | _ =>
          intro properties houtcome
          cases houtcome
  | written index properties =>
      refine .of_changes (s.changes_cachePut id _) fun p houtcome => ?_
      obtain rfl : properties = p := Option.some.inj houtcome
      exact (h properties rfl).fill
  | cached index properties =>
      have hbefore := h properties rfl
      have hpending : PushPending s (.cached index properties) =
          (s.config.writeThrough ∧ s.bucket.isSome) := by
        simp [PushPending, UpdateStage.returned]
      rw [hpending] at hbefore
      obtain ⟨c, hchanges, hafter⟩ := hbefore.push
      refine .of_changes hchanges fun p houtcome => ?_
      obtain rfl : properties = p := Option.some.inj houtcome
      show Settled J properties (PushPending s (.finished index properties)) true c
      rw [pushPending_finished]
      exact hafter
  | finished index properties => exact h

/-! ### Runs -/

/-- The first call is the update, the others are not, and the storage is settled once the update
has written. -/
structure Guarded (J : Serde) (id : NodeId) (now : Timestamp) (v : Value) (m : Concurrent) :
    Prop where
  update : ∃ stage, m.calls[0]? = some (.update now v stage) ∧ Settling J id m.store stage
  others : ∀ (i : ℕ) call, m.calls[i + 1]? = some call →
    (∃ stage, call = .get stage) ∨ ∃ stage, call = .evict stage

variable {now : Timestamp} {v : Value} {m : Concurrent}

theorem guarded_start (s : TieredStorage) (requests : List Request) :
    Guarded J id now v (.besideUpdate s now v requests) where
  update := ⟨_, rfl, fun _ houtcome => by (cases houtcome)⟩
  others i call hcall := by
    simp only [Concurrent.besideUpdate, List.getElem?_cons_succ, List.getElem?_map,
      Option.map_eq_some_iff] at hcall
    obtain ⟨request, _, rfl⟩ := hcall
    cases request with
    | getNode => exact .inl ⟨_, rfl⟩
    | evictToCloud => exact .inr ⟨_, rfl⟩
    | runEviction due => exact .inr ⟨_, rfl⟩

/-- A step of another call, which keeps the storage settled. -/
theorem Guarded.stepOther (h : Guarded J id now v m) {i : ℕ} {call : Call}
    (hcall : m.calls[i + 1]? = some call) (hsafe : m.CopyCurrent J id (.call (i + 1))) :
    Guarded J id now v (m.step J id (.call (i + 1))) := by
  obtain ⟨stage, hupdate, hsettling⟩ := h.update
  have hkind := h.others i call hcall
  refine ⟨⟨stage, ?_, ?_⟩, fun j other hother => ?_⟩
  · rw [Concurrent.getElem?_step_call hcall, if_neg (Nat.succ_ne_zero i)]
    exact hupdate
  · rw [Concurrent.step_call hcall]
    intro properties houtcome
    have hkeeps := hsafe now v stage properties call hupdate houtcome hcall
    have hbefore := hsettling properties houtcome
    have hafter : ∃ c, Changes m.store (call.step J id m.store).1 id c ∧
        Settled J properties (PushPending m.store stage) stage.hasCached c := by
      obtain ⟨r, rfl⟩ | ⟨e, rfl⟩ := hkind
      · exact hbefore.readStep hkeeps
      · exact hbefore.evictStep hkeeps
    obtain ⟨c, hchanges, hsettled⟩ := hafter
    rw [hchanges.at_id, propext (hchanges.pushPending stage)]
    exact hsettled
  · rw [Concurrent.getElem?_step_call hcall] at hother
    split_ifs at hother with hij
    · obtain rfl := Option.some.inj hother
      obtain ⟨r, rfl⟩ | ⟨e, rfl⟩ := hkind
      · exact .inl ⟨_, rfl⟩
      · exact .inr ⟨_, rfl⟩
    · exact h.others j other hother

theorem Guarded.step (h : Guarded J id now v m) {a : Move} (hsafe : m.CopyCurrent J id a) :
    Guarded J id now v (m.step J id a) := by
  obtain ⟨stage, hupdate, hsettling⟩ := h.update
  cases a with
  | loseCache =>
      have hc := m.store.changes_cacheRemove id
      exact ⟨⟨stage, hupdate, .of_changes hc fun p hp => (hsettling p hp).loseCache⟩, h.others⟩
  | call i =>
      cases i with
      | zero =>
          refine ⟨⟨(stage.step J id m.store now v).2, ?_, ?_⟩, fun j other hother => ?_⟩
          · rw [Concurrent.getElem?_step_call hupdate, if_pos rfl]
            rfl
          · rw [Concurrent.step_call hupdate]
            exact hsettling.updateStep now v
          · rw [Concurrent.getElem?_step_call hupdate, if_neg (Nat.succ_ne_zero j).symm] at hother
            exact h.others j other hother
      | succ i =>
          cases hcall : m.calls[i + 1]? with
          | none =>
              rw [Concurrent.step_none hcall]
              exact h
          | some call => exact h.stepOther hcall hsafe

end

/-! ### The result -/

/-- A read of the node returns what the update has made of it, with the cache entry present or
lost. -/
def Concurrent.UpdateRead (J : Serde) (id : NodeId) (m : Concurrent) : Prop :=
  ∀ now v index properties, m.calls[0]? = some (.update now v (.finished index properties)) →
    ∀ s ∈ [m.store, m.store.cacheRemove id], ∃ n s',
      s.getNode J id = some (some n, s') ∧ Fresh J properties n.properties

/-- When no step brings a payload from before the update back, a read returns what the update has
made of the node once it has returned, in every interleaving. -/
theorem update_survives (J : Serde) (id : NodeId) (s : TieredStorage) (now : Timestamp) (v : Value)
    (requests : List Request) (moves : List Move)
    (hsafe : Run.Along (Concurrent.step J id) (Concurrent.CopyCurrent J id)
      (.besideUpdate s now v requests) moves) :
    (Run.run (Concurrent.step J id) (.besideUpdate s now v requests) moves).UpdateRead J id := by
  have hguarded : Guarded J id now v
      (Run.run (Concurrent.step J id) (.besideUpdate s now v requests) moves) :=
    hsafe.invariant (fun _ _ h hs => h.step hs) (guarded_start s requests)
  obtain ⟨stage, hupdate, hsettling⟩ := hguarded.update
  intro now' v' index properties hfinished store hstore
  obtain ⟨rfl, rfl, rfl⟩ := Call.update.inj (Option.some.inj (hupdate.symm.trans hfinished))
  have hsettled := hsettling properties rfl
  rw [pushPending_finished] at hsettled
  obtain rfl | hlost := List.mem_cons.mp hstore
  · obtain ⟨record, p, hrecord, hread, hfresh⟩ := hsettled.find
    obtain ⟨s', hs'⟩ := getNode_of_copies hrecord hread
    exact ⟨_, s', hs'.trans (if_pos (hfresh.parses.trans hsettled.parsed)), hfresh⟩
  · obtain rfl := List.mem_singleton.mp hlost
    obtain ⟨record, p, hrecord, hread, hfresh⟩ := hsettled.loseCache.find
    rw [← (TieredStorage.changes_cacheRemove _ id).at_id] at hrecord hread
    obtain ⟨s', hs'⟩ := getNode_of_copies hrecord hread
    exact ⟨_, s', hs'.trans (if_pos (hfresh.parses.trans hsettled.parsed)), hfresh⟩

/-- A read and an eviction run beside an update of the sample node. -/
def sampleBeside : Concurrent :=
  .besideUpdate
    ((TieredStorage.new ⟨1000, 0, false⟩ true).insertNode plainJson asciiUnicode
      ⟨⟨1⟩, "user", (∅ : Props).insert "age" (.int 30), 0, 0⟩)
    1 (.object [("city", .string "Rome")]) [.getNode, .evictToCloud]

/-- The eviction comes after the update, and the read after the eviction. -/
def sampleInTurn : Concurrent :=
  Run.run (Concurrent.step plainJson ⟨1⟩) sampleBeside
    (.replicate 5 (.call 0) ++ .replicate 6 (.call 2) ++ .replicate 4 (.call 1))

theorem update_survives_in_turn :
    sampleInTurn.calls.all Call.isOver ∧ sampleInTurn.UpdateRead plainJson ⟨1⟩ := by
  refine ⟨by decide +kernel,
    update_survives plainJson ⟨1⟩ _ 1 _ [.getNode, .evictToCloud] _ ?_⟩
  refine ⟨?_, ?_, ?_, ?_, ?_, ?_, ?upload, ?_, ?point, ?delete, ?fill, ?_, ?_, ?_, ?_, trivial⟩
  all_goals
    intro now v stage properties call hupdate houtcome hcall
    cases hupdate
    cases houtcome
  all_goals cases hcall
  case upload => exact fun _ => .inr ⟨0, rfl⟩
  case point => exact .inr ⟨_, rfl, 0, rfl⟩
  case delete => exact .inl ⟨_, rfl, rfl⟩
  case fill => exact fun _ => ⟨0, rfl⟩
  all_goals trivial

/-- The eviction reads the payload before the update, and moves it after. -/
def sampleReverted : Concurrent :=
  Run.run (Concurrent.step plainJson ⟨1⟩) sampleBeside
    (.replicate 4 (.call 1) ++ [.call 2] ++ .replicate 5 (.call 0) ++ .replicate 5 (.call 2))

/-- All calls have returned, and a read finds the payload from before the update. -/
theorem eviction_reverts :
    sampleReverted.calls.all Call.isOver ∧ ¬ sampleReverted.UpdateRead plainJson ⟨1⟩ := by
  refine ⟨by decide +kernel, fun h => ?_⟩
  obtain ⟨n, s', hread, hfresh⟩ := h _ _ _ _ rfl _ List.mem_cons_self
  have hcity := congrArg (Option.map fun r => r.1.map fun n => n.properties["city"]?.isSome) hread
  simp only [Option.map_some, hfresh.contains "city"] at hcity
  exact absurd hcity (by decide +kernel)

end AresaDb.Store
