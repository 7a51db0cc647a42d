import AresaDb.Cluster.Admin
import AresaDb.Cluster.Directory
import AresaDb.Lib.Run
import AresaDb.Raft.Recovery

/-! # What keeps ranges apart

A node runs the default range and the ranges of its directory, which come and go, each with a store
of its own.  A write goes to the store of the range it names.  Nothing checks its keys against the
span of that range or against the reserved byte: the state machine leaves both to its callers
(`aresadb-raft/src/state_machine.rs`).

So isolation is relative to the callers.  While every write keeps inside the span of its range and
below the reserved byte, every key of a range lies in its span, ranges with disjoint spans share no
key, and a snapshot carries everything that a client wrote (`writes_stay_apart`). -/

namespace AresaDb.Cluster

open ByteOrder AresaDb.Core AresaDb.Raft
open AresaDb.Pd (LeaderId LogId RangeId RangeDescriptor)

/-- A node: its default range, its directory, and the state machine of each range. -/
structure Node where
  defaultRange : RangeDescriptor
  directory : RangeDirectory
  stores : RangeId → StateMachineStore

namespace Node

variable (K : KvCodec) (node : Node)

/-- The descriptor of the range that a write with this id reaches. -/
def descriptorOf (rangeId : RangeId) : Option RangeDescriptor :=
  if rangeId = defaultRangeId then some node.defaultRange
  else (node.directory.getRange rangeId).map (·.descriptor)

/-- Apply a committed entry to a range. -/
def applyTo (rangeId : RangeId) (e : Entry) : List AresaResponse × Node :=
  let (responses, sm) := (node.stores rangeId).apply K [e]
  (responses, { node with stores := Function.update node.stores rangeId sm })

/-- The `Write` RPC.  `proposal` is what openraft makes of the command: the log id under which it
was committed and applied, or a refusal. -/
def write (req : WriteRequest) (proposal : Option LogId) : Except Status WriteResponse × Node :=
  match prepareWrite K (fun i => (node.directory.getRange i).isSome) req with
  | .error status => (.error status, node)
  | .ok (rangeId, cmd) =>
      match proposal with
      | none => (.error .raft, node)
      | some logId =>
          let (responses, node) := node.applyTo K rangeId ⟨logId, .normal cmd⟩
          (.ok { logIndex := logId.index
                 opsApplied := UInt64.ofNat ((responses.map (·.opsApplied.toNat)).headD 0)
                 rangeId }, node)

/-- Register a range.  The files of a range are found by its id, so a range that is opened again
has its old store. -/
def openRange (descriptor : RangeDescriptor) : Node :=
  match node.directory.insert ⟨descriptor⟩ with
  | .ok directory => { node with directory }
  | .error _ => node

def closeRange (rangeId : RangeId) : Node :=
  { node with directory := (node.directory.remove rangeId).2 }

end Node

/-- What happens on a node: a write arrives, a range applies an entry that was proposed elsewhere,
or a range is opened or closed. -/
inductive NodeEvent where
  | write (req : WriteRequest) (proposal : Option LogId)
  | replicate (rangeId : RangeId) (e : Entry)
  | openRange (descriptor : RangeDescriptor)
  | closeRange (rangeId : RangeId)
deriving DecidableEq, Repr

def Node.step (K : KvCodec) (node : Node) : NodeEvent → Node
  | .write req proposal => (node.write K req proposal).2
  | .replicate rangeId e =>
      if (node.descriptorOf rangeId).isSome then (node.applyTo K rangeId e).2 else node
  | .openRange descriptor => node.openRange descriptor
  | .closeRange rangeId => node.closeRange rangeId

/-- The range that an event is about, and the operations it may apply there. -/
def NodeEvent.target : NodeEvent → RangeId
  | write req _ => req.target
  | replicate rangeId _ => rangeId
  | openRange descriptor => descriptor.rangeId
  | closeRange rangeId => rangeId

def NodeEvent.ops (K : KvCodec) : NodeEvent → List WriteOp
  | write req _ => req.ops K
  | replicate _ e => entryOps e
  | openRange _ => []
  | closeRange _ => []

/-- Every key that the operation puts, deletes or range-deletes lies in the span of the range and
does not start with the reserved byte. -/
def InSpan (d : RangeDescriptor) (op : WriteOp) : Prop :=
  ∀ k, op.writes k ≠ none → d.contains k = true ∧ k.head? ≠ some 0xff

/-- A store holds only keys of a span, below the reserved byte, and its metadata row. -/
def HoldsKeysOf (d : RangeDescriptor) (sm : StateMachineStore) : Prop :=
  ∀ k v, sm.data.rows[k]? = some v → smMetaKey ≠ k → d.contains k = true ∧ k.head? ≠ some 0xff

/-- The callers' contract at one event: writes keep inside the span of their range, and a range is
opened on a store with keys of its span, such as a fresh one. -/
structure Keeps (K : KvCodec) (node : Node) (ev : NodeEvent) : Prop where
  writes : ∀ d, node.descriptorOf ev.target = some d → ∀ op ∈ ev.ops K, InSpan d op
  opens : ∀ d, ev = .openRange d → HoldsKeysOf d (node.stores d.rangeId)

/-- Reserved keys are those from the reserved byte on. -/
theorem lt_reservedKey_iff (k : Bytes) : k < reservedKey ↔ k.head? ≠ some 0xff := by
  unfold reservedKey
  cases k with
  | nil => simp
  | cons x k =>
      rw [cons_lt_cons]
      simp only [List.head?_cons, ne_eq, Option.some.injEq, List.not_lt_nil, and_false, or_false]
      constructor
      · rintro h rfl
        exact absurd h (UInt8.lt_irrefl _)
      · intro h
        have hx := x.toNat_lt
        have hne : x.toNat ≠ 255 := fun he => h (UInt8.toNat.inj he)
        rw [UInt8.lt_iff_toNat_lt]
        show x.toNat < 255
        omega

/-! ### One event -/

section Event

variable {K : KvCodec} {node : Node}

/-- An accepted write applies the client's operations to the range it names and to no other. -/
theorem write_eq_ok {req : WriteRequest} {proposal : Option LogId} {resp : WriteResponse}
    {node' : Node} (h : node.write K req proposal = (.ok resp, node')) :
    ∃ logId, proposal = some logId ∧ (node.descriptorOf req.target).isSome = true ∧
      node' = (node.applyTo K req.target ⟨logId, .normal (.batch ⟨req.ops K⟩)⟩).2 := by
  unfold Node.write at h
  cases hprepare : prepareWrite K (fun i => (node.directory.getRange i).isSome) req with
  | error status =>
      rw [hprepare] at h
      cases h
  | ok p =>
      obtain ⟨rangeId, cmd⟩ := p
      rw [hprepare] at h
      obtain ⟨rfl, rfl, hreg⟩ := prepareWrite_eq_ok K hprepare
      cases proposal with
      | none => cases h
      | some logId =>
          cases h
          refine ⟨logId, rfl, ?_, rfl⟩
          unfold Node.descriptorOf
          rcases hreg with htarget | hreg
          · rw [if_pos htarget]
            rfl
          · split_ifs
            · rfl
            · simpa using hreg

@[simp] theorem descriptorOf_applyTo (rangeId i : RangeId) (e : Entry) :
    (node.applyTo K rangeId e).2.descriptorOf i = node.descriptorOf i := rfl

theorem stores_applyTo_of_ne {rangeId i : RangeId} (h : i ≠ rangeId) (e : Entry) :
    (node.applyTo K rangeId e).2.stores i = node.stores i := Function.update_of_ne h _ _

theorem stores_applyTo_self (rangeId : RangeId) (e : Entry) :
    (node.applyTo K rangeId e).2.stores rangeId = ((node.stores rangeId).apply K [e]).2 :=
  Function.update_self _ _ _

theorem write_eq_error {req : WriteRequest} {proposal : Option LogId} {status : Status}
    {node' : Node} (h : node.write K req proposal = (.error status, node')) : node' = node := by
  unfold Node.write at h
  cases hprepare : prepareWrite K (fun i => (node.directory.getRange i).isSome) req with
  | error status =>
      rw [hprepare] at h
      cases h
      rfl
  | ok p =>
      rw [hprepare] at h
      cases proposal with
      | none =>
          cases h
          rfl
      | some logId => cases h

@[simp] theorem stores_openRange (descriptor : RangeDescriptor) :
    (node.openRange descriptor).stores = node.stores := by
  unfold Node.openRange
  cases node.directory.insert ⟨descriptor⟩ with
  | ok directory => rfl
  | error err => rfl

theorem descriptorOf_openRange {descriptor d : RangeDescriptor} {i : RangeId}
    (h : (node.openRange descriptor).descriptorOf i = some d) :
    node.descriptorOf i = some d ∨ descriptor = d ∧ d.rangeId = i := by
  unfold Node.openRange at h
  cases hins : node.directory.insert ⟨descriptor⟩ with
  | error err =>
      rw [hins] at h
      exact Or.inl h
  | ok directory =>
      rw [hins] at h
      unfold Node.descriptorOf at h ⊢
      split_ifs at h ⊢ with hdefault
      · exact Or.inl h
      · simp only [(RangeDirectory.getRange_insert hins).2] at h
        split_ifs at h with hi
        · cases h
          exact Or.inr ⟨rfl, hi⟩
        · exact Or.inl h

theorem descriptorOf_closeRange {rangeId i : RangeId} {d : RangeDescriptor}
    (h : (node.closeRange rangeId).descriptorOf i = some d) : node.descriptorOf i = some d := by
  unfold Node.closeRange Node.descriptorOf at h
  unfold Node.descriptorOf
  split_ifs at h ⊢ with hdefault
  · exact h
  · simp only [RangeDirectory.getRange_remove] at h
    split_ifs at h
    · cases h
    · exact h

/-- An event leaves the stores alone and runs no range that the node did not run before or that it
opens, or it applies its operations to one range. -/
theorem step_cases (ev : NodeEvent) :
    ((node.step K ev).stores = node.stores ∧ ∀ i d, (node.step K ev).descriptorOf i = some d →
        node.descriptorOf i = some d ∨ ev = .openRange d ∧ d.rangeId = i) ∨
      ∃ e, entryOps e = ev.ops K ∧ node.step K ev = (node.applyTo K ev.target e).2 := by
  cases ev with
  | write req proposal =>
      have hstep : node.step K (.write req proposal) = (node.write K req proposal).2 := rfl
      cases hw : node.write K req proposal with
      | mk answer node' =>
          rw [hstep, hw]
          cases answer with
          | ok resp =>
              obtain ⟨logId, _, _, hnode⟩ := write_eq_ok hw
              exact Or.inr ⟨_, entryOps_batch logId ⟨req.ops K⟩, hnode⟩
          | error status =>
              obtain rfl := write_eq_error hw
              exact Or.inl ⟨rfl, fun i d hd => Or.inl hd⟩
  | replicate rangeId e =>
      by_cases h : (node.descriptorOf rangeId).isSome = true
      · exact Or.inr ⟨e, rfl, if_pos h⟩
      · have hstep : node.step K (.replicate rangeId e) = node := if_neg h
        rw [hstep]
        exact Or.inl ⟨rfl, fun i d hd => Or.inl hd⟩
  | openRange descriptor =>
      refine Or.inl ⟨stores_openRange descriptor, ?_⟩
      intro i d hd
      rcases descriptorOf_openRange hd with hold | ⟨rfl, hi⟩
      · exact Or.inl hold
      · exact Or.inr ⟨rfl, hi⟩
  | closeRange rangeId => exact Or.inl ⟨rfl, fun i d hd => Or.inl (descriptorOf_closeRange hd)⟩

/-- Each range that the node runs holds only keys of its span. -/
def HoldsSpan (node : Node) : Prop :=
  ∀ i d, node.descriptorOf i = some d → HoldsKeysOf d (node.stores i)

/-- An event that keeps the contract keeps the keys in their spans. -/
theorem step_holdsSpan {ev : NodeEvent} (hnode : HoldsSpan node) (hev : Keeps K node ev) :
    HoldsSpan (node.step K ev) := by
  rcases step_cases (K := K) ev with ⟨hstores, hdesc⟩ | ⟨e, hops, hstep⟩
  · intro i d hd
    rw [hstores]
    rcases hdesc i d hd with hold | ⟨rfl, rfl⟩
    · exact hnode i d hold
    · exact hev.opens d rfl
  rw [hstep]
  intro i d hd k v hv hk
  rw [descriptorOf_applyTo] at hd
  by_cases hi : i = ev.target
  · subst hi
    rw [stores_applyTo_self, get_apply K _ _ hk] at hv
    cases hlast : entryWrites k e with
    | none =>
        have hold : (node.stores ev.target).data.rows[k]? = some v := by
          simpa [hlast] using hv
        exact hnode _ d hd k v hold hk
    | some x =>
        obtain ⟨op, hop, hwrites⟩ := Overwrite.mem_of_last_eq_some _ hlast
        rw [hops] at hop
        refine hev.writes d hd op hop k ?_
        rw [hwrites]
        exact Option.some_ne_none x
  · rw [stores_applyTo_of_ne hi] at hv
    exact hnode i d hd k v hv hk

end Event

/-! ### Runs -/

/-- What a node may rely on while its callers keep their contract. -/
structure Apart (node : Node) : Prop where
  in_span : HoldsSpan node
  disjoint : ∀ i j d e, node.descriptorOf i = some d → node.descriptorOf j = some e →
    (∀ k, ¬(d.contains k = true ∧ e.contains k = true)) → ∀ k, smMetaKey ≠ k →
      (node.stores i).data.rows[k]? = none ∨ (node.stores j).data.rows[k]? = none
  snapshot : ∀ i d, node.descriptorOf i = some d → ∀ k v,
    (node.stores i).data.rows[k]? = some v → smMetaKey ≠ k →
      (k, v) ∈ (StateMachineStore.snapshotPayload (node.stores i).inner (node.stores i).data).data

theorem apart_of_holdsSpan {node : Node} (h : HoldsSpan node) : Apart node where
  in_span := h
  disjoint := by
    intro i j d e hd he hdisjoint k hk
    by_contra hboth
    rw [not_or] at hboth
    obtain ⟨v, hv⟩ := Option.ne_none_iff_exists'.mp hboth.1
    obtain ⟨w, hw⟩ := Option.ne_none_iff_exists'.mp hboth.2
    exact hdisjoint k ⟨(h i d hd k v hv hk).1, (h j e he k w hw hk).1⟩
  snapshot := by
    intro i d hd k v hv hk
    exact (mem_scan_user _ k v).mpr ⟨hv, (lt_reservedKey_iff k).mpr (h i d hd k v hv hk).2⟩

/-- An accepted write applies exactly the client's operations, to the range it names, which the node
runs, and to no other. -/
def WritesAsAsked (K : KvCodec) (node : Node) : Prop :=
  ∀ req proposal resp node', node.write K req proposal = (.ok resp, node') →
    ∃ logId, proposal = some logId ∧ (node.descriptorOf req.target).isSome = true ∧
      node'.stores req.target = ((node.stores req.target).apply K
        [⟨logId, .normal (.batch ⟨req.ops K⟩)⟩]).2 ∧
      ∀ i, i ≠ req.target → node'.stores i = node.stores i

theorem writesAsAsked (K : KvCodec) (node : Node) : WritesAsAsked K node := by
  intro req proposal resp node' h
  obtain ⟨logId, hproposal, hsome, rfl⟩ := write_eq_ok h
  exact ⟨logId, hproposal, hsome, stores_applyTo_self _ _, fun i hi => stores_applyTo_of_ne hi _⟩

/-- **Ranges stay apart while callers keep their contract.**  In every run from empty stores an
accepted write applies exactly what the client asked for, unchecked, to the range it names.  When
every write of the run stayed in the span of its range and below the reserved byte, and every range
was opened on a store of its own span, then so does every key that the ranges hold; ranges with
disjoint spans hold no common key, and a snapshot carries every key that a client wrote. -/
theorem writes_stay_apart (K : KvCodec) {node : Node} (hfresh : ∀ i, node.stores i = .new .new)
    (evs : List NodeEvent) :
    WritesAsAsked K (Run.run (Node.step K) node evs) ∧
      (Run.Along (Node.step K) (Keeps K) node evs → Apart (Run.run (Node.step K) node evs)) := by
  refine ⟨writesAsAsked K _, fun hevs => apart_of_holdsSpan ?_⟩
  apply Run.Along.invariant (fun node ev hnode hev => step_holdsSpan hnode hev) hevs
  intro i d _ k v hv _
  rw [hfresh i] at hv
  have hnone : (StateMachineStore.new .new).data.rows[k]? = none := OrdMap.get_empty k
  rw [hnone] at hv
  cases hv

/-- Range 2, from `m` to `n`. -/
def rangeM : RangeDescriptor := RangeDescriptor.new 2 [109] [110] [.voter 1 1]

/-- A fresh node that runs the default range and range 2. -/
def freshNode : Node where
  defaultRange := RangeDescriptor.new 1 [] [] [.voter 1 1]
  directory := .single ⟨rangeM⟩
  stores _ := .new .new

theorem descriptorOf_freshNode : freshNode.descriptorOf 2 = some rangeM := by decide +kernel

/-- The write of one key to a range. -/
def putEvent (rangeId : RangeId) (key : Bytes) : NodeEvent :=
  .write (clientWrite rangeId [.put key [1]]) (some ⟨⟨1, 1⟩, 1⟩)

/-- The write of a key inside the span of its range. -/
theorem keeps_putEvent {node : Node} {rangeId : RangeId} {d : RangeDescriptor} {key : Bytes}
    (hd : node.descriptorOf (clientWrite rangeId [.put key [1]]).target = some d)
    (hops : (clientWrite rangeId [.put key [1]]).ops bincode = [.put key [1]])
    (hkey : d.contains key = true ∧ key.head? ≠ some 0xff) :
    Keeps bincode node (putEvent rangeId key) := by
  refine ⟨fun d' hd' op hop k hk => ?_, fun d hopens => by cases hopens⟩
  obtain rfl := Option.some.inj (hd.symm.trans hd')
  have hop' : op ∈ (clientWrite rangeId [.put key [1]]).ops bincode := hop
  rw [hops, List.mem_singleton] at hop'
  subst hop'
  by_cases heq : key = k
  · subst heq
    exact hkey
  · exact absurd (WriteOp.writes_put_of_ne heq _) hk

/-- A fresh node whose default range ends where range 2 begins. -/
def splitNode : Node :=
  { freshNode with defaultRange := RangeDescriptor.new 1 [] [109] [.voter 1 1] }

/-- One key is written to each of the two ranges. -/
theorem writes_stay_apart_inside :
    (∀ i, splitNode.stores i = .new .new) ∧
      Run.Along (Node.step bincode) (Keeps bincode) splitNode
        [putEvent 1 [97], putEvent 2 [109, 1]] ∧
      (Run.run (Node.step bincode) splitNode [putEvent 1 [97], putEvent 2 [109, 1]]).stores 1 ≠
        splitNode.stores 1 ∧
      (Run.run (Node.step bincode) splitNode [putEvent 1 [97], putEvent 2 [109, 1]]).stores 2 ≠
        splitNode.stores 2 ∧
      Apart (Run.run (Node.step bincode) splitNode [putEvent 1 [97], putEvent 2 [109, 1]]) := by
  have hkeeps : Run.Along (Node.step bincode) (Keeps bincode) splitNode
      [putEvent 1 [97], putEvent 2 [109, 1]] := by
    refine ⟨?_, ?_, trivial⟩
    · exact keeps_putEvent (d := splitNode.defaultRange) (by decide +kernel) (by decide +kernel)
        (by decide +kernel)
    · exact keeps_putEvent (d := rangeM) (by decide +kernel) (by decide +kernel)
        (by decide +kernel)
  refine ⟨fun _ => rfl, hkeeps, by decide +kernel, by decide +kernel, ?_⟩
  exact (writes_stay_apart bincode (fun _ => rfl) _).2 hkeeps

/-- Range 2 accepts a key before its span and a reserved key. -/
theorem stray_write_accepted :
    (∀ i, freshNode.stores i = .new .new) ∧ freshNode.descriptorOf 2 = some rangeM ∧
      (freshNode.write bincode (clientWrite 2 [.put [97] [1], .put [0xff, 1] [1]])
        (some ⟨⟨1, 1⟩, 1⟩)).1 = .ok ⟨1, 2, 2⟩ ∧
      ∀ op ∈ (clientWrite 2 [.put [97] [1], .put [0xff, 1] [1]]).ops bincode,
        ¬InSpan rangeM op := by
  refine ⟨fun _ => rfl, descriptorOf_freshNode, by decide +kernel, ?_⟩
  have hops : (clientWrite 2 [.put [97] [1], .put [0xff, 1] [1]]).ops bincode =
      [.put [97] [1], .put [0xff, 1] [1]] := by decide +kernel
  rw [hops]
  intro op hop hspan
  rcases List.mem_cons.mp hop with rfl | hop
  · exact absurd (hspan [97] (by decide)).1 (by decide)
  · obtain rfl := List.mem_singleton.mp hop
    exact absurd (hspan [0xff, 1] (by decide)).2 (by decide)

end AresaDb.Cluster
