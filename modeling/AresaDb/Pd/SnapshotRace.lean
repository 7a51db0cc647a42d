import AresaDb.Pd.Replication

/-! # Snapshots taken while entries are applied

`build_snapshot` runs on a clone of the adapter while `apply` runs on another.  It reads the cached
meta under the lock of the meta, releases it, and then reads the catalog under the lock of the
catalog.  A round of `apply` takes the same locks one after the other: it mutates the catalog,
writes the batch, and commits the cached meta.  `Race` is the state of both, `RaceMove` one step of
either, and a run of moves an interleaving.

In every interleaving the catalog is the fold of the entries begun so far and the cached meta that
of the entries committed so far.  The two reads of a builder are consistent when no entry that
changes the catalog comes in between (`Quiet`, `snapshot_consistent`); nothing in the code keeps
such an entry out (`snapshot_torn`). -/

namespace AresaDb.Pd

open ByteOrder AresaDb.Core Catalog PdRaftStateMachine

/-! ### The phases of a round -/

section

variable (K : PdCodec)

/-- The first phase of a round of `apply`: the catalog after the entry, the response, and the batch
that is still to be written.  Without a batch the round panicked. -/
def beginEntry (sm : PdRaftStateMachine) (e : Entry) : Option (PdResponse × WriteBatch) × Catalog :=
  let encoded := K.pdMeta.encode (entryMeta sm.pdMeta e)
  let metaOnly := WriteBatch.new.put pdRaftMetaKey encoded
  match e.payload with
  | .blank => (some (.ok, metaOnly), sm.inner.catalog)
  | .membership _ => (some (.ok, metaOnly), sm.inner.catalog)
  | .normal cmd =>
      match sm.inner.catalog.apply cmd with
      | (.error .panic, catalog) => (none, catalog)
      | (.error (.reject ce), catalog) => (some (.error ce.display, metaOnly), catalog)
      | (.ok resp, catalog) =>
          ((buildWriteBatch K cmd resp catalog).map fun batch =>
            (resp, batch.put pdRaftMetaKey encoded), catalog)

/-- The round of `apply` in progress. -/
inductive Applier where
  | idle
  /-- The catalog is mutated; the batch and the meta are not yet written. -/
  | mutated (batch : WriteBatch) (newMeta : PersistedPdMeta)
  /-- The batch is written; the cached meta is not yet committed. -/
  | written (newMeta : PersistedPdMeta)
  | panicked

/-- The call of `build_snapshot`. -/
inductive Builder where
  | idle
  | metaRead (metaSnap : PersistedPdMeta)
  | built (payload : SnapshotPayload)
  | panicked
deriving DecidableEq

/-- The meta is read and the catalog is not. -/
def Builder.waiting : Builder → Bool
  | .metaRead _ => true
  | _ => false

/-- A replica with an applier and a snapshot builder at work; `started` is the number of entries
begun. -/
structure Race where
  sm : PdRaftStateMachine
  applier : Applier
  builder : Builder
  started : ℕ

/-- A fresh replica with nothing going on. -/
def Race.start : Race := ⟨.fresh, .idle, .idle, 0⟩

/-- The steps of the applier and of the builder. -/
inductive RaceMove where
  | begin
  | write
  | commit
  | readMeta
  | readCatalog
deriving DecidableEq

/-- Mutate the catalog with the next entry, under the lock of the catalog. -/
def Race.begin (L : RaftLog) (r : Race) : Race :=
  match r.applier, L.entries[r.started]? with
  | .idle, some e =>
      match beginEntry K r.sm e with
      | (none, catalog) =>
          { r with sm := { r.sm with inner := { r.sm.inner with catalog } }, applier := .panicked }
      | (some (_, batch), catalog) =>
          { r with
            sm := { r.sm with inner := { r.sm.inner with catalog } }
            applier := .mutated batch (entryMeta r.sm.pdMeta e)
            started := r.started + 1 }
  | _, _ => r

/-- Write the batch of the entry to the backend. -/
def Race.write (r : Race) : Race :=
  match r.applier with
  | .mutated batch newMeta =>
      { r with
        sm := { r.sm with inner := { r.sm.inner with data := r.sm.inner.data.writeBatch batch } }
        applier := .written newMeta }
  | _ => r

/-- Commit the cached meta, under the lock of the meta. -/
def Race.commit (r : Race) : Race :=
  match r.applier with
  | .written newMeta => { r with sm := { r.sm with pdMeta := newMeta }, applier := .idle }
  | _ => r

/-- The builder clones the cached meta, under the lock of the meta. -/
def Race.readMeta (r : Race) : Race :=
  match r.builder with
  | .idle => { r with builder := .metaRead r.sm.pdMeta }
  | _ => r

/-- The builder clones the catalog, under the lock of the catalog, and assembles the payload. -/
def Race.readCatalog (r : Race) : Race :=
  match r.builder with
  | .metaRead metaSnap =>
      match snapshotPayload metaSnap r.sm.inner.catalog with
      | some payload => { r with builder := .built payload }
      | none => { r with builder := .panicked }
  | _ => r

/-- One step; a move that is not enabled does nothing. -/
def Race.step (L : RaftLog) (r : Race) : RaceMove → Race
  | .begin => r.begin K L
  | .write => r.write
  | .commit => r.commit
  | .readMeta => r.readMeta
  | .readCatalog => r.readCatalog

end

variable {K : PdCodec} {L : RaftLog}

/-- The three phases of a round, one after the other, are the round. -/
theorem applyEntry_eq_begin (sm : PdRaftStateMachine) (e : Entry) :
    sm.applyEntry K e =
      match beginEntry K sm e with
      | (none, catalog) =>
          (.error .panic, { sm with inner := { sm.inner with catalog } })
      | (some (resp, batch), catalog) =>
          (.ok resp, { inner := { data := sm.inner.data.writeBatch batch, catalog }
                       pdMeta := entryMeta sm.pdMeta e }) := by
  unfold applyEntry applyInnerEntry beginEntry
  cases e.payload with
  | blank => rfl
  | membership mem => rfl
  | normal cmd =>
      simp only [PdStateMachine.applyWithMeta, PdStateMachine.applyInner]
      rcases hout : sm.inner.catalog.apply cmd with ⟨res, catalog⟩
      cases res with
      | ok resp =>
          cases hbatch : buildWriteBatch K cmd resp catalog with
          | none => simp [hbatch]
          | some batch => simp [hbatch]
      | error f =>
          cases f with
          | panic => rfl
          | reject ce => rfl

/-- The first phase of an entry that is answered. -/
theorem beginEntry_ok {sm : PdRaftStateMachine} {e : Entry} {resp : PdResponse}
    (hr : sm.inner.catalog.Routed) (hn : sm.inner.catalog.NodesKeyed)
    (ha : sm.inner.catalog.answer e = some resp) :
    ∃ batch, beginEntry K sm e = (some (resp, batch), sm.inner.catalog.stepEntry e) := by
  obtain ⟨batch, happly, _⟩ := applyEntry_ok (K := K) hr hn ha
  rw [applyEntry_eq_begin] at happly
  rcases hb : beginEntry K sm e with ⟨_ | ⟨r, batch'⟩, catalog⟩
  · rw [hb] at happly
    cases happly
  · rw [hb] at happly
    injection happly with hresp hsm
    injection hresp with hresp
    injection hsm with hinner _
    injection hinner with _ hcat
    exact ⟨batch', by rw [hresp, hcat]⟩

/-- A command that panics leaves the catalog as it is. -/
theorem stepEntry_of_panic {c : Catalog} {e : Entry} (hr : c.Routed) (ha : c.answer e = none) :
    c.stepEntry e = c := by
  unfold answer at ha
  unfold Catalog.stepEntry
  cases hp : e.payload with
  | blank => rfl
  | membership mem => rfl
  | normal cmd =>
      simp only [hp] at ha
      rcases apply_outcome c cmd with ⟨r, hok, _⟩ | ⟨f, _, hf⟩
      · rw [hok] at ha
        cases ha
      · exact hf.eq_self hr

/-- The first phase of an entry that panics. -/
theorem beginEntry_panic {sm : PdRaftStateMachine} {e : Entry} (hr : sm.inner.catalog.Routed)
    (ha : sm.inner.catalog.answer e = none) : beginEntry K sm e = (none, sm.inner.catalog) := by
  have happly := applyEntry_panic (K := K) ha
  rw [applyEntry_eq_begin, stepEntry_of_panic hr ha] at happly
  rcases hb : beginEntry K sm e with ⟨_ | ⟨r, batch⟩, catalog⟩
  · rw [hb] at happly
    injection happly with _ hsm
    injection hsm with hinner _
    injection hinner with _ hcat
    rw [hcat]
  · rw [hb] at happly
    cases happly

/-! ### The catalog that `apply` leaves behind -/

/-- Entries up to the first panic. -/
def answered (c : Catalog) (es : List Entry) : List Entry := es.take (c.progress es)

theorem answered_cons {c : Catalog} {e : Entry} {resp : PdResponse} (ha : c.answer e = some resp)
    (es : List Entry) : answered c (e :: es) = e :: answered (c.stepEntry e) es := by
  unfold answered
  simp [progress, ha]

/-- `apply` folds the catalog over the entries up to the first panic, whatever the backend holds. -/
theorem apply_catalog {sm : PdRaftStateMachine} (hr : sm.inner.catalog.Routed)
    (hn : sm.inner.catalog.NodesKeyed) (es : List Entry) :
    (sm.apply K es).2.inner.catalog =
      Run.run stepEntry sm.inner.catalog (answered sm.inner.catalog es) := by
  induction es generalizing sm with
  | nil => rfl
  | cons e es ih =>
      cases ha : sm.inner.catalog.answer e with
      | none =>
          simp only [PdRaftStateMachine.apply, applyEntry_panic ha, answered, progress, ha,
            Option.isSome_none, Bool.false_eq_true, if_false, List.take_zero, Run.run_nil]
          exact stepEntry_of_panic hr ha
      | some resp =>
          obtain ⟨batch, happly, _⟩ := applyEntry_ok (K := K) hr hn ha
          rw [answered_cons ha, Run.run_cons]
          simp only [PdRaftStateMachine.apply, happly]
          exact ih (hr.stepEntry e) (hn.stepEntry hr e)

/-- Folding over a prefix and then over the rest, each up to the first panic, is folding over the
whole, when the prefix does not panic. -/
theorem run_answered_drop {c : Catalog} {es : List Entry} {n : ℕ} (h : n ≤ c.progress es) :
    Run.run stepEntry c (answered c es) =
      Run.run stepEntry (Run.run stepEntry c (es.take n))
        (answered (Run.run stepEntry c (es.take n)) (es.drop n)) := by
  induction es generalizing c n with
  | nil => simp [answered]
  | cons e es ih =>
      cases n with
      | zero => simp
      | succ n =>
          cases ha : c.answer e with
          | none => simp [progress, ha] at h
          | some resp =>
              have hle : n ≤ (c.stepEntry e).progress es := by
                simp only [progress, ha, Option.isSome_some, if_true] at h
                omega
              rw [answered_cons ha, Run.run_cons, List.take_succ_cons, List.drop_succ_cons,
                Run.run_cons]
              exact ih hle

/-- An entry that is answered extends the prefix that does not panic. -/
theorem succ_le_progress {c : Catalog} {es : List Entry} {n : ℕ} {e : Entry} {resp : PdResponse}
    (h : n ≤ c.progress es) (he : es[n]? = some e)
    (ha : (Run.run stepEntry c (es.take n)).answer e = some resp) : n + 1 ≤ c.progress es := by
  induction es generalizing c n with
  | nil => simp at he
  | cons a es ih =>
      cases n with
      | zero =>
          obtain rfl := Option.some.inj he
          have ha' : c.answer a = some resp := ha
          simp [progress, ha']
      | succ n =>
          cases hc : c.answer a with
          | none => simp [progress, hc] at h
          | some r =>
              simp only [progress, hc, Option.isSome_some, if_true] at h ⊢
              have hn : n + 1 ≤ (c.stepEntry a).progress es := ih (by omega) (by simpa using he) ha
              omega

/-! ### Every interleaving -/

/-- How many entries are begun and not committed. -/
def Applier.inFlight : Applier → ℕ
  | .mutated _ _ => 1
  | .written _ => 1
  | _ => 0

theorem Applier.inFlight_le_one (a : Applier) : a.inFlight ≤ 1 := by
  cases a with
  | idle => exact Nat.zero_le 1
  | mutated batch newMeta => exact Nat.le_refl 1
  | written newMeta => exact Nat.le_refl 1
  | panicked => exact Nat.zero_le 1

/-- The meta that the round in progress is going to commit. -/
def Applier.newMeta : Applier → Option PersistedPdMeta
  | .mutated _ newMeta => some newMeta
  | .written newMeta => some newMeta
  | _ => none

/-- In every interleaving the catalog is that of the entries begun, and the cached meta that of the
entries committed. -/
structure Underway (L : RaftLog) (r : Race) : Prop where
  started : r.started ≤ Catalog.new.progress L.entries
  catalog : r.sm.inner.catalog = ofLog (L.entries.take r.started)
  pdMeta : ∃ n, n + r.applier.inFlight = r.started ∧ r.sm.pdMeta = metaOf (L.entries.take n)
  newMeta : ∀ m, r.applier.newMeta = some m → m = metaOf (L.entries.take r.started)

theorem underway_start : Underway L .start where
  started := Nat.zero_le _
  catalog := rfl
  pdMeta := ⟨0, rfl, rfl⟩
  newMeta := by
    intro m h
    cases h

/-- What a move can do. -/
inductive Fires (L : RaftLog) (r : Race) : RaceMove → Race → Prop
  | skip (move : RaceMove) : Fires L r move r
  | begun {e : Entry} {resp : PdResponse} {batch : WriteBatch} (hidle : r.applier = .idle)
      (he : L.entries[r.started]? = some e) (ha : r.sm.inner.catalog.answer e = some resp) :
      Fires L r .begin
        { r with
          sm := { r.sm with inner := { r.sm.inner with catalog := r.sm.inner.catalog.stepEntry e } }
          applier := .mutated batch (entryMeta r.sm.pdMeta e)
          started := r.started + 1 }
  | beginPanicked (hidle : r.applier = .idle) : Fires L r .begin { r with applier := .panicked }
  | written {batch : WriteBatch} {newMeta : PersistedPdMeta}
      (happ : r.applier = .mutated batch newMeta) :
      Fires L r .write
        { r with
          sm := { r.sm with inner := { r.sm.inner with data := r.sm.inner.data.writeBatch batch } }
          applier := .written newMeta }
  | committed {newMeta : PersistedPdMeta} (happ : r.applier = .written newMeta) :
      Fires L r .commit { r with sm := { r.sm with pdMeta := newMeta }, applier := .idle }
  | metaRead (hidle : r.builder = .idle) :
      Fires L r .readMeta { r with builder := .metaRead r.sm.pdMeta }
  | catalogRead {metaSnap : PersistedPdMeta} {payload : SnapshotPayload}
      (hread : r.builder = .metaRead metaSnap)
      (hpayload : snapshotPayload metaSnap r.sm.inner.catalog = some payload) :
      Fires L r .readCatalog { r with builder := .built payload }
  | readPanicked {metaSnap : PersistedPdMeta} (hread : r.builder = .metaRead metaSnap) :
      Fires L r .readCatalog { r with builder := .panicked }

theorem fires_begin {r : Race} (hr : r.sm.inner.catalog.Routed)
    (hn : r.sm.inner.catalog.NodesKeyed) :
    Fires L r .begin (r.begin K L) := by
  unfold Race.begin
  cases happ : r.applier with
  | idle =>
      cases he : L.entries[r.started]? with
      | none => exact .skip _
      | some e =>
          cases ha : r.sm.inner.catalog.answer e with
          | none =>
              simp only [beginEntry_panic hr ha]
              exact .beginPanicked happ
          | some resp =>
              obtain ⟨batch, hb⟩ := beginEntry_ok (K := K) hr hn ha
              simp only [hb]
              exact .begun happ he ha
  | mutated batch newMeta => exact .skip _
  | written newMeta => exact .skip _
  | panicked => exact .skip _

theorem fires_step {r : Race} (hr : r.sm.inner.catalog.Routed) (hn : r.sm.inner.catalog.NodesKeyed)
    (move : RaceMove) : Fires L r move (r.step K L move) := by
  cases move with
  | begin => exact fires_begin hr hn
  | write =>
      unfold Race.step Race.write
      cases happ : r.applier with
      | mutated batch newMeta => exact .written happ
      | idle => exact .skip _
      | written newMeta => exact .skip _
      | panicked => exact .skip _
  | commit =>
      unfold Race.step Race.commit
      cases happ : r.applier with
      | written newMeta => exact .committed happ
      | idle => exact .skip _
      | mutated batch newMeta => exact .skip _
      | panicked => exact .skip _
  | readMeta =>
      unfold Race.step Race.readMeta
      cases hb : r.builder with
      | idle => exact .metaRead hb
      | metaRead metaSnap => exact .skip _
      | built payload => exact .skip _
      | panicked => exact .skip _
  | readCatalog =>
      unfold Race.step Race.readCatalog
      cases hb : r.builder with
      | metaRead metaSnap =>
          cases hp : snapshotPayload metaSnap r.sm.inner.catalog with
          | none =>
              simp only [hp]
              exact .readPanicked hb
          | some payload =>
              simp only [hp]
              exact .catalogRead hb hp
      | idle => exact .skip _
      | built payload => exact .skip _
      | panicked => exact .skip _

theorem ofLog_take_succ {n : ℕ} {e : Entry} (he : L.entries[n]? = some e) :
    ofLog (L.entries.take (n + 1)) = (ofLog (L.entries.take n)).stepEntry e := by
  rw [List.take_add_one, he]
  exact Run.run_concat _ _ _ _

theorem metaOf_take_succ {n : ℕ} {e : Entry} (he : L.entries[n]? = some e) :
    metaOf (L.entries.take (n + 1)) = entryMeta (metaOf (L.entries.take n)) e := by
  rw [List.take_add_one, he]
  exact Run.run_concat _ _ _ _

theorem Underway.fires {r r' : Race} {move : RaceMove} (h : Underway L r)
    (hf : Fires L r move r') : Underway L r' := by
  obtain ⟨n, hn, hm⟩ := h.pdMeta
  cases hf with
  | skip => exact h
  | @begun e resp batch hidle he ha =>
      rw [hidle] at hn
      obtain rfl : n = r.started := hn
      have ha' : (Run.run stepEntry .new (L.entries.take r.started)).answer e = some resp := by
        rw [h.catalog] at ha
        exact ha
      refine ⟨succ_le_progress h.started he ha', ?_, ⟨r.started, rfl, hm⟩, ?_⟩
      · show r.sm.inner.catalog.stepEntry e = _
        rw [ofLog_take_succ he, h.catalog]
      · intro m hnew
        obtain rfl := Option.some.inj hnew
        rw [hm, metaOf_take_succ he]
  | beginPanicked hidle =>
      rw [hidle] at hn
      refine ⟨h.started, h.catalog, ⟨n, hn, hm⟩, ?_⟩
      intro m hnew
      cases hnew
  | written happ =>
      rw [happ] at hn
      refine ⟨h.started, h.catalog, ⟨n, hn, hm⟩, ?_⟩
      intro m hnew
      exact h.newMeta m (by rw [happ]; exact hnew)
  | committed happ =>
      refine ⟨h.started, h.catalog, ⟨r.started, rfl, h.newMeta _ (by rw [happ]; rfl)⟩, ?_⟩
      intro m hnew
      cases hnew
  | metaRead => exact ⟨h.started, h.catalog, h.pdMeta, h.newMeta⟩
  | catalogRead => exact ⟨h.started, h.catalog, h.pdMeta, h.newMeta⟩
  | readPanicked => exact ⟨h.started, h.catalog, h.pdMeta, h.newMeta⟩

theorem Underway.fires_step {r : Race} (h : Underway L r) (move : RaceMove) :
    Fires L r move (r.step K L move) := by
  obtain ⟨hr, hn⟩ := ofLog_invariants (L.entries.take r.started)
  rw [← h.catalog] at hr hn
  exact Pd.fires_step hr hn move

/-! ### Quiet interleavings -/

/-- The entry at a position leaves the catalog as it is. -/
def Inert (L : RaftLog) (i : ℕ) : Prop :=
  ofLog (L.entries.take (i + 1)) = ofLog (L.entries.take i)

instance decidableInert (L : RaftLog) (i : ℕ) : Decidable (Inert L i) :=
  inferInstanceAs (Decidable (_ = _))

/-- Between the two reads of the builder only inert entries touch the catalog: no other one is in
flight when the meta is read, and none begins until the catalog is read. -/
def Quiet (L : RaftLog) (r : Race) : RaceMove → Prop
  | .begin => r.builder.waiting = true → Inert L r.started
  | .readMeta => r.applier.inFlight = 1 → Inert L (r.started - 1)
  | _ => True

instance decidableQuiet (L : RaftLog) (r : Race) : ∀ move, Decidable (Quiet L r move)
  | .begin => inferInstanceAs (Decidable (_ → _))
  | .readMeta => inferInstanceAs (Decidable (_ → _))
  | .write => .isTrue trivial
  | .commit => .isTrue trivial
  | .readCatalog => .isTrue trivial

/-- What the builder has read belongs together. -/
structure Consistent (L : RaftLog) (r : Race) : Prop where
  underway : Underway L r
  metaRead : ∀ metaSnap, r.builder = .metaRead metaSnap → ∃ n ≤ r.started,
    metaSnap = metaOf (L.entries.take n) ∧
      ofLog (L.entries.take n) = ofLog (L.entries.take r.started)
  built : ∀ payload, r.builder = .built payload → ∃ n ≤ r.started,
    snapshotPayload (metaOf (L.entries.take n)) (ofLog (L.entries.take n)) = some payload

theorem consistent_start : Consistent L .start := by
  refine ⟨underway_start, ?_, ?_⟩
  · intro metaSnap h
    cases h
  · intro payload h
    cases h

/-- The meta that a builder reads is that of the catalog, up to inert entries. -/
theorem Underway.readMeta {r : Race} (h : Underway L r) (hq : Quiet L r .readMeta) :
    ∃ n ≤ r.started, r.sm.pdMeta = metaOf (L.entries.take n) ∧
      ofLog (L.entries.take n) = ofLog (L.entries.take r.started) := by
  obtain ⟨n, hn, hm⟩ := h.pdMeta
  refine ⟨n, by omega, hm, ?_⟩
  have hle := r.applier.inFlight_le_one
  rcases Nat.lt_or_ge 0 r.applier.inFlight with hpos | hzero
  · have hone : r.applier.inFlight = 1 := by omega
    have hprev : r.started - 1 = n := by omega
    have hinert : Inert L (r.started - 1) := hq hone
    rw [hprev] at hinert
    rw [show r.started = n + 1 by omega]
    exact hinert.symm
  · have hn' : n = r.started := by omega
    rw [hn']

theorem Consistent.fires {r r' : Race} {move : RaceMove} (h : Consistent L r)
    (hq : Quiet L r move) (hf : Fires L r move r') : Consistent L r' := by
  have hu := h.underway.fires hf
  cases hf with
  | skip => exact h
  | begun hidle he ha =>
      refine ⟨hu, ?_, ?_⟩
      · intro metaSnap hread
        obtain ⟨n, hn, hm, hcat⟩ := h.metaRead metaSnap hread
        have hwaiting : r.builder.waiting = true := by rw [hread]; rfl
        exact ⟨n, Nat.le_succ_of_le hn, hm, hcat.trans (hq hwaiting).symm⟩
      · intro payload hbuilt
        obtain ⟨n, hn, hp⟩ := h.built payload hbuilt
        exact ⟨n, Nat.le_succ_of_le hn, hp⟩
  | beginPanicked => exact ⟨hu, h.metaRead, h.built⟩
  | written => exact ⟨hu, h.metaRead, h.built⟩
  | committed => exact ⟨hu, h.metaRead, h.built⟩
  | metaRead =>
      refine ⟨hu, ?_, ?_⟩
      · intro metaSnap hread
        injection hread with hread
        rw [← hread]
        exact h.underway.readMeta hq
      · intro payload hbuilt
        cases hbuilt
  | catalogRead hread hpayload =>
      refine ⟨hu, ?_, ?_⟩
      · intro metaSnap hread'
        cases hread'
      · intro payload hbuilt
        injection hbuilt with hbuilt
        obtain ⟨n, hn, hm, hcat⟩ := h.metaRead _ hread
        rw [h.underway.catalog, ← hcat, hm, hbuilt] at hpayload
        exact ⟨n, hn, hpayload⟩
  | readPanicked =>
      refine ⟨hu, ?_, ?_⟩
      · intro metaSnap hread
        cases hread
      · intro payload hbuilt
        cases hbuilt

theorem consistent_run {moves : List RaceMove}
    (hq : Run.Along (Race.step K L) (Quiet L) .start moves) :
    Consistent L (Run.run (Race.step K L) .start moves) :=
  hq.invariant (fun _ move h hq => h.fires hq (h.underway.fires_step move)) consistent_start

/-! ### The snapshot and its followers -/

/-- The number of entries that a snapshot stands for. -/
def SnapshotPayload.position (payload : SnapshotPayload) : ℕ :=
  match payload.lastApplied with
  | none => 0
  | some id => id.index.toNat + 1

theorem position_snapshotPayload {n : ℕ} {c : Catalog} {payload : SnapshotPayload}
    (hn : n ≤ L.entries.length)
    (hp : snapshotPayload (metaOf (L.entries.take n)) c = some payload) : payload.position = n := by
  have hlast : payload.lastApplied = (L.entries.take n).getLast?.map (·.logId) := by
    rw [← metaOf_lastApplied]
    obtain ⟨ranges, _, hpayload⟩ := Option.bind_eq_some_iff.mp hp
    rw [← Option.some.inj hpayload]
  unfold SnapshotPayload.position
  rw [hlast]
  cases n with
  | zero => rfl
  | succ n =>
      have he : L.entries[n]? = some L.entries[n] := List.getElem?_eq_getElem hn
      rw [List.take_add_one, he, Option.toList_some, List.getLast?_concat]
      have hidx := L.indexed n _ he
      show (L.entries[n]).logId.index.toNat + 1 = n + 1
      omega

/-- A follower that installs the snapshot of a log prefix and applies the remaining entries holds
the catalog of a replica that applied them all. -/
theorem install_and_apply {n : ℕ} {payload : SnapshotPayload}
    (hn : n ≤ Catalog.new.progress L.entries)
    (hp : snapshotPayload (metaOf (L.entries.take n)) (ofLog (L.entries.take n)) = some payload)
    (hsafe : SnapshotSafe (ofLog (L.entries.take n))) (follower : PdRaftStateMachine) :
    ∃ sm, follower.installSnapshot K (K.payload.encode payload) = .ok sm ∧
      (sm.apply K (L.entries.drop n)).2.inner.catalog =
        (PdRaftStateMachine.fresh.apply K L.entries).2.inner.catalog := by
  obtain ⟨hr, hk⟩ := ofLog_invariants (L.entries.take n)
  obtain ⟨sm, hinstall, _, hcat, _⟩ := install_catalog (K := K) hr hk hsafe hp follower
  refine ⟨sm, hinstall, ?_⟩
  rw [apply_catalog (by rw [hcat]; exact hr) (by rw [hcat]; exact hk),
    apply_catalog routed_new nodesKeyed_new, hcat]
  exact (run_answered_drop hn).symm

/-- **Snapshots are consistent**: whenever a quiet interleaving has built a snapshot, its ranges,
nodes and id counter are those of folding the catalog over the entries up to the last applied one
that it records.  If hydration gives that catalog back, a follower that installs the snapshot and
applies the remaining entries reaches the catalog of a replica that applied every entry. -/
theorem snapshot_consistent (K : PdCodec) (L : RaftLog) (moves : List RaceMove)
    (payload : SnapshotPayload) (hq : Run.Along (Race.step K L) (Quiet L) .start moves)
    (hbuilt : (Run.run (Race.step K L) .start moves).builder = .built payload) :
    (ofLog (L.entries.take payload.position)).iterRangesByStart = some payload.ranges ∧
      (ofLog (L.entries.take payload.position)).iterNodes = payload.nodes ∧
      (ofLog (L.entries.take payload.position)).nextRangeId = payload.nextRangeId ∧
      (SnapshotSafe (ofLog (L.entries.take payload.position)) →
        ∀ follower : PdRaftStateMachine, ∃ sm,
          follower.installSnapshot K (K.payload.encode payload) = .ok sm ∧
            (sm.apply K (L.entries.drop payload.position)).2.inner.catalog =
              (PdRaftStateMachine.fresh.apply K L.entries).2.inner.catalog) := by
  have h := consistent_run hq
  obtain ⟨n, hn, hp⟩ := h.built payload hbuilt
  have hprogress := hn.trans h.underway.started
  have hpos := position_snapshotPayload (hprogress.trans (progress_le_length _ _)) hp
  rw [hpos]
  obtain ⟨ranges, hranges, hpayload⟩ := Option.bind_eq_some_iff.mp hp
  have hpayload' := Option.some.inj hpayload
  refine ⟨?_, ?_, ?_, fun hsafe => install_and_apply hprogress hp hsafe⟩
  · rw [hranges, ← hpayload']
  · rw [← hpayload']
  · rw [← hpayload']

/-- Create the unbounded range, split it, try the same split again, and dissolve the new range. -/
def rejectedSplitLog : RaftLog where
  entries := [logEntry 0 (.createRange (.new 1 [] [] [])), logEntry 1 (.splitRange 1 [109]),
    logEntry 2 (.splitRange 1 [109]), logEntry 3 (.mergeRanges 1 2)]
  indexed := by
    intro i e h
    match i, h with
    | 0, h => obtain rfl := Option.some.inj h; rfl
    | 1, h => obtain rfl := Option.some.inj h; rfl
    | 2, h => obtain rfl := Option.some.inj h; rfl
    | 3, h => obtain rfl := Option.some.inj h; rfl

/-- A rejected split is in flight while the snapshot is built, and the merge follows. -/
def quietMoves : List RaceMove :=
  [.begin, .write, .commit, .begin, .write, .commit, .begin, .readMeta, .write, .readCatalog,
    .commit, .begin]

/-- The snapshot is that of the first two entries. -/
theorem snapshot_consistent_rejected_split :
    ∃ payload, (Run.run (Race.step bincode rejectedSplitLog) .start quietMoves).builder =
        .built payload ∧ payload.position = 2 ∧
      (ofLog (rejectedSplitLog.entries.take 2)).iterRangesByStart = some payload.ranges ∧
      ∀ follower : PdRaftStateMachine, ∃ sm,
        follower.installSnapshot bincode (bincode.payload.encode payload) = .ok sm ∧
          (sm.apply bincode (rejectedSplitLog.entries.drop 2)).2.inner.catalog =
            (PdRaftStateMachine.fresh.apply bincode rejectedSplitLog.entries).2.inner.catalog := by
  have hsafe : SnapshotSafe (ofLog (rejectedSplitLog.entries.take 2)) :=
    snapshotSafe_ofLog (by decide +kernel)
  have hbuilt : (Run.run (Race.step bincode rejectedSplitLog) .start quietMoves).builder =
      .built ⟨some ⟨⟨1, 1⟩, 1⟩, .default, 3,
        [{ RangeDescriptor.new 1 [] [109] [] with generation := 1 },
          { RangeDescriptor.new 2 [109] [] [] with generation := 1 }], []⟩ := by
    decide +kernel
  obtain ⟨hranges, _, _, hfollow⟩ :=
    snapshot_consistent bincode rejectedSplitLog quietMoves _ (by decide +kernel) hbuilt
  exact ⟨_, hbuilt, rfl, hranges, hfollow hsafe⟩

/-- The cached meta is read after the first entry and the catalog after the last. -/
def tornMoves : List RaceMove :=
  [.begin, .write, .commit, .readMeta, .begin, .write, .commit, .begin, .write, .commit, .begin,
    .readCatalog]

/-- The snapshot of those reads. -/
def tornPayload : SnapshotPayload where
  lastApplied := some ⟨⟨1, 1⟩, 0⟩
  lastMembership := .default
  nextRangeId := 3
  ranges := [{ RangeDescriptor.new 1 [] [] [] with generation := 2 }]
  nodes := []

/-- Such a snapshot holds a later catalog than it says.  A follower that installs it splits the
range once more, into an id that the merge does not name, and keeps two ranges where the other
replicas have one. -/
theorem snapshot_torn :
    (Run.run (Race.step bincode rejectedSplitLog) .start tornMoves).builder = .built tornPayload ∧
      (ofLog (rejectedSplitLog.entries.take tornPayload.position)).iterRangesByStart ≠
        some tornPayload.ranges ∧
      (ofLog (rejectedSplitLog.entries.take tornPayload.position)).nextRangeId ≠
        tornPayload.nextRangeId ∧
      ∃ sm, PdRaftStateMachine.fresh.installSnapshot bincode (bincode.payload.encode tornPayload) =
          .ok sm ∧
        (sm.apply bincode (rejectedSplitLog.entries.drop tornPayload.position)).2.inner.catalog ≠
          (PdRaftStateMachine.fresh.apply bincode rejectedSplitLog.entries).2.inner.catalog := by
  obtain ⟨hr, hk⟩ := ofLog_invariants rejectedSplitLog.entries
  have hsafe : SnapshotSafe (ofLog rejectedSplitLog.entries) :=
    snapshotSafe_ofLog (by decide +kernel)
  have hp : snapshotPayload (metaOf (rejectedSplitLog.entries.take 1))
      (ofLog rejectedSplitLog.entries) = some tornPayload := by decide +kernel
  obtain ⟨sm, hinstall, _, hcat, _⟩ := install_catalog (K := bincode) hr hk hsafe hp .fresh
  refine ⟨by decide +kernel, by decide +kernel, by decide +kernel, sm, hinstall, ?_⟩
  rw [apply_catalog (by rw [hcat]; exact hr) (by rw [hcat]; exact hk),
    apply_catalog routed_new nodesKeyed_new, hcat]
  decide +kernel

end AresaDb.Pd
