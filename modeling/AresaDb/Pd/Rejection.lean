import AresaDb.Pd.SnapshotRoundTrip

/-! # Rejected commands

Every check of a mutator comes before its first mutation, so a command that the catalog rejects
leaves it as it was (`step_of_reject`).  The Raft adapter then writes the meta row in a batch of its
own and answers with the text of the rejection: of a replica, on disk and in memory, only the last
applied log id changes (`OnlyPosition`).

Each entry that is applied pushes one response, whichever way it went, so that the responses to a
list of entries line up with it (`Answered`).  Only a panic keeps `apply` from answering.

All of this holds of every replica that restarts, snapshots and log entries can lead to, with no
condition on any of them (`Reached.backed`). -/

namespace AresaDb.Pd

open ByteOrder AresaDb.Core Catalog PdRaftStateMachine

variable {K : PdCodec} {L : RaftLog} {G : Guard} {sm sm' : PdRaftStateMachine} {e : Entry}
  {cmd : PdCommand} {ce : CatalogError}

/-- The meta that opening the backend finds. -/
def persistedMeta (K : PdCodec) (data : Backend) : Option PersistedPdMeta :=
  match data.get pdRaftMetaKey with
  | none => some .default
  | some bytes => K.pdMeta.decode bytes

/-- A replica moved to a log position, with nothing else changed. -/
structure OnlyPosition (K : PdCodec) (position : LogId) (sm sm' : PdRaftStateMachine) : Prop where
  catalog : sm'.inner.catalog = sm.inner.catalog
  rows : ∀ key, key ≠ pdRaftMetaKey → sm'.inner.data.rows[key]? = sm.inner.data.rows[key]?
  cached : sm'.pdMeta = { sm.pdMeta with lastApplied := some position }
  persisted : ∃ p, persistedMeta K sm.inner.data = some p ∧
    persistedMeta K sm'.inner.data = some { p with lastApplied := some position }

/-- The catalog after the first `i` entries of a list. -/
def Catalog.catalogAt (c : Catalog) (es : List Entry) (i : ℕ) : Catalog :=
  Run.run stepEntry c (es.take i)

/-- One response for each entry, in the order of the entries. -/
structure Answered (c : Catalog) (es : List Entry) (resps : List PdResponse) : Prop where
  length : resps.length = es.length
  each : ∀ i e, es[i]? = some e → resps[i]? = (c.catalogAt es i).answer e

/-! ### One entry -/

/-- A rejected command changes nothing in the catalog. -/
theorem Catalog.step_of_reject {c : Catalog} (h : (c.apply cmd).1 = .error (.reject ce)) :
    (c.apply cmd).2 = c := by
  rcases apply_outcome c cmd with ⟨r, hok, _⟩ | ⟨f, herr, hf⟩
  · rw [h] at hok
    cases hok
  · rw [h] at herr
    obtain rfl := Except.error.inj herr
    generalize (c.apply cmd).2 = c' at hf
    cases hf with
    | reject cmd e => rfl

theorem answer_of_reject {c : Catalog} (hp : e.payload = .normal cmd)
    (h : (c.apply cmd).1 = .error (.reject ce)) : c.answer e = some (.error ce.display) := by
  unfold answer
  rw [hp]
  simp only [h, responseOf]

/-- A command panics only on an entry of the start-key index that names no range. -/
theorem answer_ne_none {c : Catalog} (hr : c.Routed) (hlive : c.StartLive) (e : Entry) :
    c.answer e ≠ none := by
  unfold answer
  cases e.payload with
  | blank => simp
  | membership mem => simp
  | normal cmd =>
      rcases apply_outcome c cmd with ⟨r, hok, _⟩ | ⟨f, herr, hf⟩
      · simp [hok, responseOf]
      · generalize (c.apply cmd).2 = c' at hf
        cases hf with
        | reject cmd ce => simp [herr, responseOf]
        | danglingIndex desc s id hindex hid =>
            obtain ⟨d, hd⟩ := hlive id ((OrdMap.mem_values _ _).mpr ⟨s, hindex⟩)
            rw [hid] at hd
            cases hd
        | selfMerge id d hd hself hend => exact (hr.not_selfMerge hd hself hend).elim

theorem persistedMeta_of_row {data : Backend} {p : PersistedPdMeta}
    (h : data.rows[pdRaftMetaKey]? = some (K.pdMeta.encode p)) : persistedMeta K data = some p := by
  have hget : data.get pdRaftMetaKey = some (K.pdMeta.encode p) := h
  unfold persistedMeta
  rw [hget]
  exact K.pdMeta.decode_encode p

/-- The meta row of a replica is the meta it has cached. -/
theorem Backed.persistedMeta_eq (h : Backed K sm) :
    persistedMeta K sm.inner.data = some sm.pdMeta := by
  obtain ⟨m, hm, hs⟩ := h.stored
  rw [← hm]
  cases m with
  | none =>
      have hget : sm.inner.data.get pdRaftMetaKey = none := hs.pdMeta
      unfold persistedMeta
      rw [hget]
      rfl
  | some p => exact persistedMeta_of_row hs.pdMeta

/-- A rejected command commits the meta row and nothing else, and is answered with its error. -/
theorem Backed.applyEntry_reject (h : Backed K sm) (hp : e.payload = .normal cmd)
    (hrej : (sm.inner.catalog.apply cmd).1 = .error (.reject ce)) :
    ∃ sm', sm.applyEntry K e = (.ok (.error ce.display), sm') ∧ OnlyPosition K e.logId sm sm' := by
  have hout : sm.inner.catalog.apply cmd = (.error (.reject ce), sm.inner.catalog) :=
    Prod.ext hrej (step_of_reject hrej)
  have hmeta : entryMeta sm.pdMeta e = { sm.pdMeta with lastApplied := some e.logId } := by
    unfold entryMeta
    rw [hp]
  refine ⟨_, by
    simp only [applyEntry, applyInnerEntry, hp, PdStateMachine.applyWithMeta,
      PdStateMachine.applyInner, hout]
    rfl, ?_⟩
  have hrows : (sm.inner.applyMetaOnly (K.pdMeta.encode (entryMeta sm.pdMeta e))).data.rows =
      sm.inner.data.rows.insert pdRaftMetaKey (K.pdMeta.encode (entryMeta sm.pdMeta e)) := by
    unfold PdStateMachine.applyMetaOnly
    rw [Backend.rows_writeBatch, WriteBatch.run_put, WriteBatch.run_new]
  refine ⟨rfl, ?_, hmeta, sm.pdMeta, h.persistedMeta_eq, ?_⟩
  · intro key hkey
    show (sm.inner.applyMetaOnly _).data.rows[key]? = _
    rw [hrows, OrdMap.get_insert_of_ne _ _ hkey.symm]
  · rw [← hmeta]
    apply persistedMeta_of_row
    show (sm.inner.applyMetaOnly _).data.rows[pdRaftMetaKey]? = _
    rw [hrows, OrdMap.get_insert_self]

/-! ### Lists of entries -/

theorem Catalog.catalogAt_cons_succ (c : Catalog) (e : Entry) (es : List Entry) (i : ℕ) :
    c.catalogAt (e :: es) (i + 1) = (c.stepEntry e).catalogAt es i := rfl

theorem Answered.cons {c : Catalog} {es : List Entry} {resps : List PdResponse} {resp : PdResponse}
    (h : Answered (c.stepEntry e) es resps) (ha : c.answer e = some resp) :
    Answered c (e :: es) (resp :: resps) where
  length := by rw [List.length_cons, List.length_cons, h.length]
  each := by
    intro i e' he'
    cases i with
    | zero =>
        obtain rfl := Option.some.inj he'
        exact ha.symm
    | succ i =>
        rw [catalogAt_cons_succ]
        exact h.each i e' he'

theorem Backed.answered (h : Backed K sm) {es : List Entry} {resps : List PdResponse}
    (happly : sm.apply K es = (.ok resps, sm')) : Answered sm.inner.catalog es resps := by
  induction es generalizing sm resps with
  | nil =>
      simp only [PdRaftStateMachine.apply, Prod.mk.injEq, Except.ok.injEq] at happly
      obtain ⟨rfl, _⟩ := happly
      exact ⟨rfl, by simp⟩
  | cons e es ih =>
      unfold PdRaftStateMachine.apply at happly
      cases hentry : sm.applyEntry K e with
      | mk out next =>
          rw [hentry] at happly
          cases out with
          | error f => simp at happly
          | ok resp =>
              obtain ⟨ha, hb, hcat, _⟩ := h.of_applyEntry hentry
              cases hrest : next.apply K es with
              | mk out' last =>
                  simp only [hrest, Prod.mk.injEq] at happly
                  obtain ⟨hresps, rfl⟩ := happly
                  cases out' with
                  | error f => simp [Except.map] at hresps
                  | ok rest =>
                      obtain rfl := Except.ok.inj hresps
                      have hanswered := ih hb hrest
                      rw [hcat] at hanswered
                      exact hanswered.cons ha

/-- Entries that do not panic are all answered. -/
theorem Backed.apply_answers (h : Backed K sm) {es : List Entry}
    (hall : ∀ i e, es[i]? = some e → (sm.inner.catalog.catalogAt es i).answer e ≠ none) :
    ∃ resps sm', sm.apply K es = (.ok resps, sm') := by
  induction es generalizing sm with
  | nil => exact ⟨[], sm, rfl⟩
  | cons e es ih =>
      obtain ⟨resp, hresp⟩ := Option.ne_none_iff_exists'.mp (hall 0 e rfl)
      obtain ⟨batch, hentry, _⟩ := applyEntry_ok (K := K) h.routed h.nodesKeyed hresp
      obtain ⟨_, hb, hcat, _⟩ := h.of_applyEntry hentry
      obtain ⟨resps, sm', hrest⟩ := ih hb (by
        intro i e' he'
        rw [hcat, ← catalogAt_cons_succ]
        exact hall (i + 1) e' he')
      refine ⟨resp :: resps, sm', ?_⟩
      unfold PdRaftStateMachine.apply
      simp only [hentry, hrest, Except.map]

/-- A log without counter overflow is answered to its end. -/
theorem fresh_apply_answers {es : List Entry} (h : Run.Along step NoOverflow new (commands es)) :
    ∃ resps sm', PdRaftStateMachine.fresh.apply K es = (.ok resps, sm') := by
  refine backed_fresh.apply_answers ?_
  intro i e _
  have hpre : commands (es.take i) <+: commands es := (List.take_prefix i es).filterMap _
  have hsound := sound_after (h.upto hpre)
  rw [← ofLog_eq_after] at hsound
  exact answer_ne_none hsound.routed hsound.startExact.live e

/-! ### Every replica -/

/-- A replica with a hydrated catalog and its rows. -/
theorem Backed.of_load {c : Catalog} {l : List RangeDescriptor} {ns : List NodeInfo}
    {hint : RangeId} {m : Option PersistedPdMeta} (hr : c.Routed) (hn : c.NodesKeyed)
    (hl : OrdMap.Lists l c.ranges) (hns : OrdMap.Lists ns c.nodes)
    (hcat : sm.inner.catalog = load l ns hint) (hm : m.getD .default = sm.pdMeta)
    (hs : Stored K c.ranges c.nodes m sm.inner.data.rows) : Backed K sm where
  stored := by
    refine ⟨m, hm, ?_⟩
    rw [hcat, load_ranges hr hl, load_nodes hn hns]
    exact hs
  routed := by
    rw [hcat]
    exact load_routed hr hl
  nodesKeyed := by
    unfold NodesKeyed
    rw [hcat, load_nodes hn hns]
    exact hn

/-- **Memory and disk agree** in every replica, whatever restarts and snapshots it went through. -/
theorem Reached.backed {given : ℕ → Option PdResponse} (h : Reached K L G sm given) :
    Backed K sm := by
  induction h with
  | fresh => exact backed_fresh
  | apply _ _ happly ih => exact (ih.of_apply happly).2.1
  | restart _ _ hopen ih =>
      obtain ⟨m, _, hs⟩ := ih.stored
      obtain ⟨l, ns, hl, hns, hopen'⟩ := open_stored hs
      rw [hopen] at hopen'
      obtain rfl := Except.ok.inj hopen'
      exact .of_load ih.routed ih.nodesKeyed hl hns rfl rfl hs
  | install _ _ _ _ hbuild hinstall ih ihpeer =>
      obtain ⟨m, _, hs⟩ := ih.stored
      obtain ⟨l, ns, hl, hns, hcat, hmeta, hstored⟩ :=
        installed_built ihpeer.routed ihpeer.nodesKeyed hbuild hinstall
      have hrows := hstored _ _ m hs
      exact .of_load (m := some _) ihpeer.routed ihpeer.nodesKeyed hl hns hcat hmeta.symm hrows

/-- **Rejected commands change nothing but the log position.**  A command that the catalog rejects
leaves it as it was.  Through the adapter, in every replica of every log, the entry of such a
command moves the cached and the persisted last applied log id, leaves everything else in memory
and every other row as it was, and is answered with its error.  Responses line up with the entries
of a call, a rejected entry having its error in its own position; and a call returns its responses
unless a command panics, which none does on a log without counter overflow. -/
theorem rejection_moves_position (K : PdCodec) (L : RaftLog) (sm : PdRaftStateMachine)
    (given : ℕ → Option PdResponse) (h : Reached K L .none sm given) :
    (∀ (c : Catalog) cmd ce, (c.apply cmd).1 = .error (.reject ce) → (c.apply cmd).2 = c) ∧
      (∀ e cmd ce, e.payload = .normal cmd →
        (sm.inner.catalog.apply cmd).1 = .error (.reject ce) →
        ∃ sm', sm.applyEntry K e = (.ok (.error ce.display), sm') ∧
          OnlyPosition K e.logId sm sm') ∧
      (∀ es,
        (∀ resps sm', sm.apply K es = (.ok resps, sm') →
          Answered sm.inner.catalog es resps ∧
          ∀ (i : ℕ) e cmd ce, es[i]? = some e → e.payload = .normal cmd →
            ((sm.inner.catalog.catalogAt es i).apply cmd).1 = .error (.reject ce) →
            resps[i]? = some (.error ce.display)) ∧
        ((∀ i e, es[i]? = some e → (sm.inner.catalog.catalogAt es i).answer e ≠ none) →
          ∃ resps sm', sm.apply K es = (.ok resps, sm'))) ∧
      ∀ es, Run.Along step NoOverflow new (commands es) →
        ∃ resps sm', PdRaftStateMachine.fresh.apply K es = (.ok resps, sm') := by
  refine ⟨fun c cmd ce => step_of_reject, ?_, ?_, fun es => fresh_apply_answers⟩
  · intro e cmd ce hp hrej
    exact h.backed.applyEntry_reject hp hrej
  · intro es
    refine ⟨?_, h.backed.apply_answers⟩
    intro resps sm' happly
    have hanswered := h.backed.answered happly
    refine ⟨hanswered, ?_⟩
    intro i e cmd ce he hp hrej
    rw [hanswered.each i e he]
    exact answer_of_reject hp hrej

/-- The second split at one key is rejected: the key is no longer inside the parent. -/
theorem rejection_moves_position_split_twice :
    ∃ sm sm' given, Reached bincode splitAgainLog .none sm given ∧
      sm.applyEntry bincode (logEntry 2 (.splitRange 1 [109])) =
        (.ok (.error (CatalogError.splitKeyOutOfBounds 1 (toHex [109])).display), sm') ∧
      OnlyPosition bincode ⟨⟨1, 1⟩, 2⟩ sm sm' := by
  obtain ⟨sm, given, h⟩ := splitAgain_at (G := .none) 2 (by omega)
  have hrej : (sm.inner.catalog.apply (.splitRange 1 [109])).1 =
      .error (.reject (.splitKeyOutOfBounds 1 (toHex [109]))) := by
    rw [h.catalog]
    decide +kernel
  obtain ⟨sm', happly, honly⟩ := (rejection_moves_position bincode splitAgainLog sm given
    h.reached).2.1 (logEntry 2 (.splitRange 1 [109])) _ _ rfl hrej
  exact ⟨sm, sm', given, h.reached, happly, honly⟩

end AresaDb.Pd
