import AresaDb.Lib.Run
import AresaDb.Raft.Command
import AresaDb.Raft.LogHistory

/-! # Runs of the log store

Over every run of calls that openraft may issue the store answers from the history of the calls
(`calls_serve`): log, purge pointer, vote and committed id never disturb one another.

A purge is two batches, first the pointer and then the deletion, although the store documents one
batch per call.  A crash between the two leaves the entries at or below the new pointer in place,
and `interrupted_purge_consistent_iff` says exactly when the reopened store shows them. -/

namespace AresaDb.Raft

open ByteOrder AresaDb.Core
open AresaDb.Pd (LeaderId LogId)

variable {ε : Type} {C : LogConfig ε} {ws : List (LogWrite ε)} {s s' : LogStore}

/-! ### One call -/

/-- The history after a call. -/
def record (ws : List (LogWrite ε)) (c : LogCall ε) : List (LogWrite ε) := ws ++ c.writes

/-- The entries appended lie below the largest index. -/
def Indexed (C : LogConfig ε) : LogCall ε → Prop
  | .append entries => ∀ e ∈ entries, C.index e ≠ u64Max
  | _ => True

/-- The purge pointer does not move back. -/
def PurgesForward (ws : List (LogWrite ε)) : LogCall ε → Prop
  | .purge logId => ∀ p ∈ purged ws, p.index ≤ logId.index
  | _ => True

/-- What openraft promises of a call. -/
def Allowed (C : LogConfig ε) (ws : List (LogWrite ε)) (c : LogCall ε) : Prop :=
  Indexed C c ∧ PurgesForward ws c

instance decidableAllowed (C : LogConfig ε) (ws : List (LogWrite ε)) (c : LogCall ε) :
    Decidable (Allowed C ws c) :=
  match c with
  | .append entries => inferInstanceAs (Decidable ((∀ e ∈ entries, C.index e ≠ u64Max) ∧ True))
  | .purge logId => inferInstanceAs (Decidable (True ∧ ∀ p ∈ purged ws, p.index ≤ logId.index))
  | .truncate _ => .isTrue ⟨trivial, trivial⟩
  | .saveVote _ => .isTrue ⟨trivial, trivial⟩
  | .saveCommitted _ => .isTrue ⟨trivial, trivial⟩

/-- The purge that passes its assertion writes its two batches. -/
theorem purge_eq_of_le {logId : LogId} {prev : Option LogId}
    (hprev : s.readMetaLogId C metaPurged = .ok prev) (hle : ∀ p ∈ prev, p.index ≤ logId.index) :
    s.purge C logId = .ok ⟨⟨s.backend.journal ++
      [LogWrite.batch C (.point logId), LogWrite.batch C (.clear logId.index)]⟩⟩ := by
  have hany : (prev.any fun p => decide (logId.index < p.index)) = false := by
    cases prev with
    | none => rfl
    | some p => exact decide_eq_false (not_lt.mpr (hle p rfl))
  unfold LogStore.purge
  rw [hprev]
  show (if (prev.any fun p => decide (logId.index < p.index)) = true then _ else _) = _
  rw [hany, if_neg Bool.false_ne_true]
  simp only [Backend.writeBatch, LogWrite.batch, List.append_assoc]
  rfl

/-- A purge whose pointer moves back fails its assertion. -/
theorem purge_eq_of_lt {logId p : LogId} (hprev : s.readMetaLogId C metaPurged = .ok (some p))
    (hlt : logId.index < p.index) : s.purge C logId = .error .purgeMovesBack := by
  unfold LogStore.purge
  rw [hprev]
  show (if decide (logId.index < p.index) = true then _ else _) = _
  rw [if_pos (decide_eq_true hlt)]
  rfl

theorem isEmpty_ops_putAll {β : Type} (key value : β → Bytes) (l : List β) :
    (WriteBatch.new.putAll key value l).ops.isEmpty = l.isEmpty := by
  rw [WriteBatch.ops_putAll]
  cases l <;> rfl

/-- The journal grows by the batches of the writes. -/
theorem append_journal (s : LogStore) (entries : List ε) :
    (s.append C entries).backend.journal =
      s.backend.journal ++ (LogCall.append entries).writes.map (LogWrite.batch C) := by
  unfold LogStore.append
  simp only [isEmpty_ops_putAll]
  cases entries with
  | nil => simp [LogCall.writes]
  | cons e es => simp [LogCall.writes, Backend.writeBatch, LogWrite.batch]

/-- A call that does not move the purge pointer back succeeds and records its writes. -/
theorem call_of_purgesForward (h : s.backend.journal = ws.map (LogWrite.batch C)) {c : LogCall ε}
    (hc : PurgesForward ws c) :
    ∃ s', s.call C c = .ok s' ∧ s'.backend.journal = (record ws c).map (LogWrite.batch C) := by
  unfold record
  rw [List.map_append, ← h]
  cases c with
  | append entries => exact ⟨_, rfl, append_journal s entries⟩
  | truncate logId => exact ⟨_, rfl, rfl⟩
  | purge logId => exact ⟨_, purge_eq_of_le (readPurged_eq h) hc, rfl⟩
  | saveVote vote => exact ⟨_, rfl, rfl⟩
  | saveCommitted committed => exact ⟨_, rfl, rfl⟩

theorem purgesForward_of_call (h : s.backend.journal = ws.map (LogWrite.batch C)) {c : LogCall ε}
    (hc : s.call C c = .ok s') : PurgesForward ws c := by
  cases c with
  | purge logId =>
      intro p hp
      by_contra hlt
      have hread := readPurged_eq h
      rw [hp] at hread
      rw [LogStore.call, purge_eq_of_lt hread (not_le.mp hlt)] at hc
      cases hc
  | append entries => trivial
  | truncate logId => trivial
  | saveVote vote => trivial
  | saveCommitted committed => trivial

/-- A call that succeeds has recorded its writes. -/
theorem call_journal (h : s.backend.journal = ws.map (LogWrite.batch C)) {c : LogCall ε}
    (hc : s.call C c = .ok s') :
    s'.backend.journal = (record ws c).map (LogWrite.batch C) := by
  obtain ⟨t, ht, hj⟩ := call_of_purgesForward h (purgesForward_of_call h hc)
  rw [hc] at ht
  cases ht
  exact hj

theorem bounded_record (hb : Bounded C ws) {c : LogCall ε} (hc : Indexed C c) :
    Bounded C (record ws c) := by
  intro es hes e he
  rcases List.mem_append.mp hes with hes | hes
  · exact hb es hes e he
  · cases c with
    | append entries =>
        simp only [LogCall.writes] at hes
        split_ifs at hes
        · simp at hes
        · simp only [List.mem_singleton, LogWrite.append.injEq] at hes
          subst hes
          exact hc e he
    | truncate logId => simp [LogCall.writes] at hes
    | purge logId => simp [LogCall.writes] at hes
    | saveVote vote => simp [LogCall.writes] at hes
    | saveCommitted committed => simp [LogCall.writes] at hes

/-! ### The log and the other records do not touch one another -/

/-- An operation of the log: not a vote, not a committed id. -/
def LogCall.isLog : LogCall ε → Bool
  | append _ => true
  | truncate _ => true
  | purge _ => true
  | saveVote _ => false
  | saveCommitted _ => false

theorem lastVote_record (ws : List (LogWrite ε)) {c : LogCall ε} (hc : c.isLog = true) :
    lastVote (record ws c) = lastVote ws ∧ lastCommitted (record ws c) = lastCommitted ws := by
  unfold lastVote lastCommitted record
  rw [Overwrite.last_append, Overwrite.last_append]
  cases c with
  | append entries => cases entries <;> exact ⟨rfl, rfl⟩
  | truncate logId => exact ⟨rfl, rfl⟩
  | purge logId => exact ⟨rfl, rfl⟩
  | saveVote vote => cases hc
  | saveCommitted committed => cases hc

theorem live_record (ws : List (LogWrite ε)) {c : LogCall ε} (hc : c.isLog = false) :
    (∀ i, live C (record ws c) i = live C ws i) ∧ purged (record ws c) = purged ws ∧
      Indexed C c := by
  unfold live purged record
  simp only [Overwrite.last_append]
  cases c with
  | append entries => cases hc
  | truncate logId => cases hc
  | purge logId => cases hc
  | saveVote vote => exact ⟨fun _ => rfl, rfl, trivial⟩
  | saveCommitted committed => exact ⟨fun _ => rfl, rfl, trivial⟩

/-- Histories with the same live entries have the same scans. -/
theorem scan_congr {ws' : List (LogWrite ε)} (h : s.backend.journal = ws.map (LogWrite.batch C))
    (hb : Bounded C ws) (h' : s'.backend.journal = ws'.map (LogWrite.batch C))
    (hb' : Bounded C ws') (hlive : ∀ i, live C ws' i = live C ws i) (lo hi : Bound) :
    s'.backend.scan (logRange lo hi) = s.backend.scan (logRange lo hi) := by
  obtain ⟨es, hscan, hsorted, hmem⟩ := scan_logRange h hb lo hi
  obtain ⟨es', hscan', hsorted', hmem'⟩ := scan_logRange h' hb' lo hi
  have heq : es' = es := by
    have : Std.Irrefl fun a b : ε => C.index a < C.index b := ⟨fun a => lt_irrefl _⟩
    have : Std.Antisymm fun a b : ε => C.index a < C.index b :=
      ⟨fun a b hab hba => absurd hab (lt_asymm hba)⟩
    refine List.Pairwise.eq_of_mem_iff hsorted' hsorted ?_
    intro e
    rw [hmem, hmem', hlive]
  rw [hscan, hscan', heq]

/-- The log and the other two records are independent. -/
def Independent (C : LogConfig ε) (s : LogStore) : Prop :=
  ∀ c s', s.call C c = .ok s' →
    (c.isLog = true → s'.readVote C = s.readVote C ∧ s'.readCommitted C = s.readCommitted C) ∧
    (c.isLog = false → (∀ lo hi, s'.tryGetLogEntries C lo hi = s.tryGetLogEntries C lo hi) ∧
      s'.getLogState C = s.getLogState C)

theorem independent_of_journal (h : s.backend.journal = ws.map (LogWrite.batch C))
    (hb : Bounded C ws) : Independent C s := by
  intro c s' hc
  have h' := call_journal h hc
  constructor
  · intro hlog
    obtain ⟨hvote, hcommitted⟩ := lastVote_record ws hlog
    rw [readVote_eq h', readVote_eq h, readCommitted_eq h', readCommitted_eq h, hvote, hcommitted]
    exact ⟨rfl, rfl⟩
  · intro hlog
    obtain ⟨hlive, hpurged, hindexed⟩ := live_record (C := C) ws hlog
    have hscan := scan_congr h hb h' (bounded_record hb hindexed) hlive
    refine ⟨?_, ?_⟩
    · intro lo hi
      unfold LogStore.tryGetLogEntries
      rw [hscan]
    · unfold LogStore.getLogState LogStore.lastLogIdOnDisk
      rw [hscan, readPurged_eq h', readPurged_eq h, hpurged]

/-! ### Runs -/

/-- A run of allowed calls succeeds, and its journal is that of the history. -/
theorem calls_journal (h : s.backend.journal = ws.map (LogWrite.batch C)) (hb : Bounded C ws)
    {cs : List (LogCall ε)} (hcs : Run.Along record (Allowed C) ws cs) :
    ∃ s', s.calls C cs = .ok s' ∧
      s'.backend.journal = (Run.run record ws cs).map (LogWrite.batch C) ∧
      Bounded C (Run.run record ws cs) := by
  induction cs generalizing s ws with
  | nil => exact ⟨s, rfl, h, hb⟩
  | cons c cs ih =>
      obtain ⟨⟨hindexed, hforward⟩, hrest⟩ := hcs
      obtain ⟨t, ht, hj⟩ := call_of_purgesForward h hforward
      obtain ⟨s', hs', hrun⟩ := ih hj (bounded_record hb hindexed) hrest
      refine ⟨s', ?_, hrun⟩
      unfold LogStore.calls at *
      rw [List.foldlM_cons, ht]
      exact hs'

/-- The history of a run. -/
def history (cs : List (LogCall ε)) : List (LogWrite ε) := Run.run record [] cs

/-- **The log store over whole runs.**  Every run of calls that openraft may issue succeeds.  The
store it leaves returns exactly the live entries of any range of indices, in ascending order,
reports the greatest live entry and the last purge pointer, and holds the last vote and committed
id; and no operation of the log changes these two, nor they the log. -/
theorem calls_serve (C : LogConfig ε) (cs : List (LogCall ε))
    (hcs : Run.Along record (Allowed C) [] cs) :
    ∃ s, LogStore.new.calls C cs = .ok s ∧ Serves C (history cs) s ∧ Independent C s := by
  have hb : Bounded C ([] : List (LogWrite ε)) := by
    intro es hes
    simp at hes
  have hnew : LogStore.new.backend.journal = ([] : List (LogWrite ε)).map (LogWrite.batch C) := rfl
  obtain ⟨s, hs, hj, hb'⟩ := calls_journal hnew hb hcs
  exact ⟨s, hs, serves_of_journal hj hb', independent_of_journal hj hb'⟩

/-- A blank entry of leader 1. -/
def blankEntry (term index : UInt64) : Entry := ⟨⟨⟨term, 1⟩, index⟩, .blank⟩

/-- Entries appended, the last of them overwritten after a truncation, and the first purged. -/
def sampleCalls : List (LogCall Entry) :=
  [.append [blankEntry 1 1, blankEntry 1 2, blankEntry 1 3], .saveVote ⟨⟨2, 1⟩, true⟩,
    .truncate ⟨⟨1, 1⟩, 3⟩, .append [blankEntry 2 3], .saveCommitted (some ⟨⟨2, 1⟩, 3⟩),
    .purge ⟨⟨1, 1⟩, 1⟩]

theorem calls_serve_sample :
    Run.Along record (Allowed typeConfig) [] sampleCalls ∧
      ∃ s, LogStore.new.calls typeConfig sampleCalls = .ok s ∧
        Serves typeConfig (history sampleCalls) s ∧ Independent typeConfig s :=
  ⟨by decide +kernel, calls_serve typeConfig sampleCalls (by decide +kernel)⟩

/-! ### Crashes -/

/-- The stores that calls, crashes and reopening lead to. -/
inductive Reached (C : LogConfig ε) : LogStore → Prop
  | new : Reached C .new
  | call {s s' : LogStore} {c : LogCall ε} (hs : Reached C s) (hc : Indexed C c)
      (h : s.call C c = .ok s') : Reached C s'
  | crash {s : LogStore} (hs : Reached C s) (m : ℕ) : Reached C (s.crash m)

/-- A reached store has a history. -/
theorem Reached.journal (hs : Reached C s) :
    ∃ ws, s.backend.journal = ws.map (LogWrite.batch C) ∧ Bounded C ws := by
  induction hs with
  | new =>
      refine ⟨[], rfl, ?_⟩
      intro es hes
      simp at hes
  | call hs hc h ih =>
      obtain ⟨ws, hj, hb⟩ := ih
      exact ⟨record ws _, call_journal hj h, bounded_record hb hc⟩
  | crash hs m ih =>
      obtain ⟨ws, hj, hb⟩ := ih
      refine ⟨ws.take m, ?_, fun es hes => hb es (List.mem_of_mem_take hes)⟩
      show (_ : List WriteBatch).take m = _
      rw [hj, List.map_take]

/-- The order of log ids: by leader, term before node, then by index. -/
def LogIdLE (a b : LogId) : Prop :=
  a.leaderId.term < b.leaderId.term ∨ a.leaderId.term = b.leaderId.term ∧
    (a.leaderId.nodeId < b.leaderId.nodeId ∨ a.leaderId.nodeId = b.leaderId.nodeId ∧
      a.index ≤ b.index)

theorem logIdLE_refl (a : LogId) : LogIdLE a a := Or.inr ⟨rfl, Or.inr ⟨rfl, le_rfl⟩⟩

/-- The store reports a last log id at or after its purge pointer, and returns no entry at or
below the pointer. -/
def PurgeConsistent (C : LogConfig ε) (s : LogStore) : Prop :=
  ∃ st, s.getLogState C = .ok st ∧ ∀ p, st.lastPurgedLogId = some p →
    (∃ l, st.lastLogId = some l ∧ LogIdLE p l) ∧
    ∀ lo hi es, s.tryGetLogEntries C lo hi = .ok es → ∀ e ∈ es, p.index < C.index e

/-- The ids of the stored entries after a purge id are not below it, as those of a Raft log. -/
def FollowsPurge (C : LogConfig ε) (s : LogStore) (logId : LogId) : Prop :=
  ∀ es, s.tryGetLogEntries C .unbounded .unbounded = .ok es →
    ∀ e ∈ es, logId.index < C.index e → LogIdLE logId (C.logId e)

theorem live_point (ws : List (LogWrite ε)) (logId : LogId) (i : UInt64) :
    live C (ws ++ [.point logId]) i = live C ws i := by
  unfold live
  rw [Overwrite.last_append]
  rfl

theorem bounded_point (hb : Bounded C ws) (logId : LogId) : Bounded C (ws ++ [.point logId]) := by
  intro es hes
  rcases List.mem_append.mp hes with hes | hes
  · exact hb es hes
  · simp at hes

/-- No row at or below an index, as the history says it. -/
theorem no_row_iff (h : s.backend.journal = ws.map (LogWrite.batch C)) (hb : Bounded C ws)
    (n : UInt64) :
    (∀ i, i ≤ n → s.backend.get (logKey i) = none) ↔ ∀ i, i ≤ n → live C ws i = none := by
  have hrow : ∀ i, s.backend.get (logKey i) = none ↔ live C ws i = none := by
    intro i
    by_cases hmax : i = u64Max
    · subst hmax
      refine iff_of_true ?_ ?_
      · by_contra hne
        obtain ⟨v, hv⟩ := Option.ne_none_iff_exists'.mp hne
        rcases key_of_row C h hb hv with ⟨j, hj, hk⟩ | ⟨tag, hk⟩
        · exact hj ((logKey_inj _ _).mp hk).symm
        · exact logKey_ne_metaKey _ _ hk
      · by_contra hne
        obtain ⟨e, he⟩ := Option.ne_none_iff_exists'.mp hne
        obtain ⟨hindex, es, hes, hmem⟩ := index_of_live C he
        exact hb es hes e hmem hindex
    · unfold Backend.get
      rw [get_logKey C h hmax, Option.map_eq_none_iff]
  simp only [hrow]

/-- The store between the two batches of a purge. -/
theorem interrupted_journal (h : s.backend.journal = ws.map (LogWrite.batch C)) {logId : LogId}
    (hpurge : s.purge C logId = .ok s') :
    (s'.crash (s.backend.journal.length + 1)).backend.journal =
      (ws ++ [LogWrite.point logId]).map (LogWrite.batch C) := by
  have hforward := purgesForward_of_call (c := .purge logId) h hpurge
  rw [purge_eq_of_le (readPurged_eq h) hforward] at hpurge
  cases hpurge
  show (s.backend.journal ++ _).take (s.backend.journal.length + 1) = _
  rw [List.take_length_add_append, List.map_append, h]
  rfl

theorem purged_point (ws : List (LogWrite ε)) (logId : LogId) :
    purged (ws ++ [.point logId]) = some logId := by
  unfold purged
  rw [Overwrite.last_append]
  rfl

/-- An entry that the purge would have deleted is still returned. -/
theorem no_row_of_consistent (hs : Reached C s) {logId : LogId}
    (hpurge : s.purge C logId = .ok s')
    (hcons : PurgeConsistent C (s'.crash (s.backend.journal.length + 1))) (i : UInt64)
    (hi : i ≤ logId.index) : s.backend.get (logKey i) = none := by
  obtain ⟨ws, h, hb⟩ := hs.journal
  have hserves := serves_of_journal (interrupted_journal h hpurge) (bounded_point hb logId)
  obtain ⟨last, hstate, _⟩ := hserves.state
  obtain ⟨st, hst, hcons⟩ := hcons
  rw [hstate] at hst
  cases hst
  refine (no_row_iff h hb logId.index).mpr ?_ i hi
  intro j hj
  by_contra hne
  obtain ⟨e, he⟩ := Option.ne_none_iff_exists'.mp hne
  obtain ⟨rfl, _⟩ := index_of_live C he
  obtain ⟨es, hes, _, hmem⟩ := hserves.entries .unbounded .unbounded
  have hin : e ∈ es := (hmem e).mpr ⟨by rw [live_point, he], trivial, trivial⟩
  have hlt := (hcons logId (purged_point ws logId)).2 _ _ _ hes e hin
  exact absurd hlt (not_lt.mpr hj)

/-- With nothing to delete the two batches are as good as one. -/
theorem consistent_of_no_row (hs : Reached C s) {logId : LogId}
    (hpurge : s.purge C logId = .ok s') (hfollows : FollowsPurge C s logId)
    (hclear : ∀ i, i ≤ logId.index → s.backend.get (logKey i) = none) :
    PurgeConsistent C (s'.crash (s.backend.journal.length + 1)) := by
  obtain ⟨ws, h, hb⟩ := hs.journal
  have hserves := serves_of_journal (interrupted_journal h hpurge) (bounded_point hb logId)
  have hafter : ∀ {i e}, live C ws i = some e → logId.index < i := by
    intro i e he
    by_contra hle
    rw [(no_row_iff h hb logId.index).mp hclear i (not_lt.mp hle)] at he
    cases he
  obtain ⟨last, hstate, hlast⟩ := hserves.state
  refine ⟨_, hstate, ?_⟩
  intro p hp
  have hp' : logId = p := Option.some.inj ((purged_point ws logId).symm.trans hp)
  subst hp'
  refine ⟨?_, ?_⟩
  · rcases hlast with ⟨_, rfl⟩ | ⟨i, e, he, _, rfl⟩
    · exact ⟨logId, purged_point ws logId, logIdLE_refl logId⟩
    · rw [live_point] at he
      obtain ⟨rfl, _⟩ := index_of_live C he
      obtain ⟨es, hes, _, hmem⟩ := tryGetLogEntries_eq h hb .unbounded .unbounded
      have hin : e ∈ es := (hmem e).mpr ⟨he, trivial, trivial⟩
      exact ⟨_, rfl, hfollows es hes e hin (hafter he)⟩
  · intro lo hi es hes e he
    obtain ⟨es', hes', _, hmem⟩ := hserves.entries lo hi
    rw [hes'] at hes
    cases hes
    have hlive := ((hmem e).mp he).1
    rw [live_point] at hlive
    exact hafter hlive

/-- **A crash inside a purge.**  In every store that calls and crashes lead to, a purge that is
cut between its two batches leaves a consistent store exactly when it had nothing to delete. -/
theorem interrupted_purge_consistent_iff (C : LogConfig ε) {s s' : LogStore} (hs : Reached C s)
    {logId : LogId} (hpurge : s.purge C logId = .ok s') (hfollows : FollowsPurge C s logId) :
    PurgeConsistent C (s'.crash (s.backend.journal.length + 1)) ↔
      ∀ i, i ≤ logId.index → s.backend.get (logKey i) = none :=
  ⟨no_row_of_consistent hs hpurge, consistent_of_no_row hs hpurge hfollows⟩

/-- A store with entries at 1, 2 and 3. -/
def threeEntries : LogStore :=
  LogStore.new.append typeConfig [blankEntry 1 1, blankEntry 1 2, blankEntry 1 3]

theorem threeEntries_reached : Reached typeConfig threeEntries := by
  have hindexed : Indexed typeConfig
      (.append [blankEntry 1 1, blankEntry 1 2, blankEntry 1 3]) := by
    unfold Indexed
    decide
  exact .call .new hindexed rfl

/-- The three entries after both batches of a purge. -/
def threeEntriesPurged (logId : LogId) : LogStore :=
  ⟨⟨threeEntries.backend.journal ++
    [LogWrite.batch typeConfig (.point logId), LogWrite.batch typeConfig (.clear logId.index)]⟩⟩

theorem threeEntries_purge (logId : LogId) :
    threeEntries.purge typeConfig logId = .ok (threeEntriesPurged logId) := by
  have hj : threeEntries.backend.journal =
      [LogWrite.append [blankEntry 1 1, blankEntry 1 2, blankEntry 1 3]].map
        (LogWrite.batch typeConfig) := rfl
  apply purge_eq_of_le (readPurged_eq hj)
  intro p hp
  cases hp

theorem threeEntries_followsPurge {logId : LogId}
    (h : ∀ e ∈ [blankEntry 1 1, blankEntry 1 2, blankEntry 1 3],
      logId.index < e.logId.index → LogIdLE logId e.logId) :
    FollowsPurge typeConfig threeEntries logId := by
  have hread : threeEntries.tryGetLogEntries typeConfig .unbounded .unbounded =
      .ok [blankEntry 1 1, blankEntry 1 2, blankEntry 1 3] := by decide +kernel
  intro es hes e he
  rw [hread] at hes
  cases hes
  exact h e he

/-- A purge to index 0 of entries that start at 1. -/
theorem interrupted_purge_consistent_iff_zero :
    Reached typeConfig threeEntries ∧
      threeEntries.purge typeConfig ⟨⟨1, 1⟩, 0⟩ = .ok (threeEntriesPurged ⟨⟨1, 1⟩, 0⟩) ∧
      FollowsPurge typeConfig threeEntries ⟨⟨1, 1⟩, 0⟩ ∧
      (PurgeConsistent typeConfig
          ((threeEntriesPurged ⟨⟨1, 1⟩, 0⟩).crash (threeEntries.backend.journal.length + 1)) ↔
        ∀ i, i ≤ (⟨⟨1, 1⟩, 0⟩ : LogId).index → threeEntries.backend.get (logKey i) = none) := by
  have hfollows : FollowsPurge typeConfig threeEntries ⟨⟨1, 1⟩, 0⟩ := by
    apply threeEntries_followsPurge
    unfold LogIdLE
    decide
  exact ⟨threeEntries_reached, threeEntries_purge _, hfollows,
    interrupted_purge_consistent_iff typeConfig threeEntries_reached (threeEntries_purge _)
      hfollows⟩

/-- A purge to index 10, beyond the last entry, as after the install of a snapshot. -/
theorem interrupted_purge_inconsistent :
    Reached typeConfig threeEntries ∧
      threeEntries.purge typeConfig ⟨⟨1, 1⟩, 10⟩ = .ok (threeEntriesPurged ⟨⟨1, 1⟩, 10⟩) ∧
      FollowsPurge typeConfig threeEntries ⟨⟨1, 1⟩, 10⟩ ∧
      ¬PurgeConsistent typeConfig
        ((threeEntriesPurged ⟨⟨1, 1⟩, 10⟩).crash (threeEntries.backend.journal.length + 1)) := by
  refine ⟨threeEntries_reached, threeEntries_purge _, ?_, ?_⟩
  · apply threeEntries_followsPurge
    unfold LogIdLE
    decide
  · intro hcons
    have hnone := no_row_of_consistent threeEntries_reached (threeEntries_purge ⟨⟨1, 1⟩, 10⟩)
      hcons 1 (by decide)
    exact absurd hnone (by decide +kernel)

end AresaDb.Raft
