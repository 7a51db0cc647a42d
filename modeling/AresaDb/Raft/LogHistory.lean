import AresaDb.Raft.LogStore

/-! # What the log store serves

The rows of a log store are explained by the list of its writes, oldest first.  A write touches
the entry at an index, or one of the three meta rows, or leaves it alone; the last touch decides
(`Overwrite`).  So the entry *live* at an index is the one last appended there, unless it was
truncated or cleared by a purge since.

Keys order as indices do (`logKey_lt_logKey`) and the meta rows lie outside every log range, which
makes each range of indices one scan: `serves_of_journal` says that a store whose journal is the
batches of a list of writes answers every read from that list alone. -/

namespace AresaDb.Raft

open ByteOrder AresaDb.Core
open AresaDb.Pd (LeaderId LogId)

/-! ### Keys -/

@[simp] theorem logKey_lt_logKey (i j : UInt64) : logKey i < logKey j ↔ i < j := by
  unfold logKey
  rw [cons_lt_cons]
  simp

@[simp] theorem logKey_le_logKey (i j : UInt64) : logKey i ≤ logKey j ↔ i ≤ j := by
  rw [← not_lt, logKey_lt_logKey, not_lt]

@[simp] theorem logKey_inj (i j : UInt64) : logKey i = logKey j ↔ i = j := by
  constructor
  · intro h
    exact beBytes_injective (List.cons.inj h).2
  · intro h
    rw [h]

@[simp] theorem logKey_lt_logEnd (i : UInt64) : logKey i < logEnd :=
  cons_lt_cons.mpr (Or.inl (by decide))

@[simp] theorem logPrefix_le_logKey (i : UInt64) : [logPrefix] ≤ logKey i := by
  rw [← not_lt]
  intro h
  rcases cons_lt_cons.mp h with h | ⟨_, h⟩
  · exact UInt8.lt_irrefl _ h
  · exact absurd h (List.not_lt_nil _)

@[simp] theorem logKey_ne_metaKey (i : UInt64) (tag : UInt8) : logKey i ≠ metaKey tag := by
  intro h
  exact absurd (List.cons.inj h).1 (by decide)

theorem not_metaKey_lt_logEnd (tag : UInt8) : ¬metaKey tag < logEnd := by
  intro h
  rcases cons_lt_cons.mp h with h | ⟨_, h⟩
  · exact absurd h (by decide)
  · exact absurd h (List.not_lt_nil _)

theorem lt_saturatingSucc_iff {i j : UInt64} (hi : i ≠ u64Max) : i < saturatingSucc j ↔ i ≤ j := by
  unfold saturatingSucc u64Max at *
  split_ifs with hj
  · subst hj
    constructor
    · exact fun h => le_of_lt h
    · exact fun h => lt_of_le_of_ne h hi
  · grind

theorem saturatingSucc_le_iff {i j : UInt64} (hj : j ≠ u64Max) : saturatingSucc i ≤ j ↔ i < j := by
  rw [← not_lt, lt_saturatingSucc_iff hj, not_le]

/-- The index is not below a lower bound. -/
def Bound.admitsFrom : Bound → UInt64 → Prop
  | included l, i => l ≤ i
  | excluded l, i => l < i
  | unbounded, _ => True

/-- The index is not above an upper bound. -/
def Bound.admitsTo : Bound → UInt64 → Prop
  | included h, i => i ≤ h
  | excluded h, i => i < h
  | unbounded, _ => True

theorem start_logRange_le (lo hi : Bound) {i : UInt64} (hmax : i ≠ u64Max) :
    (logRange lo hi).start ≤ logKey i ↔ lo.admitsFrom i := by
  cases lo with
  | included l => exact logKey_le_logKey l i
  | excluded l => exact (logKey_le_logKey _ i).trans (saturatingSucc_le_iff hmax)
  | unbounded => exact iff_of_true (logPrefix_le_logKey i) trivial

theorem lt_stop_logRange (lo hi : Bound) {i : UInt64} (hmax : i ≠ u64Max) :
    logKey i < (logRange lo hi).stop ↔ hi.admitsTo i := by
  cases hi with
  | included h =>
      have hsucc := lt_saturatingSucc_iff (j := h) hmax
      unfold saturatingSucc at hsucc
      show logKey i < (if h = u64Max then logEnd else logKey (h + 1)) ↔ i ≤ h
      by_cases hh : h = u64Max
      · rw [if_pos hh]
        rw [if_pos hh] at hsucc
        refine iff_of_true (logKey_lt_logEnd i) ?_
        rw [hh]
        unfold u64Max
        grind
      · rw [if_neg hh]
        rw [if_neg hh] at hsucc
        exact (logKey_lt_logKey i _).trans hsucc
  | excluded h => exact logKey_lt_logKey i h
  | unbounded => exact iff_of_true (logKey_lt_logEnd i) trivial

/-- A log range has an upper bound, and ends before the meta rows. -/
theorem stop_logRange (lo hi : Bound) :
    (logRange lo hi).stop.isEmpty = false ∧ (logRange lo hi).stop ≤ logEnd := by
  cases hi with
  | included j =>
      show (if j = u64Max then logEnd else logKey (j + 1)).isEmpty = false ∧
        (if j = u64Max then logEnd else logKey (j + 1)) ≤ logEnd
      split_ifs
      · exact ⟨rfl, le_rfl⟩
      · exact ⟨rfl, le_of_lt (logKey_lt_logEnd _)⟩
  | excluded j => exact ⟨rfl, le_of_lt (logKey_lt_logEnd j)⟩
  | unbounded => exact ⟨rfl, le_rfl⟩

theorem contains_logRange_iff (lo hi : Bound) (k : Bytes) :
    (logRange lo hi).contains k = true ↔
      (logRange lo hi).start ≤ k ∧ k < (logRange lo hi).stop := by
  unfold KeyRange.contains
  rw [Bool.and_eq_true, (stop_logRange lo hi).1, Bool.false_or, decide_eq_true_iff,
    decide_eq_true_iff]

/-- The key range of a range of indices holds the keys of exactly these indices. -/
theorem contains_logRange (lo hi : Bound) {i : UInt64} (hmax : i ≠ u64Max) :
    (logRange lo hi).contains (logKey i) = true ↔ lo.admitsFrom i ∧ hi.admitsTo i := by
  rw [contains_logRange_iff, start_logRange_le lo hi hmax, lt_stop_logRange lo hi hmax]

theorem not_contains_metaKey (lo hi : Bound) (tag : UInt8) :
    ¬(logRange lo hi).contains (metaKey tag) = true := by
  intro h
  have hlt := ((contains_logRange_iff lo hi _).mp h).2
  exact not_metaKey_lt_logEnd tag (lt_of_lt_of_le hlt (stop_logRange lo hi).2)

/-! ### Writes -/

/-- One write batch of the store. -/
inductive LogWrite (ε : Type) where
  | append (entries : List ε)
  | truncate (i : UInt64)
  | point (logId : LogId)
  | clear (i : UInt64)
  | vote (vote : Vote)
  | committed (committed : Option LogId)
deriving DecidableEq, Repr

/-- The writes of a call, in order. -/
def LogCall.writes {ε : Type} : LogCall ε → List (LogWrite ε)
  | append entries => if entries.isEmpty then [] else [.append entries]
  | truncate logId => [.truncate logId.index]
  | purge logId => [.point logId, .clear logId.index]
  | saveVote vote => [.vote vote]
  | saveCommitted committed => [.committed committed]

namespace LogWrite

variable {ε : Type} (C : LogConfig ε)

def batch : LogWrite ε → WriteBatch
  | append entries =>
      WriteBatch.new.putAll (fun e => logKey (C.index e)) C.entry.encode entries
  | truncate i => WriteBatch.new.deleteRange (logKey i) logEnd
  | point logId => WriteBatch.new.put (metaKey metaPurged) (C.pointer.encode (some logId))
  | clear i => WriteBatch.new.deleteRange [logPrefix] (logKey (saturatingSucc i))
  | vote v => WriteBatch.new.put (metaKey metaVote) (C.vote.encode v)
  | committed c => WriteBatch.new.put (metaKey metaCommitted) (C.pointer.encode c)

/-- What the write leaves at an index, when it touches it. -/
def entryAt (i : UInt64) : LogWrite ε → Option (Option ε)
  | append entries =>
      Overwrite.last (fun e => if C.index e = i then some (some e) else none) entries
  | truncate j => if j ≤ i then some none else none
  | clear j => if i ≤ j then some none else none
  | point _ => none
  | vote _ => none
  | committed _ => none

/-- The purge pointer that the write sets. -/
def pointed : LogWrite ε → Option LogId
  | point logId => some logId
  | _ => none

/-- The vote that the write saves. -/
def voted : LogWrite ε → Option Vote
  | vote v => some v
  | _ => none

/-- The committed id that the write saves. -/
def committedTo : LogWrite ε → Option (Option LogId)
  | committed c => some c
  | _ => none

end LogWrite

section History

variable {ε : Type} (C : LogConfig ε) (ws : List (LogWrite ε))

/-- The entry last appended at an index and not since truncated or cleared. -/
def live (i : UInt64) : Option ε := (Overwrite.last (LogWrite.entryAt C i) ws).getD none

/-- The last purge pointer. -/
def purged : Option LogId := Overwrite.last LogWrite.pointed ws

/-- The last vote saved. -/
def lastVote : Option Vote := Overwrite.last LogWrite.voted ws

/-- The last committed id saved. -/
def lastCommitted : Option LogId := (Overwrite.last LogWrite.committedTo ws).getD none

end History

/-! ### The rows of a history -/

section Rows

variable {ε : Type} (C : LogConfig ε)

/-- A batch touches the row of an index as its write touches the index. -/
theorem LogWrite.last_writes_logKey {i : UInt64} (hmax : i ≠ u64Max) (w : LogWrite ε) :
    Overwrite.last (WriteOp.writes (logKey i)) (w.batch C).ops =
      (w.entryAt C i).map (Option.map C.entry.encode) := by
  have hmeta : ∀ (tag : UInt8) (b : Bytes), WriteOp.writes (logKey i)
      (.put (metaKey tag) b) = none :=
    fun tag b => WriteOp.writes_put_of_ne (logKey_ne_metaKey i tag).symm b
  cases w with
  | append entries =>
      have hput : (fun e => WriteOp.writes (logKey i)
        (.put (logKey (C.index e)) (C.entry.encode e))) =
          fun e => (if C.index e = i then some (some e) else none).map
            (Option.map C.entry.encode) := by
        funext e
        simp only [WriteOp.writes, logKey_inj]
        split_ifs <;> rfl
      show Overwrite.last _ (WriteBatch.putAll _ _ _ _).ops = _
      rw [WriteBatch.ops_putAll]
      show Overwrite.last _ (entries.map _) = _
      rw [Overwrite.last_map, hput, Overwrite.last_map_value]
      rfl
  | truncate j =>
      show (if logKey j ≤ logKey i ∧ logKey i < logEnd then some none else none) = _
      simp only [logKey_le_logKey, logKey_lt_logEnd, and_true, LogWrite.entryAt]
      split_ifs <;> rfl
  | clear j =>
      show (if [logPrefix] ≤ logKey i ∧ logKey i < logKey (saturatingSucc j) then some none
        else none) = _
      simp only [logPrefix_le_logKey, logKey_lt_logKey, true_and, lt_saturatingSucc_iff hmax,
        LogWrite.entryAt]
      split_ifs <;> rfl
  | point logId => exact hmeta metaPurged (C.pointer.encode (some logId))
  | vote v => exact hmeta metaVote (C.vote.encode v)
  | committed c => exact hmeta metaCommitted (C.pointer.encode c)

/-- The meta row that the write puts. -/
def LogWrite.metaRow : LogWrite ε → Option (UInt8 × Bytes)
  | point logId => some (metaPurged, C.pointer.encode (some logId))
  | vote v => some (metaVote, C.vote.encode v)
  | committed c => some (metaCommitted, C.pointer.encode c)
  | _ => none

/-- A batch touches a meta row only to put it. -/
theorem LogWrite.last_writes_metaKey (tag : UInt8) (w : LogWrite ε) :
    Overwrite.last (WriteOp.writes (metaKey tag)) (w.batch C).ops =
      (w.metaRow C).bind fun row => if row.1 = tag then some (some row.2) else none := by
  have hput : ∀ (t : UInt8) (b : Bytes),
      Overwrite.last (WriteOp.writes (metaKey tag)) (WriteBatch.new.put (metaKey t) b).ops =
        if t = tag then some (some b) else none := by
    intro t b
    show (if metaKey t = metaKey tag then _ else _) = _
    simp [metaKey]
  have hdelete : ∀ start stop : Bytes, stop ≤ logEnd →
      Overwrite.last (WriteOp.writes (metaKey tag))
        (WriteBatch.new.deleteRange start stop).ops = none := by
    intro start stop hstop
    exact if_neg fun h => not_metaKey_lt_logEnd tag (lt_of_lt_of_le h.2 hstop)
  cases w with
  | append entries =>
      show Overwrite.last _ (WriteBatch.putAll _ _ _ _).ops = none
      rw [Overwrite.last_eq_none_iff, WriteBatch.ops_putAll]
      intro op hop
      obtain ⟨e, _, rfl⟩ := List.mem_map.mp hop
      exact WriteOp.writes_put_of_ne (logKey_ne_metaKey _ _) _
  | truncate j => exact hdelete _ _ le_rfl
  | clear j => exact hdelete _ _ (le_of_lt (logKey_lt_logEnd _))
  | point logId => exact hput _ _
  | vote v => exact hput _ _
  | committed c => exact hput _ _

/-- Every key put by a batch is a log key of its entries or a meta key. -/
theorem LogWrite.key_of_put {k v : Bytes} {w : LogWrite ε}
    (h : Overwrite.last (WriteOp.writes k) (w.batch C).ops = some (some v)) :
    (∃ es, w = .append es ∧ ∃ e ∈ es, k = logKey (C.index e)) ∨ ∃ tag, k = metaKey tag := by
  obtain ⟨op, hop, hwrites⟩ := Overwrite.mem_of_last_eq_some _ h
  have hput : ∃ key, op = .put key v ∧ key = k := by
    cases op with
    | put key value =>
        simp only [WriteOp.writes] at hwrites
        split_ifs at hwrites with hk
        exact ⟨key, by rw [Option.some.inj (Option.some.inj hwrites)], hk⟩
    | delete key =>
        simp only [WriteOp.writes] at hwrites
        split_ifs at hwrites
        simp at hwrites
    | deleteRange start stop =>
        simp only [WriteOp.writes] at hwrites
        split_ifs at hwrites
        simp at hwrites
  obtain ⟨key, rfl, rfl⟩ := hput
  cases w with
  | append entries =>
      have hmem : WriteOp.put key v ∈ (WriteBatch.putAll WriteBatch.new
        (fun e => logKey (C.index e)) C.entry.encode entries).ops := hop
      rw [WriteBatch.ops_putAll] at hmem
      obtain ⟨e, he, heq⟩ := List.mem_map.mp hmem
      exact Or.inl ⟨entries, rfl, e, he, (WriteOp.put.inj heq).1.symm⟩
  | truncate j => simp [batch, WriteBatch.deleteRange, WriteBatch.new] at hop
  | clear j => simp [batch, WriteBatch.deleteRange, WriteBatch.new] at hop
  | point logId =>
      simp [batch, WriteBatch.put, WriteBatch.new] at hop
      exact Or.inr ⟨_, hop.1⟩
  | vote x =>
      simp [batch, WriteBatch.put, WriteBatch.new] at hop
      exact Or.inr ⟨_, hop.1⟩
  | committed c =>
      simp [batch, WriteBatch.put, WriteBatch.new] at hop
      exact Or.inr ⟨_, hop.1⟩

/-- The rows of a store whose journal is the batches of a list of writes. -/
theorem get_logKey {ws : List (LogWrite ε)} {b : Backend}
    (h : b.journal = ws.map (LogWrite.batch C)) {i : UInt64} (hmax : i ≠ u64Max) :
    b.rows[logKey i]? = (live C ws i).map C.entry.encode := by
  have hw : (fun w : LogWrite ε => Overwrite.last (WriteOp.writes (logKey i)) (w.batch C).ops) =
      fun w => (w.entryAt C i).map (Option.map C.entry.encode) :=
    funext fun w => w.last_writes_logKey C hmax
  rw [Backend.get_rows, h, Overwrite.last_map, hw, Overwrite.last_map_value, live]
  cases Overwrite.last (LogWrite.entryAt C i) ws with
  | none => rfl
  | some e => rfl

/-- A meta row is the last one put under its tag. -/
theorem get_metaKey {ws : List (LogWrite ε)} {b : Backend}
    (h : b.journal = ws.map (LogWrite.batch C)) {α : Type} {tag : UInt8} {f : LogWrite ε → Option α}
    {encode : α → Bytes}
    (hf : ∀ w : LogWrite ε, ((w.metaRow C).bind fun row => if row.1 = tag then some (some row.2)
      else none) = (f w).map (some ∘ encode)) :
    b.rows[metaKey tag]? = (Overwrite.last f ws).map encode := by
  have hw : (fun w : LogWrite ε => Overwrite.last (WriteOp.writes (metaKey tag)) (w.batch C).ops) =
      fun w => (f w).map (some ∘ encode) :=
    funext fun w => (w.last_writes_metaKey C tag).trans (hf w)
  rw [Backend.get_rows, h, Overwrite.last_map, hw, Overwrite.last_map_value]
  cases Overwrite.last f ws with
  | none => rfl
  | some a => rfl

/-- The log has no entry at the largest index. -/
def Bounded (ws : List (LogWrite ε)) : Prop :=
  ∀ es, LogWrite.append es ∈ ws → ∀ e ∈ es, C.index e ≠ u64Max

/-- Every row stands under the log key of an appended entry or under a meta key. -/
theorem key_of_row {ws : List (LogWrite ε)} {b : Backend}
    (h : b.journal = ws.map (LogWrite.batch C)) (hb : Bounded C ws) {k v : Bytes}
    (hk : b.rows[k]? = some v) :
    (∃ i, i ≠ u64Max ∧ k = logKey i) ∨ ∃ tag, k = metaKey tag := by
  rw [Backend.get_rows, h, Overwrite.last_map] at hk
  cases hlast : Overwrite.last
      (fun w : LogWrite ε => Overwrite.last (WriteOp.writes k) (w.batch C).ops) ws with
  | none => simp [hlast] at hk
  | some x =>
      rw [hlast, Option.getD_some] at hk
      subst hk
      obtain ⟨w, hw, hput⟩ := Overwrite.mem_of_last_eq_some _ hlast
      rcases w.key_of_put C hput with ⟨es, rfl, e, he, rfl⟩ | htag
      · exact Or.inl ⟨C.index e, hb es hw e he, rfl⟩
      · exact Or.inr htag

/-- The entry live at an index carries that index. -/
theorem index_of_live {ws : List (LogWrite ε)} {i : UInt64} {e : ε} (h : live C ws i = some e) :
    C.index e = i ∧ ∃ es, LogWrite.append es ∈ ws ∧ e ∈ es := by
  cases hlast : Overwrite.last (LogWrite.entryAt C i) ws with
  | none => simp [live, hlast] at h
  | some x =>
      rw [live, hlast, Option.getD_some] at h
      subst h
      obtain ⟨w, hw, hat⟩ := Overwrite.mem_of_last_eq_some _ hlast
      cases w with
      | append es =>
          obtain ⟨e', he', hput⟩ := Overwrite.mem_of_last_eq_some _ hat
          split_ifs at hput with hi
          obtain rfl := Option.some.inj (Option.some.inj hput)
          exact ⟨hi, es, hw, he'⟩
      | truncate j =>
          simp only [LogWrite.entryAt] at hat
          split_ifs at hat
          simp at hat
      | clear j =>
          simp only [LogWrite.entryAt] at hat
          split_ifs at hat
          simp at hat
      | point logId => simp [LogWrite.entryAt] at hat
      | vote v => simp [LogWrite.entryAt] at hat
      | committed c => simp [LogWrite.entryAt] at hat

end Rows

/-! ### Reads -/

section Reads

variable {ε : Type} {C : LogConfig ε} {ws : List (LogWrite ε)} {s : LogStore}

/-- The row of an entry. -/
def row (C : LogConfig ε) (e : ε) : Bytes × Bytes := (logKey (C.index e), C.entry.encode e)

theorem row_injective : Function.Injective (row C) := by
  intro d e h
  exact C.entry.encode_injective (Prod.mk.inj h).2

theorem readVote_eq (h : s.backend.journal = ws.map (LogWrite.batch C)) :
    s.readVote C = .ok (lastVote ws) := by
  have hrow : s.backend.rows[metaKey metaVote]? = (lastVote ws).map C.vote.encode := by
    apply get_metaKey C h
    intro w
    cases w <;> rfl
  unfold LogStore.readVote Backend.get
  rw [hrow]
  cases lastVote ws with
  | none => rfl
  | some v => simp [LogStore.decodeRow, C.vote.decode_encode, Except.map]

theorem readCommitted_eq (h : s.backend.journal = ws.map (LogWrite.batch C)) :
    s.readCommitted C = .ok (lastCommitted ws) := by
  have hrow : s.backend.rows[metaKey metaCommitted]? =
      (Overwrite.last LogWrite.committedTo ws).map C.pointer.encode := by
    apply get_metaKey C h
    intro w
    cases w <;> rfl
  unfold LogStore.readCommitted LogStore.readMetaLogId Backend.get lastCommitted
  rw [hrow]
  cases Overwrite.last LogWrite.committedTo ws with
  | none => rfl
  | some c => simp [LogStore.decodeRow, C.pointer.decode_encode]

theorem readPurged_eq (h : s.backend.journal = ws.map (LogWrite.batch C)) :
    s.readMetaLogId C metaPurged = .ok (purged ws) := by
  have hrow : s.backend.rows[metaKey metaPurged]? =
      (purged ws).map fun logId => C.pointer.encode (some logId) := by
    apply get_metaKey C h
    intro w
    cases w <;> rfl
  unfold LogStore.readMetaLogId Backend.get
  rw [hrow]
  cases purged ws with
  | none => rfl
  | some logId => simp [LogStore.decodeRow, C.pointer.decode_encode]

/-- A scan of a range of indices finds the live entries of the range, in order. -/
theorem scan_logRange (h : s.backend.journal = ws.map (LogWrite.batch C)) (hb : Bounded C ws)
    (lo hi : Bound) :
    ∃ es : List ε, s.backend.scan (logRange lo hi) = es.map (row C) ∧
      es.Pairwise (fun a b => C.index a < C.index b) ∧
      ∀ e, e ∈ es ↔ live C ws (C.index e) = some e ∧
        lo.admitsFrom (C.index e) ∧ hi.admitsTo (C.index e) := by
  have hmax : ∀ {e}, live C ws (C.index e) = some e → C.index e ≠ u64Max := by
    intro e he
    obtain ⟨_, es, hes, hmem⟩ := index_of_live C he
    exact hb es hes e hmem
  have hmem : ∀ e, row C e ∈ s.backend.scan (logRange lo hi) ↔
      s.backend.rows[logKey (C.index e)]? = some (C.entry.encode e) ∧
        (logRange lo hi).contains (logKey (C.index e)) = true :=
    fun e => Backend.mem_scan s.backend _ _ _
  -- each row of the range is the row of the entry live at its index
  have hrows : ∀ kv ∈ s.backend.scan (logRange lo hi), ∃ e, live C ws (C.index e) = some e ∧
      row C e = kv := by
    rintro ⟨k, v⟩ hkv
    obtain ⟨hk, hin⟩ := (Backend.mem_scan s.backend _ k v).mp hkv
    rcases key_of_row C h hb hk with ⟨i, hi, rfl⟩ | ⟨tag, rfl⟩
    · rw [get_logKey C h hi, Option.map_eq_some_iff] at hk
      obtain ⟨e, he, rfl⟩ := hk
      obtain ⟨rfl, _⟩ := index_of_live C he
      exact ⟨e, he, rfl⟩
    · exact absurd hin (not_contains_metaKey lo hi tag)
  have hrange : s.backend.scan (logRange lo hi) ∈ Set.range (List.map (row C)) := by
    rw [Set.range_list_map]
    intro kv hkv
    obtain ⟨e, _, he⟩ := hrows kv hkv
    exact ⟨e, he⟩
  obtain ⟨es, hes⟩ := hrange
  refine ⟨es, hes.symm, ?_, ?_⟩
  · have hsorted : (s.backend.scan (logRange lo hi)).Pairwise (fun a b => a.1 < b.1) :=
      (OrdMap.toList_sorted s.backend.rows).filter _
    rw [← hes, List.pairwise_map] at hsorted
    exact hsorted.imp fun hlt => (logKey_lt_logKey _ _).mp hlt
  · intro e
    rw [← List.mem_map_of_injective row_injective, hes]
    constructor
    · intro he
      obtain ⟨e', hlive, hrow⟩ := hrows _ he
      obtain rfl := row_injective hrow
      exact ⟨hlive, (contains_logRange lo hi (hmax hlive)).mp ((hmem e').mp he).2⟩
    · rintro ⟨hlive, hin⟩
      refine (hmem e).mpr ⟨?_, (contains_logRange lo hi (hmax hlive)).mpr hin⟩
      rw [get_logKey C h (hmax hlive), hlive]
      rfl

@[simp] theorem decodeRow_row (e : ε) :
    LogStore.decodeRow C.entry (row C e).2 = Except.ok e := by
  simp [LogStore.decodeRow, row, C.entry.decode_encode]

theorem mapM_decodeRow (es : List ε) :
    (es.map (row C)).mapM (fun kv => LogStore.decodeRow C.entry kv.2) = Except.ok es := by
  induction es with
  | nil => rfl
  | cons e es ih =>
      rw [List.map_cons, List.mapM_cons, ih, decodeRow_row]
      rfl

/-- Decoding the entries one by one keeps the log id of the last. -/
theorem foldlM_decodeRow (es : List ε) (last : Option LogId) :
    (es.map (row C)).foldlM
        (fun _ kv => (LogStore.decodeRow C.entry kv.2).map fun e => some (C.logId e)) last =
      Except.ok ((es.getLast?.map C.logId).or last) := by
  induction es generalizing last with
  | nil => rfl
  | cons e es ih =>
      rw [List.map_cons, List.foldlM_cons, decodeRow_row]
      show (es.map (row C)).foldlM _ (some (C.logId e)) = _
      rw [ih, List.getLast?_cons]
      cases es.getLast? with
      | none => rfl
      | some d => rfl

/-- The last log id of a history: the greatest live entry, or the purge pointer when there is
none. -/
def IsLast (C : LogConfig ε) (ws : List (LogWrite ε)) (last : Option LogId) : Prop :=
  ((∀ i, live C ws i = none) ∧ last = purged ws) ∨
    ∃ i e, live C ws i = some e ∧ (∀ j, live C ws j ≠ none → j ≤ i) ∧ last = some (C.logId e)

/-- What a store answers, given its history. -/
structure Serves (C : LogConfig ε) (ws : List (LogWrite ε)) (s : LogStore) : Prop where
  entries : ∀ lo hi, ∃ es, s.tryGetLogEntries C lo hi = .ok es ∧
    es.Pairwise (fun a b => C.index a < C.index b) ∧
    ∀ e, e ∈ es ↔ live C ws (C.index e) = some e ∧
      lo.admitsFrom (C.index e) ∧ hi.admitsTo (C.index e)
  state : ∃ last, s.getLogState C = .ok ⟨purged ws, last⟩ ∧ IsLast C ws last
  vote : s.readVote C = .ok (lastVote ws)
  committed : s.readCommitted C = .ok (lastCommitted ws)

theorem tryGetLogEntries_eq (h : s.backend.journal = ws.map (LogWrite.batch C))
    (hb : Bounded C ws) (lo hi : Bound) :
    ∃ es, s.tryGetLogEntries C lo hi = .ok es ∧
      es.Pairwise (fun a b => C.index a < C.index b) ∧
      ∀ e, e ∈ es ↔ live C ws (C.index e) = some e ∧
        lo.admitsFrom (C.index e) ∧ hi.admitsTo (C.index e) := by
  obtain ⟨es, hscan, hsorted, hmem⟩ := scan_logRange h hb lo hi
  refine ⟨es, ?_, hsorted, hmem⟩
  unfold LogStore.tryGetLogEntries
  rw [hscan, mapM_decodeRow]

theorem getLogState_eq (h : s.backend.journal = ws.map (LogWrite.batch C)) (hb : Bounded C ws) :
    ∃ last, s.getLogState C = .ok ⟨purged ws, last⟩ ∧ IsLast C ws last := by
  obtain ⟨es, hscan, hsorted, hmem⟩ := scan_logRange h hb .unbounded .unbounded
  have hlive : ∀ {i e}, live C ws i = some e → e ∈ es := by
    intro i e he
    obtain ⟨rfl, _⟩ := index_of_live C he
    exact (hmem e).mpr ⟨he, trivial, trivial⟩
  have hdisk : s.lastLogIdOnDisk C = .ok (es.getLast?.map C.logId) := by
    unfold LogStore.lastLogIdOnDisk
    rw [hscan, foldlM_decodeRow, Option.or_none]
  refine ⟨(es.getLast?.map C.logId).or (purged ws), ?_, ?_⟩
  · unfold LogStore.getLogState
    rw [readPurged_eq h, hdisk]
    rfl
  · cases hlast : es.getLast? with
    | none =>
        refine Or.inl ⟨?_, rfl⟩
        intro i
        by_contra hne
        obtain ⟨e, he⟩ := Option.ne_none_iff_exists'.mp hne
        have hin := hlive he
        rw [List.getLast?_eq_none_iff.mp hlast] at hin
        exact absurd hin (List.not_mem_nil)
    | some e =>
        obtain ⟨hin, hgreatest⟩ := (OrdMap.getLast?_eq_some_iff_of_sorted hsorted e).mp hlast
        refine Or.inr ⟨C.index e, e, ((hmem e).mp hin).1, ?_, rfl⟩
        intro j hj
        obtain ⟨d, hd⟩ := Option.ne_none_iff_exists'.mp hj
        obtain ⟨rfl, _⟩ := index_of_live C hd
        exact hgreatest d (hlive hd)

/-- **The store answers from its history.** -/
theorem serves_of_journal (h : s.backend.journal = ws.map (LogWrite.batch C))
    (hb : Bounded C ws) : Serves C ws s where
  entries := tryGetLogEntries_eq h hb
  state := getLogState_eq h hb
  vote := readVote_eq h
  committed := readCommitted_eq h

end Reads

end AresaDb.Raft
