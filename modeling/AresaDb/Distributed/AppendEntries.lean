import AresaDb.Distributed.Replica

/-! # AppendEntries

A follower pushes the entries of a message whose index is past the end of its log and never
replaces one: a conflict is looked for at the previous index alone.  So the log it accepts is its
old log followed by what the message has beyond it (`foldl_pushEntry`), and the match index it
reports is the length of the whole log.

Both are right exactly when what the follower already holds past the previous index is what the
leader holds there (`append_agrees_iff`). -/

namespace AresaDb.Distributed

open ByteOrder

/-! ### Logs -/

/-- The entry at position `i` has index `i`; positions count from one, as indices do. -/
def WellFormed (log : List LogEntry) : Prop :=
  ∀ (i : ℕ) e, log[i]? = some e → e.index.toNat = i + 1

/-- Equal terms at a position mean equal logs up to it. -/
def LogMatching (l m : List LogEntry) : Prop :=
  ∀ (i : ℕ) a b, l[i]? = some a → m[i]? = some b → a.term = b.term → l.take (i + 1) = m.take (i + 1)

/-- Both logs have the first `n` positions, with the same entries. -/
def AgreeUpTo (l m : List LogEntry) (n : ℕ) : Prop :=
  n ≤ l.length ∧ n ≤ m.length ∧ l.take n = m.take n

theorem AgreeUpTo.of_isPrefix {l m : List LogEntry} {n : ℕ} (h : l <+: m) (hn : n ≤ l.length) :
    AgreeUpTo l m n := by
  refine ⟨hn, hn.trans h.length_le, ?_⟩
  obtain ⟨rest, rfl⟩ := h
  rw [List.take_append_of_le_length hn]

theorem AgreeUpTo.isPrefix {l m : List LogEntry} (h : AgreeUpTo l m l.length) : l <+: m := by
  obtain ⟨-, -, heq⟩ := h
  rw [List.take_length] at heq
  rw [heq]
  exact List.take_prefix _ _

/-- An index is a machine word, so a well-formed log is no longer than one can say. -/
theorem WellFormed.length_lt {log : List LogEntry} (h : WellFormed log) : log.length < 2 ^ 64 := by
  cases hl : log.getLast? with
  | none =>
      rw [List.getLast?_eq_none_iff] at hl
      rw [hl]
      norm_num
  | some e =>
      have hpos : log ≠ [] := by
        rintro rfl
        cases hl
      have hlen := List.length_pos_iff.mpr hpos
      rw [List.getLast?_eq_getElem?] at hl
      have hidx := h _ e hl
      have hlt := e.index.toNat_lt
      omega

theorem WellFormed.of_isPrefix {l m : List LogEntry} (h : WellFormed m) (hp : l <+: m) :
    WellFormed l := by
  intro i e he
  obtain ⟨rest, rfl⟩ := hp
  refine h i e ?_
  rw [List.getElem?_append_left (List.getElem?_eq_some_iff.mp he).1]
  exact he

/-- Entries are numbered on from `p`. -/
def NumberedFrom (p : ℕ) (entries : List LogEntry) : Prop :=
  ∀ (i : ℕ) e, entries[i]? = some e → e.index.toNat = p + i + 1

theorem WellFormed.numberedFrom {log : List LogEntry} (h : WellFormed log) (p q : ℕ) :
    NumberedFrom p ((log.take q).drop p) := by
  intro i e he
  rw [List.getElem?_drop] at he
  have hlog := h.of_isPrefix (List.take_prefix q log)
  exact hlog (p + i) e he

theorem NumberedFrom.tail {p : ℕ} {e : LogEntry} {entries : List LogEntry}
    (h : NumberedFrom p (e :: entries)) : NumberedFrom (p + 1) entries := by
  intro i e' he
  have hidx := h (i + 1) e' he
  omega

/-- The loop over the entries keeps the log and adds what lies past its end. -/
theorem foldl_pushEntry {p : ℕ} {entries : List LogEntry} (h : NumberedFrom p entries)
    {log : List LogEntry} (hp : p ≤ log.length) :
    entries.foldl ReplicaSet.pushEntry log = log ++ entries.drop (log.length - p) := by
  induction entries generalizing p log with
  | nil => simp
  | cons e entries ih =>
      have hidx : e.index.toNat = p + 1 := h 0 e rfl
      rw [List.foldl_cons, ReplicaSet.pushEntry, hidx]
      split_ifs with hlen
      · have hp' : log.length = p := by omega
        have hgrown : (log ++ [e]).length = p + 1 := by
          rw [List.length_append, hp']
          rfl
        rw [ih h.tail (le_of_eq hgrown.symm), hgrown, hp']
        simp
      · have hsub : log.length - p = (log.length - (p + 1)) + 1 := by omega
        rw [ih h.tail (Nat.succ_le_of_lt (by omega)), hsub, List.drop_succ_cons]

/-- A prefix of a log, carried on by what the log has after it, is a prefix still. -/
theorem prefix_append_drop {l m : List LogEntry} (h : l <+: m) (q : ℕ) :
    l ++ (m.take q).drop l.length <+: m := by
  obtain ⟨rest, rfl⟩ := h
  rw [List.prefix_append_right_inj]
  rw [List.take_append, List.drop_append]
  rcases Nat.le_total q l.length with hq | hq
  · have hshort : (l.take q).length ≤ l.length := List.length_take_le' q l
    rw [List.drop_of_length_le hshort, Nat.sub_eq_zero_of_le hq]
    simp
  · rw [List.take_of_length_le hq, List.drop_length, Nat.sub_self, List.drop_zero, List.nil_append]
    exact List.take_prefix _ _

namespace ReplicaSet

variable {r : ReplicaSet} {L : List LogEntry}

/-! ### The acceptance check -/

/-- The follower has an entry of the given term at the previous index. -/
def HasPrev (r : ReplicaSet) (p : ℕ) (prevTerm : UInt64) : Prop :=
  p = 0 ∨ ∃ e, r.log[p - 1]? = some e ∧ e.term = prevTerm

theorem HasPrev.le {p : ℕ} {prevTerm : UInt64} (h : r.HasPrev p prevTerm) : p ≤ r.log.length := by
  rcases h with rfl | ⟨e, he, -⟩
  · exact Nat.zero_le _
  · have hlt := (List.getElem?_eq_some_iff.mp he).1
    omega

variable {term prevTerm commit : UInt64} {leaderId : String} {p : ℕ} {entries : List LogEntry}

/-- The state after the entries were accepted. -/
def accepted (r : ReplicaSet) (term : UInt64) (leaderId : String) (entries : List LogEntry)
    (commit : UInt64) : ReplicaSet := (r.follow term leaderId).appendAll entries commit

theorem handleAppendEntries_of_hasPrev (hterm : r.currentTerm ≤ term) (hp : p < 2 ^ 64)
    (h : r.HasPrev p prevTerm) :
    r.handleAppendEntries term leaderId (.ofNat p) prevTerm entries commit =
      (.appendResponse (r.accepted term leaderId entries commit).currentTerm true
        (r.accepted term leaderId entries commit).lastLogIndex,
        r.accepted term leaderId entries commit) := by
  unfold handleAppendEntries
  rw [if_neg (not_lt.mpr hterm)]
  dsimp only
  split_ifs with hpos
  · have hword : (UInt64.ofNat p).toNat = p := UInt64.toNat_ofNat_of_lt' hp
    rw [UInt64.lt_iff_toNat_lt, hword] at hpos
    rcases h with rfl | ⟨e, he, rfl⟩
    · exact absurd hpos (lt_irrefl _)
    · have hentry : (r.follow term leaderId).log[(UInt64.ofNat p).toNat - 1]? = some e := by
        rw [hword]
        exact he
      simp only [hentry, ne_eq, not_true_eq_false, if_false]
      rfl
  · rfl

theorem handleAppendEntries_of_not_hasPrev (hp : p < 2 ^ 64) (h : ¬ r.HasPrev p prevTerm)
    (t m : UInt64) :
    (r.handleAppendEntries term leaderId (.ofNat p) prevTerm entries commit).1 ≠
      .appendResponse t true m := by
  unfold handleAppendEntries
  have hword : (UInt64.ofNat p).toNat = p := UInt64.toNat_ofNat_of_lt' hp
  have hpos : 0 < UInt64.ofNat p := by
    rw [UInt64.lt_iff_toNat_lt, hword]
    exact Nat.pos_of_ne_zero fun h0 => h (.inl h0)
  -- the previous index is positive, so the log is looked into
  split_ifs
  · simp
  · have hlog : (r.follow term leaderId).log[p - 1]? = r.log[p - 1]? := rfl
    simp only [hword]
    cases he : r.log[p - 1]? with
    | none => simp [hlog, he]
    | some e =>
        have hne : e.term ≠ prevTerm := fun heq => h (.inr ⟨e, he, heq⟩)
        simp [hlog, he, hne]

/-! ### Agreement -/

/-- What a follower owes the leader of log `L` once it accepts its entries up to `q` and reports
`m`. -/
structure Agrees (L : List LogEntry) (q : ℕ) (r r' : ReplicaSet) (m : UInt64) : Prop where
  upToSent : AgreeUpTo r'.log L q
  matched : AgreeUpTo r'.log L m.toNat
  wellFormed : WellFormed r'.log
  committed : AgreeUpTo r.log L r.commitIndex.toNat → AgreeUpTo r'.log L r'.commitIndex.toNat

theorem accepted_log (hL : WellFormed L) (q : ℕ) (hp : p ≤ r.log.length) :
    (r.accepted term leaderId ((L.take q).drop p) commit).log =
      r.log ++ (L.take q).drop r.log.length := by
  have hfold := foldl_pushEntry (hL.numberedFrom p q) hp
  rw [List.drop_drop, Nat.add_sub_of_le hp] at hfold
  rw [← hfold]
  unfold accepted appendAll
  dsimp only
  split_ifs
  · rfl
  · rfl

/-- The new commit index is the old one, or is within the log and what the leader said. -/
theorem accepted_commitIndex :
    (r.accepted term leaderId entries commit).commitIndex = r.commitIndex ∨
      (r.accepted term leaderId entries commit).commitIndex ≤ commit ∧
        (r.accepted term leaderId entries commit).commitIndex ≤
          (r.accepted term leaderId entries commit).lastLogIndex := by
  unfold accepted appendAll
  dsimp only
  split_ifs
  · exact .inr ⟨min_le_left _ _, min_le_right _ _⟩
  · exact .inl rfl

/-- Once accepted, the logs agree if and only if the old log was the beginning of the leader's. -/
theorem accepted_agrees_iff (hL : WellFormed L) (hF : WellFormed r.log) {q : ℕ} (hq : q ≤ L.length)
    (hp : p ≤ r.log.length) :
    Agrees L q r (r.accepted term leaderId ((L.take q).drop p) commit)
      (r.accepted term leaderId ((L.take q).drop p) commit).lastLogIndex ↔ r.log <+: L := by
  have hlog := @accepted_log r L term commit leaderId p hL q hp
  have hcommit := @accepted_commitIndex r term commit leaderId ((L.take q).drop p)
  generalize r.accepted term leaderId ((L.take q).drop p) commit = r' at hlog hcommit
  have hlen : r'.log.length = max r.log.length q := by
    rw [hlog, List.length_append, List.length_drop, List.length_take, min_eq_left hq]
    omega
  have hword : r'.lastLogIndex.toNat = r'.log.length := by
    refine UInt64.toNat_ofNat_of_lt' ?_
    rw [hlen]
    exact max_lt hF.length_lt (lt_of_le_of_lt hq hL.length_lt)
  constructor
  · intro h
    have hall := h.matched
    rw [hword] at hall
    have hold : r.log <+: r'.log := by
      rw [hlog]
      exact List.prefix_append _ _
    exact hold.trans hall.isPrefix
  · intro h
    have hnew : r'.log <+: L := by
      rw [hlog]
      exact prefix_append_drop h q
    have hgrown : r.log.length ≤ r'.log.length := by
      rw [hlen]
      exact le_max_left _ _
    refine ⟨.of_isPrefix hnew ?_, .of_isPrefix hnew (le_of_eq hword), hL.of_isPrefix hnew,
      fun hold => ?_⟩
    · rw [hlen]
      exact le_max_right _ _
    · refine .of_isPrefix hnew ?_
      rcases hcommit with heq | ⟨-, hle⟩
      · rw [heq]
        exact hold.1.trans hgrown
      · rw [← hword]
        exact UInt64.le_iff_toNat_le.mp hle

/-- With log matching, a log whose entry at `p` has the leader's term can only differ past `p`. -/
theorem HasPrev.prefix_iff (hm : LogMatching L r.log) (h : r.HasPrev p prevTerm)
    (hprev : 0 < p → ∃ e, L[p - 1]? = some e ∧ e.term = prevTerm) :
    r.log <+: L ↔ r.log.drop p <+: L.drop p := by
  have htake : r.log.take p = L.take p := by
    rcases h with rfl | ⟨e, he, rfl⟩
    · rfl
    · rcases Nat.eq_zero_or_pos p with rfl | hpos
      · rfl
      · obtain ⟨e', he', hterm⟩ := hprev hpos
        have hmatch := hm (p - 1) e' e he' he hterm
        rw [Nat.sub_add_cancel hpos] at hmatch
        exact hmatch.symm
  conv_lhs => rw [← List.take_append_drop p r.log, ← List.take_append_drop p L, htake]
  exact List.prefix_append_right_inj _

/-- **AppendEntries**: an accepted message brings the follower into agreement with the leader if
and only if the follower holds, past the previous index, only what the leader holds there. -/
theorem append_agrees_iff (r : ReplicaSet) (L : List LogEntry) (hL : WellFormed L)
    (hF : WellFormed r.log) (hm : LogMatching L r.log) (term prevTerm commit : UInt64)
    (leaderId : String) (p q : ℕ) (hpq : p ≤ q) (hq : q ≤ L.length)
    (hprev : 0 < p → ∃ e, L[p - 1]? = some e ∧ e.term = prevTerm) (hterm : r.currentTerm ≤ term) :
    (∀ t m, (r.handleAppendEntries term leaderId (.ofNat p) prevTerm ((L.take q).drop p) commit).1 =
        .appendResponse t true m →
      Agrees L q r
        (r.handleAppendEntries term leaderId (.ofNat p) prevTerm ((L.take q).drop p) commit).2 m) ↔
      (r.HasPrev p prevTerm → r.log.drop p <+: L.drop p) := by
  have hp : p < 2 ^ 64 := lt_of_le_of_lt (hpq.trans hq) hL.length_lt
  by_cases h : r.HasPrev p prevTerm
  · rw [handleAppendEntries_of_hasPrev hterm hp h, ← h.prefix_iff hm hprev,
      ← accepted_agrees_iff hL hF hq h.le]
    constructor
    · intro hall _
      exact hall _ _ rfl
    · intro hagree t m heq
      cases heq
      exact hagree h
  · constructor
    · intro _ hhas
      exact absurd hhas h
    · intro _ t m heq
      exact absurd heq (handleAppendEntries_of_not_hasPrev hp h t m)

/-- The log of a leader whose second entry is of a later term than the follower's. -/
def leaderLog : List LogEntry := [⟨1, 1, .nop⟩, ⟨2, 2, .insertNode [7]⟩]

def followerLog : List LogEntry := [⟨1, 1, .nop⟩, ⟨1, 2, .deleteNode [9]⟩]

/-- A follower in term 1 with that log. -/
def follower (log : List LogEntry) : ReplicaSet :=
  { ReplicaSet.new ⟨"b", ["a"]⟩ with currentTerm := 1, log := log }

/-- An overlapping message: the follower keeps the entry of the earlier term, answers success and
reports it as matching. -/
theorem conflict_kept :
    (WellFormed leaderLog ∧ WellFormed followerLog ∧ LogMatching leaderLog followerLog) ∧
      ((follower followerLog).handleAppendEntries 2 "a" 1 1 ((leaderLog.take 2).drop 1) 2).1 =
        .appendResponse 2 true 2 ∧
      ¬ Agrees leaderLog 2 (follower followerLog)
        ((follower followerLog).handleAppendEntries 2 "a" 1 1 ((leaderLog.take 2).drop 1) 2).2
            2 := by
  refine ⟨⟨?_, ?_, ?_⟩, by decide +kernel, fun h => absurd h.upToSent.2.2 (by decide +kernel)⟩
  · rintro (_ | _ | i) e he
    · cases he; rfl
    · cases he; rfl
    · cases he
  · rintro (_ | _ | i) e he
    · cases he; rfl
    · cases he; rfl
    · cases he
  · rintro (_ | _ | i) a b ha hb hterm
    · rfl
    · cases ha; cases hb; cases hterm
    · cases ha

/-- A follower that is one entry behind receives it. -/
theorem append_agrees_iff_behind :
    ((follower [⟨1, 1, .nop⟩]).HasPrev 1 1 → [] <+: leaderLog.drop 1) ∧
      ∀ t m, ((follower [⟨1, 1, .nop⟩]).handleAppendEntries 2 "a" 1 1 ((leaderLog.take 2).drop 1)
          2).1 = .appendResponse t true m →
        Agrees leaderLog 2 (follower [⟨1, 1, .nop⟩])
          ((follower [⟨1, 1, .nop⟩]).handleAppendEntries 2
          "a" 1 1 ((leaderLog.take 2).drop 1) 2).2 m := by
  have hcond : (follower [⟨1, 1, .nop⟩]).HasPrev 1 1 → [] <+: leaderLog.drop 1 :=
    fun _ => List.nil_prefix
  have hL : WellFormed leaderLog := by
    rintro (_ | _ | i) e he
    · cases he; rfl
    · cases he; rfl
    · cases he
  have hF : WellFormed [⟨1, 1, .nop⟩] := hL.of_isPrefix ⟨leaderLog.drop 1, rfl⟩
  refine ⟨hcond, (append_agrees_iff (follower [⟨1, 1, .nop⟩]) leaderLog hL hF ?_ 2 1 2 "a" 1 2
    (by decide) (by decide) (fun _ => ⟨_, rfl, rfl⟩) (by decide)).mpr hcond⟩
  rintro (_ | i) a b ha hb -
  · rfl
  · cases hb

/-! ### Heartbeats and applied entries -/

/-- A heartbeat is the message for the end of the sender's log. -/
theorem createHeartbeat_eq (l : ReplicaSet) :
    l.createHeartbeat = .appendEntries l.currentTerm l.config.nodeId (.ofNat l.log.length)
      l.lastLogTerm ((l.log.take l.log.length).drop l.log.length) l.commitIndex := by
  rw [List.take_length, List.drop_length]
  rfl

theorem lastLogTerm_prev (l : ReplicaSet) (h : 0 < l.log.length) :
    ∃ e, l.log[l.log.length - 1]? = some e ∧ e.term = l.lastLogTerm := by
  have hlt : l.log.length - 1 < l.log.length := by omega
  refine ⟨l.log[l.log.length - 1], List.getElem?_eq_getElem hlt, ?_⟩
  rw [lastLogTerm, List.getLast?_eq_getElem?, List.getElem?_eq_getElem hlt]
  rfl

/-- An accepted heartbeat: the logs agree if and only if the follower's is not the longer one. -/
theorem heartbeat_agrees_iff {l : ReplicaSet} (hL : WellFormed l.log) (hF : WellFormed r.log)
    (hm : LogMatching l.log r.log) (hprev : r.HasPrev l.log.length l.lastLogTerm) :
    Agrees l.log l.log.length r
        (r.accepted term leaderId ((l.log.take l.log.length).drop l.log.length) commit)
        (r.accepted term leaderId ((l.log.take l.log.length).drop l.log.length)
          commit).lastLogIndex ↔
      r.log.length ≤ l.log.length := by
  rw [accepted_agrees_iff hL hF (le_refl _) hprev.le, hprev.prefix_iff hm l.lastLogTerm_prev,
    List.drop_length, List.prefix_nil, List.drop_eq_nil_iff]

/-- What a follower applies is what the leader holds, as far as the logs agree. -/
theorem getUnappliedEntries_eq (h : AgreeUpTo r.log L r.commitIndex.toNat)
    (hle : r.lastApplied ≤ r.commitIndex) :
    r.getUnappliedEntries = (L.take r.commitIndex.toNat).drop r.lastApplied.toNat := by
  have hsub := UInt64.toNat_sub_of_le _ _ hle
  obtain ⟨-, -, htake⟩ := h
  rw [getUnappliedEntries, hsub, ← List.drop_take, htake]

end ReplicaSet

end AresaDb.Distributed
