import AresaDb.Distributed.Replica

/-! # Votes

A group of replica sets runs by elections that nodes start and messages that nodes process.  Any
message may reach any node at any time, whether it was sent or not; so messages that are lost,
repeated or late are covered, and nothing is assumed of the network.

`Keeps` says what one call can do to a node's term and vote: the term grows, or it stays and a vote
that was cast stays.  Every vote of the history is therefore of an older term or is the one the node
still holds (`VotesHeld`), so no node votes twice in a term, and two majorities for one term share a
voter (`one_vote_per_term`). -/

namespace AresaDb.Distributed

open ByteOrder

namespace ReplicaSet

variable {r r' : ReplicaSet}

/-! ### One call -/

/-- The term grows, or it stays and a vote stays with it. -/
def Keeps (r r' : ReplicaSet) : Prop :=
  r.currentTerm < r'.currentTerm ∨
    r'.currentTerm = r.currentTerm ∧ ∀ c, r.votedFor = some c → r'.votedFor = some c

theorem Keeps.le (h : Keeps r r') : r.currentTerm ≤ r'.currentTerm := by
  rcases h with hlt | ⟨heq, -⟩
  · exact le_of_lt hlt
  · exact le_of_eq heq.symm

theorem Keeps.refl (r : ReplicaSet) : Keeps r r := .inr ⟨rfl, fun _ h => h⟩

theorem keeps_observeTerm (r : ReplicaSet) (term : UInt64) : Keeps r (r.observeTerm term) := by
  unfold observeTerm
  split_ifs with h
  · exact .inl h
  · exact .refl r

theorem keeps_follow (r : ReplicaSet) (term : UInt64) (leaderId : String) :
    Keeps r (r.follow term leaderId) := by
  by_cases h : r.currentTerm < term
  · left
    simp only [follow, if_pos h]
    exact h
  · right
    unfold follow
    rw [if_neg h, if_neg h]
    exact ⟨rfl, fun _ hv => hv⟩

/-- Only the term and the vote matter. -/
theorem Keeps.congr {s : ReplicaSet} (h : Keeps r r') (hterm : s.currentTerm = r'.currentTerm)
    (hvote : s.votedFor = r'.votedFor) : Keeps r s := by
  unfold Keeps
  rw [hterm, hvote]
  exact h

theorem keeps_appendAll (h : Keeps r r') (entries : List LogEntry) (leaderCommit : UInt64) :
    Keeps r (r'.appendAll entries leaderCommit) := by
  unfold appendAll
  dsimp only
  split_ifs
  · exact h.congr rfl rfl
  · exact h.congr rfl rfl

theorem keeps_handleRequestVote (r : ReplicaSet) (term : UInt64) (c : String) (li lt : UInt64) :
    Keeps r (r.handleRequestVote term c li lt).2 := by
  unfold handleRequestVote
  have h := keeps_observeTerm r term
  generalize r.observeTerm term = s at h
  dsimp only
  split_ifs with hvoted
  · exact h
  · -- the vote was free or already the candidate's
    rcases h with hlt | ⟨heq, hkept⟩
    · exact .inl hlt
    · refine .inr ⟨heq, fun c' hc' => ?_⟩
      have hs := hkept c' hc'
      by_contra hne
      exact hvoted (.inr ⟨by rw [hs]; rfl, fun he => hne (he.symm.trans hs)⟩)
  · exact h

theorem keeps_handleAppendEntries (r : ReplicaSet) (term : UInt64) (leaderId : String)
    (prevLogIndex prevLogTerm : UInt64) (entries : List LogEntry) (leaderCommit : UInt64) :
    Keeps r (r.handleAppendEntries term leaderId prevLogIndex prevLogTerm entries
      leaderCommit).2 := by
  unfold handleAppendEntries
  have h := keeps_follow r term leaderId
  generalize r.follow term leaderId = s at h
  dsimp only
  split_ifs
  · exact .refl r
  · split
    · split_ifs
      · exact h.congr rfl rfl
      · exact keeps_appendAll h _ _
    · exact h
  · exact keeps_appendAll h _ _

theorem keeps_processMessage (r : ReplicaSet) (msg : ConsensusMessage) :
    Keeps r (r.processMessage msg).2 := by
  cases msg with
  | requestVote term c li lt => exact keeps_handleRequestVote r term c li lt
  | voteResponse term granted => exact keeps_observeTerm r term
  | appendEntries term l p pt entries commit =>
      exact keeps_handleAppendEntries r term l p pt entries commit
  | appendResponse term success m => exact keeps_observeTerm r term

theorem keeps_startElection (h : r.currentTerm ≠ u64Max) : Keeps r r.startElection.2 :=
  .inl (lt_add_one_of_ne_max h)

theorem keeps_appendCommand (r : ReplicaSet) (command : ReplicationCommand) :
    Keeps r (r.appendCommand command).2 := by
  unfold appendCommand
  split_ifs
  · exact (Keeps.refl r).congr rfl rfl
  · exact .refl r

/-- A granted vote is the vote the node then holds. -/
theorem handleRequestVote_granted {term t : UInt64} {c : String} {li lt : UInt64}
    (h : (r.handleRequestVote term c li lt).1 = .voteResponse t true) :
    (r.handleRequestVote term c li lt).2.currentTerm = t ∧
      (r.handleRequestVote term c li lt).2.votedFor = some c := by
  unfold handleRequestVote at h ⊢
  generalize r.observeTerm term = s at h ⊢
  dsimp only at h ⊢
  split_ifs at h ⊢
  · cases h
  · cases h
    exact ⟨rfl, rfl⟩
  · cases h

end ReplicaSet

/-! ### Runs of a group -/

/-- A call on one node of a group. -/
inductive GroupEvent (ι : Type)
  | startElection (i : ι)
  | processMessage (i : ι) (msg : ConsensusMessage)
  | becomeLeader (i : ι)
  | appendCommand (i : ι) (command : ReplicationCommand)

/-- The nodes of a group, by name. -/
abbrev Group (ι : Type) := ι → ReplicaSet

namespace Group

variable {ι : Type} [DecidableEq ι]

/-- The node that an event calls. -/
def target : GroupEvent ι → ι
  | .startElection i => i
  | .processMessage i _ => i
  | .becomeLeader i => i
  | .appendCommand i _ => i

/-- The called node after an event. -/
def called (g : Group ι) : GroupEvent ι → ReplicaSet
  | .startElection i => (g i).startElection.2
  | .processMessage i msg => ((g i).processMessage msg).2
  | .becomeLeader i => (g i).becomeLeader
  | .appendCommand i command => ((g i).appendCommand command).2

def step (g : Group ι) (e : GroupEvent ι) : Group ι := Function.update g (target e) (called g e)

/-- A group of new nodes. -/
def new (config : ι → ReplicaConfig) : Group ι := fun i => .new (config i)

/-- No election is started in the largest term. -/
def NoOverflow (g : Group ι) : GroupEvent ι → Prop
  | .startElection i => (g i).currentTerm ≠ u64Max
  | _ => True

instance (g : Group ι) (e : GroupEvent ι) : Decidable (g.NoOverflow e) := by
  cases e <;> unfold NoOverflow <;> infer_instance

/-- Node `i` votes for `c` in term `t`: it grants a request of `c`, or stands itself. -/
def CastsVote (g : Group ι) (e : GroupEvent ι) (i : ι) (t : UInt64) (c : String) : Prop :=
  match e with
  | .startElection j => j = i ∧ ∃ li lt, (g j).startElection.1 = .requestVote t c li lt
  | .processMessage j msg => j = i ∧ ∃ li lt, msg = .requestVote t c li lt ∧
      ((g j).processMessage msg).1 = some (.voteResponse t true)
  | _ => False

/-- Node `i` has voted for `c` in term `t` at some event of a run. -/
def Voted (g : Group ι) (es : List (GroupEvent ι)) (i : ι) (t : UInt64) (c : String) : Prop :=
  ∃ p e, p ++ [e] <+: es ∧ (Run.run step g p).CastsVote e i t c

variable {g : Group ι} {es : List (GroupEvent ι)} {e : GroupEvent ι}

theorem keeps_step (h : g.NoOverflow e) (i : ι) : (g i).Keeps (g.step e i) := by
  unfold step
  rw [Function.update_apply]
  split_ifs with hi
  · subst hi
    cases e with
    | startElection j => exact ReplicaSet.keeps_startElection h
    | processMessage j msg => exact ReplicaSet.keeps_processMessage _ msg
    | becomeLeader j => exact (ReplicaSet.Keeps.refl _).congr rfl rfl
    | appendCommand j command => exact ReplicaSet.keeps_appendCommand _ command
  · exact .refl _

theorem CastsVote.held {i : ι} {t : UInt64} {c : String} (h : g.CastsVote e i t c) :
    (g.step e i).currentTerm = t ∧ (g.step e i).votedFor = some c := by
  cases e with
  | startElection j =>
      obtain ⟨rfl, li, lt, hreq⟩ := h
      cases hreq
      rw [step, target, Function.update_self]
      exact ⟨rfl, rfl⟩
  | processMessage j msg =>
      obtain ⟨rfl, li, lt, rfl, hresp⟩ := h
      rw [step, target, Function.update_self]
      exact ReplicaSet.handleRequestVote_granted (Option.some.inj hresp)
  | becomeLeader j => exact h.elim
  | appendCommand j command => exact h.elim

theorem voted_concat {i : ι} {t : UInt64} {c : String} :
    Voted g (es ++ [e]) i t c ↔ Voted g es i t c ∨ (Run.run step g es).CastsVote e i t c := by
  constructor
  · rintro ⟨p, e', hp, hcast⟩
    rcases List.prefix_concat_iff.mp hp with heq | hp
    · obtain ⟨rfl, rfl⟩ := List.append_inj' heq rfl |>.imp_right (List.cons.inj · |>.1)
      exact .inr hcast
    · exact .inl ⟨p, e', hp, hcast⟩
  · rintro (⟨p, e', hp, hcast⟩ | hcast)
    · exact ⟨p, e', hp.trans (List.prefix_append _ _), hcast⟩
    · exact ⟨es, e, List.prefix_refl _, hcast⟩

/-- Every vote of the history is of an older term, or is the vote the node holds. -/
def VotesHeld (g : Group ι) (es : List (GroupEvent ι)) : Prop :=
  ∀ i t c, Voted g es i t c →
    t < (Run.run step g es i).currentTerm ∨
      t = (Run.run step g es i).currentTerm ∧ (Run.run step g es i).votedFor = some c

theorem VotesHeld.concat (h : VotesHeld g es) (ho : (Run.run step g es).NoOverflow e) :
    VotesHeld g (es ++ [e]) := by
  intro i t c hv
  rw [Run.run_concat]
  rcases voted_concat.mp hv with hold | hnew
  · have hheld := h i t c hold
    rcases keeps_step ho i with hlt | ⟨heq, hkept⟩
    · left
      rcases hheld with hold | ⟨rfl, -⟩
      · exact lt_trans hold hlt
      · exact hlt
    · rw [heq]
      exact hheld.imp_right fun ⟨ht, hc⟩ => ⟨ht, hkept c hc⟩
  · obtain ⟨ht, hc⟩ := hnew.held
    exact .inr ⟨ht.symm, hc⟩

theorem votesHeld (h : Run.Along step NoOverflow g es) : VotesHeld g es := by
  induction es using List.reverseRecOn with
  | nil =>
      rintro i t c ⟨p, e, hp, -⟩
      exact absurd (List.prefix_nil.mp hp) (by simp)
  | append_singleton es e ih =>
      obtain ⟨hpre, ho⟩ := Run.along_concat.mp h
      exact (ih hpre).concat ho

/-- Whoever votes last decides: an earlier vote of the same term is the vote still held. -/
theorem voted_unique (h : Run.Along step NoOverflow g es) {i : ι} {t : UInt64} {c c' : String}
    (hc : Voted g es i t c) (hc' : Voted g es i t c') : c = c' := by
  induction es using List.reverseRecOn with
  | nil =>
      obtain ⟨p, e, hp, -⟩ := hc
      exact absurd (List.prefix_nil.mp hp) (by simp)
  | append_singleton es e ih =>
      have hnew : ∀ {a b : String}, (Run.run step g es).CastsVote e i t a →
          Voted g (es ++ [e]) i t b → b = a := by
        intro a b hcast hb
        obtain ⟨hterm, hvote⟩ := hcast.held
        have hheld := votesHeld h i t b hb
        rw [Run.run_concat, hterm, hvote] at hheld
        rcases hheld with hlt | ⟨-, heq⟩
        · exact absurd hlt (lt_irrefl t)
        · exact (Option.some.inj heq).symm
      rcases voted_concat.mp hc with hold | hcast
      · rcases voted_concat.mp hc' with hold' | hcast'
        · exact ih (Run.along_concat.mp h).1 hold hold'
        · exact hnew hcast' hc
      · exact (hnew hcast hc').symm

theorem term_le (h : Run.Along step NoOverflow g es) (i : ι) :
    (g i).currentTerm ≤ (Run.run step g es i).currentTerm := by
  induction es using List.reverseRecOn with
  | nil => exact le_refl _
  | append_singleton es e ih =>
      obtain ⟨hpre, ho⟩ := Run.along_concat.mp h
      rw [Run.run_concat]
      exact (ih hpre).trans (keeps_step ho i).le

/-! ### Majorities -/

/-- More than half of the nodes have voted for `c` in term `t`. -/
def Majority [Fintype ι] (g : Group ι) (es : List (GroupEvent ι)) (t : UInt64)
    (c : String) : Prop :=
  ∃ voters : Finset ι, (∀ i ∈ voters, Voted g es i t c) ∧ Fintype.card ι < 2 * voters.card

theorem majority_unique [Fintype ι] (h : Run.Along step NoOverflow g es) {t : UInt64}
    {c c' : String} (hc : Majority g es t c) (hc' : Majority g es t c') : c = c' := by
  obtain ⟨vs, hvs, hcard⟩ := hc
  obtain ⟨vs', hvs', hcard'⟩ := hc'
  have hmeet : (vs ∩ vs').Nonempty := by
    have hadd := Finset.card_union_add_card_inter vs vs'
    have hle : (vs ∪ vs').card ≤ Fintype.card ι := Finset.card_le_univ _
    rw [← Finset.card_pos]
    omega
  obtain ⟨i, hi⟩ := hmeet
  obtain ⟨hi, hi'⟩ := Finset.mem_inter.mp hi
  exact voted_unique h (hvs i hi) (hvs' i hi')

/-- **At most one vote per term**: in a group whose nodes have distinct ids, terms never decrease,
a node votes for one candidate in a term, and only one node gathers a majority in it. -/
theorem one_vote_per_term [Fintype ι] (config : ι → ReplicaConfig)
    (hid : ∀ i j, (config i).nodeId = (config j).nodeId → i = j) (es : List (GroupEvent ι))
    (h : Run.Along step NoOverflow (new config) es) :
    (∀ p q, p <+: q → q <+: es → ∀ i,
      (Run.run step (new config) p i).currentTerm ≤ (Run.run step (new config) q i).currentTerm) ∧
    (∀ i t c c', Voted (new config) es i t c → Voted (new config) es i t c' → c = c') ∧
    ∀ t i j, Majority (new config) es t (config i).nodeId →
      Majority (new config) es t (config j).nodeId → i = j := by
  refine ⟨?_, fun i t c c' => voted_unique h, fun t i j hi hj => hid i j (majority_unique h hi hj)⟩
  rintro p q ⟨rest, rfl⟩ hq i
  obtain ⟨-, hrest⟩ := Run.along_append.mp (h.upto hq)
  rw [Run.run_append]
  exact term_le hrest i

/-- Three nodes; the first is elected with the second one's vote, while the third stands too late
and then learns of the term. -/
theorem one_vote_per_term_three :
    let config : Fin 3 → ReplicaConfig := fun i => ⟨["a", "b", "c"][i], []⟩
    let es : List (GroupEvent (Fin 3)) := [.startElection 0,
      .processMessage 1 (.requestVote 1 "a" 0 0), .startElection 2,
      .processMessage 1 (.requestVote 1 "c" 0 0), .processMessage 2 (.voteResponse 2 false)]
    Run.Along step NoOverflow (new config) es ∧
      ∀ i t c c', Voted (new config) es i t c → Voted (new config) es i t c' → c = c' := by
  intro config es
  have h : Run.Along step NoOverflow (new config) es := by decide +kernel
  exact ⟨h, (one_vote_per_term config (by decide +kernel) es h).2.1⟩

end Group

end AresaDb.Distributed
