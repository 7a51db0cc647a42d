import AresaDb.Lib.ByteOrder
import AresaDb.Lib.OrdMap
import AresaDb.Lib.Run

/-! # Replica sets

`ReplicaSet` (`distributed/replication.rs`) is one node of a Raft-like group: its term, its vote,
its log and its commit index, with a handler for each message.  Every handler takes its locks for
its whole body, so a call is one function from the state before it to its answer and the state
after it.  The clock of the election timeout is left out: no handler reads it. -/

namespace AresaDb.Distributed

open ByteOrder

inductive ReplicaState
  | follower
  | candidate
  | leader
deriving DecidableEq, Repr

structure ReplicaConfig where
  nodeId : String
  peers : List String
deriving DecidableEq, Repr

/-- Commands that can be replicated. -/
inductive ReplicationCommand
  | nop
  | insertNode (bytes : Bytes)
  | updateNode (bytes : Bytes)
  | deleteNode (bytes : Bytes)
  | insertEdge (bytes : Bytes)
  | deleteEdge (bytes : Bytes)
deriving DecidableEq, Repr

/-- A log entry; indices count from one. -/
structure LogEntry where
  term : UInt64
  index : UInt64
  command : ReplicationCommand
deriving DecidableEq, Repr

inductive ConsensusMessage
  | requestVote (term : UInt64) (candidateId : String) (lastLogIndex lastLogTerm : UInt64)
  | voteResponse (term : UInt64) (voteGranted : Bool)
  | appendEntries (term : UInt64) (leaderId : String) (prevLogIndex prevLogTerm : UInt64)
      (entries : List LogEntry) (leaderCommit : UInt64)
  | appendResponse (term : UInt64) (success : Bool) (matchIndex : UInt64)
deriving DecidableEq, Repr

structure ReplicaSet where
  config : ReplicaConfig
  state : ReplicaState
  currentTerm : UInt64
  votedFor : Option String
  log : List LogEntry
  commitIndex : UInt64
  lastApplied : UInt64
  nextIndex : OrdMap String UInt64
  matchIndex : OrdMap String UInt64
  leaderId : Option String

namespace ReplicaSet

def new (config : ReplicaConfig) : ReplicaSet :=
  { config := config
    state := .follower
    currentTerm := 0
    votedFor := none
    log := []
    commitIndex := 0
    lastApplied := 0
    nextIndex := ∅
    matchIndex := ∅
    leaderId := none }

/-! ### Logs -/

/-- `log.len() as u64`. -/
def lastLogIndex (r : ReplicaSet) : UInt64 := .ofNat r.log.length

/-- The term of the last entry, zero for an empty log. -/
def lastLogTerm (r : ReplicaSet) : UInt64 := (r.log.getLast?.map (·.term)).getD 0

/-- `append_command`: only a leader appends; the answer is the index of the new entry. -/
def appendCommand (r : ReplicaSet) (command : ReplicationCommand) : Option UInt64 × ReplicaSet :=
  if r.state = .leader then
    let index : UInt64 := r.lastLogIndex + 1
    (some index, { r with log := r.log ++ [⟨r.currentTerm, index, command⟩] })
  else (none, r)

/-! ### Votes -/

/-- What a newer term does to a voter: the vote is free again and it is a follower. -/
def observeTerm (r : ReplicaSet) (term : UInt64) : ReplicaSet :=
  if r.currentTerm < term then
    { r with currentTerm := term, votedFor := none, state := .follower }
  else r

/-- The log of a candidate is at least as new as the voter's. -/
def logOk (r : ReplicaSet) (lastLogIndex lastLogTerm : UInt64) : Bool :=
  decide (r.lastLogTerm < lastLogTerm) ||
    (lastLogTerm == r.lastLogTerm && decide (r.lastLogIndex ≤ lastLogIndex))

def handleRequestVote (r : ReplicaSet) (term : UInt64) (candidateId : String)
    (lastLogIndex lastLogTerm : UInt64) : ConsensusMessage × ReplicaSet :=
  let r := r.observeTerm term
  if term < r.currentTerm ∨ (r.votedFor.isSome ∧ r.votedFor ≠ some candidateId) then
    (.voteResponse r.currentTerm false, r)
  else if r.logOk lastLogIndex lastLogTerm then
    (.voteResponse r.currentTerm true, { r with votedFor := some candidateId })
  else (.voteResponse r.currentTerm false, r)

/-- A granted vote is not counted: the branch of the source is empty. -/
def handleVoteResponse (r : ReplicaSet) (term : UInt64) (_voteGranted : Bool) : ReplicaSet :=
  r.observeTerm term

/-- An accepted append is not counted either. -/
def handleAppendResponse (r : ReplicaSet) (term : UInt64) (_success : Bool)
    (_matchIndex : UInt64) : ReplicaSet := r.observeTerm term

/-- The term is a machine word: it wraps at the largest one. -/
def startElection (r : ReplicaSet) : ConsensusMessage × ReplicaSet :=
  let r := { r with
    currentTerm := r.currentTerm + 1
    state := .candidate
    votedFor := some r.config.nodeId }
  (.requestVote r.currentTerm r.config.nodeId r.lastLogIndex r.lastLogTerm, r)

def becomeLeader (r : ReplicaSet) : ReplicaSet :=
  { r with
    state := .leader
    leaderId := some r.config.nodeId
    nextIndex := r.config.peers.foldl (fun m peer => m.insert peer (r.lastLogIndex + 1)) r.nextIndex
    matchIndex := r.config.peers.foldl (fun m peer => m.insert peer 0) r.matchIndex }

/-! ### Replication -/

/-- A new or current term makes a follower of its sender; only a newer one frees the vote. -/
def follow (r : ReplicaSet) (term : UInt64) (leaderId : String) : ReplicaSet :=
  { r with
    currentTerm := if r.currentTerm < term then term else r.currentTerm
    votedFor := if r.currentTerm < term then none else r.votedFor
    state := .follower
    leaderId := some leaderId }

/-- One round of the loop over the entries: an entry is pushed if its index is past the end. -/
def pushEntry (log : List LogEntry) (entry : LogEntry) : List LogEntry :=
  if log.length < entry.index.toNat then log ++ [entry] else log

/-- Append entries and move the commit index, never past the log. -/
def appendAll (r : ReplicaSet) (entries : List LogEntry) (leaderCommit : UInt64) : ReplicaSet :=
  let r := { r with log := entries.foldl pushEntry r.log }
  if r.commitIndex < leaderCommit then
    { r with commitIndex := min leaderCommit r.lastLogIndex }
  else r

def handleAppendEntries (r : ReplicaSet) (term : UInt64) (leaderId : String)
    (prevLogIndex prevLogTerm : UInt64) (entries : List LogEntry) (leaderCommit : UInt64) :
    ConsensusMessage × ReplicaSet :=
  if term < r.currentTerm then (.appendResponse r.currentTerm false 0, r)
  else
    let r := r.follow term leaderId
    let accept :=
      let r := r.appendAll entries leaderCommit
      (.appendResponse r.currentTerm true r.lastLogIndex, r)
    if 0 < prevLogIndex then
      match r.log[prevLogIndex.toNat - 1]? with
      | some entry =>
          if entry.term ≠ prevLogTerm then
            -- conflict: this entry and all that follow are removed
            let r := { r with log := r.log.take (prevLogIndex.toNat - 1) }
            (.appendResponse r.currentTerm false r.lastLogIndex, r)
          else accept
      | none => (.appendResponse r.currentTerm false r.lastLogIndex, r)
    else accept

/-- A heartbeat carries no entries and points at the end of the sender's log. -/
def createHeartbeat (r : ReplicaSet) : ConsensusMessage :=
  .appendEntries r.currentTerm r.config.nodeId r.lastLogIndex r.lastLogTerm [] r.commitIndex

def getUnappliedEntries (r : ReplicaSet) : List LogEntry :=
  (r.log.drop r.lastApplied.toNat).take (r.commitIndex - r.lastApplied).toNat

/-! ### Messages -/

/-- The responses are answered with nothing. -/
def processMessage (r : ReplicaSet) : ConsensusMessage → Option ConsensusMessage × ReplicaSet
  | .requestVote term candidateId lastLogIndex lastLogTerm =>
      (r.handleRequestVote term candidateId lastLogIndex lastLogTerm).map some id
  | .appendEntries term leaderId prevLogIndex prevLogTerm entries leaderCommit =>
      (r.handleAppendEntries term leaderId prevLogIndex prevLogTerm entries leaderCommit).map
        some id
  | .voteResponse term voteGranted => (none, r.handleVoteResponse term voteGranted)
  | .appendResponse term success matchIndex =>
      (none, r.handleAppendResponse term success matchIndex)

end ReplicaSet

end AresaDb.Distributed
