/-
# One Raft node

`RaftNode` of `chirondb-server/src/raft.rs` with its handlers.  A node keeps its term and
vote in one file and its log in another; `disk` is what the two files hold, each save
replaces one of them, and `trail` keeps what they held before each save since the event
loop took up its current input.  A crash in the middle of an input leaves one of these
contents.  What a node sends on the channels of its proposers is collected in `answers`.
-/

import ChironDB.Raft.Catalog
import Mathlib.Data.Finset.Card

namespace ChironDB.Raft

open Tables

/-- The peers stand for themselves: a message to the address of a peer reaches the member
of that id. -/
structure RaftConfig where
  nodeId : NodeId
  peers : List NodeId

structure RaftPersistentState where
  currentTerm : ℕ := 0
  votedFor : Option NodeId := none
  deriving DecidableEq, Repr

/-- What `raft_state.json` and `raft_log.json` hold, as it is read back. -/
structure Disk where
  state : RaftPersistentState := {}
  log : List RaftLogEntry := []

inductive RaftRole
  | follower (leaderId : Option NodeId)
  | candidate
  | leader
  deriving DecidableEq, Repr

structure AppendEntriesReq where
  term : ℕ
  leaderId : NodeId
  prevLogIndex : ℕ
  prevLogTerm : ℕ
  entries : List RaftLogEntry
  leaderCommit : ℕ

structure AppendEntriesResp where
  term : ℕ
  success : Bool
  conflictIndex : ℕ
  conflictTerm : ℕ
  deriving DecidableEq, Repr

structure RequestVoteReq where
  term : ℕ
  candidateId : NodeId
  lastLogIndex : ℕ
  lastLogTerm : ℕ
  deriving DecidableEq, Repr

structure RequestVoteResp where
  term : ℕ
  voteGranted : Bool
  deriving DecidableEq, Repr

/-- The channel on which a proposer waits. -/
abbrev Ticket := ℕ

structure RaftNode where
  config : RaftConfig
  state : RaftPersistentState
  log : List RaftLogEntry
  commitIndex : ℕ
  role : RaftRole
  votesReceived : Finset NodeId
  nextIndex : Table NodeId ℕ
  matchIndex : Table NodeId ℕ
  pending : Table ℕ Ticket
  disk : Disk
  trail : List Disk
  answers : List (Ticket × Except String Unit)

/-! ## Reading a log -/

/-- `RaftNode::last_log_index`. -/
def lastLogIndex (log : List RaftLogEntry) : ℕ := (log.getLast?.map (·.index)).getD 0

/-- `RaftNode::last_log_term`. -/
def lastLogTerm (log : List RaftLogEntry) : ℕ := (log.getLast?.map (·.term)).getD 0

/-- `RaftNode::log_term_at`: zero where there is no entry. -/
def logTermAt (log : List RaftLogEntry) (index : ℕ) : ℕ :=
  if index = 0 then 0 else ((log.find? fun e => e.index == index).map (·.term)).getD 0

/-- One round of the loop of `handle_append_entries`. -/
def storeEntry (log : List RaftLogEntry) (entry : RaftLogEntry) : List RaftLogEntry :=
  let kept :=
    if logTermAt log entry.index ≠ 0 ∧ logTermAt log entry.index ≠ entry.term then
      log.filter fun e => e.index < entry.index
    else log
  if logTermAt kept entry.index = 0 then kept ++ [entry] else kept

namespace RaftNode

/-- `RaftNode::new`. -/
def new (config : RaftConfig) (disk : Disk) : RaftNode where
  config := config
  state := disk.state
  log := disk.log
  commitIndex := lastLogIndex disk.log
  role := .follower none
  votesReceived := ∅
  nextIndex := ∅
  matchIndex := ∅
  pending := ∅
  disk := disk
  trail := []
  answers := []

/-- `RaftNode::save_state`. -/
def saveState (node : RaftNode) : RaftNode :=
  { node with disk := { node.disk with state := node.state }, trail := node.disk :: node.trail }

/-- `RaftNode::save_log`. -/
def saveLog (node : RaftNode) : RaftNode :=
  { node with
    disk := { node.disk with log := node.log.map RaftLogEntry.reread }
    trail := node.disk :: node.trail }

/-- `RaftNode::is_candidate_log_ok`. -/
def isCandidateLogOk (node : RaftNode) (lastIndex : ℕ) (lastTerm : ℕ) : Bool :=
  if lastTerm ≠ lastLogTerm node.log then lastTerm > lastLogTerm node.log
  else lastIndex ≥ lastLogIndex node.log

/-- `RaftNode::quorum_size`. -/
def quorumSize (node : RaftNode) : ℕ := (node.config.peers.length + 1) / 2 + 1

/-- `RaftNode::become_follower`. -/
def becomeFollower (node : RaftNode) (term : ℕ) : RaftNode :=
  { node with
    state := { currentTerm := term, votedFor := none }
    role := .follower none
    votesReceived := ∅ }.saveState

/-- The same value for every peer. -/
def forPeers (node : RaftNode) (value : ℕ) : Table NodeId ℕ :=
  node.config.peers.foldl (fun table peer => table.insert peer value) ∅

/-- The entry a leader adds to its log. -/
def nextEntry (node : RaftNode) (command : CatalogCommand) : RaftLogEntry where
  term := node.state.currentTerm
  index := lastLogIndex node.log + 1
  command := command

/-- `RaftNode::become_leader`. -/
def becomeLeader (node : RaftNode) : RaftNode :=
  { node with
    nextIndex := node.forPeers (lastLogIndex node.log + 1)
    matchIndex := node.forPeers 0
    role := .leader
    log := node.log ++ [node.nextEntry .noop] }.saveLog

/-- A majority holds the log up to `n`. -/
def acknowledged (node : RaftNode) (n : ℕ) : Bool :=
  node.quorumSize ≤ (node.matchIndex.entries.filter fun e => n ≤ e.2).length + 1

/-- The loop of `RaftNode::try_advance_commit`, from `n` down. -/
def committedFrom (node : RaftNode) : ℕ → ℕ
  | 0 => node.commitIndex
  | n + 1 =>
    if n + 1 ≤ node.commitIndex then node.commitIndex
    else if logTermAt node.log (n + 1) = node.state.currentTerm ∧ node.acknowledged (n + 1) then
      n + 1
    else node.committedFrom n

/-- `RaftNode::try_advance_commit`. -/
def tryAdvanceCommit (node : RaftNode) : RaftNode :=
  { node with commitIndex := node.committedFrom (lastLogIndex node.log) }

/-- `RaftNode::notify_committed_proposals`. -/
def notifyCommittedProposals (node : RaftNode) : RaftNode :=
  let due := node.pending.entries.filter fun e => e.1 ≤ node.commitIndex
  { node with
    pending := due.foldl (fun table e => table.erase e.1) node.pending
    answers := node.answers ++ due.map fun e => (e.2, .ok ()) }

/-! ## The handlers -/

/-- A refusal of `handle_append_entries`. -/
def refuse (node : RaftNode) (conflictIndex : ℕ) (conflictTerm : ℕ) :
    RaftNode × AppendEntriesResp :=
  (node, ⟨node.state.currentTerm, false, conflictIndex, conflictTerm⟩)

/-- The sender leads a term that is not stale. -/
def acceptLeader (node : RaftNode) (req : AppendEntriesReq) : RaftNode :=
  if req.term > node.state.currentTerm then node.becomeFollower req.term
  else { node with role := .follower (some req.leaderId) }

/-- The refusal where the log does not hold the entry before the new ones. -/
def checkPrev (node : RaftNode) (req : AppendEntriesReq) :
    Option (RaftNode × AppendEntriesResp) :=
  let ourTerm := logTermAt node.log req.prevLogIndex
  if req.prevLogIndex = 0 then none
  else if ourTerm = 0 then some (node.refuse (lastLogIndex node.log + 1) 0)
  else if ourTerm ≠ req.prevLogTerm then
    let conflictIndex :=
      ((node.log.find? fun e => e.term == ourTerm).map (·.index)).getD req.prevLogIndex
    let truncated := { node with log := node.log.filter fun e => e.index < req.prevLogIndex }
    some (truncated.saveLog.refuse conflictIndex ourTerm)
  else none

/-- The entries are stored and the commit index follows the leader's. -/
def appendEntries (node : RaftNode) (req : AppendEntriesReq) : RaftNode × AppendEntriesResp :=
  let stored := { node with log := req.entries.foldl storeEntry node.log }
  let saved := if req.entries.isEmpty then stored else stored.saveLog
  let committed :=
    if req.leaderCommit > saved.commitIndex then
      { saved with commitIndex := min req.leaderCommit (lastLogIndex saved.log) }
    else saved
  (committed, ⟨committed.state.currentTerm, true, 0, 0⟩)

/-- `RaftNode::handle_append_entries`. -/
def handleAppendEntries (node : RaftNode) (req : AppendEntriesReq) :
    RaftNode × AppendEntriesResp :=
  if req.term < node.state.currentTerm then node.refuse 0 0
  else ((node.acceptLeader req).checkPrev req).getD ((node.acceptLeader req).appendEntries req)

/-- A newer term turns the voter into a follower of it. -/
def observeTerm (node : RaftNode) (term : ℕ) : RaftNode :=
  if term > node.state.currentTerm then node.becomeFollower term else node

/-- The voter has no vote of this term for somebody else, and the candidate's log will do. -/
def grants (node : RaftNode) (req : RequestVoteReq) : Bool :=
  (node.state.votedFor = none ∨ node.state.votedFor = some req.candidateId) ∧
    node.isCandidateLogOk req.lastLogIndex req.lastLogTerm

/-- The vote is saved before it is given. -/
def castVote (node : RaftNode) (req : RequestVoteReq) : RaftNode × RequestVoteResp :=
  if node.grants req then
    ({ node with state := { node.state with votedFor := some req.candidateId } }.saveState,
      ⟨node.state.currentTerm, true⟩)
  else (node, ⟨node.state.currentTerm, false⟩)

/-- `RaftNode::handle_request_vote`. -/
def handleRequestVote (node : RaftNode) (req : RequestVoteReq) : RaftNode × RequestVoteResp :=
  if req.term < node.state.currentTerm then (node, ⟨node.state.currentTerm, false⟩)
  else (node.observeTerm req.term).castVote req

/-- `RaftNode::handle_propose`. -/
def handlePropose (node : RaftNode) (command : CatalogCommand) (ticket : Ticket) : RaftNode :=
  if node.role = .leader then
    { node with
      log := node.log ++ [node.nextEntry command]
      pending := node.pending.insert (lastLogIndex node.log + 1) ticket }.saveLog
  else { node with answers := node.answers ++ [(ticket, .error "not leader")] }

/-! ## Elections and heartbeats, between their waits -/

/-- `start_election` up to its requests. -/
def startElection (node : RaftNode) : RaftNode :=
  { node with
    state := ⟨node.state.currentTerm + 1, some node.config.nodeId⟩
    role := .candidate
    votesReceived := {node.config.nodeId} }.saveState

/-- The request of an election. -/
def voteRequest (node : RaftNode) : RequestVoteReq :=
  ⟨node.state.currentTerm, node.config.nodeId, lastLogIndex node.log, lastLogTerm node.log⟩

/-- The loop over the answers of an election; the flag says that a newer term ended it. -/
def countVotes (term : ℕ) (node : RaftNode) :
    List (NodeId × Option RequestVoteResp) → RaftNode × Bool
  | [] => (node, false)
  | (_, none) :: rest => node.countVotes term rest
  | (peer, some resp) :: rest =>
    if resp.term > node.state.currentTerm then (node.becomeFollower resp.term, true)
    else if resp.voteGranted ∧ node.state.currentTerm = term then
      { node with votesReceived := insert peer node.votesReceived }.countVotes term rest
    else node.countVotes term rest

/-- The request `send_heartbeats_to_peers` has for one peer. -/
def appendRequest (node : RaftNode) (peer : NodeId) : AppendEntriesReq :=
  let next := (node.nextIndex.lookup peer).getD 1
  { term := node.state.currentTerm
    leaderId := node.config.nodeId
    prevLogIndex := next - 1
    prevLogTerm := logTermAt node.log (next - 1)
    entries := node.log.filter fun e => next ≤ e.index
    leaderCommit := node.commitIndex }

/-- All the requests of `send_heartbeats_to_peers`. -/
def heartbeats (node : RaftNode) : List (NodeId × AppendEntriesReq) :=
  node.config.peers.map fun peer => (peer, node.appendRequest peer)

/-- What the answer of a peer says about its log. -/
def track (node : RaftNode) (peer : NodeId) (resp : AppendEntriesResp) : RaftNode :=
  if resp.success then
    { node with
      matchIndex := node.matchIndex.insert peer (lastLogIndex node.log)
      nextIndex := node.nextIndex.insert peer (lastLogIndex node.log + 1) }
  else if resp.conflictIndex > 0 then
    { node with nextIndex := node.nextIndex.insert peer resp.conflictIndex }
  else
    { node with
      nextIndex := node.nextIndex.insert peer (max ((node.nextIndex.lookup peer).getD 1 - 1) 1) }

/-- The rest of `send_heartbeats_to_peers`, once the answers are in. -/
def readAnswers (node : RaftNode) : List (NodeId × Option AppendEntriesResp) → RaftNode
  | [] => node.tryAdvanceCommit
  | (_, none) :: rest => node.readAnswers rest
  | (peer, some resp) :: rest =>
    if resp.term > node.state.currentTerm then node.becomeFollower resp.term
    else (node.track peer resp).readAnswers rest

end RaftNode
end ChironDB.Raft
