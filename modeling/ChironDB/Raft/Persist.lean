/-
# What a handler leaves on disk

One specification lemma for each handler of a node: its term grows or its vote of the term
stays (`Later`), at its end the files hold its term, its vote and its log, after each save
in between they hold a later term and vote and the log of before or after
(`Proceeds`), and a node that leads afterwards led the same term before, with the same
log, unless it proposed or won an election.
-/

import ChironDB.Raft.Node

namespace ChironDB.Raft

/-- The term grows, or it stays and so does a vote given in it. -/
def Later (old new : RaftPersistentState) : Prop :=
  old.currentTerm < new.currentTerm ∨
    old.currentTerm = new.currentTerm ∧ (old.votedFor = none ∨ new.votedFor = old.votedFor)

theorem Later.refl (st : RaftPersistentState) : Later st st := .inr ⟨rfl, .inr rfl⟩

variable {a b : RaftPersistentState}

theorem Later.trans {c : RaftPersistentState} (hab : Later a b) (hbc : Later b c) : Later a c := by
  rcases hab with hab | ⟨hab, hvote⟩
  · rcases hbc with hbc | ⟨hbc, -⟩
    · exact .inl (hab.trans hbc)
    · exact .inl (hbc ▸ hab)
  · rcases hbc with hbc | ⟨hbc, hvote'⟩
    · exact .inl (hab ▸ hbc)
    · refine .inr ⟨hab.trans hbc, ?_⟩
      rcases hvote with hnone | heq
      · exact .inl hnone
      · rw [heq] at hvote'
        exact hvote'

theorem Later.term_le (h : Later a b) : a.currentTerm ≤ b.currentTerm := by
  rcases h with h | h
  · exact h.le
  · exact h.1.le

/-- What the files of a node should hold. -/
def RaftNode.files (node : RaftNode) : Disk := ⟨node.state, node.log.map RaftLogEntry.reread⟩

/-- The node is at the start of a stretch, with its files up to date. -/
def Ready (node : RaftNode) : Prop := node.disk = node.files ∧ node.trail = []

/-- What a stretch makes of a node and of its files. -/
structure Proceeds (old new : RaftNode) : Prop where
  config_eq : new.config = old.config
  disk_eq : new.disk = new.files
  later : Later old.state new.state
  trail : ∀ disk ∈ new.trail,
    Later old.state disk.state ∧ (disk.log = old.files.log ∨ disk.log = new.files.log)

namespace Proceeds

variable {old mid new : RaftNode}

theorem refl (h : Ready old) : Proceeds old old where
  config_eq := rfl
  disk_eq := h.1
  later := .refl _
  trail := by
    intro disk hdisk
    rw [h.2] at hdisk
    cases hdisk

section

variable (h : Proceeds old mid)
include h

/-- Nothing of it is saved. -/
theorem touch (hconfig : new.config = mid.config)
    (hstate : new.state = mid.state) (hlog : new.log = mid.log) (hdisk : new.disk = mid.disk)
    (htrail : new.trail = mid.trail) : Proceeds old new where
  config_eq := hconfig.trans h.config_eq
  disk_eq := by rw [hdisk, h.disk_eq, RaftNode.files, RaftNode.files, hstate, hlog]
  later := hstate ▸ h.later
  trail := by
    rw [htrail, RaftNode.files, RaftNode.files, hlog]
    exact h.trail

/-- A later term or vote is saved. -/
theorem saveState (hconfig : new.config = mid.config)
    (hlog : new.log = mid.log) (hdisk : new.disk = ⟨new.state, mid.disk.log⟩)
    (htrail : new.trail = mid.disk :: mid.trail) (hlater : Later mid.state new.state) :
    Proceeds old new where
  config_eq := hconfig.trans h.config_eq
  disk_eq := by rw [hdisk, h.disk_eq, RaftNode.files, RaftNode.files, hlog]
  later := h.later.trans hlater
  trail := by
    rw [htrail, RaftNode.files, RaftNode.files, hlog]
    intro disk hmem
    rcases List.mem_cons.mp hmem with rfl | hmem
    · rw [h.disk_eq]
      exact ⟨h.later, .inr rfl⟩
    · exact h.trail disk hmem

/-- A new log is saved, for the first time in the stretch. -/
theorem saveLog (hold : mid.log = old.log)
    (hconfig : new.config = mid.config) (hstate : new.state = mid.state)
    (hdisk : new.disk = ⟨mid.disk.state, new.files.log⟩)
    (htrail : new.trail = mid.disk :: mid.trail) : Proceeds old new where
  config_eq := hconfig.trans h.config_eq
  disk_eq := by rw [hdisk, h.disk_eq, RaftNode.files, RaftNode.files, hstate]
  later := hstate ▸ h.later
  trail := by
    rw [htrail]
    intro disk hmem
    have hfiles : mid.files.log = old.files.log := by
      rw [RaftNode.files, RaftNode.files, hold]
    rcases List.mem_cons.mp hmem with rfl | hmem
    · rw [h.disk_eq]
      exact ⟨h.later, .inl hfiles⟩
    · obtain ⟨hlater, hlog⟩ := h.trail disk hmem
      rw [hfiles, or_self] at hlog
      exact ⟨hlater, .inl hlog⟩

theorem becomeFollower {term : ℕ} (hterm : mid.state.currentTerm < term) :
    Proceeds old (mid.becomeFollower term) :=
  h.saveState rfl rfl rfl rfl (.inl hterm)

end

end Proceeds

/-! ## Votes -/

variable {node : RaftNode}

theorem proceeds_observeTerm (h : Ready node) (term : ℕ) :
    Proceeds node (node.observeTerm term) := by
  rw [RaftNode.observeTerm]
  split
  · next hterm => exact (Proceeds.refl h).becomeFollower hterm
  · exact .refl h

variable {old : RaftNode}

/-- A granted vote is a vote nobody else had. -/
theorem proceeds_castVote (h : Proceeds old node) (req : RequestVoteReq) :
    Proceeds old (node.castVote req).1 := by
  rw [RaftNode.castVote]
  split
  · next hgrant =>
    rw [RaftNode.grants, decide_eq_true_iff] at hgrant
    refine h.saveState rfl rfl rfl rfl (.inr ⟨rfl, ?_⟩)
    rcases hgrant.1 with hnone | hsame
    · exact .inl hnone
    · exact .inr hsame.symm
  · exact h

theorem proceeds_handleRequestVote (h : Ready node) (req : RequestVoteReq) :
    Proceeds node (node.handleRequestVote req).1 := by
  rw [RaftNode.handleRequestVote]
  split
  · exact .refl h
  · exact proceeds_castVote (proceeds_observeTerm h _) req

theorem castVote_log (req : RequestVoteReq) : (node.castVote req).1.log = node.log := by
  rw [RaftNode.castVote]
  split <;> rfl

theorem observeTerm_log (term : ℕ) : (node.observeTerm term).log = node.log := by
  rw [RaftNode.observeTerm]
  split <;> rfl

theorem handleRequestVote_log (req : RequestVoteReq) :
    (node.handleRequestVote req).1.log = node.log := by
  rw [RaftNode.handleRequestVote]
  split
  · rfl
  · rw [castVote_log, observeTerm_log]

/-- **A vote is saved before it is given.** -/
theorem state_of_granted (req : RequestVoteReq)
    (hgranted : (node.handleRequestVote req).2.voteGranted = true) :
    (node.handleRequestVote req).1.state = ⟨req.term, some req.candidateId⟩ := by
  rw [RaftNode.handleRequestVote] at hgranted ⊢
  split at hgranted
  · cases hgranted
  · next hstale =>
    rw [if_neg hstale]
    rw [RaftNode.castVote] at hgranted ⊢
    split at hgranted
    · next hgrant =>
      rw [if_pos hgrant]
      have hterm : (node.observeTerm req.term).state.currentTerm = req.term := by
        rw [RaftNode.observeTerm]
        split
        · rfl
        · next hnewer => exact Nat.le_antisymm (Nat.not_lt.mp hstale) (Nat.not_lt.mp hnewer)
      change RaftPersistentState.mk (node.observeTerm req.term).state.currentTerm _ = _
      rw [hterm]
    · cases hgranted

theorem leader_of_handleRequestVote (req : RequestVoteReq)
    (hleader : (node.handleRequestVote req).1.role = .leader) :
    node.role = .leader ∧
      (node.handleRequestVote req).1.state.currentTerm = node.state.currentTerm := by
  have hcast : ∀ n : RaftNode, (n.castVote req).1.role = n.role ∧
      (n.castVote req).1.state.currentTerm = n.state.currentTerm := by
    intro n
    rw [RaftNode.castVote]
    split <;> exact ⟨rfl, rfl⟩
  rw [RaftNode.handleRequestVote] at hleader ⊢
  split at hleader
  · next hstale =>
    rw [if_pos hstale]
    exact ⟨hleader, rfl⟩
  · next hstale =>
    rw [if_neg hstale, (hcast _).2]
    rw [(hcast _).1, RaftNode.observeTerm] at hleader
    rw [RaftNode.observeTerm]
    split at hleader
    · cases hleader
    · next hnewer =>
      rw [if_neg hnewer]
      exact ⟨hleader, rfl⟩

/-! ## Elections -/

theorem proceeds_startElection (h : Ready node) : Proceeds node node.startElection :=
  (Proceeds.refl h).saveState rfl rfl rfl rfl (.inl (Nat.lt_succ_self _))

/-- What the count of the votes makes of a node. -/
structure Counted (node : RaftNode) (results : List (NodeId × Option RequestVoteResp))
    (counted : RaftNode × Bool) : Prop where
  log_eq : counted.1.log = node.log
  beaten : counted.2 = true → counted.1.role = .follower none
  state_eq : counted.2 = false → counted.1.state = node.state
  role_eq : counted.2 = false → counted.1.role = node.role
  votes : counted.2 = false → ∀ v ∈ counted.1.votesReceived,
    v ∈ node.votesReceived ∨ ∃ resp, (v, some resp) ∈ results ∧ resp.voteGranted = true

theorem Counted.cons {results : List (NodeId × Option RequestVoteResp)}
    {counted : RaftNode × Bool} (h : Counted node results counted)
    (result : NodeId × Option RequestVoteResp) : Counted node (result :: results) counted :=
  { h with
    votes := fun hf v hv => (h.votes hf v hv).imp_right fun ⟨resp, hmem, hgranted⟩ =>
      ⟨resp, List.mem_cons_of_mem _ hmem, hgranted⟩ }

theorem counted_countVotes (term : ℕ) (results : List (NodeId × Option RequestVoteResp))
    (node : RaftNode) : Counted node results (node.countVotes term results) := by
  induction results generalizing node with
  | nil => exact ⟨rfl, (by intro h; cases h), fun _ => rfl, fun _ => rfl, fun _ v hv => .inl hv⟩
  | cons result rest ih =>
    obtain ⟨peer, answer⟩ := result
    cases answer with
    | none => exact (ih node).cons _
    | some resp =>
      rw [RaftNode.countVotes]
      split
      · exact ⟨rfl, fun _ => rfl, (by intro h; cases h), (by intro h; cases h),
          (by intro h; cases h)⟩
      · split
        · next hgranted =>
          have hih := ih { node with votesReceived := insert peer node.votesReceived }
          refine ⟨hih.log_eq, hih.beaten, hih.state_eq, hih.role_eq, fun hf v hv => ?_⟩
          rcases (hih.cons (peer, some resp)).votes hf v hv with hv | hv
          · rcases Finset.mem_insert.mp hv with rfl | hv
            · exact .inr ⟨resp, List.mem_cons_self, hgranted.1⟩
            · exact .inl hv
          · exact .inr hv
        · exact (ih node).cons _

theorem proceeds_countVotes (term : ℕ) (results : List (NodeId × Option RequestVoteResp))
    (h : Proceeds old node) : Proceeds old (node.countVotes term results).1 := by
  induction results generalizing node with
  | nil => exact h
  | cons result rest ih =>
    obtain ⟨peer, answer⟩ := result
    cases answer with
    | none => exact ih h
    | some resp =>
      rw [RaftNode.countVotes]
      split
      · next hterm => exact h.becomeFollower hterm
      · split
        · exact ih (h.touch rfl rfl rfl rfl rfl)
        · exact ih h

theorem proceeds_becomeLeader (h : Proceeds old node) (hlog : node.log = old.log) :
    Proceeds old node.becomeLeader :=
  h.saveLog hlog rfl rfl rfl rfl

/-! ## Entries -/

theorem proceeds_acceptLeader (h : Ready node) (req : AppendEntriesReq) :
    Proceeds node (node.acceptLeader req) := by
  rw [RaftNode.acceptLeader]
  split
  · next hterm => exact (Proceeds.refl h).becomeFollower hterm
  · exact (Proceeds.refl h).touch rfl rfl rfl rfl rfl

theorem acceptLeader_log (req : AppendEntriesReq) : (node.acceptLeader req).log = node.log := by
  rw [RaftNode.acceptLeader]
  split <;> rfl

theorem acceptLeader_role (req : AppendEntriesReq) :
    (node.acceptLeader req).role ≠ .leader := by
  rw [RaftNode.acceptLeader]
  split
  · change RaftRole.follower none ≠ .leader
    decide
  · rintro ⟨⟩

/-- How the entries of a request change a log: not at all, by a cut, or by the entries,
which follow an entry that the log holds. -/
def Appended (log : List RaftLogEntry) (req : AppendEntriesReq) (log' : List RaftLogEntry) :
    Prop :=
  log' = log ∨ (∃ index, log' = log.filter fun e => e.index < index) ∨ ((req.prevLogIndex = 0 ∨
      logTermAt log req.prevLogIndex ≠ 0 ∧ logTermAt log req.prevLogIndex = req.prevLogTerm) ∧
      log' = req.entries.foldl storeEntry log)

theorem checkPrev_spec (h : Proceeds old node) (hlog : node.log = old.log) (req : AppendEntriesReq)
    {refused : RaftNode × AppendEntriesResp} (hrefused : node.checkPrev req = some refused) :
    Proceeds old refused.1 ∧ refused.1.role = node.role ∧ Appended old.log req refused.1.log := by
  rw [RaftNode.checkPrev] at hrefused
  split at hrefused
  · cases hrefused
  · split at hrefused
    · cases hrefused
      exact ⟨h, rfl, .inl hlog⟩
    · split at hrefused
      · cases hrefused
        refine ⟨h.saveLog hlog rfl rfl rfl rfl, rfl, .inr (.inl ⟨req.prevLogIndex, ?_⟩)⟩
        rw [← hlog]
        rfl
      · cases hrefused

/-- A request that is not refused follows an entry that the log holds. -/
theorem checkPrev_eq_none {req : AppendEntriesReq} (h : node.checkPrev req = none) :
    req.prevLogIndex = 0 ∨ logTermAt node.log req.prevLogIndex ≠ 0 ∧
      logTermAt node.log req.prevLogIndex = req.prevLogTerm := by
  rw [RaftNode.checkPrev] at h
  split at h
  · next hzero => exact .inl hzero
  · split at h
    · cases h
    · next hsome =>
      split at h
      · cases h
      · next hsame => exact .inr ⟨hsome, not_not.mp hsame⟩

theorem appendEntries_spec (h : Proceeds old node) (hlog : node.log = old.log)
    (req : AppendEntriesReq) :
    Proceeds old (node.appendEntries req).1 ∧ (node.appendEntries req).1.role = node.role ∧
      (node.appendEntries req).1.log = req.entries.foldl storeEntry old.log := by
  -- the commit index is not saved
  have hcommit : ∀ saved : RaftNode, Proceeds old saved →
      ∃ out, out = (if req.leaderCommit > saved.commitIndex then
        { saved with commitIndex := min req.leaderCommit (lastLogIndex saved.log) }
        else saved) ∧ Proceeds old out ∧ out.role = saved.role ∧ out.log = saved.log := by
    intro saved hsaved
    refine ⟨_, rfl, ?_⟩
    split
    · exact ⟨hsaved.touch rfl rfl rfl rfl rfl, rfl, rfl⟩
    · exact ⟨hsaved, rfl, rfl⟩
  rw [RaftNode.appendEntries]
  cases hentries : req.entries with
  | nil =>
    obtain ⟨_, rfl, hproceeds, hrole, hlog'⟩ := hcommit { node with log := node.log }
      (h.touch rfl rfl rfl rfl rfl)
    exact ⟨hproceeds, hrole, hlog'.trans hlog⟩
  | cons entry rest =>
    obtain ⟨_, rfl, hproceeds, hrole, hlog'⟩ := hcommit
      { node with log := (entry :: rest).foldl storeEntry node.log }.saveLog
      (h.saveLog hlog rfl rfl rfl rfl)
    refine ⟨hproceeds, hrole, hlog'.trans ?_⟩
    rw [← hlog]
    rfl

theorem handleAppendEntries_spec (h : Ready node) (req : AppendEntriesReq) :
    Proceeds node (node.handleAppendEntries req).1 ∧
      ((node.handleAppendEntries req).1.role = .leader → (node.handleAppendEntries req).1 = node) ∧
      Appended node.log req (node.handleAppendEntries req).1.log := by
  rw [RaftNode.handleAppendEntries]
  split
  · exact ⟨.refl h, fun _ => rfl, .inl rfl⟩
  · have haccept := proceeds_acceptLeader h req
    have hlog : (node.acceptLeader req).log = node.log := acceptLeader_log req
    cases hcheck : (node.acceptLeader req).checkPrev req with
    | some refused =>
      obtain ⟨hproceeds, hrole, happended⟩ := checkPrev_spec haccept hlog req hcheck
      exact ⟨hproceeds, fun hl => absurd (hrole.symm.trans hl) (acceptLeader_role req), happended⟩
    | none =>
      obtain ⟨hproceeds, hrole, hlog'⟩ := appendEntries_spec haccept hlog req
      have hprev := checkPrev_eq_none hcheck
      rw [hlog] at hprev
      exact ⟨hproceeds, fun hl => absurd (hrole.symm.trans hl) (acceptLeader_role req),
        .inr (.inr ⟨hprev, hlog'⟩)⟩

/-! ## Proposals and heartbeats -/

theorem proceeds_handlePropose (h : Ready node) (command : CatalogCommand) (ticket : Ticket) :
    Proceeds node (node.handlePropose command ticket) := by
  rw [RaftNode.handlePropose]
  split
  · exact (Proceeds.refl h).saveLog rfl rfl rfl rfl rfl
  · exact (Proceeds.refl h).touch rfl rfl rfl rfl rfl

/-- Only a leader adds an entry, and it stays one. -/
theorem handlePropose_cases (command : CatalogCommand) (ticket : Ticket) :
    (node.handlePropose command ticket).role = node.role ∧
    (node.handlePropose command ticket).state = node.state ∧
    ((node.handlePropose command ticket).log = node.log ∧ node.role ≠ .leader ∨
      (node.handlePropose command ticket).log = node.log ++ [node.nextEntry command] ∧
        node.role = .leader) := by
  rw [RaftNode.handlePropose]
  split
  · next hleader => exact ⟨rfl, rfl, .inr ⟨rfl, hleader⟩⟩
  · next hleader => exact ⟨rfl, rfl, .inl ⟨rfl, hleader⟩⟩

/-- What the answers to a round of heartbeats make of a node. -/
structure Answered (node new : RaftNode) : Prop where
  log_eq : new.log = node.log
  leader : new.role = .leader → node.role = .leader ∧ new.state = node.state

theorem track_eq (peer : NodeId) (resp : AppendEntriesResp) :
    ∃ next sent, node.track peer resp = { node with nextIndex := next, matchIndex := sent } := by
  rw [RaftNode.track]
  split
  · exact ⟨_, _, rfl⟩
  · split <;> exact ⟨_, _, rfl⟩

theorem readAnswers_spec (results : List (NodeId × Option AppendEntriesResp))
    (h : Proceeds old node) :
    Proceeds old (node.readAnswers results) ∧ Answered node (node.readAnswers results) := by
  induction results generalizing node with
  | nil => exact ⟨h.touch rfl rfl rfl rfl rfl, rfl, fun hl => ⟨hl, rfl⟩⟩
  | cons result rest ih =>
    obtain ⟨peer, answer⟩ := result
    cases answer with
    | none => exact ih h
    | some resp =>
      rw [RaftNode.readAnswers]
      split
      · next hterm =>
        refine ⟨h.becomeFollower hterm, rfl, fun hl => ?_⟩
        cases hl
      · obtain ⟨next, sent, heq⟩ := track_eq peer resp
        rw [heq]
        have htrack : Proceeds old { node with nextIndex := next, matchIndex := sent } :=
          h.touch rfl rfl rfl rfl rfl
        obtain ⟨hproceeds, hanswered⟩ := ih htrack
        exact ⟨hproceeds, hanswered.log_eq, hanswered.leader⟩

end ChironDB.Raft
