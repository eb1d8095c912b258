/-
# Election safety

A vote is saved before it is given, so a ballot on the network is backed by the files of
the voter: its term has passed the ballot's, or it is the ballot's and the recorded vote
is the ballot's too (`Backed`).  A saved vote of a term never changes (`Later`), hence a
voter has one ballot per term.  A candidate's own ballot is the request it sends.  Whoever
leads a term has the ballots of a majority (`Won`), and two majorities share a voter.

`Local` is what holds of one running process, `stretch_local` that every stretch of the
event loop keeps it, and `Elections` what holds of the cluster along a run.
-/

import ChironDB.Consensus.Agreement
import ChironDB.Raft.Cluster
import ChironDB.Raft.Persist

namespace ChironDB.Raft

open List

/-- `v` has answered that its vote of term `t` is `c`'s. -/
def Granted (network : List Message) (v : NodeId) (t : ℕ) (c : NodeId) : Prop :=
  ∃ call resp, Message.voteReply call resp ∈ network ∧ resp.voteGranted = true ∧
    call.dst = v ∧ call.req.term = t ∧ call.req.candidateId = c

/-- `c` has asked for votes of term `t`. -/
def Campaigned (network : List Message) (c : NodeId) (t : ℕ) : Prop :=
  ∃ call, Message.voteRequest call ∈ network ∧ call.src = c ∧ call.req.term = t

/-- The network shows that `v` voted for `c` in term `t`. -/
def Ballot (network : List Message) (v : NodeId) (t : ℕ) (c : NodeId) : Prop :=
  Granted network v t c ∨ c = v ∧ Campaigned network v t

/-- A majority voted for `c` in term `t`. -/
def Won (m : Membership) (network : List Message) (c : NodeId) (t : ℕ) : Prop :=
  ∃ voters ⊆ m.members, m.members.card / 2 + 1 ≤ voters.card ∧
    ∀ v ∈ voters, v = c ∨ Granted network v t c

/-- The saved vote stands behind a ballot of term `t` for `c`. -/
def Backed (st : RaftPersistentState) (t : ℕ) (c : NodeId) : Prop :=
  t < st.currentTerm ∨ t = st.currentTerm ∧ st.votedFor = some c

variable {c : NodeId} {t : ℕ} {m : Membership}

theorem Backed.later {st st' : RaftPersistentState} (h : Backed st t c) (hlater : Later st st') :
    Backed st' t c := by
  rcases h with h | ⟨h, hvote⟩
  · exact .inl (lt_of_lt_of_le h hlater.term_le)
  · rcases hlater with hterm | ⟨hterm, hnone | hsame⟩
    · exact .inl (h ▸ hterm)
    · rw [hvote] at hnone
      cases hnone
    · exact .inr ⟨h.trans hterm, hsame.trans hvote⟩

section Networks

variable {network network' : List Message} {v c : NodeId}

theorem Granted.mono (h : Granted network v t c) (hsub : network ⊆ network') :
    Granted network' v t c := by
  obtain ⟨call, resp, hmem, hrest⟩ := h
  exact ⟨call, resp, hsub hmem, hrest⟩

theorem Won.mono (h : Won m network c t) (hsub : network ⊆ network') : Won m network' c t := by
  obtain ⟨voters, hvoters, hcard, hgranted⟩ := h
  exact ⟨voters, hvoters, hcard, fun v hv => (hgranted v hv).imp_right fun hg => hg.mono hsub⟩

end Networks

variable {i : NodeId} {p p' : Process}

theorem Membership.length_peers (m : Membership) (hi : i ∈ m.members) :
    (m.config i).peers.length + 1 = m.members.card := by
  have herase : (m.config i).peers.toFinset = m.members.erase i := by
    ext j
    rw [mem_toFinset, m.mem_peers i hi, Finset.mem_erase, and_comm]
  rw [← Finset.card_erase_add_one hi, ← herase, toFinset_card_of_nodup (m.nodup_peers i hi)]

/-! ## One process -/

/-- An election under way: the candidate has voted for itself, and the votes it was given
are on the network. -/
structure Electing (m : Membership) (network : List Message) (i : NodeId) (node : RaftNode)
    (todo : List NodeId) (waiting : Option (Call RequestVoteReq))
    (results : List (NodeId × Option RequestVoteResp)) : Prop where
  voted : node.state.votedFor = some i
  votes : node.votesReceived = {i}
  todo_mem : ∀ v ∈ todo, v ∈ m.members
  waiting_eq : ∀ call, waiting = some call →
    call.req = node.voteRequest ∧ todo.head? = some call.dst
  granted : ∀ v resp, (v, some resp) ∈ results → resp.voteGranted = true →
    v ∈ m.members ∧ Granted network v node.state.currentTerm i

/-- What holds of a running process. -/
structure Local (m : Membership) (network : List Message) (i : NodeId) (p : Process) : Prop where
  config_eq : p.node.config = m.config i
  disk_eq : p.node.disk = p.node.files
  electing : ∀ todo waiting results, p.phase = .electing todo waiting results →
    Electing m network i p.node todo waiting results
  leader : p.node.role = .leader → Won m network i p.node.state.currentTerm

/-- What a process may send: a request for votes of its own, or an answer to a request that
names its saved vote. -/
def Honest (network : List Message) (i : NodeId) (p : Process) : Message → Prop
  | .voteRequest call =>
    call.src = i ∧ call.req.candidateId = i ∧ p.node.state = ⟨call.req.term, some i⟩
  | .voteReply call resp =>
    .voteRequest call ∈ network ∧ call.dst = i ∧ (resp.voteGranted = true →
      p.node.state = ⟨call.req.term, some call.req.candidateId⟩)
  | _ => True

section Stretches

variable {network network' sent : List Message} {id : ℕ} {input : Input}

section

variable (h : Local m network i p)
include h

theorem Local.mono (hsub : network ⊆ network') :
    Local m network' i p where
  config_eq := h.config_eq
  disk_eq := h.disk_eq
  electing := by
    intro todo waiting results hphase
    have he := h.electing todo waiting results hphase
    exact { he with
      granted := fun v resp hmem hgranted =>
        (he.granted v resp hmem hgranted).imp_right fun hg => hg.mono hsub }
  leader := fun hleader => (h.leader hleader).mono hsub

theorem Local.fresh : Local m network i p.fresh :=
  ⟨h.config_eq, h.disk_eq, fun todo waiting results hphase =>
    have he := h.electing todo waiting results hphase
    ⟨he.voted, he.votes, he.todo_mem, he.waiting_eq, he.granted⟩, h.leader⟩

theorem Local.disk_state : p.node.disk.state = p.node.state := by
  rw [h.disk_eq]
  rfl

theorem Local.ready_fresh : Ready p.fresh.node := ⟨h.disk_eq, rfl⟩

/-- A process that is not in an election and leads only if it led the same term. -/
theorem Local.of_proceeds (hproceeds : Proceeds p.node p'.node)
    (hphase : ∀ todo waiting results, p'.phase ≠ .electing todo waiting results)
    (hleader : p'.node.role = .leader →
      p.node.role = .leader ∧ p'.node.state.currentTerm = p.node.state.currentTerm) :
    Local m network i p' ∧ Proceeds p.node p'.node := by
  refine ⟨⟨hproceeds.config_eq.trans h.config_eq, hproceeds.disk_eq,
    fun todo waiting results heq => absurd heq (hphase todo waiting results), fun hl => ?_⟩,
    hproceeds⟩
  obtain ⟨hold, hterm⟩ := hleader hl
  rw [hterm]
  exact h.leader hold

end

variable {waiting : Option (Call RequestVoteReq)} {results : List (NodeId × Option RequestVoteResp)}

variable {todo : List NodeId}

theorem Local.enter_electing (h : Local m network i p)
    (he : Electing m network i p.node todo waiting results) :
    Local m network i (p.enter (.electing todo waiting results)) where
  config_eq := h.config_eq
  disk_eq := h.disk_eq
  electing := by
    intro todo' waiting' results' heq
    cases heq
    exact he
  leader := h.leader

theorem Local.enter (h : Local m network i p) (phase : Phase)
    (hphase : ∀ todo waiting results, phase ≠ .electing todo waiting results) :
    Local m network i (p.enter phase) :=
  ⟨h.config_eq, h.disk_eq, fun todo waiting results heq => absurd heq (hphase todo waiting results),
    h.leader⟩

variable {peer : NodeId} {node : RaftNode}

section

variable (h : Electing m network i node (peer :: todo) waiting results)
include h

theorem Electing.ask (id : ℕ) (src : NodeId) :
    Electing m network i node (peer :: todo) (some ⟨id, src, peer, node.voteRequest⟩) results :=
  { h with
    waiting_eq := by
      intro call hcall
      cases hcall
      exact ⟨rfl, rfl⟩ }

theorem Electing.next (answer : Option RequestVoteResp)
    (hanswer : ∀ resp, answer = some resp → resp.voteGranted = true →
      Granted network peer node.state.currentTerm i) :
    Electing m network i node todo none (results ++ [(peer, answer)]) where
  voted := h.voted
  votes := h.votes
  todo_mem := fun v hv => h.todo_mem v (mem_cons_of_mem _ hv)
  waiting_eq := by
    rintro _ ⟨⟩
  granted := by
    intro v resp hmem hgranted
    rcases mem_append.mp hmem with hmem | hmem
    · exact h.granted v resp hmem hgranted
    · cases mem_singleton.mp hmem
      exact ⟨h.todo_mem peer mem_cons_self, hanswer resp rfl hgranted⟩

end

theorem proceeds_applyCommitted {old : RaftNode} (h : Proceeds old p.node) :
    Proceeds old p.applyCommitted.node := h.touch rfl rfl rfl rfl rfl

section

variable (h : Local m network i p) (hready : Ready p.node)
include h hready

/-- The winner of an election has the votes of a majority. -/
theorem Local.finishElection (hi : i ∈ m.members)
    (hphase : p.phase = .electing [] waiting results) :
    Local m network i (p.finishElection results) ∧
      Proceeds p.node (p.finishElection results).node := by
  have he := h.electing [] waiting results hphase
  have hcounted := counted_countVotes p.node.state.currentTerm results p.node
  have hproceeds := proceeds_countVotes p.node.state.currentTerm results (Proceeds.refl hready)
  rw [Process.finishElection]
  split
  · next hbeaten =>
    refine h.of_proceeds hproceeds (fun _ _ _ heq => by cases heq) fun hl => ?_
    exact absurd (hl.symm.trans (hcounted.beaten hbeaten)) (by decide)
  · next hbeaten =>
    have hbeaten := Bool.eq_false_iff.mpr hbeaten
    split
    · next hquorum =>
      have hleads := proceeds_becomeLeader hproceeds hcounted.log_eq
      refine ⟨⟨hleads.config_eq.trans h.config_eq, hleads.disk_eq,
        (fun _ _ _ heq => by cases heq), fun _ => ?_⟩, hleads⟩
      refine ⟨(p.node.countVotes p.node.state.currentTerm results).1.votesReceived, ?_, ?_, ?_⟩
      · intro v hv
        rcases hcounted.votes hbeaten v hv with hself | ⟨resp, hmem, hgranted⟩
        · rw [he.votes, Finset.mem_singleton] at hself
          exact hself ▸ hi
        · exact (he.granted v resp hmem hgranted).1
      · rw [RaftNode.quorumSize, hproceeds.config_eq, h.config_eq, m.length_peers hi] at hquorum
        exact hquorum
      · intro v hv
        have hstate : (p.node.countVotes p.node.state.currentTerm results).1.becomeLeader.state
            = p.node.state := hcounted.state_eq hbeaten
        rcases hcounted.votes hbeaten v hv with hself | ⟨resp, hmem, hgranted⟩
        · rw [he.votes, Finset.mem_singleton] at hself
          exact .inl hself
        · right
          change Granted network v (RaftNode.becomeLeader _).state.currentTerm i
          rw [hstate]
          exact (he.granted v resp hmem hgranted).2
    · exact h.of_proceeds hproceeds (fun _ _ _ heq => by cases heq) fun hl =>
        ⟨(hcounted.role_eq hbeaten).symm.trans hl, by rw [hcounted.state_eq hbeaten]⟩

/-- A round of heartbeats leaves a leader as it was, or makes a follower. -/
theorem Local.finishHeartbeats
    (results : List (NodeId × Option AppendEntriesResp)) (settles : Bool) :
    Local m network i (p.finishHeartbeats results settles) ∧
      Proceeds p.node (p.finishHeartbeats results settles).node := by
  obtain ⟨hproceeds, hanswered⟩ := readAnswers_spec results (Proceeds.refl hready)
  have hleader : (p.node.readAnswers results).role = .leader → p.node.role = .leader ∧
      (p.node.readAnswers results).state.currentTerm = p.node.state.currentTerm := by
    intro hl
    obtain ⟨hold, hstate⟩ := hanswered.leader hl
    exact ⟨hold, by rw [hstate]⟩
  rw [Process.finishHeartbeats]
  split
  · exact h.of_proceeds (hproceeds.touch rfl rfl rfl rfl rfl) (fun _ _ _ heq => by cases heq)
      hleader
  · exact h.of_proceeds hproceeds (fun _ _ _ heq => by cases heq) hleader

theorem Local.propose (hidle : p.phase = .idle) (command : CatalogCommand) (ticket : Ticket) :
    Local m network i (p.propose command ticket) ∧
      Proceeds p.node (p.propose command ticket).node := by
  obtain ⟨hrole, hstate, -⟩ := @handlePropose_cases p.node command ticket
  have hproceeds := proceeds_handlePropose hready command ticket
  have hleader : (p.node.handlePropose command ticket).role = .leader → p.node.role = .leader ∧
      (p.node.handlePropose command ticket).state.currentTerm = p.node.state.currentTerm :=
    fun hl => ⟨hrole.symm.trans hl, by rw [hstate]⟩
  rw [Process.propose]
  split
  · exact h.of_proceeds hproceeds (fun _ _ _ heq => by cases heq) hleader
  · refine h.of_proceeds hproceeds (fun _ _ _ heq => ?_) hleader
    exact absurd (hidle.symm.trans heq) (by simp)

theorem Local.startElection (hi : i ∈ m.members) :
    Local m network i p.startElection ∧ Proceeds p.node p.startElection.node := by
  have hproceeds := proceeds_startElection hready
  have hid : p.node.config.nodeId = i := by rw [h.config_eq, m.nodeId_eq i hi]
  refine ⟨⟨h.config_eq, hproceeds.disk_eq, ?_, fun hl => by cases hl⟩, hproceeds⟩
  intro todo waiting results heq
  cases heq
  refine ⟨?_, ?_, ?_, ?_, ?_⟩
  · exact congrArg some hid
  · change {p.node.config.nodeId} = ({i} : Finset NodeId)
    rw [hid]
  · intro v hv
    rw [h.config_eq] at hv
    exact ((m.mem_peers i hi v).mp hv).1
  · rintro _ ⟨⟩
  · rintro _ _ ⟨⟩

/-- **Every stretch of the event loop keeps what holds of a process**, and what it sends is
backed by its files. -/
theorem stretch_local (hi : i ∈ m.members) (hstretch : Stretch i network id p input p' sent) :
    Local m network i p' ∧ Proceeds p.node p'.node ∧
      ∀ message ∈ sent, Honest network i p' message := by
  have hid : p.node.config.nodeId = i := by rw [h.config_eq, m.nodeId_eq i hi]
  have hidle : ∀ {q : Process}, q.phase = .idle →
      ∀ todo waiting results, q.phase ≠ .electing todo waiting results := by
    intro q hq todo waiting results heq
    exact absurd (hq.symm.trans heq) (by simp)
  cases hstretch with
  | @vote _ call hphase hmem hdst =>
    exact and_assoc.mp ⟨h.of_proceeds (proceeds_handleRequestVote hready call.req) (hidle hphase)
      (leader_of_handleRequestVote call.req),
      forall_mem_singleton.mpr ⟨hmem, hdst, state_of_granted call.req⟩⟩
  | @append _ call hphase hmem hdst =>
    obtain ⟨hproceeds, hleader, -⟩ := handleAppendEntries_spec hready call.req.received
    refine and_assoc.mp ⟨h.of_proceeds (proceeds_applyCommitted hproceeds) (hidle hphase)
      fun hl => ?_, forall_mem_singleton.mpr trivial⟩
    have heq := hleader hl
    exact ⟨heq ▸ hl, congrArg (·.state.currentTerm) heq⟩
  | propose hphase => exact and_assoc.mp ⟨h.propose hready hphase _ _, forall_mem_nil _⟩
  | electionTimeout hphase => exact and_assoc.mp ⟨h.startElection hready hi, forall_mem_nil _⟩
  | applyCommitted hphase =>
    exact and_assoc.mp ⟨h.of_proceeds (proceeds_applyCommitted (.refl hready)) (hidle hphase)
      fun hl => ⟨hl, rfl⟩, forall_mem_nil _⟩
  | @askVote peer todo results hphase =>
    have he := h.electing _ _ _ hphase
    refine ⟨h.enter_electing (he.ask id p.node.config.nodeId), .refl hready,
      forall_mem_singleton.mpr ⟨hid, hid, ?_⟩⟩
    change p.node.state = ⟨p.node.state.currentTerm, some i⟩
    rw [← he.voted]
  | askAppend hphase =>
    exact ⟨h.enter _ (by rintro _ _ _ ⟨⟩), .refl hready, forall_mem_singleton.mpr trivial⟩
  | loseVote hphase =>
    have he := h.electing _ _ _ hphase
    have hlocal := h.enter_electing (he.next none fun resp heq => by cases heq)
    exact ⟨hlocal, .refl hready, forall_mem_nil _⟩
  | @takeVote _ peer todo call results resp hphase hmem =>
    have he := h.electing _ _ _ hphase
    obtain ⟨hreq, hdst⟩ := he.waiting_eq call rfl
    have hnext := he.next (some resp) (fun resp' heq hgranted => by
      cases heq
      refine ⟨call, resp, hmem, hgranted, (Option.some.inj hdst).symm, ?_, ?_⟩
      · rw [hreq]
        rfl
      · rw [hreq]
        exact hid)
    exact ⟨h.enter_electing hnext, .refl hready, forall_mem_nil _⟩
  | heartbeatTick hphase | endAppend hphase =>
    exact ⟨h.enter _ (by rintro _ _ _ ⟨⟩), .refl hready, forall_mem_nil _⟩
  | finishElection hphase =>
    exact and_assoc.mp ⟨h.finishElection hready hi hphase, forall_mem_nil _⟩
  | finishHeartbeats hphase =>
    exact and_assoc.mp ⟨h.finishHeartbeats hready _ _, forall_mem_nil _⟩

end

end Stretches
/-! ## The cluster -/

/-- What holds of the cluster along a run. -/
structure Elections (m : Membership) (s : Cluster) : Prop where
  up : ∀ i p, s.servers i = .up p → i ∈ m.members ∧ Local m s.network i p
  reread : ∀ i, (s.servers i).disk.log.map RaftLogEntry.reread = (s.servers i).disk.log
  asked : ∀ call resp, .voteReply call resp ∈ s.network → .voteRequest call ∈ s.network
  candidate : ∀ call, .voteRequest call ∈ s.network → call.req.candidateId = call.src
  backed : ∀ v t c, Ballot s.network v t c → Backed (s.servers v).disk.state t c
  unique : ∀ v t c c', Ballot s.network v t c → Ballot s.network v t c' → c = c'

theorem elections_initial (m : Membership) : Elections m .initial where
  up := by
    rintro _ _ ⟨⟩
  reread := fun _ => rfl
  asked := by
    rintro _ _ ⟨⟩
  candidate := by
    rintro _ ⟨⟩
  backed := by
    rintro v t c (⟨call, resp, h, -⟩ | ⟨-, call, h, -⟩) <;> cases h
  unique := by
    rintro v t c c' (⟨call, resp, h, -⟩ | ⟨-, call, h, -⟩) <;> cases h

variable {action : Action} {s s' : Cluster}

section Steps

variable {sent : List Message}

/-- A server changes with a later vote in its files, and nothing is sent. -/
theorem Elections.set (h : Elections m s) (i : NodeId) {server : Server}
    (hup : ∀ p, server = .up p → i ∈ m.members ∧ Local m s.network i p)
    (hreread : server.disk.log.map RaftLogEntry.reread = server.disk.log)
    (hlater : Later (s.servers i).disk.state server.disk.state) : Elections m (s.set i server) where
  up := by
    intro j q hq
    rw [Cluster.set_servers] at hq
    split at hq
    · next heq =>
      rw [heq]
      exact hup q hq
    · exact h.up j q hq
  reread := by
    intro j
    rw [Cluster.set_servers]
    split
    · exact hreread
    · exact h.reread j
  asked := h.asked
  candidate := h.candidate
  backed := by
    intro v t c hballot
    have hold := h.backed v t c hballot
    rw [Cluster.set_servers]
    split
    · next heq =>
      rw [heq] at hold
      exact hold.later hlater
    · exact hold
  unique := h.unique

/-- A ballot is an old one, or one that the sender has just saved. -/
theorem ballot_append (hhonest : ∀ message ∈ sent, Honest s.network i p' message) {v : NodeId}
    (h : Ballot (s.network ++ sent) v t c) :
    Ballot s.network v t c ∨ v = i ∧ p'.node.state = ⟨t, some c⟩ := by
  rcases h with ⟨call, resp, hmem, hgranted, hdst, hterm, hcand⟩ | ⟨hself, call, hmem, hsrc, hterm⟩
  · rcases mem_append.mp hmem with hmem | hmem
    · exact .inl (.inl ⟨call, resp, hmem, hgranted, hdst, hterm, hcand⟩)
    · obtain ⟨-, hi, hstate⟩ := hhonest _ hmem
      rw [← hterm, ← hcand]
      exact .inr ⟨hdst.symm.trans hi, hstate hgranted⟩
  · rcases mem_append.mp hmem with hmem | hmem
    · exact .inl (.inr ⟨hself, call, hmem, hsrc, hterm⟩)
    · obtain ⟨hi, -, hstate⟩ := hhonest _ hmem
      have hv : v = i := hsrc.symm.trans hi
      rw [← hterm, hself, hv]
      exact .inr ⟨rfl, hstate⟩

theorem Elections.commit (h : Elections m s) (hi : i ∈ m.members) (hup : s.servers i = .up p)
    (hlocal : Local m s.network i p') (hlater : Later p.node.disk.state p'.node.disk.state)
    (hhonest : ∀ message ∈ sent, Honest s.network i p' message) :
    Elections m (s.commit i p' sent) := by
  have hsub : s.network ⊆ s.network ++ sent := subset_append_left _ _
  have hset : Elections m (s.set i (.up p')) := by
    refine h.set i (fun q hq => ?_) ?_ ?_
    · cases hq
      exact ⟨hi, hlocal⟩
    · change p'.node.disk.log.map RaftLogEntry.reread = p'.node.disk.log
      rw [hlocal.disk_eq]
      exact map_reread_reread p'.node.log
    · rw [hup]
      exact hlater
  have hdisk : ((s.commit i p' sent).servers i).disk.state = p'.node.state := by
    rw [Cluster.commit_servers, if_pos rfl]
    exact hlocal.disk_state
  -- an old ballot of the sender is for whom its files name
  have hsaved : ∀ t c c', Ballot s.network i t c → p'.node.state = ⟨t, some c'⟩ → c = c' := by
    intro t c c' hballot heq
    have hold : Backed ((s.commit i p' sent).servers i).disk.state t c := hset.backed i t c hballot
    rw [hdisk, heq] at hold
    rcases hold with hlt | ⟨-, hvote⟩
    · exact absurd hlt (lt_irrefl t)
    · exact (Option.some.inj hvote).symm
  refine ⟨fun j q hq => ?_, hset.reread, ?_, ?_, ?_, ?_⟩
  · obtain ⟨hj, hold⟩ := hset.up j q hq
    exact ⟨hj, hold.mono hsub⟩
  · intro call resp hmem
    rcases mem_append.mp hmem with hmem | hmem
    · exact hsub (h.asked call resp hmem)
    · exact hsub (hhonest _ hmem).1
  · intro call hmem
    rcases mem_append.mp hmem with hmem | hmem
    · exact h.candidate call hmem
    · obtain ⟨hsrc, hcand, -⟩ := hhonest _ hmem
      exact hcand.trans hsrc.symm
  · intro v t c hballot
    rcases ballot_append hhonest hballot with hold | ⟨hv, heq⟩
    · exact hset.backed v t c hold
    · rw [hv, hdisk, heq]
      exact .inr ⟨rfl, rfl⟩
  · intro v t c c' hballot hballot'
    rcases ballot_append hhonest hballot with hold | ⟨hv, heq⟩ <;>
      rcases ballot_append hhonest hballot' with hold' | ⟨hv', heq'⟩
    · exact h.unique v t c c' hold hold'
    · exact hsaved t c c' (hv' ▸ hold) heq'
    · exact (hsaved t c' c (hv ▸ hold') heq).symm
    · rw [heq] at heq'
      cases heq'
      rfl

theorem Local.start (m : Membership) (network : List Message) (i : NodeId) {disk : Disk}
    (hdisk : disk.log.map RaftLogEntry.reread = disk.log) :
    Local m network i (.start (m.config i) disk) where
  config_eq := rfl
  disk_eq := by
    change disk = ⟨disk.state, disk.log.map RaftLogEntry.reread⟩
    rw [hdisk]
  electing := by
    rintro _ _ _ ⟨⟩
  leader := by
    rintro ⟨⟩

/-- **Every step of the cluster keeps what its elections rest on.** -/
theorem Elections.step (h : Elections m s) (hstep : s.Step m action s') : Elections m s' := by
  cases hstep with
  | @start i disk hi hdown =>
    have hreread := h.reread i
    rw [hdown] at hreread
    refine h.set i (fun p heq => ?_) hreread ?_
    · cases heq
      exact ⟨hi, Local.start m s.network i hreread⟩
    · rw [hdown]
      exact .refl _
  | @crash i p hi hup =>
    have hreread := h.reread i
    rw [hup] at hreread
    refine h.set i (fun p heq => by cases heq) hreread ?_
    rw [hup]
    exact .refl _
  | @act i p p' input sent hi hup hst =>
    have hold := (h.up i p hup).2
    obtain ⟨hlocal, hproceeds, hhonest⟩ := stretch_local hold.fresh hold.ready_fresh hi hst
    refine h.commit hi hup hlocal ?_ hhonest
    rw [hold.disk_state, hlocal.disk_state]
    exact hproceeds.later
  | @cut i p p' input sent save disk hi hup hst hdisk =>
    have hold := (h.up i p hup).2
    obtain ⟨-, hproceeds, -⟩ := stretch_local hold.fresh hold.ready_fresh hi hst
    obtain ⟨hlater, hlog⟩ := hproceeds.trail disk hdisk
    refine h.set i (fun p heq => by cases heq) ?_ ?_
    · change disk.log.map RaftLogEntry.reread = disk.log
      rcases hlog with hlog | hlog <;> rw [hlog] <;> exact map_reread_reread _
    · rw [hup]
      change Later p.node.disk.state _
      rw [hold.disk_state]
      exact hlater

variable {a : NodeId}

/-- The winner of a term has a ballot of its own, unless it is the only member. -/
theorem Elections.ballot_self (h : Elections m s) (hwon : Won m s.network a t) :
    Ballot s.network a t a ∨ m.members.card ≤ 1 := by
  obtain ⟨voters, hvoters, hcard, hgranted⟩ := hwon
  by_cases hall : ∀ v ∈ voters, v = a
  · right
    have hle := Finset.card_le_card fun v hv => Finset.mem_singleton.mpr (hall v hv)
    rw [Finset.card_singleton] at hle
    omega
  · left
    push Not at hall
    obtain ⟨v, hv, hne⟩ := hall
    obtain ⟨call, resp, hmem, -, -, hterm, hcand⟩ := (hgranted v hv).resolve_left hne
    have hreq := h.asked call resp hmem
    exact .inr ⟨rfl, call, hreq, (h.candidate call hreq).symm.trans hcand, hterm⟩

/-- **A term has one winner.** -/
theorem Elections.won_unique (h : Elections m s) {b : NodeId} (ha : a ∈ m.members)
    (hb : b ∈ m.members) (hwa : Won m s.network a t) (hwb : Won m s.network b t) : a = b := by
  have hself : ∀ {a b : NodeId}, a ∈ m.members → b ∈ m.members → Won m s.network a t →
      Granted s.network a t b → a = b := by
    intro a b ha hb hwa hgranted
    rcases h.ballot_self hwa with hballot | hone
    · exact h.unique a t a b hballot (.inl hgranted)
    · exact Finset.card_le_one.mp hone a ha b hb
  obtain ⟨voters, hsub, hcard, hgranted⟩ := hwa
  obtain ⟨voters', hsub', hcard', hgranted'⟩ := hwb
  obtain ⟨v, hv, hv'⟩ := Consensus.exists_common_member hsub hsub' hcard hcard'
  rcases hgranted v hv with hva | hva <;> rcases hgranted' v hv' with hvb | hvb
  · exact hva.symm.trans hvb
  · exact hself ha hb ⟨voters, hsub, hcard, hgranted⟩ (hva ▸ hvb)
  · exact (hself hb ha ⟨voters', hsub', hcard', hgranted'⟩ (hvb ▸ hva)).symm
  · exact h.unique v t a b (.inl hva) (.inl hvb)

end Steps

/-! ## Runs -/

namespace Cluster

/-- The leader that a stretch of the event loop ends with, and its term; a process that is
cut off in the stretch counts too. -/
def leaderAfter (m : Membership) (s : Cluster) : Action → Option (NodeId × ℕ)
  | .act i input | .cut i input _ => do
    let p ← s.running m i
    let (p', _) ← p.perform i s.network s.calls input
    if p'.node.role = .leader then some (i, p'.node.state.currentTerm) else none
  | _ => none

/-- All the leaders of a run, each with its term. -/
def leaders (m : Membership) (s : Cluster) : List Action → List (NodeId × ℕ)
  | [] => []
  | action :: rest =>
    match s.step m action with
    | none => []
    | some s' => (s.leaderAfter m action).toList ++ s'.leaders m rest

theorem won_of_leaderAfter (h : Elections m s) (hleader : s.leaderAfter m action = some (i, t)) :
    i ∈ m.members ∧ Won m s.network i t := by
  have hmain : ∀ {i' : NodeId} {input : Input}, (do
      let p ← s.running m i'
      let (p', _) ← p.perform i' s.network s.calls input
      if p'.node.role = .leader then some (i', p'.node.state.currentTerm) else none) =
        some (i, t) → i ∈ m.members ∧ Won m s.network i t := by
    intro i' input heq
    obtain ⟨p, hp, hrest⟩ := Option.bind_eq_some_iff.mp heq
    obtain ⟨⟨p', sent⟩, hperform, hif⟩ := Option.bind_eq_some_iff.mp hrest
    obtain ⟨q, hi, hup, rfl⟩ := running_eq_some hp
    have hlocal := (h.up i' q hup).2
    have hlocal' := (stretch_local hlocal.fresh hlocal.ready_fresh hi (.of_perform hperform)).1
    change (if p'.node.role = .leader then some (i', p'.node.state.currentTerm) else none) =
      some (i, t) at hif
    split at hif
    · next hrole =>
      cases hif
      exact ⟨hi, hlocal'.leader hrole⟩
    · cases hif
  cases action with
  | start | crash => cases hleader
  | act | cut => exact hmain hleader

theorem Step.network_subset (h : s.Step m action s') : s.network ⊆ s'.network := by
  cases h with
  | start | crash | cut => exact List.Subset.refl _
  | act => exact subset_append_left _ _

theorem network_subset_run (actions : List Action) (hrun : s.run m actions = some s') :
    s.network ⊆ s'.network :=
  @run_invariant m s s' (fun c => s.network ⊆ c.network) (fun _ => True)
    (fun _ _ _ _ hsub hstep => List.Subset.trans hsub hstep.network_subset) actions
    (fun _ _ => trivial) (List.Subset.refl _) hrun

theorem elections_run (actions : List Action) (h : Elections m s)
    (hrun : s.run m actions = some s') : Elections m s' :=
  @run_invariant m s s' (Elections m) (fun _ => True) (fun _ _ _ _ hinv hstep => hinv.step hstep)
    actions (fun _ _ => trivial) h hrun

/-- Whoever has led in a run has won, as the network at its end still shows. -/
theorem won_of_mem_leaders (actions : List Action) (h : Elections m s)
    (hrun : s.run m actions = some s') (hmem : (i, t) ∈ s.leaders m actions) :
    i ∈ m.members ∧ Won m s'.network i t := by
  induction actions generalizing s with
  | nil => cases hmem
  | cons action rest ih =>
    have hnetwork := network_subset_run (action :: rest) hrun
    obtain ⟨s₁, hs₁, hrest⟩ := Option.bind_eq_some_iff.mp hrun
    rw [leaders, hs₁] at hmem
    rcases mem_append.mp hmem with hhead | htail
    · obtain ⟨hi, hwon⟩ := won_of_leaderAfter h (Option.mem_toList.mp hhead)
      exact ⟨hi, hwon.mono hnetwork⟩
    · exact ih (h.step (.of_step hs₁)) hrest htail

/-- **Election safety.**  In every run of a cluster, whatever the network does to the messages
and wherever the nodes crash, a term has at most one leader. -/
theorem leader_unique (m : Membership) {actions : List Action}
    (hrun : initial.run m actions = some s) {i j : NodeId} {t : ℕ}
    (hi : (i, t) ∈ initial.leaders m actions) (hj : (j, t) ∈ initial.leaders m actions) :
    i = j := by
  have hinitial := elections_initial m
  obtain ⟨himem, hiwon⟩ := won_of_mem_leaders actions hinitial hrun hi
  obtain ⟨hjmem, hjwon⟩ := won_of_mem_leaders actions hinitial hrun hj
  exact (elections_run actions hinitial hrun).won_unique himem hjmem hiwon hjwon

/-- Two members. -/
def pair : Membership where
  members := {1, 2}
  config := fun i => ⟨i, if i = 1 then [2] else [1]⟩
  nodeId_eq := fun _ _ => rfl
  nodup_peers := by decide
  mem_peers := by
    intro i hi j
    rcases Finset.mem_insert.mp hi with rfl | hi
    · simp
      grind
    · rw [Finset.mem_singleton.mp hi]
      simp
      grind

/-- The first member is elected by the second. -/
def firstElection : List Action :=
  [.start 1, .start 2, .act 1 .electionTimeout, .act 1 .ask, .act 2 (.deliver 0),
    .act 1 (.answer (some 1)), .act 1 .conclude]

theorem leader_unique_firstElection :
    (1, 1) ∈ initial.leaders pair firstElection ∧
      ∀ j, (j, 1) ∈ initial.leaders pair firstElection → j = 1 := by
  have hsome : (initial.run pair firstElection).isSome := by decide
  have hmem : (1, 1) ∈ initial.leaders pair firstElection := by decide
  exact ⟨hmem, fun j hj => leader_unique pair (Option.some_get hsome).symm hj hmem⟩

/-- **A vote is final.**  In every run, each ballot that was ever sent is backed by the files of its
voter, whatever crashes and restarts lie in between: the voter has gone on to a later term, or it is
in that term and its vote is still the ballot's.  So a voter has one candidate per term. -/
theorem ballots_final (m : Membership) {actions : List Action}
    (hrun : initial.run m actions = some s) {v c : NodeId} {t : ℕ} (h : Ballot s.network v t c) :
    Backed (s.servers v).disk.state t c ∧ ∀ c', Ballot s.network v t c' → c' = c := by
  have hel := elections_run actions (elections_initial m) hrun
  exact ⟨hel.backed v t c h, fun c' h' => hel.unique v t c' c h' h⟩

theorem ballots_final_firstElection :
    ∃ s, initial.run pair firstElection = some s ∧ Ballot s.network 2 1 1 ∧
      ∀ c, Ballot s.network 2 1 c → c = 1 := by
  obtain ⟨s, hrun, h⟩ : ∃ s, initial.run pair firstElection = some s ∧ Ballot s.network 2 1 1 :=
    ⟨_, rfl, .inl ⟨_, _, .tail _ (.head _), rfl, rfl, rfl, rfl⟩⟩
  exact ⟨s, hrun, h, (ballots_final pair hrun h).2⟩

end Cluster

end ChironDB.Raft
