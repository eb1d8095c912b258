/-
# A cluster of Raft nodes

Every member runs the event loop `run_raft`.  The loop takes up one input at a time and
takes no other until it is done with it; an election and a round of heartbeats ask one
peer after the other and wait for each answer in between (`join_all` awaits its futures
in order), so that they are cut into the stretches between these waits (`Phase`, `Input`).

The network keeps every message that was ever sent.  A request may reach its receiver any
number of times, at any time and in any order, or never; an answer is taken by the call it
answers, and an asking node may give a call up at any time.  A node may crash between two
stretches or after any save within one (`Action.cut`), and starts again from its files.
-/

import ChironDB.Raft.Node

namespace ChironDB.Raft

/-- One call of a peer. -/
structure Call (Req : Type) where
  id : ℕ
  src : NodeId
  dst : NodeId
  req : Req
  deriving DecidableEq

inductive Message
  | voteRequest (call : Call RequestVoteReq)
  | voteReply (call : Call RequestVoteReq) (resp : RequestVoteResp)
  | appendRequest (call : Call AppendEntriesReq)
  | appendReply (call : Call AppendEntriesReq) (resp : AppendEntriesResp)

/-- Where the event loop is.  A round of heartbeats that a proposal or an election started
settles what it committed at its end, one that a timer started does not. -/
inductive Phase
  | idle
  | electing (todo : List NodeId) (waiting : Option (Call RequestVoteReq))
      (results : List (NodeId × Option RequestVoteResp))
  | beating (todo : List (NodeId × AppendEntriesReq)) (waiting : Option (Call AppendEntriesReq))
      (results : List (NodeId × Option AppendEntriesResp)) (settles : Bool)

/-- A running node; `applied` collects the entries it gives to its state machine. -/
structure Process where
  node : RaftNode
  machine : CatalogStateMachine
  phase : Phase
  applied : List RaftLogEntry

inductive Input
  | deliver (position : ℕ)
  | propose (command : CatalogCommand) (ticket : Ticket)
  | electionTimeout
  | heartbeatTick
  | applyCommitted
  | ask
  | answer (position : Option ℕ)
  | conclude

/-- The entries of a request as the receiver decodes them. -/
def AppendEntriesReq.received (req : AppendEntriesReq) : AppendEntriesReq :=
  { req with entries := req.entries.map RaftLogEntry.reread }

/-- The loop of `apply_committed`, for at most `n` entries. -/
def applyFrom (log : List RaftLogEntry) :
    ℕ → CatalogStateMachine → CatalogStateMachine × List RaftLogEntry
  | 0, machine => (machine, [])
  | n + 1, machine =>
    match log.find? fun e => e.index == machine.lastApplied + 1 with
    | none => (machine, [])
    | some entry =>
      ((applyFrom log n (machine.apply entry)).1,
        entry :: (applyFrom log n (machine.apply entry)).2)

namespace Process

/-- `run_raft` up to its loop. -/
def start (config : RaftConfig) (disk : Disk) : Process where
  node := .new config disk
  machine := {}
  phase := .idle
  applied := []

/-- Nothing is saved, answered or applied yet. -/
def fresh (p : Process) : Process :=
  { p with node := { p.node with trail := [], answers := [] }, applied := [] }

/-- `apply_committed`. -/
def applyCommitted (p : Process) : Process :=
  let done := applyFrom p.node.log (p.node.commitIndex - p.machine.lastApplied) p.machine
  { p with
    node := p.node.notifyCommittedProposals
    machine := done.1
    applied := p.applied ++ done.2 }

/-- The event loop goes on to another phase. -/
def enter (p : Process) (phase : Phase) : Process := { p with phase := phase }

/-- `send_heartbeats_to_peers` up to its requests. -/
def sendHeartbeats (p : Process) (settles : Bool) : Process :=
  p.enter (.beating p.node.heartbeats none [] settles)

/-- A request arrives. -/
def receive (p : Process) : Message → Option (Process × List Message)
  | .voteRequest call =>
    let done := p.node.handleRequestVote call.req
    some ({ p with node := done.1 }, [.voteReply call done.2])
  | .appendRequest call =>
    let done := p.node.handleAppendEntries call.req.received
    some ({ p with node := done.1 }.applyCommitted, [.appendReply call done.2])
  | _ => none

/-- A proposal arrives. -/
def propose (p : Process) (command : CatalogCommand) (ticket : Ticket) : Process :=
  let proposed := { p with node := p.node.handlePropose command ticket }
  if proposed.node.role = .leader then proposed.sendHeartbeats true else proposed

/-- An election starts. -/
def startElection (p : Process) : Process :=
  { p with
    node := p.node.startElection
    phase := .electing p.node.config.peers none [] }

/-- The end of `start_election`, once the answers are in. -/
def finishElection (p : Process) (results : List (NodeId × Option RequestVoteResp)) : Process :=
  let counted := p.node.countVotes p.node.state.currentTerm results
  if counted.2 then { p with node := counted.1, phase := .idle }
  else if counted.1.quorumSize ≤ counted.1.votesReceived.card then
    { p with node := counted.1.becomeLeader }.sendHeartbeats true
  else { p with node := counted.1, phase := .idle }

/-- The end of a round of heartbeats, once the answers are in. -/
def finishHeartbeats (p : Process) (results : List (NodeId × Option AppendEntriesResp))
    (settles : Bool) : Process :=
  let answered := { p with node := p.node.readAnswers results, phase := .idle }
  if settles then
    { answered with
      node := answered.node.tryAdvanceCommit.notifyCommittedProposals }.applyCommitted
  else answered

/-- The next peer is asked. -/
def ask (p : Process) (id : ℕ) : Option (Process × List Message) :=
  match p.phase with
  | .electing (peer :: todo) none results =>
    let call : Call RequestVoteReq := ⟨id, p.node.config.nodeId, peer, p.node.voteRequest⟩
    some (p.enter (.electing (peer :: todo) (some call) results), [.voteRequest call])
  | .beating ((peer, req) :: todo) none results settles =>
    let call : Call AppendEntriesReq := ⟨id, p.node.config.nodeId, peer, req⟩
    some (p.enter (.beating ((peer, req) :: todo) (some call) results settles),
      [.appendRequest call])
  | _ => none

/-- The call of the next peer ends, with its answer or without one. -/
def answer (p : Process) (message : Option Message) : Option Process :=
  match p.phase, message with
  | .electing (peer :: todo) _ results, none =>
    some (p.enter (.electing todo none (results ++ [(peer, none)])))
  | .electing (peer :: todo) (some call) results, some (.voteReply answered resp) =>
    if answered = call then
      some (p.enter (.electing todo none (results ++ [(peer, some resp)])))
    else none
  | .beating ((peer, _) :: todo) _ results settles, none =>
    some (p.enter (.beating todo none (results ++ [(peer, none)]) settles))
  | .beating ((peer, _) :: todo) (some call) results settles, some (.appendReply answered resp) =>
    if answered.id = call.id then
      some (p.enter (.beating todo none (results ++ [(peer, some resp)]) settles))
    else none
  | _, _ => none

/-- All peers have been asked. -/
def conclude (p : Process) : Option Process :=
  match p.phase with
  | .electing [] _ results => some (p.finishElection results)
  | .beating [] _ results settles => some (p.finishHeartbeats results settles)
  | _ => none

/-- The inputs the event loop takes up when it is idle. -/
def takeUp (p : Process) (self : NodeId) (network : List Message) :
    Input → Option (Process × List Message)
  | .deliver position =>
    match network[position]? with
    | some (.voteRequest call) =>
      if call.dst = self then p.receive (.voteRequest call) else none
    | some (.appendRequest call) =>
      if call.dst = self then p.receive (.appendRequest call) else none
    | _ => none
  | .propose command ticket => some (p.propose command ticket, [])
  | .electionTimeout => some (p.startElection, [])
  | .heartbeatTick => if p.node.role = .leader then some (p.sendHeartbeats false, []) else none
  | .applyCommitted => some (p.applyCommitted, [])
  | _ => none

/-- One stretch of the event loop: what the process becomes and what it sends. -/
def perform (p : Process) (self : NodeId) (network : List Message) (id : ℕ) :
    Input → Option (Process × List Message)
  | .ask => p.ask id
  | .answer none => (p.answer none).map fun p' => (p', [])
  | .answer (some position) =>
    match network[position]? with
    | some message => (p.answer (some message)).map fun p' => (p', [])
    | none => none
  | .conclude => p.conclude.map fun p' => (p', [])
  | input =>
    match p.phase with
    | .idle => p.takeUp self network input
    | _ => none

end Process

/-- The stretches of the event loop of `self`, one by one: the input, what the process
becomes and what it sends. -/
inductive Stretch (self : NodeId) (network : List Message) (id : ℕ) (p : Process) :
    Input → Process → List Message → Prop
  | vote {position : ℕ} {call : Call RequestVoteReq} (hidle : p.phase = .idle)
      (hmem : .voteRequest call ∈ network) (hdst : call.dst = self) :
      Stretch self network id p (.deliver position)
        { p with node := (p.node.handleRequestVote call.req).1 }
        [.voteReply call (p.node.handleRequestVote call.req).2]
  | append {position : ℕ} {call : Call AppendEntriesReq} (hidle : p.phase = .idle)
      (hmem : .appendRequest call ∈ network) (hdst : call.dst = self) :
      Stretch self network id p (.deliver position) (Process.applyCommitted
          { p with node := (p.node.handleAppendEntries call.req.received).1 })
        [.appendReply call (p.node.handleAppendEntries call.req.received).2]
  | propose {command : CatalogCommand} {ticket : Ticket} (hidle : p.phase = .idle) :
      Stretch self network id p (.propose command ticket) (p.propose command ticket) []
  | electionTimeout (hidle : p.phase = .idle) :
      Stretch self network id p .electionTimeout p.startElection []
  | heartbeatTick (hidle : p.phase = .idle) (hleader : p.node.role = .leader) :
      Stretch self network id p .heartbeatTick (p.sendHeartbeats false) []
  | applyCommitted (hidle : p.phase = .idle) :
      Stretch self network id p .applyCommitted p.applyCommitted []
  | askVote {peer : NodeId} {todo : List NodeId} {results : List (NodeId × Option RequestVoteResp)}
      (hphase : p.phase = .electing (peer :: todo) none results) :
      Stretch self network id p .ask (p.enter (.electing (peer :: todo)
          (some ⟨id, p.node.config.nodeId, peer, p.node.voteRequest⟩) results))
        [.voteRequest ⟨id, p.node.config.nodeId, peer, p.node.voteRequest⟩]
  | askAppend {peer : NodeId} {req : AppendEntriesReq} {todo : List (NodeId × AppendEntriesReq)}
      {results : List (NodeId × Option AppendEntriesResp)} {settles : Bool}
      (hphase : p.phase = .beating ((peer, req) :: todo) none results settles) :
      Stretch self network id p .ask (p.enter (.beating ((peer, req) :: todo)
          (some ⟨id, p.node.config.nodeId, peer, req⟩) results settles))
        [.appendRequest ⟨id, p.node.config.nodeId, peer, req⟩]
  | loseVote {peer : NodeId} {todo : List NodeId} {waiting : Option (Call RequestVoteReq)}
      {results : List (NodeId × Option RequestVoteResp)}
      (hphase : p.phase = .electing (peer :: todo) waiting results) :
      Stretch self network id p (.answer none)
        (p.enter (.electing todo none (results ++ [(peer, none)]))) []
  | takeVote {position : ℕ} {peer : NodeId} {todo : List NodeId} {call : Call RequestVoteReq}
      {results : List (NodeId × Option RequestVoteResp)} {resp : RequestVoteResp}
      (hphase : p.phase = .electing (peer :: todo) (some call) results)
      (hmem : .voteReply call resp ∈ network) :
      Stretch self network id p (.answer (some position))
        (p.enter (.electing todo none (results ++ [(peer, some resp)]))) []
  | endAppend {position : Option ℕ} {peer : NodeId} {req : AppendEntriesReq}
      {todo : List (NodeId × AppendEntriesReq)} {waiting : Option (Call AppendEntriesReq)}
      {results : List (NodeId × Option AppendEntriesResp)} {answer : Option AppendEntriesResp}
      {settles : Bool} (hphase : p.phase = .beating ((peer, req) :: todo) waiting results settles) :
      Stretch self network id p (.answer position)
        (p.enter (.beating todo none (results ++ [(peer, answer)]) settles)) []
  | finishElection {waiting : Option (Call RequestVoteReq)}
      {results : List (NodeId × Option RequestVoteResp)}
      (hphase : p.phase = .electing [] waiting results) :
      Stretch self network id p .conclude (p.finishElection results) []
  | finishHeartbeats {waiting : Option (Call AppendEntriesReq)}
      {results : List (NodeId × Option AppendEntriesResp)} {settles : Bool}
      (hphase : p.phase = .beating [] waiting results settles) :
      Stretch self network id p .conclude (p.finishHeartbeats results settles) []

section Stretches

variable {self : NodeId} {network : List Message} {id : ℕ} {p p' : Process} {sent : List Message}

theorem Stretch.of_ask (h : p.ask id = some (p', sent)) :
    Stretch self network id p .ask p' sent := by
  rw [Process.ask] at h
  split at h
  · next hphase =>
    cases h
    exact .askVote hphase
  · next hphase =>
    cases h
    exact .askAppend hphase
  · cases h

theorem Stretch.of_lost (h : p.answer none = some p') :
    Stretch self network id p (.answer none) p' [] := by
  unfold Process.answer at h
  split at h
  · next hphase _ =>
    cases h
    exact .loseVote hphase
  · next hmessage => cases hmessage
  · next hphase _ =>
    cases h
    exact .endAppend hphase
  · next hmessage => cases hmessage
  · cases h

theorem Stretch.of_answer {position : ℕ} {message : Message}
    (hmem : network[position]? = some message) (h : p.answer (some message) = some p') :
    Stretch self network id p (.answer (some position)) p' [] := by
  unfold Process.answer at h
  split at h
  · next hmessage => cases hmessage
  · next answered resp hphase hmessage =>
    cases hmessage
    split at h
    · next hcall =>
      cases h
      rw [hcall] at hmem
      exact .takeVote hphase (List.mem_of_getElem? hmem)
    · cases h
  · next hmessage => cases hmessage
  · next hphase hmessage =>
    cases hmessage
    split at h
    · cases h
      exact .endAppend hphase
    · cases h
  · cases h

theorem Stretch.of_conclude (h : p.conclude = some p') :
    Stretch self network id p .conclude p' [] := by
  rw [Process.conclude] at h
  split at h
  · next hphase =>
    cases h
    exact .finishElection hphase
  · next hphase =>
    cases h
    exact .finishHeartbeats hphase
  · cases h

theorem Stretch.of_takeUp {input : Input} (hidle : p.phase = .idle)
    (h : p.takeUp self network input = some (p', sent)) :
    Stretch self network id p input p' sent := by
  cases input with
  | deliver position =>
    rw [Process.takeUp] at h
    split at h
    · next call hget =>
      split at h
      · next hdst =>
        cases h
        exact .vote hidle (List.mem_of_getElem? hget) hdst
      · cases h
    · next call hget =>
      split at h
      · next hdst =>
        cases h
        exact .append hidle (List.mem_of_getElem? hget) hdst
      · cases h
    · cases h
  | propose command ticket =>
    cases h
    exact .propose hidle
  | electionTimeout =>
    cases h
    exact .electionTimeout hidle
  | heartbeatTick =>
    rw [Process.takeUp] at h
    split at h
    · next hleader =>
      cases h
      exact .heartbeatTick hidle hleader
    · cases h
  | applyCommitted =>
    cases h
    exact .applyCommitted hidle
  | ask | answer | conclude => cases h

/-- **What a stretch of the event loop can do.** -/
theorem Stretch.of_perform {input : Input} (h : p.perform self network id input = some (p', sent)) :
    Stretch self network id p input p' sent := by
  have hidle : ∀ {o : Option (Process × List Message)},
      (match p.phase with | .idle => o | _ => none) = some (p', sent) →
        p.phase = .idle ∧ o = some (p', sent) := by
    intro o ho
    split at ho
    · next hphase => exact ⟨hphase, ho⟩
    · cases ho
  cases input with
  | ask => exact .of_ask h
  | answer position =>
    cases position with
    | none =>
      obtain ⟨p'', hp'', heq⟩ := Option.map_eq_some_iff.mp h
      cases heq
      exact .of_lost hp''
    | some position =>
      rw [Process.perform] at h
      split at h
      · next message hget =>
        obtain ⟨p'', hp'', heq⟩ := Option.map_eq_some_iff.mp h
        cases heq
        exact .of_answer hget hp''
      · cases h
  | conclude =>
    obtain ⟨p'', hp'', heq⟩ := Option.map_eq_some_iff.mp h
    cases heq
    exact .of_conclude hp''
  | deliver | propose | electionTimeout | heartbeatTick | applyCommitted =>
    exact .of_takeUp (hidle h).1 (hidle h).2

end Stretches

/-- The members and how each of them is configured: it knows its own id, and its peers are
the other members. -/
structure Membership where
  members : Finset NodeId
  config : NodeId → RaftConfig
  nodeId_eq : ∀ i ∈ members, (config i).nodeId = i
  nodup_peers : ∀ i ∈ members, (config i).peers.Nodup
  mem_peers : ∀ i ∈ members, ∀ j, j ∈ (config i).peers ↔ j ∈ members ∧ j ≠ i

inductive Server
  | down (disk : Disk)
  | up (process : Process)

/-- What the files of a member hold. -/
def Server.disk : Server → Disk
  | .down disk => disk
  | .up p => p.node.disk

/-- The cluster, with every message sent, every entry applied and every answer given. -/
structure Cluster where
  servers : NodeId → Server
  network : List Message
  calls : ℕ
  applied : List (NodeId × RaftLogEntry)
  answered : List (NodeId × Ticket × Except String Unit)

inductive Action
  | start (i : NodeId)
  | crash (i : NodeId)
  | act (i : NodeId) (input : Input)
  | cut (i : NodeId) (input : Input) (save : ℕ)

namespace Cluster

/-- No member runs, and no file exists. -/
def initial : Cluster where
  servers := fun _ => .down {}
  network := []
  calls := 0
  applied := []
  answered := []

/-- The server of `i` changes, and nothing else. -/
def set (s : Cluster) (i : NodeId) (server : Server) : Cluster :=
  { s with servers := Function.update s.servers i server }

/-- A stretch of the event loop of `i` ends. -/
def commit (s : Cluster) (i : NodeId) (p : Process) (sent : List Message) : Cluster where
  servers := Function.update s.servers i (.up p)
  network := s.network ++ sent
  calls := s.calls + 1
  applied := s.applied ++ p.applied.map fun entry => (i, entry)
  answered := s.answered ++ p.node.answers.map fun answer => (i, answer)

/-- The running process of a member, at the start of its next stretch. -/
def running (m : Membership) (s : Cluster) (i : NodeId) : Option Process :=
  match s.servers i with
  | .up p => if i ∈ m.members then some p.fresh else none
  | .down _ => none

/-- One step of the cluster. -/
def step (m : Membership) (s : Cluster) : Action → Option Cluster
  | .start i =>
    match s.servers i with
    | .down disk =>
      if i ∈ m.members then some (s.set i (.up (.start (m.config i) disk))) else none
    | .up _ => none
  | .crash i => (s.running m i).map fun p => s.set i (.down p.node.disk)
  | .act i input => do
    let p ← s.running m i
    let (p', sent) ← p.perform i s.network s.calls input
    return s.commit i p' sent
  | .cut i input save => do
    let p ← s.running m i
    let (p', _) ← p.perform i s.network s.calls input
    let disk ← p'.node.trail[save]?
    return s.set i (.down disk)

/-- A run of the cluster. -/
def run (m : Membership) (s : Cluster) : List Action → Option Cluster
  | [] => some s
  | action :: rest => (s.step m action).bind fun s' => s'.run m rest

/-- What a step of the cluster can do. -/
inductive Step (m : Membership) (s : Cluster) : Action → Cluster → Prop
  | start {i : NodeId} {disk : Disk} (hi : i ∈ m.members) (hdown : s.servers i = .down disk) :
      Step m s (.start i) (s.set i (.up (.start (m.config i) disk)))
  | crash {i : NodeId} {p : Process} (hi : i ∈ m.members) (hup : s.servers i = .up p) :
      Step m s (.crash i) (s.set i (.down p.node.disk))
  | act {i : NodeId} {p p' : Process} {input : Input} {sent : List Message} (hi : i ∈ m.members)
      (hup : s.servers i = .up p) (h : Stretch i s.network s.calls p.fresh input p' sent) :
      Step m s (.act i input) (s.commit i p' sent)
  | cut {i : NodeId} {p p' : Process} {input : Input} {sent : List Message} {save : ℕ}
      {disk : Disk} (hi : i ∈ m.members) (hup : s.servers i = .up p)
      (h : Stretch i s.network s.calls p.fresh input p' sent) (hdisk : disk ∈ p'.node.trail) :
      Step m s (.cut i input save) (s.set i (.down disk))

variable {m : Membership} {s s' : Cluster}

theorem running_eq_some {i : NodeId} {p : Process} (h : s.running m i = some p) :
    ∃ q, i ∈ m.members ∧ s.servers i = .up q ∧ p = q.fresh := by
  rw [running] at h
  split at h
  · next q hup =>
    split at h
    · next hi =>
      cases h
      exact ⟨q, hi, hup, rfl⟩
    · cases h
  · cases h

theorem Step.of_step {action : Action} (h : s.step m action = some s') : Step m s action s' := by
  cases action with
  | start i =>
    rw [step] at h
    split at h
    · next disk hdown =>
      split at h
      · next hi =>
        cases h
        exact .start hi hdown
      · cases h
    · cases h
  | crash i =>
    obtain ⟨p, hp, heq⟩ := Option.map_eq_some_iff.mp h
    obtain ⟨q, hi, hup, rfl⟩ := running_eq_some hp
    cases heq
    have hcrash := Step.crash hi hup
    exact hcrash
  | act i input =>
    obtain ⟨p, hp, hrest⟩ := Option.bind_eq_some_iff.mp h
    obtain ⟨⟨p', sent⟩, hperform, heq⟩ := Option.bind_eq_some_iff.mp hrest
    obtain ⟨q, hi, hup, rfl⟩ := running_eq_some hp
    cases heq
    exact .act hi hup (.of_perform hperform)
  | cut i input save =>
    obtain ⟨p, hp, hrest⟩ := Option.bind_eq_some_iff.mp h
    obtain ⟨⟨p', sent⟩, hperform, hsave⟩ := Option.bind_eq_some_iff.mp hrest
    obtain ⟨disk, hdisk, heq⟩ := Option.bind_eq_some_iff.mp hsave
    obtain ⟨q, hi, hup, rfl⟩ := running_eq_some hp
    cases heq
    exact .cut hi hup (.of_perform hperform) (List.mem_of_getElem? hdisk)

/-- **The invariant rule.**  What every step with an allowed action keeps, a run of allowed
actions keeps. -/
theorem run_invariant {Inv : Cluster → Prop} {allowed : Action → Prop}
    (hstep : ∀ s action s', allowed action → Inv s → Step m s action s' → Inv s')
    (actions : List Action) (hallowed : ∀ action ∈ actions, allowed action) (h : Inv s)
    (hrun : s.run m actions = some s') : Inv s' := by
  induction actions generalizing s with
  | nil =>
    cases hrun
    exact h
  | cons action rest ih =>
    obtain ⟨s₁, hs₁, hrest⟩ := Option.bind_eq_some_iff.mp hrun
    have h₁ : Inv s₁ :=
      hstep s action s₁ (hallowed action List.mem_cons_self) h (.of_step hs₁)
    exact ih (fun a ha => hallowed a (List.mem_cons_of_mem _ ha)) h₁ hrest

@[simp] theorem set_network (i : NodeId) (server : Server) : (s.set i server).network = s.network :=
  rfl

theorem set_servers (i j : NodeId) (server : Server) :
    (s.set i server).servers j = if j = i then server else s.servers j :=
  Function.update_apply _ _ _ _

theorem commit_servers (i j : NodeId) (p : Process) (sent : List Message) :
    (s.commit i p sent).servers j = if j = i then .up p else s.servers j :=
  Function.update_apply _ _ _ _

end Cluster
end ChironDB.Raft
