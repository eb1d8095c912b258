/-
# Log matching

The leader of a term is the only writer of that term's entries, and while it leads its log
only grows.  So there is a history, the log of each term's leader, with which every log
agrees: those in memory, those in the files, and those of which the requests on the
network are excerpts.  A follower either cuts its log, keeps it, or ends up with the log
the leader had when it sent the request (`foldl_storeEntry`), and all three agree with
the history again.

A command that does not come back from JSON as it was breaks this: the leader keeps what
was proposed and its followers store what they read (`logs_differ`).  Along runs whose
proposals all survive JSON the logs match (`logs_match`).
-/

import ChironDB.Raft.Election

namespace ChironDB.Raft

open Consensus List

/-- Indices count from one, and every entry has a term. -/
def Numbered (log : List RaftLogEntry) : Prop :=
  ∀ k e, log[k]? = some e → e.index = k + 1 ∧ 1 ≤ e.term

variable {n : ℕ}

variable {short : List RaftLogEntry}

section Numbering

variable {log : List RaftLogEntry}

section

variable (h : Numbered log)
include h

theorem Numbered.of_isPrefix (hshort : short <+: log) : Numbered short := by
  intro k e hk
  obtain ⟨rest, rfl⟩ := hshort
  have hlt : k < short.length := (List.getElem?_eq_some_iff.mp hk).1
  refine h k e ?_
  rw [List.getElem?_append_left hlt]
  exact hk

theorem Numbered.lastLogIndex_eq : lastLogIndex log = log.length := by
  rw [lastLogIndex, getLast?_eq_getElem?]
  cases hlast : log[log.length - 1]? with
  | none =>
    have hle := getElem?_eq_none_iff.mp hlast
    change 0 = log.length
    omega
  | some e =>
    have hlt := (List.getElem?_eq_some_iff.mp hlast).1
    change e.index = log.length
    have hindex := (h _ e hlast).1
    omega

theorem Numbered.find_eq (k : ℕ) :
    log.find? (fun e => e.index == k + 1) = log[k]? := by
  cases hfind : log.find? (fun e => e.index == k + 1) with
  | none =>
    symm
    rw [getElem?_eq_none_iff]
    by_contra hlt
    push Not at hlt
    have hindex := (h k _ (getElem?_eq_getElem hlt)).1
    have hne := find?_eq_none.mp hfind _ (getElem_mem hlt)
    simp only [beq_iff_eq] at hne
    exact hne hindex
  | some e =>
    have hindex := find?_some hfind
    simp only [beq_iff_eq] at hindex
    obtain ⟨j, hj⟩ := mem_iff_getElem?.mp (mem_of_find?_eq_some hfind)
    have hj' := (h j e hj).1
    have heq : j = k := by omega
    rw [← heq, hj]

theorem Numbered.logTermAt_eq (k : ℕ) :
    logTermAt log (k + 1) = (log[k]?.map (·.term)).getD 0 := by
  rw [logTermAt, if_neg (Nat.succ_ne_zero k), h.find_eq k]

end

variable {e : RaftLogEntry}

variable {k : ℕ}

section

variable (h : Numbered log)
include h

theorem Numbered.logTermAt_of_get (hk : log[k]? = some e) : logTermAt log (k + 1) = e.term := by
  rw [h.logTermAt_eq, hk]
  rfl

theorem Numbered.exists_of_logTermAt (hne : logTermAt log (k + 1) ≠ 0) :
    ∃ e, log[k]? = some e ∧ e.term = logTermAt log (k + 1) := by
  rw [h.logTermAt_eq] at hne ⊢
  cases hk : log[k]? with
  | none =>
    rw [hk] at hne
    exact absurd rfl hne
  | some e => exact ⟨e, rfl, rfl⟩

theorem Numbered.index_of_mem_take (he : e ∈ log.take n) : 1 ≤ e.index ∧ e.index ≤ n := by
  obtain ⟨k, hk⟩ := mem_iff_getElem?.mp he
  rw [getElem?_take] at hk
  split at hk
  · next hlt =>
    have hindex := (h k e hk).1
    omega
  · cases hk

theorem Numbered.lt_index_of_mem_drop (he : e ∈ log.drop n) : n < e.index := by
  obtain ⟨k, hk⟩ := mem_iff_getElem?.mp he
  rw [getElem?_drop] at hk
  have hindex := (h _ e hk).1
  omega

/-- Cutting by index is cutting by length. -/
theorem Numbered.filter_index (index : ℕ) :
    (log.filter fun e => e.index < index) = log.take (index - 1) ∧
      (log.filter fun e => index ≤ e.index) = log.drop (index - 1) := by
  have hlow : ∀ e ∈ log.take (index - 1), e.index < index := by
    intro e he
    have hindex := h.index_of_mem_take he
    omega
  have hhigh : ∀ e ∈ log.drop (index - 1), index ≤ e.index := by
    intro e he
    have hindex := h.lt_index_of_mem_drop he
    omega
  constructor <;> conv_lhs => rw [← take_append_drop (index - 1) log, filter_append]
  · rw [filter_eq_self.mpr (by simpa using hlow), filter_eq_nil_iff.mpr (by simpa using hhigh),
      append_nil]
  · rw [filter_eq_nil_iff.mpr (by simpa using hlow), filter_eq_self.mpr (by simpa using hhigh),
      nil_append]

theorem Numbered.append (hindex : e.index = log.length + 1) (hterm : 1 ≤ e.term) :
    Numbered (log ++ [e]) := by
  intro k e' hk
  rcases Nat.lt_or_ge k log.length with hlt | hge
  · rw [getElem?_append_left hlt] at hk
    exact h k e' hk
  · rw [getElem?_append_right hge, getElem?_singleton] at hk
    split at hk
    · next hzero =>
      cases hk
      exact ⟨by omega, hterm⟩
    · cases hk

end

end Numbering
/-! ## A follower's log -/

/-- A log that agrees with the history, is numbered and survives JSON. -/
structure Sound (history : ℕ → List RaftLogEntry) (log : List RaftLogEntry) : Prop where
  agrees : Agrees RaftLogEntry.term history log
  numbered : Numbered log
  stable : Stable log

variable {command : CatalogCommand} {node : RaftNode} {history history' : ℕ → List RaftLogEntry}

section Logs

variable {log : List RaftLogEntry}

theorem Sound.nil : Sound history [] :=
  ⟨Agrees.nil, (by intro k e h; cases h), (by intro e h; cases h)⟩

theorem Sound.of_isPrefix (h : Sound history log) (hshort : short <+: log) : Sound history short :=
  ⟨h.agrees.of_isPrefix hshort, h.numbered.of_isPrefix hshort,
    fun e he => h.stable e (hshort.subset he)⟩

theorem Sound.mono (h : Sound history log) (hle : ∀ t, history t <+: history' t) :
    Sound history' log :=
  ⟨h.agrees.mono hle, h.numbered, h.stable⟩

variable {leader : List RaftLogEntry}

section

variable (h : Numbered log)
include h

theorem logTermAt_take (n : ℕ) : logTermAt (log.take n) (n + 1) = 0 := by
  rw [(h.of_isPrefix (List.take_prefix n log)).logTermAt_eq, getElem?_eq_none (by simp)]
  rfl

theorem storeEntry_take (hlt : n < log.length) :
    storeEntry (log.take n) log[n] = log.take (n + 1) := by
  have hindex : log[n].index = n + 1 := (h n _ (getElem?_eq_getElem hlt)).1
  have hzero := logTermAt_take h n
  have hkeep : ¬ (logTermAt (log.take n) (n + 1) ≠ 0 ∧
      logTermAt (log.take n) (n + 1) ≠ log[n].term) := fun hconflict => hconflict.1 hzero
  rw [storeEntry, hindex, if_neg hkeep, if_pos hzero, take_concat_get' log n hlt]

/-- An entry in conflict with the own one cuts the log there. -/
theorem storeEntry_conflict (hleader : Numbered leader) (hlt : n < leader.length)
    (hsame : log.take n = leader.take n) {own : RaftLogEntry} (hown : log[n]? = some own)
    (hne : own.term ≠ leader[n].term) : storeEntry log leader[n] = leader.take (n + 1) := by
  have hindex : leader[n].index = n + 1 := (hleader n _ (getElem?_eq_getElem hlt)).1
  have hterm : logTermAt log (n + 1) = own.term := h.logTermAt_of_get hown
  have hpos : own.term ≠ 0 := Nat.one_le_iff_ne_zero.mp (h n own hown).2
  have hcut : (log.filter fun e => e.index < n + 1) = leader.take n := by
    rw [(h.filter_index _).1, Nat.add_sub_cancel, hsame]
  have hkeep : logTermAt log (n + 1) ≠ 0 ∧ logTermAt log (n + 1) ≠ leader[n].term := by
    rw [hterm]
    exact ⟨hpos, hne⟩
  rw [storeEntry, hindex, if_pos hkeep, hcut, if_pos (logTermAt_take hleader n),
    take_concat_get' leader n hlt]

theorem foldl_storeEntry_take (n : ℕ) :
    (log.drop n).foldl storeEntry (log.take n) = log := by
  induction hd : log.drop n generalizing n with
  | nil =>
    have hle := drop_eq_nil_iff.mp hd
    exact take_of_length_le hle
  | cons e rest ih =>
    have hlt : n < log.length := by
      by_contra hge
      rw [drop_eq_nil_of_le (Nat.not_lt.mp hge)] at hd
      cases hd
    rw [drop_eq_getElem_cons hlt] at hd
    cases hd
    rw [foldl_cons, storeEntry_take h hlt]
    exact ih (n + 1) rfl

end

/-- **A follower keeps its log or takes the leader's**, where the two are the same up to the
first new entry. -/
theorem foldl_storeEntry (h : Sound history log) (hleader : Sound history leader) (n : ℕ)
    (hsame : log.take n = leader.take n) (hn : n ≤ log.length) :
    (leader.drop n).foldl storeEntry log = log ∨
      (leader.drop n).foldl storeEntry log = leader := by
  induction hd : leader.drop n generalizing n with
  | nil => exact .inl rfl
  | cons e rest ih =>
    have hlt : n < leader.length := by
      by_contra hge
      rw [drop_eq_nil_of_le (Nat.not_lt.mp hge)] at hd
      cases hd
    have hdrop := hd
    rw [drop_eq_getElem_cons hlt] at hd
    cases hd
    have hget : leader[n]? = some leader[n] := getElem?_eq_getElem hlt
    have hindex : leader[n].index = n + 1 := (hleader.numbered n _ hget).1
    cases hown : log[n]? with
    | none =>
      have hlen : log.length = n :=
        Nat.le_antisymm (getElem?_eq_none_iff.mp hown) hn
      have hlog : log = leader.take n := by
        rw [← hsame, ← hlen, take_length]
      right
      rw [← hdrop, hlog]
      exact foldl_storeEntry_take hleader.numbered n
    | some own =>
      have hterm : logTermAt log (n + 1) = own.term := h.numbered.logTermAt_of_get hown
      have hpos : 1 ≤ own.term := (h.numbered n own hown).2
      rw [foldl_cons]
      by_cases heq : own.term = leader[n].term
      · have hstore : storeEntry log leader[n] = log := by
          rw [storeEntry, hindex, hterm]
          simp only [ne_eq, heq, not_true_eq_false, and_false, if_false, hterm]
          rw [if_neg]
          omega
        rw [hstore]
        have hlt' := (List.getElem?_eq_some_iff.mp hown).1
        exact ih (n + 1) (h.agrees.take_eq hleader.agrees hown hget heq) hlt' rfl
      · right
        rw [storeEntry_conflict h.numbered hleader.numbered hlt hsame hown heq]
        exact foldl_storeEntry_take hleader.numbered (n + 1)

/-- A request is an excerpt of a log: the end of it from some index on, and the term of the
entry before. -/
def Excerpt (history : ℕ → List RaftLogEntry) (req : AppendEntriesReq) : Prop :=
  ∃ leader next, Sound history leader ∧ req.prevLogIndex = next - 1 ∧
    req.prevLogTerm = logTermAt leader (next - 1) ∧
      req.entries = leader.filter fun e => next ≤ e.index

variable {req : AppendEntriesReq}

theorem Excerpt.mono (h : Excerpt history req) (hle : ∀ t, history t <+: history' t) :
    Excerpt history' req := by
  obtain ⟨leader, next, hleader, hrest⟩ := h
  exact ⟨leader, next, hleader.mono hle, hrest⟩

/-- An excerpt of a log that survives JSON arrives as it was sent. -/
theorem Excerpt.received_eq (h : Excerpt history req) : req.received = req := by
  obtain ⟨leader, next, hleader, -, -, hentries⟩ := h
  have hstable : Stable req.entries := by
    intro e he
    rw [hentries] at he
    exact hleader.stable e (mem_of_mem_filter he)
  rw [AppendEntriesReq.received, hstable.map_reread]

/-- Two logs that show one term at an index are the same up to there. -/
theorem take_eq_of_logTermAt (h : Sound history log) (hleader : Sound history leader)
    (hne : logTermAt log n ≠ 0) (hsame : logTermAt log n = logTermAt leader n) :
    log.take n = leader.take n ∧ n ≤ log.length := by
  cases n with
  | zero => exact ⟨rfl, Nat.zero_le _⟩
  | succ k =>
    obtain ⟨e, he, hterm⟩ := h.numbered.exists_of_logTermAt hne
    obtain ⟨e', he', hterm'⟩ := hleader.numbered.exists_of_logTermAt (hsame ▸ hne)
    have heq : e.term = e'.term := by rw [hterm, hterm', hsame]
    exact ⟨h.agrees.take_eq hleader.agrees he he' heq, (List.getElem?_eq_some_iff.mp he).1⟩

/-- **A request leaves a follower with a log that agrees.** -/
theorem Sound.appended {log' : List RaftLogEntry} (h : Sound history log)
    (hreq : Excerpt history req) (happended : Appended log req log') : Sound history log' := by
  obtain ⟨leader, next, hleader, hprev, hterm, hentries⟩ := hreq
  rcases happended with rfl | ⟨index, rfl⟩ | ⟨hcheck, rfl⟩
  · exact h
  · rw [(h.numbered.filter_index _).1]
    exact h.of_isPrefix (List.take_prefix _ _)
  · have hsame : log.take (next - 1) = leader.take (next - 1) ∧ next - 1 ≤ log.length := by
      rw [hprev] at hcheck
      rcases hcheck with hzero | ⟨hne, heq⟩
      · rw [hzero]
        exact ⟨rfl, Nat.zero_le _⟩
      · exact take_eq_of_logTermAt h hleader hne (heq.trans hterm)
    rw [hentries, (hleader.numbered.filter_index _).2]
    rcases foldl_storeEntry h hleader (next - 1) hsame.1 hsame.2 with hkept | htaken
    · rw [hkept]
      exact h
    · rw [htaken]
      exact hleader

theorem Sound.nextEntry (h : Sound history node.log) (hterm : 1 ≤ node.state.currentTerm)
    (hcommand : command.reread = command) :
    Sound (Function.update history node.state.currentTerm (node.log ++ [node.nextEntry command]))
      (node.log ++ [node.nextEntry command]) where
  agrees := h.agrees.append (node.nextEntry command)
  numbered := by
    refine h.numbered.append ?_ hterm
    change lastLogIndex node.log + 1 = _
    rw [h.numbered.lastLogIndex_eq]
  stable := forall_mem_append.mpr ⟨h.stable, forall_mem_singleton.mpr hcommand⟩

/-- The requests of a round of heartbeats are excerpts of the sender's log. -/
theorem excerpt_heartbeats (h : Sound history node.log) :
    ∀ request ∈ node.heartbeats, Excerpt history request.2 := by
  intro request hmem
  obtain ⟨peer, -, rfl⟩ := mem_map.mp hmem
  exact ⟨node.log, (node.nextIndex.lookup peer).getD 1, h, rfl, rfl, rfl⟩

end Logs

/-! ## One process -/

/-- The process is in an election. -/
def Process.InElection (p : Process) : Prop :=
  ∃ todo waiting results, p.phase = .electing todo waiting results

/-- What holds of a running process and the history. -/
structure Writer (history : ℕ → List RaftLogEntry) (p : Process) : Prop where
  sound : Sound history p.node.log
  term_pos : p.node.role = .leader ∨ p.InElection → 1 ≤ p.node.state.currentTerm
  leader : p.node.role = .leader → history p.node.state.currentTerm = p.node.log
  todo : ∀ todo waiting results settles, p.phase = .beating todo waiting results settles →
    ∀ request ∈ todo, Excerpt history request.2

/-- What a stretch writes to the history: nothing, or the new log of the leader of a term. -/
def Writes (p p' : Process) (history history' : ℕ → List RaftLogEntry) : Prop :=
  history' = history ∨
    history' = Function.update history p.node.state.currentTerm p'.node.log ∧
      history p.node.state.currentTerm <+: p'.node.log ∧ p'.node.role = .leader ∧
        p'.node.state.currentTerm = p.node.state.currentTerm ∧ ¬ p'.InElection

variable {history : ℕ → List RaftLogEntry} {p p' : Process} {m : Membership} {input : Input}
  {i : NodeId}

theorem Writes.isPrefix {p p' : Process} {history' : ℕ → List RaftLogEntry}
    (h : Writes p p' history history') (t : ℕ) : history t <+: history' t := by
  rcases h with rfl | ⟨rfl, hlog, -⟩
  · exact prefix_rfl
  · rcases eq_or_ne t p.node.state.currentTerm with rfl | hne
    · rw [Function.update_self]
      exact hlog
    · rw [Function.update_of_ne hne]

/-- An election under way goes on in the same term, and a new one has a new term. -/
def Continues (p p' : Process) : Prop :=
  p'.InElection → p.InElection ∧ p'.node.state.currentTerm = p.node.state.currentTerm ∨
    p.node.state.currentTerm < p'.node.state.currentTerm

/-- A stretch that ends outside of an election. -/
def Rests (history : ℕ → List RaftLogEntry) (p p' : Process) : Prop :=
  ∃ history', Writes p p' history history' ∧ Writer history' p' ∧ ¬ p'.InElection

section Stretches

variable {network sent : List Message} {id : ℕ}

theorem not_inElection_of_idle (h : p.phase = .idle) : ¬ p.InElection := by
  rintro ⟨todo, waiting, results, heq⟩
  exact absurd (h.symm.trans heq) (by simp)

/-- An idle process that leads only as it did before. -/
theorem Writer.rests (h : Writer history p) (hidle : p'.phase = .idle)
    (hsound : Sound history p'.node.log)
    (hleader : p'.node.role = .leader → p.node.role = .leader ∧
      p'.node.state.currentTerm = p.node.state.currentTerm ∧ p'.node.log = p.node.log) :
    Rests history p p' := by
  have helection := not_inElection_of_idle hidle
  refine ⟨history, .inl rfl, ⟨hsound, fun hor => ?_, fun hl => ?_, fun _ _ _ _ hphase => ?_⟩,
    helection⟩
  · obtain ⟨hold, hterm, -⟩ := hleader (hor.resolve_right helection)
    rw [hterm]
    exact h.term_pos (.inl hold)
  · obtain ⟨hold, hterm, hlog⟩ := hleader hl
    rw [hterm, hlog]
    exact h.leader hold
  · exact absurd (hidle.symm.trans hphase) (by simp)

/-- The event loop goes on to another phase, in the same election if there is one. -/
theorem Writer.enter (h : Writer history p) (phase : Phase)
    (helection : (p.enter phase).InElection → p.InElection)
    (htodo : ∀ todo waiting results settles, phase = .beating todo waiting results settles →
      ∀ request ∈ todo, Excerpt history request.2) : Writer history (p.enter phase) where
  sound := h.sound
  term_pos := fun hor => h.term_pos (hor.imp_right helection)
  leader := h.leader
  todo := htodo

theorem Writer.enter_electing (h : Writer history p) (helection : p.InElection)
    {todo : List NodeId} {waiting : Option (Call RequestVoteReq)}
    {results : List (NodeId × Option RequestVoteResp)} :
    Writer history (p.enter (.electing todo waiting results)) ∧
      Continues p (p.enter (.electing todo waiting results)) :=
  ⟨h.enter _ (fun _ => helection) (by rintro _ _ _ _ ⟨⟩), fun _ => .inl ⟨helection, rfl⟩⟩

theorem Writer.enter_beating (h : Writer history p) {todo : List (NodeId × AppendEntriesReq)}
    {waiting : Option (Call AppendEntriesReq)} {results : List (NodeId × Option AppendEntriesResp)}
    {settles : Bool} (htodo : ∀ request ∈ todo, Excerpt history request.2) :
    Writer history (p.enter (.beating todo waiting results settles)) ∧
      Continues p (p.enter (.beating todo waiting results settles)) := by
  refine ⟨h.enter _ ?_ (by rintro _ _ _ _ ⟨⟩; exact htodo), ?_⟩ <;> rintro ⟨_, _, _, ⟨⟩⟩

/-- A leader writes an entry to its log and starts a round of heartbeats. -/
theorem Writer.write (q : Process) (hsound : Sound history node.log)
    (hterm : 1 ≤ node.state.currentTerm) (hcommand : command.reread = command)
    (hlog : q.node.log = node.log ++ [node.nextEntry command])
    (hstate : q.node.state.currentTerm = node.state.currentTerm)
    (hsame : node.state.currentTerm = p.node.state.currentTerm) (hrole : q.node.role = .leader)
    (hgrows : history p.node.state.currentTerm <+: q.node.log) :
    Rests history p (q.sendHeartbeats true) := by
  have hsound' := hsound.nextEntry hterm hcommand
  rw [← hlog, hsame] at hsound'
  have helection : ¬ (q.sendHeartbeats true).InElection := by
    rintro ⟨_, _, _, ⟨⟩⟩
  refine ⟨_, .inr ⟨rfl, hgrows, hrole, hstate.trans hsame, helection⟩,
    ⟨hsound', fun _ => le_of_le_of_eq hterm hstate.symm, fun _ => ?_, ?_⟩, helection⟩
  · change Function.update history _ q.node.log q.node.state.currentTerm = q.node.log
    rw [hstate, hsame, Function.update_self]
  · rintro _ _ _ _ ⟨⟩
    exact excerpt_heartbeats hsound'

section

variable (h : Writer history p)
include h

theorem Writer.propose (hidle : p.phase = .idle) (hcommand : command.reread = command)
    (ticket : Ticket) : Rests history p (p.propose command ticket) := by
  obtain ⟨hrole, hstate, hcases⟩ := @handlePropose_cases p.node command ticket
  rw [Process.propose]
  rcases hcases with ⟨hlog, hnot⟩ | ⟨hlog, hleader⟩
  · rw [if_neg fun hl => hnot (hrole.symm.trans hl)]
    refine h.rests hidle ?_ fun hl => absurd (hrole.symm.trans hl) hnot
    change Sound history (p.node.handlePropose command ticket).log
    rw [hlog]
    exact h.sound
  · rw [if_pos (hrole.trans hleader)]
    refine Writer.write _ h.sound (h.term_pos (.inl hleader)) hcommand hlog
      (congrArg RaftPersistentState.currentTerm hstate) rfl (hrole.trans hleader) ?_
    change history p.node.state.currentTerm <+: (p.node.handlePropose command ticket).log
    rw [h.leader hleader, hlog]
    exact prefix_append _ _

theorem Writer.finishElection (helecting : p.InElection)
    (results : List (NodeId × Option RequestVoteResp))
    (hfree : (p.finishElection results).node.role = .leader →
      history p.node.state.currentTerm = []) : Rests history p (p.finishElection results) := by
  have hcounted := counted_countVotes p.node.state.currentTerm results p.node
  have hsound : Sound history (p.node.countVotes p.node.state.currentTerm results).1.log := by
    rw [hcounted.log_eq]
    exact h.sound
  rw [Process.finishElection] at hfree ⊢
  split at hfree
  · next hbeaten =>
    rw [if_pos hbeaten]
    refine h.rests rfl hsound fun hl => ?_
    exact absurd (hl.symm.trans (hcounted.beaten hbeaten)) (by decide)
  · next hnot =>
    have hbeaten := Bool.eq_false_iff.mpr hnot
    have hterm := congrArg RaftPersistentState.currentTerm (hcounted.state_eq hbeaten)
    rw [if_neg hnot]
    split at hfree
    · next hquorum =>
      rw [if_pos hquorum]
      refine Writer.write _ hsound (le_of_le_of_eq (h.term_pos (.inr helecting)) hterm.symm)
        (show CatalogCommand.noop.reread = .noop from rfl) rfl rfl hterm rfl ?_
      rw [hfree rfl]
      exact nil_prefix
    · next hquorum =>
      rw [if_neg hquorum]
      exact h.rests rfl hsound fun hl =>
        ⟨(hcounted.role_eq hbeaten).symm.trans hl, hterm, hcounted.log_eq⟩

theorem Writer.finishHeartbeats (hready : Ready p.node)
    (results : List (NodeId × Option AppendEntriesResp)) (settles : Bool) :
    Rests history p (p.finishHeartbeats results settles) := by
  obtain ⟨-, hanswered⟩ := readAnswers_spec results (Proceeds.refl hready)
  have hsound : Sound history (p.node.readAnswers results).log := by
    rw [hanswered.log_eq]
    exact h.sound
  have hleader : (p.node.readAnswers results).role = .leader → p.node.role = .leader ∧
      (p.node.readAnswers results).state.currentTerm = p.node.state.currentTerm ∧
        (p.node.readAnswers results).log = p.node.log := by
    intro hl
    obtain ⟨hold, hstate⟩ := hanswered.leader hl
    exact ⟨hold, congrArg RaftPersistentState.currentTerm hstate, hanswered.log_eq⟩
  rw [Process.finishHeartbeats]
  split <;> exact h.rests rfl hsound hleader

/-- **What a stretch does to the logs.**  It writes to the history at most as the leader of a
term, and what it keeps and sends agrees with the history. -/
theorem stretch_writer (hready : Ready p.node)
    (hrequests : ∀ call, .appendRequest call ∈ network → Excerpt history call.req)
    (hcalm : ∀ command ticket, input = .propose command ticket → command.reread = command)
    (hfree : p.InElection → p'.node.role = .leader → history p.node.state.currentTerm = [])
    (hstretch : Stretch i network id p input p' sent) :
    ∃ history', Writes p p' history history' ∧ Writer history' p' ∧ Continues p p' ∧
      ∀ call, .appendRequest call ∈ sent → Excerpt history' call.req := by
  have hrests : Rests history p p' → (∀ call, .appendRequest call ∉ sent) →
      ∃ history', Writes p p' history history' ∧ Writer history' p' ∧ Continues p p' ∧
        ∀ call, .appendRequest call ∈ sent → Excerpt history' call.req := by
    rintro ⟨history', hwrites, hwriter, hnot⟩ hsent
    exact ⟨history', hwrites, hwriter, fun he => absurd he hnot,
      fun call hmem => absurd hmem (hsent call)⟩
  have hgoes : Writer history p' ∧ Continues p p' →
      (∀ call, .appendRequest call ∈ sent → Excerpt history call.req) →
      ∃ history', Writes p p' history history' ∧ Writer history' p' ∧ Continues p p' ∧
        ∀ call, .appendRequest call ∈ sent → Excerpt history' call.req :=
    fun hgo hsent => ⟨history, .inl rfl, hgo.1, hgo.2, hsent⟩
  cases hstretch with
  | @vote _ call hphase hmem hdst =>
    refine hrests (h.rests hphase ?_ fun hl => ?_) (by simp)
    · change Sound history (p.node.handleRequestVote call.req).1.log
      rw [handleRequestVote_log]
      exact h.sound
    · obtain ⟨hold, hterm⟩ := leader_of_handleRequestVote call.req hl
      exact ⟨hold, hterm, handleRequestVote_log call.req⟩
  | @append _ call hphase hmem hdst =>
    obtain ⟨-, hleader, happended⟩ := handleAppendEntries_spec hready call.req.received
    have hexcerpt := hrequests call hmem
    refine hrests (h.rests hphase ?_ fun hl => ?_) (by simp)
    · rw [hexcerpt.received_eq] at happended
      change Sound history (p.node.handleAppendEntries call.req.received).1.log
      rw [hexcerpt.received_eq]
      exact h.sound.appended hexcerpt happended
    · have heq := hleader hl
      exact ⟨heq ▸ hl, congrArg (·.state.currentTerm) heq, congrArg (·.log) heq⟩
  | @propose command ticket hphase =>
    exact hrests (h.propose hphase (hcalm command ticket rfl) ticket) (by simp)
  | electionTimeout hphase =>
    refine hgoes ⟨⟨h.sound, fun _ => Nat.le_add_left 1 _, ?_, ?_⟩,
      fun _ => .inr (Nat.lt_succ_self _)⟩ (by simp)
    · rintro ⟨⟩
    · rintro _ _ _ _ ⟨⟩
  | heartbeatTick hphase hleader =>
    exact hgoes (h.enter_beating (excerpt_heartbeats h.sound)) (by simp)
  | applyCommitted hphase =>
    exact hrests (h.rests hphase h.sound fun hl => ⟨hl, rfl, rfl⟩) (by simp)
  | askVote hphase => exact hgoes (h.enter_electing ⟨_, _, _, hphase⟩) (by simp)
  | @askAppend peer req todo results settles hphase =>
    have htodo := h.todo _ _ _ _ hphase
    refine hgoes (h.enter_beating htodo) fun call hmem => ?_
    cases mem_singleton.mp hmem
    exact htodo _ mem_cons_self
  | loseVote hphase | takeVote hphase =>
    exact hgoes (h.enter_electing ⟨_, _, _, hphase⟩) (by simp)
  | endAppend hphase =>
    exact hgoes (h.enter_beating (forall_mem_cons.mp (h.todo _ _ _ _ hphase)).2) (by simp)
  | finishElection hphase =>
    have helection : p.InElection := ⟨_, _, _, hphase⟩
    exact hrests (h.finishElection helection _ (hfree helection)) (by simp)
  | finishHeartbeats hphase => exact hrests (h.finishHeartbeats hready _ _) (by simp)

end

end Stretches

/-! ## The cluster -/

/-- What holds of the logs of a cluster and the history. -/
structure Logs (m : Membership) (history : ℕ → List RaftLogEntry) (s : Cluster) : Prop where
  disk : ∀ i, Sound history (s.servers i).disk.log
  up : ∀ i p, s.servers i = .up p → Writer history p
  requests : ∀ call, .appendRequest call ∈ s.network → Excerpt history call.req
  used : ∀ t, history t ≠ [] → ∃ c ∈ m.members, Won m s.network c t ∧
    t ≤ (s.servers c).disk.state.currentTerm ∧
      ∀ p, s.servers c = .up p → p.InElection → p.node.state.currentTerm ≠ t

theorem logs_initial (m : Membership) : Logs m (fun _ => []) .initial where
  disk := fun _ => Sound.nil
  up := by
    rintro _ _ ⟨⟩
  requests := by
    rintro _ ⟨⟩
  used := fun t hne => absurd rfl hne

section Steps

variable {s s' : Cluster} {server : Server} {sent : List Message}

/-- A leader keeps its log in the history when another process writes to it. -/
theorem Writer.of_writes (hel : Elections m s) (hup : s.servers i = .up p)
    (hlocal : Local m s.network i p') (hwrites : Writes p p' history history') {j : NodeId}
    (hne : j ≠ i) {q : Process} (hq : s.servers j = .up q) (h : Writer history q) :
    Writer history' q where
  sound := h.sound.mono hwrites.isPrefix
  term_pos := h.term_pos
  leader := by
    intro hl
    rw [← h.leader hl]
    rcases hwrites with rfl | ⟨rfl, -, hleader, hterm, -⟩
    · rfl
    · refine Function.update_of_ne (fun heq => hne ?_) _ _
      -- the two would lead the same term
      obtain ⟨hj, hlocalj⟩ := hel.up j q hq
      have hwonj := hlocalj.leader hl
      have hwoni := hlocal.leader hleader
      rw [heq] at hwonj
      rw [hterm] at hwoni
      exact hel.won_unique hj (hel.up i p hup).1 hwonj hwoni
  todo := fun todo waiting results settles hphase request hmem =>
    (h.todo todo waiting results settles hphase request hmem).mono hwrites.isPrefix

/-- A stretch of a process ends, or is cut off after a save. -/
theorem Logs.advance (h : Logs m history s) (hel : Elections m s) (hup : s.servers i = .up p)
    (hlocal : Local m s.network i p') (hwrites : Writes p p' history history')
    (hservers : ∀ j, s'.servers j = if j = i then server else s.servers j)
    (hnetwork : s'.network = s.network ++ sent) (hdisk : Sound history' server.disk.log)
    (hserver : ∀ q, server = .up q → q = p' ∧ Writer history' q ∧ Continues p q)
    (hterm : p.node.state.currentTerm ≤ server.disk.state.currentTerm)
    (hsent : ∀ call, .appendRequest call ∈ sent → Excerpt history' call.req) :
    Logs m history' s' := by
  have hi : i ∈ m.members := (hel.up i p hup).1
  have hsub : s.network ⊆ s'.network := by
    rw [hnetwork]
    exact subset_append_left _ _
  have holdterm : (s.servers i).disk.state.currentTerm = p.node.state.currentTerm := by
    rw [hup]
    exact congrArg RaftPersistentState.currentTerm (hel.up i p hup).2.disk_state
  refine ⟨?_, ?_, ?_, ?_⟩
  · intro j
    rw [hservers]
    split
    · exact hdisk
    · exact (h.disk j).mono hwrites.isPrefix
  · intro j q hq
    rw [hservers] at hq
    split at hq
    · exact (hserver q hq).2.1
    · next hne => exact Writer.of_writes hel hup hlocal hwrites hne hq (h.up j q hq)
  · intro call hmem
    rw [hnetwork] at hmem
    rcases mem_append.mp hmem with hmem | hmem
    · exact (h.requests call hmem).mono hwrites.isPrefix
    · exact hsent call hmem
  · intro t hne
    by_cases hold : history t = []
    · -- the leader of the term has just written its first entry
      obtain rfl | ⟨heq, -, hleader, hsame, hnot⟩ := hwrites
      · exact absurd hold hne
      · have ht : t = p.node.state.currentTerm := by
          by_contra hdiff
          rw [heq, Function.update_of_ne hdiff] at hne
          exact hne hold
        have hwon := hlocal.leader hleader
        rw [hsame, ← ht] at hwon
        refine ⟨i, hi, hwon.mono hsub, ?_, ?_⟩
        · rw [hservers, if_pos rfl, ht]
          exact hterm
        · intro q hq hin
          rw [hservers, if_pos rfl] at hq
          rw [(hserver q hq).1] at hin
          exact absurd hin hnot
    · obtain ⟨c, hc, hwon, hle, helection⟩ := h.used t hold
      refine ⟨c, hc, hwon.mono hsub, ?_, ?_⟩
      · rw [hservers]
        split
        · next hci =>
          rw [hci, holdterm] at hle
          exact hle.trans hterm
        · exact hle
      · intro q hq hin
        rw [hservers] at hq
        split at hq
        · next hci =>
          rw [hci, holdterm] at hle
          rw [hci] at helection
          rcases (hserver q hq).2.2 hin with ⟨hinp, hsame⟩ | hlt
          · rw [hsame]
            exact helection p hup hinp
          · omega
        · exact helection q hq hin

theorem term_of_elected {network : List Message} {id : ℕ}
    (hstretch : Stretch i network id p input p' sent) (hin : p.InElection)
    (hleader : p'.node.role = .leader) : p'.node.state.currentTerm = p.node.state.currentTerm := by
  cases hstretch with
  | vote hphase | append hphase | propose hphase | electionTimeout hphase
  | heartbeatTick hphase | applyCommitted hphase => exact absurd hin (not_inElection_of_idle hphase)
  | askVote | askAppend | loseVote | takeVote | endAppend => rfl
  | @finishElection waiting results hphase =>
    have hcounted := counted_countVotes p.node.state.currentTerm results p.node
    rw [Process.finishElection] at hleader ⊢
    split at hleader
    · next hbeaten => exact absurd (hleader.symm.trans (hcounted.beaten hbeaten)) (by decide)
    · next hnot =>
      have hstate := congrArg RaftPersistentState.currentTerm
        (hcounted.state_eq (Bool.eq_false_iff.mpr hnot))
      rw [if_neg hnot]
      split <;> exact hstate
  | finishHeartbeats hphase =>
    obtain ⟨todo, waiting, results, heq⟩ := hin
    exact absurd (hphase.symm.trans heq) (by simp)

/-- The commands that are proposed come back from JSON as they were. -/
def Calm : Action → Prop
  | .act _ (.propose command _) => command.reread = command
  | .cut _ (.propose command _) _ => command.reread = command
  | _ => True

/-- What a stretch of a running member does to its log and to the history. -/
theorem Logs.stretch (h : Logs m history s) (hel : Elections m s) (hi : i ∈ m.members)
    (hup : s.servers i = .up p)
    (hcalm : ∀ command ticket, input = .propose command ticket → command.reread = command)
    (hst : Stretch i s.network s.calls p.fresh input p' sent) :
    Local m s.network i p' ∧ Proceeds p.fresh.node p'.node ∧
      ∃ history', Writes p p' history history' ∧ Writer history' p' ∧ Continues p p' ∧
        ∀ call, .appendRequest call ∈ sent → Excerpt history' call.req := by
  have hlocal := (hel.up i p hup).2
  obtain ⟨hlocal', hproceeds, -⟩ := stretch_local hlocal.fresh hlocal.ready_fresh hi hst
  have hw := h.up i p hup
  have hwriter : Writer history p.fresh := ⟨hw.sound, hw.term_pos, hw.leader, hw.todo⟩
  have hfree : p.fresh.InElection → p'.node.role = .leader →
      history p.fresh.node.state.currentTerm = [] := by
    -- were the term in use, its winner would be this candidate
    intro hin hleader
    by_contra hne
    obtain ⟨c, hc, hwon, -, helection⟩ := h.used _ hne
    have hwon' := hlocal'.leader hleader
    rw [term_of_elected hst hin hleader] at hwon'
    have hci : c = i := hel.won_unique hc hi hwon hwon'
    rw [hci] at helection
    exact helection p hup hin rfl
  have hresult := stretch_writer hwriter hlocal.ready_fresh h.requests hcalm hfree hst
  exact ⟨hlocal', hproceeds, hresult⟩

/-- **Every step of the cluster keeps its logs in agreement.** -/
theorem Logs.step (h : Logs m history s) (hel : Elections m s) {action : Action}
    (hcalm : Calm action) (hstep : s.Step m action s') : ∃ history', Logs m history' s' := by
  cases hstep with
  | @start i disk hi hdown =>
    have hdisk := h.disk i
    rw [hdown] at hdisk
    refine ⟨history, ?_, ?_, h.requests, ?_⟩
    · intro j
      rw [Cluster.set_servers]
      split
      · exact hdisk
      · exact h.disk j
    · intro j q hq
      rw [Cluster.set_servers] at hq
      split at hq
      · cases hq
        refine ⟨hdisk, ?_, ?_, ?_⟩
        · rintro (hl | ⟨todo, waiting, results, hphase⟩)
          · cases hl
          · cases hphase
        · rintro ⟨⟩
        · rintro _ _ _ _ ⟨⟩
      · exact h.up j q hq
    · intro t hne
      obtain ⟨c, hc, hwon, hle, helection⟩ := h.used t hne
      refine ⟨c, hc, hwon, ?_, ?_⟩
      · rw [Cluster.set_servers]
        split
        · next hci =>
          rw [hci, hdown] at hle
          exact hle
        · exact hle
      · intro q hq hin
        rw [Cluster.set_servers] at hq
        split at hq
        · cases hq
          exact absurd hin (not_inElection_of_idle rfl)
        · exact helection q hq hin
  | @crash i p hi hup =>
    have hlocal := (hel.up i p hup).2
    have hdisk := h.disk i
    rw [hup] at hdisk
    refine ⟨history, h.advance hel hup hlocal (.inl rfl) (Cluster.set_servers i · _)
      (append_nil _).symm hdisk (fun q hq => by cases hq) ?_
      (fun call hmem => by cases hmem)⟩
    change p.node.state.currentTerm ≤ p.node.disk.state.currentTerm
    rw [hlocal.disk_eq]
    exact le_rfl
  | @act i p p' input sent hi hup hst =>
    obtain ⟨hlocal', hproceeds, history', hwrites, hwriter, hcontinues, hsent⟩ :=
      h.stretch hel hi hup (fun command ticket heq => by subst heq; exact hcalm) hst
    refine ⟨history', h.advance hel hup hlocal' hwrites (Cluster.commit_servers i · p' sent) rfl
      ?_ ?_ ?_ hsent⟩
    · change Sound history' p'.node.disk.log
      rw [hproceeds.disk_eq, RaftNode.files, hwriter.sound.stable.map_reread]
      exact hwriter.sound
    · intro q hq
      cases hq
      exact ⟨rfl, hwriter, hcontinues⟩
    · change p.node.state.currentTerm ≤ p'.node.disk.state.currentTerm
      rw [hproceeds.disk_eq]
      exact hproceeds.later.term_le
  | @cut i p p' input sent save disk hi hup hst hdisk =>
    obtain ⟨hlocal', hproceeds, history', hwrites, hwriter, -, -⟩ :=
      h.stretch hel hi hup (fun command ticket heq => by subst heq; exact hcalm) hst
    obtain ⟨hlater, hlog⟩ := hproceeds.trail disk hdisk
    refine ⟨history', h.advance hel hup hlocal' hwrites (Cluster.set_servers i · _)
      (append_nil _).symm ?_ (fun q hq => by cases hq) hlater.term_le
      (fun call hmem => by cases hmem)⟩
    change Sound history' disk.log
    rcases hlog with hlog | hlog
    · have hsound := (h.up i p hup).sound
      rw [hlog]
      change Sound history' (p.node.log.map RaftLogEntry.reread)
      rw [hsound.stable.map_reread]
      exact hsound.mono hwrites.isPrefix
    · rw [hlog, RaftNode.files, hwriter.sound.stable.map_reread]
      exact hwriter.sound

end Steps

/-! ## Runs -/

/-- The log of a member: the one in memory, or that of its files when it is down. -/
def Server.log : Server → List RaftLogEntry
  | .down disk => disk.log
  | .up p => p.node.log

/-- Indices count from one, and logs that hold entries of one index and term are the same up
to there. -/
def LogsMatch (s : Cluster) : Prop :=
  (∀ i, (s.servers i).log.map RaftLogEntry.index = List.range' 1 (s.servers i).log.length) ∧
    ∀ i j, ∀ e ∈ (s.servers i).log, ∀ e' ∈ (s.servers j).log, e.index = e'.index →
      e.term = e'.term →
        ((s.servers i).log.filter fun x => x.index ≤ e.index) =
          (s.servers j).log.filter fun x => x.index ≤ e.index

theorem Numbered.map_index {log : List RaftLogEntry} (h : Numbered log) :
    log.map RaftLogEntry.index = List.range' 1 log.length := by
  refine ext_getElem (by simp) fun k hk _ => ?_
  rw [length_map] at hk
  have hindex := (h k _ (getElem?_eq_getElem hk)).1
  rw [getElem_map, getElem_range', hindex]
  omega

namespace Cluster

variable {s : Cluster}

theorem Logs.sound_log (h : Logs m history s) (i : NodeId) : Sound history (s.servers i).log := by
  cases hserver : s.servers i with
  | down disk =>
    have hdisk := h.disk i
    rw [hserver] at hdisk
    exact hdisk
  | up p => exact (h.up i p hserver).sound

/-- A collection with a contracted recall. -/
def collection (recallSla : F32) : CatalogCommand :=
  .createCollection
    { name := "docs", vectorDim := 4, metric := .cosine, shards := 1, replicas := 1
      quantization := none, payloadSchema := ∅, namedVectorDims := ∅, hnswM := none
      hnswEfConstruction := none, hnswEfSearch := none, recallSla := some recallSla
      indexKind := none, streamerMaxBytes := 0 }

/-- The first member is elected, and creates a collection that reaches the second. -/
def replicate (command : CatalogCommand) : List Action :=
  firstElection ++ [.act 1 .ask, .act 2 (.deliver 2), .act 1 (.answer (some 3)), .act 1 .conclude,
    .act 1 (.propose command 0), .act 1 .ask, .act 2 (.deliver 4)]

/-- What an entry says about the recall of a collection. -/
def recallOf (e : RaftLogEntry) : ℕ × ℕ × Option F32 :=
  (e.index, e.term,
    match e.command with
    | .createCollection config => config.recallSla
    | _ => none)

/-- **Every entry was written in a term that one member won.**  In every run whose proposals survive
JSON, the term of each entry of each log has exactly one winner among the members. -/
theorem entries_elected (m : Membership) {actions : List Action}
    (hcalm : ∀ action ∈ actions, Calm action) (hrun : initial.run m actions = some s) (i : NodeId)
    {e : RaftLogEntry} (he : e ∈ (s.servers i).log) :
    ∃! c, c ∈ m.members ∧ Won m s.network c e.term := by
  obtain ⟨hel, history, h⟩ := @run_invariant m initial s
    (fun c => Elections m c ∧ ∃ history, Logs m history c) Calm
    (fun c action c' hallowed hinv hstep => by
      obtain ⟨hel, history, hlogs⟩ := hinv
      exact ⟨hel.step hstep, hlogs.step hel hallowed hstep⟩)
    actions hcalm ⟨elections_initial m, _, logs_initial m⟩ hrun
  obtain ⟨k, hk⟩ := mem_iff_getElem?.mp he
  have hmem : e ∈ history e.term := ((Logs.sound_log h i).agrees k e hk).mem
    (mem_of_getElem? (by rwa [getElem?_take_of_lt k.lt_succ_self]))
  obtain ⟨c, hc, hwon, -⟩ := h.used e.term (ne_nil_of_mem hmem)
  exact ⟨c, ⟨hc, hwon⟩, fun c' h' => hel.won_unique h'.1 hc h'.2 hwon⟩

theorem entries_elected_firstElection :
    ∃ s, ∃ e ∈ (s.servers 1).log, initial.run pair firstElection = some s ∧
      ∃! c, c ∈ pair.members ∧ Won pair s.network c e.term := by
  have hcalm : ∀ action ∈ firstElection, Calm action := by simp [firstElection, Calm]
  have hentry : ∃ s, ∃ e ∈ (s.servers 1).log, initial.run pair firstElection = some s :=
    ⟨_, _, .head _, rfl⟩
  obtain ⟨s, e, he, hrun⟩ := hentry
  exact ⟨s, e, he, hrun, entries_elected pair hcalm hrun 1 he⟩

end Cluster

end ChironDB.Raft
