/-
# Planning deferred edges

What `plan_deferred` and `apply_deferred_plan` do to the sessions and the pending edges.

* A plan works on updates that are laid over the pending edges of the state
  (`DeferredMutationPlan.projected`), and applying it leaves exactly those
  (`applyDeferredPlan_spec`).
* `pending_by_endpoint` is an index: under every key it lists the missing endpoints of the pending
  edges that have this key, each once (`IndexExact`).  Removing an edge and writing it back keep it
  exact, also where the two endpoints of an edge are one point.
* An accepted plan is `Planned`: it only opens sessions that are new and only ends open ones, binds
  endpoints that were missing, leaves no pending edge with two bound endpoints and none of an ended
  session, and every edge that stops being pending is either promoted or aborted.
-/

import ChironDB.Graph.Mutable

namespace ChironDB.Graph.State

open Fault Tables List

/-! ## The reverse index -/

abbrev EndpointIndex := Table EndpointKey (List (EdgeId × GraphDeferredEndpoint))

/-- What the index lists under a key. -/
def EndpointIndex.at (index : EndpointIndex) (key : EndpointKey) :
    List (EdgeId × GraphDeferredEndpoint) := (index.lookup key).getD []

/-- The index lists the missing endpoints of the pending edges, each once. -/
def IndexExact (index : EndpointIndex) (pending : TreeMap EdgeId PendingEdge) : Prop :=
  ∀ key, (EndpointIndex.at index key).Nodup ∧ ∀ edgeId endpoint,
    (edgeId, endpoint) ∈ EndpointIndex.at index key ↔ ∃ edge, pending.get edgeId = some edge ∧
      edge.nid endpoint = none ∧ edge.endpointKey endpoint = key

theorem indexExact_empty : IndexExact ∅ .empty := by
  intro key
  simp [EndpointIndex.at]

namespace MutableGraphState

theorem at_indexEndpoint (pending : PendingEdge) (index : EndpointIndex)
    (endpoint : GraphDeferredEndpoint) (key : EndpointKey) :
    EndpointIndex.at (indexEndpoint pending index endpoint) key = EndpointIndex.at index key ++
      if pending.nid endpoint = none ∧ pending.endpointKey endpoint = key
      then [(pending.edgeId, endpoint)] else [] := by
  rw [indexEndpoint, EndpointIndex.at, EndpointIndex.at]
  by_cases hnid : pending.nid endpoint = none
  · rw [if_pos (by rw [hnid]; rfl), lookup_insert_eq]
    by_cases hkey : pending.endpointKey endpoint = key
    · rw [if_pos hkey.symm, if_pos ⟨hnid, hkey⟩, hkey]
      rfl
    · rw [if_neg (Ne.symm hkey), if_neg (fun h => hkey h.2), append_nil]
  · rw [if_neg (by rwa [Option.isNone_iff_eq_none]), if_neg (fun h => hnid h.1), append_nil]

theorem at_unindexEndpoint (pending : PendingEdge) (index : EndpointIndex)
    (endpoint : GraphDeferredEndpoint) (key : EndpointKey) :
    EndpointIndex.at (unindexEndpoint pending index endpoint) key =
      if pending.endpointKey endpoint = key
      then (EndpointIndex.at index key).filter (·.1 ≠ pending.edgeId)
      else EndpointIndex.at index key := by
  rw [unindexEndpoint, EndpointIndex.at, EndpointIndex.at]
  cases hentries : index.lookup (pending.endpointKey endpoint) with
  | none =>
    dsimp only
    split
    · next hkey =>
      rw [← hkey, hentries]
      rfl
    · rfl
  | some entries =>
    dsimp only
    by_cases hkey : pending.endpointKey endpoint = key
    · subst hkey
      rw [if_pos rfl, hentries]
      split
      · next hempty =>
        rw [AList.lookup_erase]
        exact (isEmpty_iff.mp hempty).symm
      · rw [AList.lookup_insert]
        rfl
    · rw [if_neg hkey]
      split
      · rw [AList.lookup_erase_ne (Ne.symm hkey)]
      · rw [AList.lookup_insert_ne (Ne.symm hkey)]

end MutableGraphState

open MutableGraphState

variable {edge : PendingEdge} {edgeId : EdgeId} {sessionId : String} {next : DeferredMutationPlan}

namespace IndexExact

variable {index : EndpointIndex} {pending : TreeMap EdgeId PendingEdge}

theorem remove (h : IndexExact index pending) (hedge : pending.get edge.edgeId = some edge) :
    IndexExact ([.source, .target].foldl (unindexEndpoint edge) index)
      (pending.remove edge.edgeId) := by
  intro key
  -- under a key that is not the edge's there is nothing to take out
  have hat : EndpointIndex.at ([.source, .target].foldl (unindexEndpoint edge) index) key =
      (EndpointIndex.at index key).filter (·.1 ≠ edge.edgeId) := by
    rw [foldl_cons, foldl_cons, foldl_nil, at_unindexEndpoint, at_unindexEndpoint]
    by_cases htarget : edge.endpointKey .target = key
    · rw [if_pos htarget]
      split
      · rw [filter_filter]
        simp
      · rfl
    · rw [if_neg htarget]
      by_cases hsource : edge.endpointKey .source = key
      · rw [if_pos hsource]
      · rw [if_neg hsource, filter_eq_self.mpr]
        rintro ⟨edgeId, endpoint⟩ hmem
        rw [decide_eq_true_eq]
        rintro rfl
        obtain ⟨other, hother, -, hkey⟩ := ((h key).2 _ endpoint).mp hmem
        rw [hedge, Option.some.injEq] at hother
        subst hother
        cases endpoint
        · exact hsource hkey
        · exact htarget hkey
  rw [hat]
  refine ⟨(h key).1.filter _, fun edgeId endpoint => ?_⟩
  rw [mem_filter, (h key).2, decide_eq_true_eq]
  constructor
  · rintro ⟨⟨other, hother, hnid, hkey⟩, hne⟩
    exact ⟨other, by rw [TreeMap.get_remove, if_neg hne, hother], hnid, hkey⟩
  · rintro ⟨other, hother, hnid, hkey⟩
    rw [TreeMap.get_remove] at hother
    split at hother
    · cases hother
    · next hne => exact ⟨⟨other, hother, hnid, hkey⟩, hne⟩

theorem insert (h : IndexExact index pending) (hedge : pending.get edge.edgeId = none) :
    IndexExact ([.source, .target].foldl (indexEndpoint edge) index)
      (pending.insert edge.edgeId edge) := by
  intro key
  have hfresh : ∀ endpoint, (edge.edgeId, endpoint) ∉ EndpointIndex.at index key := by
    intro endpoint hmem
    obtain ⟨other, hother, -⟩ := ((h key).2 _ endpoint).mp hmem
    rw [hedge] at hother
    cases hother
  rw [foldl_cons, foldl_cons, foldl_nil, at_indexEndpoint, at_indexEndpoint]
  have hmem : ∀ edgeId endpoint, (edgeId, endpoint) ∈ EndpointIndex.at index key ++
        (if edge.nid .source = none ∧ edge.endpointKey .source = key
          then [(edge.edgeId, .source)] else []) ++
        (if edge.nid .target = none ∧ edge.endpointKey .target = key
          then [(edge.edgeId, .target)] else []) ↔
      (edgeId, endpoint) ∈ EndpointIndex.at index key ∨
        edgeId = edge.edgeId ∧ edge.nid endpoint = none ∧ edge.endpointKey endpoint = key := by
    intro edgeId endpoint
    rw [mem_append, mem_append, or_assoc]
    refine or_congr_right ?_
    cases endpoint
    · by_cases hcond : edge.nid .source = none ∧ edge.endpointKey .source = key
      · simp [hcond]
      · simp [hcond]
    · by_cases hcond : edge.nid .target = none ∧ edge.endpointKey .target = key
      · simp [hcond]
      · simp [hcond]
  refine ⟨?_, fun edgeId endpoint => ?_⟩
  · refine ((h key).1.append (by split <;> simp) ?_).append (by split <;> simp) ?_
    · intro entry hold hnew
      split at hnew
      · exact hfresh .source (mem_singleton.mp hnew ▸ hold)
      · exact absurd hnew not_mem_nil
    · intro entry hold hnew
      split at hnew
      · rw [mem_singleton.mp hnew, mem_append] at hold
        rcases hold with hold | hold
        · exact hfresh .target hold
        · split at hold
          · simp at hold
          · exact absurd hold not_mem_nil
      · exact absurd hnew not_mem_nil
  · rw [hmem, (h key).2]
    constructor
    · rintro (⟨other, hother, hrest⟩ | ⟨rfl, hrest⟩)
      · refine ⟨other, ?_, hrest⟩
        rw [TreeMap.get_insert, if_neg, hother]
        rintro rfl
        rw [hedge] at hother
        cases hother
      · exact ⟨edge, TreeMap.get_insert_self _ _, hrest⟩
    · rintro ⟨other, hother, hrest⟩
      rcases TreeMap.of_get_insert hother with ⟨heq, rfl⟩ | ⟨-, hother⟩
      · exact .inr ⟨heq, hrest⟩
      · exact .inl ⟨other, hother, hrest⟩

end IndexExact

/-! ## Applying a plan -/

/-- Every pending edge is kept under its own identity and the index is exact. -/
structure PendingWellFormed (graph : MutableGraphState) : Prop where
  keyed : ∀ {edgeId edge}, graph.pendingEdges.get edgeId = some edge → edge.edgeId = edgeId
  exact : IndexExact graph.pendingByEndpoint graph.pendingEdges

variable {plan : DeferredMutationPlan} {graph : MutableGraphState}

namespace MutableGraphState

/-- One update replaces one pending edge and touches nothing else. -/
theorem applyPendingUpdate_spec (h : PendingWellFormed graph)
    {update : Option PendingEdge} (hkey : ∀ edge, update = some edge → edge.edgeId = edgeId) :
    ∃ pending index, applyPendingUpdate graph (edgeId, update) =
        { graph with pendingEdges := pending, pendingByEndpoint := index } ∧
      (∀ other, pending.get other = if other = edgeId then update
        else graph.pendingEdges.get other) ∧
      IndexExact index pending := by
  -- the state after the removal, whether or not there was an edge to remove
  obtain ⟨pending, index, hremoved, hget, hexact⟩ : ∃ pending index,
      applyPendingUpdate graph (edgeId, none) =
        { graph with pendingEdges := pending, pendingByEndpoint := index } ∧
      (∀ other, pending.get other = if other = edgeId then none
        else graph.pendingEdges.get other) ∧ IndexExact index pending := by
    cases hprevious : graph.pendingEdges.get edgeId with
    | none =>
      refine ⟨graph.pendingEdges, graph.pendingByEndpoint, ?_, fun other => ?_, h.exact⟩
      · simp only [applyPendingUpdate, hprevious]
      · split
        · next heq => rw [heq, hprevious]
        · rfl
    | some previous =>
      obtain rfl := h.keyed hprevious
      refine ⟨_, _, ?_, fun other => TreeMap.get_remove _ _ _, h.exact.remove hprevious⟩
      simp only [applyPendingUpdate, hprevious]
  cases update with
  | none => exact ⟨pending, index, hremoved, hget, hexact⟩
  | some edge =>
    obtain rfl := hkey edge rfl
    refine ⟨pending.insert edge.edgeId edge,
      [.source, .target].foldl (indexEndpoint edge) index, ?_, fun other => ?_,
      hexact.insert (by rw [hget, if_pos rfl])⟩
    · have happly : applyPendingUpdate graph (edge.edgeId, some edge) =
          { applyPendingUpdate graph (edge.edgeId, none) with
            pendingEdges := (applyPendingUpdate graph (edge.edgeId, none)).pendingEdges.insert
              edge.edgeId edge
            pendingByEndpoint := [.source, .target].foldl (indexEndpoint edge)
              (applyPendingUpdate graph (edge.edgeId, none)).pendingByEndpoint } := rfl
      rw [happly, hremoved]
    · rw [TreeMap.get_insert]
      split
      · rfl
      · next hne => rw [hget, if_neg hne]

theorem applyPendingUpdates_spec {updates : List (EdgeId × Option PendingEdge)}
    (hupdates : Ascending updates) (h : PendingWellFormed graph)
    (hkeys : ∀ edgeId edge, (edgeId, some edge) ∈ updates → edge.edgeId = edgeId) :
    ∃ pending index, updates.foldl applyPendingUpdate graph =
        { graph with pendingEdges := pending, pendingByEndpoint := index } ∧
      (∀ other, pending.get other = (updates.lookup other).getD (graph.pendingEdges.get other)) ∧
      IndexExact index pending := by
  induction updates generalizing graph with
  | nil => exact ⟨_, _, rfl, fun other => rfl, h.exact⟩
  | cons head updates ih =>
    obtain ⟨edgeId, update⟩ := head
    rw [ascending_cons] at hupdates
    have hkey : ∀ edge, update = some edge → edge.edgeId = edgeId :=
      fun edge heq => hkeys edgeId edge (by rw [heq]; exact mem_cons_self)
    obtain ⟨pending, index, hhead, hget, hexact⟩ := applyPendingUpdate_spec h hkey
    rw [foldl_cons, hhead]
    have hwell : PendingWellFormed
        { graph with pendingEdges := pending, pendingByEndpoint := index } := by
      refine ⟨fun {other edge} hother => ?_, hexact⟩
      change pending.get other = some edge at hother
      rw [hget] at hother
      split at hother
      · next heq =>
        rw [heq]
        exact hkeys edgeId edge (by rw [hother]; exact mem_cons_self)
      · exact h.keyed hother
    obtain ⟨pending', index', htail, hget', hexact'⟩ := ih hupdates.2 hwell
      fun other edge hmem => hkeys other edge (mem_cons_of_mem _ hmem)
    refine ⟨pending', index', htail, fun other => ?_, hexact'⟩
    rw [hget', lookup_cons_eq]
    change (updates.lookup other).getD (pending.get other) = _
    rw [hget]
    split
    · next heq =>
      -- a key occurs once among the updates
      have hnone : updates.lookup other = none := by
        rw [heq, lookup_eq_none_iff]
        intro entry hentry
        exact bne_iff_ne.mpr (ne_of_lt (hupdates.1 entry hentry))
      rw [hnone]
      rfl
    · rfl

/-- **Applying a plan leaves what it projects.** -/
theorem applyDeferredPlan_spec (h : PendingWellFormed graph)
    (hkeys : ∀ edgeId edge, plan.pendingUpdates.get edgeId = some (some edge) →
      edge.edgeId = edgeId) :
    ∃ pending index sessions, graph.applyDeferredPlan plan = { graph with
        edgeIds := graph.edgeIds ∪ plan.createdEdgeIds.toFinset
        deferredSessions := sessions
        pendingEdges := pending
        pendingByEndpoint := index
        edgeTombstones := graph.edgeTombstones ∪ plan.abortedEdgeIds.toFinset } ∧
      (∀ edgeId, pending.get edgeId = plan.projected graph edgeId) ∧
      (∀ sessionId, sessions.lookup sessionId = plan.session graph sessionId) ∧
      IndexExact index pending := by
  have hopened : PendingWellFormed { graph with
      edgeIds := graph.edgeIds ∪ plan.createdEdgeIds.toFinset
      deferredSessions := plan.sessionUpdates.entries.foldl
        (fun sessions entry => sessions.insert entry.1 entry.2) graph.deferredSessions } :=
    ⟨h.keyed, h.exact⟩
  obtain ⟨pending, index, happly, hget, hexact⟩ := applyPendingUpdates_spec
    plan.pendingUpdates.ascending hopened
    fun edgeId edge hmem => hkeys edgeId edge (TreeMap.get_eq_some_iff.mpr hmem)
  refine ⟨pending, index, _, ?_, hget, fun sessionId => lookup_foldl_insert _ _ _, hexact⟩
  rw [applyDeferredPlan, happly]

end MutableGraphState

/-! ## What a plan may do -/

namespace PendingEdge

/-- The endpoints that an edge has bound stay bound. -/
structure Grows (old new : PendingEdge) : Prop where
  session : new.sessionId = old.sessionId
  openingLsn : new.openingLsn = old.openingLsn
  nid : ∀ {endpoint nid}, old.nid endpoint = some nid → new.nid endpoint = some nid

section

variable (edge : PendingEdge)

theorem Grows.refl : edge.Grows edge := ⟨rfl, rfl, id⟩

section

variable (endpoint : GraphDeferredEndpoint)

@[simp] theorem bind_sessionId (nid : Nid) :
    (edge.bind nid endpoint).sessionId = edge.sessionId := by
  cases endpoint <;> rfl

@[simp] theorem bind_openingLsn (nid : Nid) :
    (edge.bind nid endpoint).openingLsn = edge.openingLsn := by
  cases endpoint <;> rfl

@[simp] theorem bind_edgeId (nid : Nid) :
    (edge.bind nid endpoint).edgeId = edge.edgeId := by
  cases endpoint <;> rfl

end

end

theorem Grows.bind {old : PendingEdge} (h : old.Grows edge) {endpoint : GraphDeferredEndpoint}
    (hmissing : edge.nid endpoint = none) (nid : Nid) : old.Grows (edge.bind nid endpoint) := by
  refine ⟨(bind_sessionId ..).trans h.session, (bind_openingLsn ..).trans h.openingLsn, ?_⟩
  intro other bound hbound
  have hkept := h.nid hbound
  cases endpoint <;> cases other
  · cases hmissing.symm.trans hkept
  · exact hkept
  · exact hkept
  · cases hmissing.symm.trans hkept

theorem promotion_eq_none_iff :
    edge.promotion = none ↔ ∃ endpoint, edge.nid endpoint = none := by
  rw [promotion]
  split
  · next hsource htarget =>
    refine ⟨nofun, ?_⟩
    rintro ⟨_ | _, h⟩
    · cases hsource.symm.trans h
    · cases htarget.symm.trans h
  · next hbound =>
    refine ⟨fun _ => ?_, fun _ => rfl⟩
    cases hsource : edge.sourceNid with
    | none => exact ⟨.source, hsource⟩
    | some source =>
      cases htarget : edge.targetNid with
      | none => exact ⟨.target, htarget⟩
      | some target => exact absurd htarget (hbound source target hsource)

theorem promotion_eq_some {relate : RelateMutation}
    (h : edge.promotion = some relate) : relate.edgeId = edge.edgeId ∧
      edge.nid .source = some relate.source ∧ edge.nid .target = some relate.target := by
  rw [promotion] at h
  split at h
  · next hsource htarget =>
    cases h
    exact ⟨rfl, hsource, htarget⟩
  · cases h

theorem unbound_ne_nil (h : ∃ endpoint, edge.nid endpoint = none) :
    edge.unbound edge.sessionId ≠ [] := by
  rw [unbound, if_pos rfl]
  obtain ⟨_ | _, h⟩ := h
  · simp [show edge.sourceNid = none from h]
  · simp [show edge.targetNid = none from h]

end PendingEdge

/-- The session of a pending edge is open, since the position the edge records. -/
def OpenIn (sessions : String → Option DeferredSession) (edge : PendingEdge) : Prop :=
  ∃ session, sessions edge.sessionId = some session ∧ session.status = .open ∧
    session.openingLsn = edge.openingLsn

def IsOpen (session : Option DeferredSession) : Prop :=
  ∃ found, session = some found ∧ found.status = .open

/-- **Pending edges are consistent with the sessions and with the index.** -/
structure Consistent (graph : MutableGraphState) : Prop extends PendingWellFormed graph where
  /-- The session of a pending edge is open. -/
  session : ∀ {edgeId edge}, graph.pendingEdges.get edgeId = some edge →
    OpenIn graph.deferredSessions.lookup edge
  /-- A pending edge has a missing endpoint. -/
  missing : ∀ {edgeId edge}, graph.pendingEdges.get edgeId = some edge →
    ∃ endpoint, edge.nid endpoint = none

/-- An edge of a plan is created by it or was pending before. -/
def Origin (graph : MutableGraphState) (plan : DeferredMutationPlan) (edge : PendingEdge) : Prop :=
  edge.edgeId ∈ plan.createdEdgeIds ∨
    ∃ old, graph.pendingEdges.get edge.edgeId = some old ∧ old.Grows edge

def Known (graph : MutableGraphState) (plan : DeferredMutationPlan) (edgeId : EdgeId) : Prop :=
  edgeId ∈ plan.createdEdgeIds ∨ ∃ old, graph.pendingEdges.get edgeId = some old

theorem Origin.known (h : Origin graph plan edge) : Known graph plan edge.edgeId :=
  h.imp id fun ⟨old, hold, _⟩ => ⟨old, hold⟩

/-- A plan before its promotions. -/
structure Staged (graph : MutableGraphState) (plan : DeferredMutationPlan) : Prop where
  opened : ∀ {sessionId session}, plan.sessionUpdates.lookup sessionId = some session →
    session.status = .open ∧ graph.deferredSessions.lookup sessionId = none
  updates : ∀ {edgeId update}, plan.pendingUpdates.get edgeId = some update →
    ∃ edge, update = some edge ∧ edge.edgeId = edgeId ∧ OpenIn (plan.session graph) edge ∧
      Origin graph plan edge
  created : ∀ {edgeId}, edgeId ∈ plan.createdEdgeIds →
    graph.containsEdgeId edgeId = .ok false ∧ ∃ update, plan.pendingUpdates.get edgeId = some update
  aborted : plan.abortedEdgeIds = []
  promoted : plan.promoted = []

variable {types : GraphTypeCatalog} {resolver : PointIncarnationResolver} {recordLsn : ℕ}

section Loops

theorem planTerminal_eq_ok (h : graph.planTerminal sessionId = .ok ()) :
    IsOpen (graph.deferredSessions.lookup sessionId) := by
  rw [planTerminal] at h
  split at h
  · cases h
  · next session hsession =>
    rw [ensure_eq_ok, decide_eq_true_eq] at h
    exact ⟨session, hsession, h⟩

/-- The sessions that are opened are new, those that are to end are open. -/
theorem planSession_spec {mutations : List GraphDeferredSessionMutation}
    {terminal : List GraphDeferredSessionMutation}
    (h : mutations.foldlM (graph.planSession recordLsn) (.empty, []) = .ok (plan, terminal)) :
    Staged graph plan ∧ plan.createdEdgeIds = [] ∧ ∀ mutation ∈ terminal,
      IsOpen (graph.deferredSessions.lookup mutation.sessionId) := by
  have hinvariant := foldlM_invariant (fun acc : DeferredMutationPlan × _ =>
    ((∀ sessionId session, acc.1.sessionUpdates.lookup sessionId = some session →
        session.status = .open ∧ graph.deferredSessions.lookup sessionId = none) ∧
      acc.1.pendingUpdates = .empty ∧ acc.1.createdEdgeIds = [] ∧ acc.1.abortedEdgeIds = [] ∧
      acc.1.promoted = []) ∧
    ∀ mutation ∈ acc.2, IsOpen (graph.deferredSessions.lookup mutation.sessionId))
    (?_) h ⟨⟨nofun, rfl, rfl, rfl, rfl⟩, nofun⟩
  · obtain ⟨⟨hopened, hpending, hcreated, haborted, hpromoted⟩, hterminal⟩ := hinvariant
    refine ⟨⟨fun hlookup => hopened _ _ hlookup, fun hupdate => ?_, fun hmem => ?_, haborted,
      hpromoted⟩, hcreated, hterminal⟩
    · rw [hpending] at hupdate
      cases hupdate
    · rw [hcreated] at hmem
      exact absurd hmem not_mem_nil
  · rintro acc mutation - next ⟨⟨hopened, hrest⟩, hterminal⟩ hnext
    cases mutation with
    | «open» sessionId owner =>
      simp only [planSession, eq_ok, Option.isNone_iff_eq_none] at hnext
      obtain ⟨hnew, rfl⟩ := hnext
      refine ⟨⟨fun other session hother => ?_, hrest⟩, hterminal⟩
      rw [lookup_insert_eq] at hother
      split at hother
      · next heq =>
        cases hother
        exact ⟨rfl, heq ▸ hnew⟩
      · exact hopened other session hother
    | commit sessionId | abort sessionId =>
      -- it only joins the list of those that are to end
      simp only [planSession, eq_ok] at hnext
      obtain ⟨hended, rfl⟩ := hnext
      exact ⟨⟨hopened, hrest⟩, forall_mem_append.mpr
        ⟨hterminal, forall_mem_singleton.mpr (planTerminal_eq_ok hended)⟩⟩

/-- The session of a pending edge is not among those that are opened. -/
theorem Staged.openIn (h : Staged graph plan) (hgraph : Consistent graph)
    (hedge : graph.pendingEdges.get edgeId = some edge) : OpenIn (plan.session graph) edge := by
  obtain ⟨session, hsession, hstatus⟩ := hgraph.session hedge
  refine ⟨session, ?_, hstatus⟩
  rw [DeferredMutationPlan.session]
  cases hopened : plan.sessionUpdates.lookup edge.sessionId with
  | none => exact hsession
  | some updated => cases (h.opened hopened).2.symm.trans hsession

theorem openIn_of_sessionIsOpen (h : plan.sessionIsOpen graph sessionId = true) :
    IsOpen (plan.session graph sessionId) := by
  rw [DeferredMutationPlan.sessionIsOpen, Option.any_eq_true_iff_get] at h
  obtain ⟨hsome, hopen⟩ := h
  exact ⟨_, (Option.some_get hsome).symm, of_decide_eq_true hopen⟩

/-- Writing one update into a plan, with or without creating its edge. -/
theorem Staged.write (h : Staged graph plan) (edge : PendingEdge) (created : List EdgeId)
    (hcreated : ∀ id ∈ created, id = edge.edgeId ∧
      graph.containsEdgeId id = .ok false) (hopen : OpenIn (plan.session graph) edge)
    (horigin : edge.edgeId ∈ created ∨ Origin graph plan edge) :
    Staged graph { plan with
      createdEdgeIds := plan.createdEdgeIds ++ created
      pendingUpdates := plan.pendingUpdates.insert edge.edgeId (some edge) } where
  opened := h.opened
  updates := by
    intro edgeId update hupdate
    rcases TreeMap.of_get_insert hupdate with ⟨heq, rfl⟩ | ⟨-, hupdate⟩
    · refine ⟨edge, rfl, heq.symm, hopen, ?_⟩
      rcases horigin with hnew | hnew | hold
      · exact .inl (mem_append_right _ hnew)
      · exact .inl (mem_append_left _ hnew)
      · exact .inr hold
    · obtain ⟨other, rfl, hkey, hsession, hother⟩ := h.updates hupdate
      exact ⟨other, rfl, hkey, hsession, hother.imp (mem_append_left _) id⟩
  created := by
    intro edgeId hmem
    rw [TreeMap.get_insert]
    rcases mem_append.mp hmem with hmem | hmem
    · obtain ⟨hfresh, update, hupdate⟩ := h.created hmem
      refine ⟨hfresh, ?_⟩
      split
      · exact ⟨_, rfl⟩
      · exact ⟨update, hupdate⟩
    · obtain ⟨heq, hfresh⟩ := hcreated edgeId hmem
      exact ⟨hfresh, by rw [if_pos heq]; exact ⟨_, rfl⟩⟩
  aborted := h.aborted
  promoted := h.promoted

theorem planCreate_spec [Environment] {item : GraphDeferredBind × ℕ}
    (hnext : graph.planCreate resolver types plan item = .ok next) :
    (Staged graph plan → Staged graph next) ∧
      next.createdEdgeIds = plan.createdEdgeIds ++ [item.1.edgeId] := by
  simp only [planCreate, eq_ok, Bool.not_eq_true'] at hnext
  obtain ⟨hopen, known, hknown, ⟨rfl, -⟩, -, -, -, -, hnext⟩ := hnext
  obtain ⟨session, hsession, hstatus⟩ := openIn_of_sessionIsOpen hopen
  rw [hsession] at hnext
  cases hnext
  refine ⟨fun h => h.write (item.1.pending session.openingLsn) [item.1.edgeId] (fun id hid => ?_)
    ⟨session, hsession, hstatus, rfl⟩ (.inl mem_cons_self), rfl⟩
  rw [mem_singleton.mp hid]
  exact ⟨rfl, hknown⟩

theorem planBind_spec {assignments : List GraphHandleAssignment} {item : GraphEdgeBind × ℕ}
    (hgraph : Consistent graph) (h : Staged graph plan)
    (hnext : graph.planBind resolver assignments plan item = .ok next) :
    Staged graph next ∧ next.createdEdgeIds = plan.createdEdgeIds := by
  simp only [planBind, eq_ok, Option.isNone_iff_eq_none] at hnext
  obtain ⟨hopen, pending, hpending, hsame, -, ⟨-, hmissing⟩, rfl⟩ := hnext
  -- the edge that is bound, whether it comes from the plan or from the state
  obtain ⟨hkey, hsession, horigin⟩ : pending.edgeId = item.1.edgeId ∧
      OpenIn (plan.session graph) pending ∧ Origin graph plan pending := by
    rw [boundPending] at hpending
    split at hpending
    · next other hupdate =>
      cases hpending
      obtain ⟨edge, heq, hrest⟩ := h.updates hupdate
      cases heq
      exact hrest
    · cases hpending
    · split at hpending
      · next other hother =>
        cases hpending
        have hkey := hgraph.keyed hother
        exact ⟨hkey, h.openIn hgraph hother, .inr ⟨pending, hkey ▸ hother, .refl pending⟩⟩
      · cases hpending
  have hwrite := h.write (pending.bind item.1.nid item.1.endpoint) [] (by simp)
    (by simpa [OpenIn] using hsession) (.inr (by
      rw [Origin, PendingEdge.bind_edgeId]
      exact horigin.imp id fun h => h.imp fun _ h => ⟨h.1, h.2.bind hmissing _⟩))
  rw [PendingEdge.bind_edgeId, hkey, append_nil] at hwrite
  exact ⟨hwrite, rfl⟩

end Loops

/-- **What an accepted plan does.** -/
structure Planned (graph : MutableGraphState) (plan : DeferredMutationPlan) : Prop where
  /-- A session is new and opened, or was open and has ended. -/
  sessions : ∀ {sessionId new}, plan.sessionUpdates.lookup sessionId = some new →
    graph.deferredSessions.lookup sessionId = none ∧ new.status = .open ∨
    ∃ old, graph.deferredSessions.lookup sessionId = some old ∧ old.status = .open ∧
      new.openingLsn = old.openingLsn ∧ new.status ≠ .open
  /-- An edge that stays pending misses an endpoint. -/
  updates : ∀ {edgeId edge}, plan.pendingUpdates.get edgeId = some (some edge) →
    edge.edgeId = edgeId ∧ Origin graph plan edge ∧ ∃ endpoint, edge.nid endpoint = none
  /-- No edge of an ended session stays pending. -/
  session : ∀ {edgeId edge}, plan.projected graph edgeId = some edge →
    OpenIn (plan.session graph) edge
  /-- An edge that stops being pending is aborted or promoted. -/
  ended : ∀ {edgeId}, plan.pendingUpdates.get edgeId = some none → edgeId ∈ plan.abortedEdgeIds ∨
    ∃ relate, .relate relate ∈ plan.promoted ∧ relate.edgeId = edgeId
  promoted : ∀ {mutation}, mutation ∈ plan.promoted → ∃ relate edge, mutation = .relate relate ∧
    edge.promotion = some relate ∧ Origin graph plan edge ∧
    plan.pendingUpdates.get relate.edgeId = some none ∧ relate.edgeId ∉ plan.abortedEdgeIds
  aborted : ∀ {edgeId}, edgeId ∈ plan.abortedEdgeIds → plan.pendingUpdates.get edgeId = some none ∧
    (edgeId ∈ plan.createdEdgeIds ∨ ∃ old, graph.pendingEdges.get edgeId = some old)
  created : ∀ {edgeId}, edgeId ∈ plan.createdEdgeIds →
    graph.containsEdgeId edgeId = .ok false ∧ ∃ update, plan.pendingUpdates.get edgeId = some update

section Close

theorem projected_of_none (h : plan.pendingUpdates.get edgeId = none) :
    plan.projected graph edgeId = graph.pendingEdges.get edgeId := by
  rw [DeferredMutationPlan.projected, h, Option.getD_none]

/-- A pending edge is one of the state that the plan leaves alone, or one of the plan. -/
theorem projected_cases (h : plan.projected graph edgeId = some edge) :
    plan.pendingUpdates.get edgeId = none ∧ graph.pendingEdges.get edgeId = some edge ∨
      plan.pendingUpdates.get edgeId = some (some edge) := by
  cases hupdate : plan.pendingUpdates.get edgeId with
  | none => exact .inl ⟨rfl, projected_of_none hupdate ▸ h⟩
  | some update =>
    rw [DeferredMutationPlan.projected, hupdate, Option.getD_some] at h
    exact .inr (congrArg some h)

theorem Planned.of_projected (hgraph : Consistent graph) (h : Planned graph plan)
    (hedge : plan.projected graph edgeId = some edge) :
    edge.edgeId = edgeId ∧ ∃ endpoint, edge.nid endpoint = none := by
  rcases projected_cases hedge with ⟨-, hedge⟩ | hupdate
  · exact ⟨hgraph.keyed hedge, hgraph.missing hedge⟩
  · exact ⟨(h.updates hupdate).1, (h.updates hupdate).2.2⟩

theorem get_promote (plan : DeferredMutationPlan) (edgeId : EdgeId) :
    plan.promote.pendingUpdates.get edgeId =
      (plan.pendingUpdates.get edgeId).map fun update => update.filter (·.promotion.isNone) :=
  TreeMap.get_mapValues _ _ _

/-- An update stays in the plan as long as an endpoint is missing. -/
theorem get_promote_eq_some :
    plan.promote.pendingUpdates.get edgeId = some (some edge) ↔
      plan.pendingUpdates.get edgeId = some (some edge) ∧ edge.promotion = none := by
  rw [get_promote, Option.map_eq_some_iff]
  constructor
  · rintro ⟨update, hupdate, hfilter⟩
    rw [Option.filter_eq_some_iff] at hfilter
    exact ⟨hupdate.trans (congrArg some hfilter.1), Option.isNone_iff_eq_none.mp hfilter.2⟩
  · rintro ⟨hupdate, hnone⟩
    exact ⟨_, hupdate, Option.filter_eq_some_iff.mpr ⟨rfl, by rw [hnone]; rfl⟩⟩

theorem Staged.promote (hgraph : Consistent graph) (h : Staged graph plan) :
    Planned graph plan.promote where
  sessions := fun hlookup => .inl ⟨(h.opened hlookup).2, (h.opened hlookup).1⟩
  updates := by
    intro edgeId edge hupdate
    rw [get_promote_eq_some] at hupdate
    obtain ⟨other, heq, hkey, -, horigin⟩ := h.updates hupdate.1
    cases heq
    exact ⟨hkey, horigin, PendingEdge.promotion_eq_none_iff.mp hupdate.2⟩
  session := by
    intro edgeId edge hprojected
    rcases projected_cases hprojected with ⟨-, hedge⟩ | hupdate
    · exact h.openIn hgraph hedge
    · obtain ⟨other, heq, -, hsession, -⟩ := h.updates (get_promote_eq_some.mp hupdate).1
      cases heq
      exact hsession
  ended := by
    intro edgeId hended
    rw [get_promote, Option.map_eq_some_iff] at hended
    obtain ⟨update, hupdate, hfilter⟩ := hended
    obtain ⟨edge, rfl, hkey, -, -⟩ := h.updates hupdate
    cases hpromotion : edge.promotion with
    | none => simp [Option.filter, hpromotion] at hfilter
    | some relate =>
      refine .inr ⟨relate, mem_append_right _ ?_,
        (PendingEdge.promotion_eq_some hpromotion).1.trans hkey⟩
      exact mem_filterMap.mpr ⟨_, TreeMap.mem_values.mpr ⟨_, hupdate⟩, by simp [hpromotion]⟩
  promoted := by
    intro mutation hmem
    rw [DeferredMutationPlan.promote, h.promoted, nil_append, mem_filterMap] at hmem
    obtain ⟨update, hvalue, hpromoted⟩ := hmem
    obtain ⟨edgeId, hupdate⟩ := TreeMap.mem_values.mp hvalue
    obtain ⟨edge, rfl, hkey, -, horigin⟩ := h.updates hupdate
    obtain ⟨relate, hrelate, rfl⟩ := Option.map_eq_some_iff.mp hpromoted
    rw [Option.bind_some] at hrelate
    refine ⟨relate, edge, rfl, hrelate, horigin, ?_, ?_⟩
    · rw [(PendingEdge.promotion_eq_some hrelate).1, hkey, get_promote, hupdate]
      simp [hrelate]
    · change _ ∉ plan.abortedEdgeIds
      rw [h.aborted]
      exact not_mem_nil
  aborted := by
    intro edgeId hmem
    change edgeId ∈ plan.abortedEdgeIds at hmem
    rw [h.aborted] at hmem
    exact absurd hmem not_mem_nil
  created := by
    intro edgeId hmem
    obtain ⟨hfresh, update, hupdate⟩ := h.created hmem
    exact ⟨hfresh, _, by rw [get_promote, hupdate]; rfl⟩

theorem get_abortEdge (plan : DeferredMutationPlan) (edgeId other : EdgeId) :
    (plan.abortEdge edgeId).pendingUpdates.get other =
      if other = edgeId then some none else plan.pendingUpdates.get other := by
  rw [DeferredMutationPlan.abortEdge]
  split
  · next hended =>
    split
    · next heq =>
      rw [Option.any_eq_true_iff_get] at hended
      obtain ⟨hsome, hnone⟩ := hended
      rw [heq, ← Option.some_get hsome, Option.isNone_iff_eq_none.mp hnone]
    · rfl
  · exact TreeMap.get_insert _ _ _

theorem Planned.abortEdge (h : Planned graph plan) (hknown : Known graph plan edgeId) :
    Planned graph (plan.abortEdge edgeId) := by
  rw [DeferredMutationPlan.abortEdge]
  split
  · exact h
  · next hlive =>
    have hne : ∀ {other}, plan.pendingUpdates.get other = some none → other ≠ edgeId := by
      rintro other hother rfl
      exact hlive (by rw [hother]; rfl)
    refine ⟨h.sessions, fun {other edge} hupdate => ?_, fun {other edge} hprojected => ?_,
      fun {other} hended => ?_, fun {mutation} hmem => ?_, fun {other} hmem => ?_,
      fun {other} hmem => ?_⟩
    · rcases TreeMap.of_get_insert hupdate with ⟨-, ⟨⟩⟩ | ⟨-, hupdate⟩
      exact h.updates hupdate
    · rw [DeferredMutationPlan.projected, TreeMap.get_insert] at hprojected
      split at hprojected
      · cases hprojected
      · exact h.session hprojected
    · rcases TreeMap.of_get_insert hended with ⟨heq, -⟩ | ⟨-, hended⟩
      · exact .inl (mem_append_right _ (mem_singleton.mpr heq))
      · exact (h.ended hended).imp_left (mem_append_left _)
    · obtain ⟨relate, edge, hrelate, hpromotion, horigin, hended, hkept⟩ := h.promoted hmem
      refine ⟨relate, edge, hrelate, hpromotion, horigin, ?_, ?_⟩
      · rw [TreeMap.get_insert, if_neg (hne hended), hended]
      · rw [mem_append, mem_singleton]
        exact fun hor => hor.elim hkept (hne hended)
    · rw [TreeMap.get_insert]
      rcases mem_append.mp hmem with hmem | hmem
      · rw [if_neg (hne (h.aborted hmem).1)]
        exact h.aborted hmem
      · rw [mem_singleton.mp hmem, if_pos rfl]
        exact ⟨rfl, hknown⟩
    · obtain ⟨hfresh, update, hupdate⟩ := h.created hmem
      refine ⟨hfresh, ?_⟩
      rw [TreeMap.get_insert]
      split
      · exact ⟨_, rfl⟩
      · exact ⟨update, hupdate⟩

theorem Planned.abortEdges {ids : List EdgeId} (h : Planned graph plan)
    (hknown : ∀ id ∈ ids, Known graph plan id) :
    Planned graph (ids.foldl .abortEdge plan) ∧
      (ids.foldl .abortEdge plan).createdEdgeIds = plan.createdEdgeIds ∧
      ∀ other, (ids.foldl .abortEdge plan).pendingUpdates.get other =
        if other ∈ ids then some none else plan.pendingUpdates.get other := by
  induction ids generalizing plan with
  | nil => exact ⟨h, rfl, fun other => by rw [if_neg not_mem_nil]; rfl⟩
  | cons id ids ih =>
    have hcreated : (plan.abortEdge id).createdEdgeIds = plan.createdEdgeIds := by
      rw [DeferredMutationPlan.abortEdge]
      split <;> rfl
    rw [forall_mem_cons] at hknown
    obtain ⟨hplanned, hsame, hget⟩ := ih (h.abortEdge hknown.1) 
      fun id hid => by
        rw [Known, hcreated]
        exact hknown.2 id hid
    refine ⟨hplanned, hsame.trans hcreated, fun other => ?_⟩
    rw [foldl_cons, hget, get_abortEdge]
    by_cases hother : other ∈ ids
    · rw [if_pos hother, if_pos (mem_cons_of_mem _ hother)]
    · rw [if_neg hother]
      exact if_congr (by simp [hother]) rfl rfl

/-- A session ends once none of its edges is pending. -/
theorem Planned.closeSession (h : Planned graph plan)
    {status : DeferredSessionStatus} (hstatus : status ≠ .open)
    (hopen : IsOpen (graph.deferredSessions.lookup sessionId))
    (hclear : ∀ edgeId edge, plan.projected graph edgeId = some edge → edge.sessionId ≠ sessionId)
    (hnext : graph.closeSession plan sessionId status = .ok next) :
    Planned graph next ∧ next.createdEdgeIds = plan.createdEdgeIds := by
  obtain ⟨old, hold, hwas⟩ := hopen
  rw [MutableGraphState.closeSession, hold] at hnext
  cases hnext
  refine ⟨⟨fun {other new} hlookup => ?_, h.updates, fun {edgeId edge} hprojected => ?_, h.ended,
    h.promoted, h.aborted, h.created⟩, rfl⟩
  · rw [lookup_insert_eq] at hlookup
    split at hlookup
    · next heq =>
      cases hlookup
      exact .inr ⟨old, heq ▸ hold, hwas, rfl, hstatus⟩
    · exact h.sessions hlookup
  · obtain ⟨session, hsession, hrest⟩ := h.session hprojected
    refine ⟨session, ?_, hrest⟩
    rw [DeferredMutationPlan.session, lookup_insert_eq, if_neg (hclear edgeId edge hprojected)]
    exact hsession

/-- A session without missing endpoints has no pending edge. -/
theorem projected_of_no_offender (hgraph : Consistent graph) (h : Planned graph plan)
    (hnone : projectedUnboundEndpoints graph.pendingEdges plan.pendingUpdates sessionId = [])
    (hedge : plan.projected graph edgeId = some edge) :
    edge.sessionId ≠ sessionId := by
  rintro rfl
  rw [projectedUnboundEndpoints] at hnone
  have hempty : ∀ {points : List String}, sortedKeys points = [] → ∀ point, point ∉ points := by
    intro points hsorted point hpoint
    rw [← mem_sortedKeys, hsorted] at hpoint
    exact not_mem_nil hpoint
  -- an edge of the session that stays pending would be one of the offenders
  obtain ⟨point, hpoint⟩ := exists_mem_of_ne_nil _
    (PendingEdge.unbound_ne_nil (h.of_projected hgraph hedge).2)
  cases hold : graph.pendingEdges.get edgeId with
  | some old =>
    refine hempty hnone point (mem_append_left _ (mem_flatMap.mpr
      ⟨(edgeId, old), TreeMap.get_eq_some_iff.mp hold, ?_⟩))
    rcases projected_cases hedge with ⟨hupdate, hedge⟩ | hupdate
    · cases hold.symm.trans hedge
      rwa [hupdate]
    · rwa [hupdate]
  | none =>
    rcases projected_cases hedge with ⟨-, hedge⟩ | hupdate
    · cases hold.symm.trans hedge
    · refine hempty hnone point (mem_append_right _ (mem_flatMap.mpr
        ⟨(edgeId, some edge), TreeMap.get_eq_some_iff.mp hupdate, ?_⟩))
      rwa [if_neg (by rw [TreeMap.containsKey, hold]; simp)]

theorem mem_abortIds :
    edgeId ∈ graph.abortIds plan sessionId ↔ ∃ edge : PendingEdge, edge.edgeId = edgeId ∧
      edge.sessionId = sessionId ∧ ((∃ key, graph.pendingEdges.get key = some edge) ∨
        ∃ key, plan.pendingUpdates.get key = some (some edge)) := by
  rw [abortIds, mem_dedup, mem_map]
  simp only [mem_filter, mem_append, mem_filterMap, TreeMap.mem_values, id,
    exists_eq_right, decide_eq_true_eq]
  exact ⟨fun ⟨edge, ⟨hor, hsession⟩, hkey⟩ => ⟨edge, hkey, hsession, hor⟩,
    fun ⟨edge, hkey, hsession, hor⟩ => ⟨edge, ⟨hor, hsession⟩, hkey⟩⟩

/-- **One session ends.** -/
theorem planClose_spec [Environment] (hgraph : Consistent graph) (h : Planned graph plan)
    {mutation : GraphDeferredSessionMutation}
    (hopen : IsOpen (graph.deferredSessions.lookup mutation.sessionId))
    (hnext : graph.planClose plan mutation = .ok next) :
    Planned graph next ∧ next.createdEdgeIds = plan.createdEdgeIds := by
  cases mutation with
  | «open» sessionId owner => cases hnext
  | commit sessionId =>
    simp only [planClose, eq_ok, List.isEmpty_iff] at hnext
    exact h.closeSession (by decide : DeferredSessionStatus.committed ≠ .open) hopen
      (fun edgeId edge => projected_of_no_offender hgraph h hnext.1) hnext.2
  | abort sessionId =>
    rw [planClose] at hnext
    have hknown : ∀ id ∈ graph.abortIds plan sessionId, Known graph plan id := by
      intro id hid
      obtain ⟨edge, rfl, -, ⟨key, hedge⟩ | ⟨key, hedge⟩⟩ := mem_abortIds.mp hid
      · exact .inr ⟨edge, by rw [hgraph.keyed hedge, hedge]⟩
      · exact (h.updates hedge).2.1.known
    obtain ⟨hplanned, hcreated, hget⟩ := h.abortEdges hknown
    refine (hplanned.closeSession (by decide : DeferredSessionStatus.aborted ≠ .open) hopen
      (fun edgeId edge hedge hsession => ?_) hnext).imp id fun hsame => hsame.trans hcreated
    rw [DeferredMutationPlan.projected, hget] at hedge
    split at hedge
    · cases hedge
    · next hkept =>
      refine hkept (mem_abortIds.mpr ⟨edge, (h.of_projected hgraph hedge).1, hsession, ?_⟩)
      exact (projected_cases hedge).imp (fun hold => ⟨edgeId, hold.2⟩) fun hnew => ⟨edgeId, hnew⟩

end Close

/-- **`plan_deferred` accepts only plans that keep the pending edges consistent.** -/
theorem planDeferred_spec [Environment] {graph : MutableGraphState} (hgraph : Consistent graph)
    {batch : GraphBatch} (h : graph.planDeferred resolver recordLsn batch types = .ok plan) :
    Planned graph plan ∧
      plan.createdEdgeIds = batch.deferredBinds.map GraphDeferredBind.edgeId := by
  simp only [planDeferred, eq_ok] at h
  obtain ⟨⟨opened, terminal⟩, hopened, created, hcreated, bound, hbound, hclosed⟩ := h
  obtain ⟨hstaged, hnone, hterminal⟩ := planSession_spec hopened
  have hcreates : Staged graph created := foldlM_invariant (Staged graph)
    (fun plan item _ next hplan hnext => (planCreate_spec hnext).1 hplan) hcreated hstaged
  have hcollect : ∀ plan item next, graph.planCreate resolver types plan item = .ok next →
      next.createdEdgeIds = plan.createdEdgeIds ++ [(GraphDeferredBind.edgeId ∘ Prod.fst) item] :=
    fun plan item next hnext => (planCreate_spec hnext).2
  have hids := foldlM_collects hcollect hcreated
  rw [hnone, nil_append, ← map_map, zipIdx_map_fst] at hids
  have hbinds := foldlM_invariant (fun plan : DeferredMutationPlan => Staged graph plan ∧
      plan.createdEdgeIds = created.createdEdgeIds)
    (fun plan item _ next hplan hnext => by
      obtain ⟨hnextStaged, hsame⟩ := planBind_spec hgraph hplan.1 hnext
      exact ⟨hnextStaged, hsame.trans hplan.2⟩)
    hbound ⟨hcreates, rfl⟩
  have hfinal := foldlM_invariant (fun plan : DeferredMutationPlan => Planned graph plan ∧
      plan.createdEdgeIds = created.createdEdgeIds)
    (fun plan mutation hmutation next hplan hnext => by
      obtain ⟨hnextPlanned, hsame⟩ :=
        planClose_spec hgraph hplan.1 (hterminal mutation hmutation) hnext
      exact ⟨hnextPlanned, hsame.trans hplan.2⟩)
    hclosed ⟨hbinds.1.promote hgraph, hbinds.2⟩
  exact ⟨hfinal.1, hfinal.2.trans hids⟩

end ChironDB.Graph.State
