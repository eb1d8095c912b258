/-
# Deferred sessions over whole runs

A collection takes one batch after another; a batch that is refused leaves it as it was.  The world
keeps with the collection which edges have ever been created and which of them an abort has ended.

**In every world that a run reaches** the pending edges agree with the sessions and with the reverse
index, a session that has ended stays as it ended, a bound endpoint keeps its node, and every edge
that was ever created is pending, stored or aborted, and only one of the three.
-/

import ChironDB.Graph.Deferred

namespace ChironDB.Graph.State

open Fault Tables List

/-! ## Edge mutations -/

/-- Whether an edge is stored, in the unsealed topology or in the pinned generation. -/
def Stored (graph : MutableGraphState) (edgeId : EdgeId) : Prop :=
  (∃ edge, graph.edges.get edgeId = some edge) ∨
    ∃ name, graph.sealedNamespaces.lookup edgeId = .ok (some name)

section

variable {graph after : MutableGraphState}

namespace MutableGraphState

/-- What a list of edge mutations changes, apart from properties, adjacency and counts. -/
structure EdgesApplied (graph after : MutableGraphState) (mutations : List EdgeMutation) :
    Prop where
  pending : after.pendingEdges = graph.pendingEdges
  index : after.pendingByEndpoint = graph.pendingByEndpoint
  sessions : after.deferredSessions = graph.deferredSessions
  sealedLedger : after.sealedLedger = graph.sealedLedger
  sealedNamespaces : after.sealedNamespaces = graph.sealedNamespaces
  edgeIds : ∀ {edgeId}, edgeId ∈ after.edgeIds ↔ edgeId ∈ graph.edgeIds ∨
    graph.pendingEdges.get edgeId = none ∧ ∃ edge, .relate edge ∈ mutations ∧ edge.edgeId = edgeId
  kept : ∀ {edgeId}, (∀ edge, .relate edge ∈ mutations → edge.edgeId ≠ edgeId) →
    after.edges.get edgeId = graph.edges.get edgeId
  related : ∀ {edge}, .relate edge ∈ mutations → after.edges.get edge.edgeId = some edge.stored
  tombstones : ∀ {edgeId}, edgeId ∈ after.edgeTombstones ↔ edgeId ∈ graph.edgeTombstones ∨
    .unrelate edgeId ∈ mutations

theorem applyEdgeMutation_spec (graph : MutableGraphState) (mutation : EdgeMutation) :
    EdgesApplied graph (graph.applyEdgeMutation mutation) [mutation] := by
  cases mutation with
  | relate edge =>
    refine ⟨rfl, rfl, rfl, rfl, rfl, fun {edgeId} => ?_, fun {edgeId} hkept => ?_,
      fun {other} hother => ?_, fun {edgeId} => by simp [applyEdgeMutation]⟩
    · simp only [applyEdgeMutation, mem_singleton, EdgeMutation.relate.injEq, exists_eq_left]
      cases hpending : graph.pendingEdges.get edge.edgeId with
      | none =>
        rw [if_neg (by simp [TreeMap.containsKey, hpending]), Finset.mem_insert, or_comm]
        refine or_congr_right ⟨fun heq => ?_, fun h => h.2.symm⟩
        exact ⟨by rw [heq, hpending], heq.symm⟩
      | some pending =>
        rw [if_pos (by simp [TreeMap.containsKey, hpending])]
        refine ⟨.inl, fun h => h.resolve_right ?_⟩
        rintro ⟨hnone, rfl⟩
        cases hpending.symm.trans hnone
    · exact (TreeMap.get_insert _ _ _).trans
        (if_neg fun heq => hkept edge (mem_singleton.mpr rfl) heq.symm)
    · cases mem_singleton.mp hother
      exact TreeMap.get_insert_self _ _
  | unrelate edgeId =>
    refine ⟨rfl, rfl, rfl, rfl, rfl, by simp [applyEdgeMutation], fun _ => rfl,
      fun h => (by cases mem_singleton.mp h), fun {other} => ?_⟩
    simp [applyEdgeMutation, or_comm, eq_comm]
  | properties patch =>
    have happly : ∃ tail, graph.applyEdgeMutation (.properties patch) =
        { graph with propertyTail := tail } := by
      rw [applyEdgeMutation]
      split
      · exact ⟨_, rfl⟩
      · split
        · exact ⟨_, rfl⟩
        · exact ⟨graph.propertyTail, rfl⟩
    obtain ⟨tail, happly⟩ := happly
    rw [happly]
    exact ⟨rfl, rfl, rfl, rfl, rfl, by simp, fun _ => rfl,
      fun h => (by cases mem_singleton.mp h), by simp⟩

variable {mutations : List EdgeMutation}

/-- **Edge mutations of different edges, one after the other.** -/
theorem applyEdgeMutations_spec (hnodup : (mutations.map EdgeMutation.edgeId).Nodup)
    (graph : MutableGraphState) :
    EdgesApplied graph (graph.applyEdgeMutations mutations) mutations := by
  induction mutations generalizing graph with
  | nil => exact ⟨rfl, rfl, rfl, rfl, rfl, by simp [applyEdgeMutations], fun _ => rfl, nofun,
      by simp [applyEdgeMutations]⟩
  | cons mutation mutations ih =>
    rw [map_cons, nodup_cons] at hnodup
    have hhead := applyEdgeMutation_spec graph mutation
    have htail := ih hnodup.2 (graph.applyEdgeMutation mutation)
    rw [applyEdgeMutations, foldl_cons]
    change EdgesApplied graph
      ((graph.applyEdgeMutation mutation).applyEdgeMutations mutations) (mutation :: mutations)
    refine ⟨htail.pending.trans hhead.pending, htail.index.trans hhead.index,
      htail.sessions.trans hhead.sessions, htail.sealedLedger.trans hhead.sealedLedger,
      htail.sealedNamespaces.trans hhead.sealedNamespaces, fun {edgeId} => ?_,
      fun {edgeId} hkept => ?_, fun {edge} hedge => ?_, fun {edgeId} => ?_⟩
    · rw [htail.edgeIds, hhead.edgeIds, hhead.pending, or_assoc, ← and_or_left]
      refine or_congr_right (and_congr_right fun _ => ?_)
      constructor
      · rintro (⟨edge, hedge, hid⟩ | ⟨edge, hedge, hid⟩)
        · exact ⟨edge, mem_singleton.mp hedge ▸ mem_cons_self, hid⟩
        · exact ⟨edge, mem_cons_of_mem _ hedge, hid⟩
      · rintro ⟨edge, hedge, hid⟩
        rcases mem_cons.mp hedge with hedge | hedge
        · exact .inl ⟨edge, mem_singleton.mpr hedge, hid⟩
        · exact .inr ⟨edge, hedge, hid⟩
    · rw [htail.kept fun edge hedge => hkept edge (mem_cons_of_mem _ hedge)]
      exact hhead.kept fun edge hedge =>
        hkept edge (mem_singleton.mp hedge ▸ mem_cons_self)
    · rcases mem_cons.mp hedge with rfl | hedge
      · -- the rest of the list does not name this edge
        rw [htail.kept, hhead.related (mem_singleton.mpr rfl)]
        intro other hother heq
        refine hnodup.1 (mem_map.mpr ⟨_, hother, ?_⟩)
        exact heq
      · exact htail.related hedge
    · rw [htail.tombstones, hhead.tombstones, or_assoc, mem_singleton, mem_cons]

theorem preparePropertyMutation_spec [Environment] {mutation prepared : EdgeMutation}
    {itemIndex : ℕ}
    (h : graph.preparePropertyMutation mutation itemIndex = .ok prepared) :
    prepared = mutation ∨ ∃ patch other, mutation = .properties patch ∧
      prepared = .properties other ∧ other.edgeId = patch.edgeId := by
  cases mutation with
  | relate | unrelate =>
    cases h
    exact .inl rfl
  | properties patch =>
    right
    simp only [preparePropertyMutation, eq_ok] at h
    obtain ⟨other, hother, -, rfl⟩ := h
    refine ⟨patch, other, rfl, rfl, ?_⟩
    rw [resolvePatch] at hother
    split at hother
    · cases hother
      rfl
    · rw [bind_eq_ok] at hother
      obtain ⟨document, -, hother⟩ := hother
      split at hother
      · cases hother
      · cases hother
        rfl

theorem preparePropertyMutations_spec [Environment] {prepared : List EdgeMutation}
    (h : graph.preparePropertyMutations mutations = .ok prepared) :
    prepared.map EdgeMutation.edgeId = mutations.map EdgeMutation.edgeId ∧
      (∀ edge, .relate edge ∈ prepared ↔ .relate edge ∈ mutations) ∧
      ∀ edgeId, .unrelate edgeId ∈ prepared ↔ .unrelate edgeId ∈ mutations := by
  rw [preparePropertyMutations] at h
  generalize 0 = itemIndex at h
  induction mutations generalizing itemIndex prepared with
  | nil =>
    cases h
    simp
  | cons mutation mutations ih =>
    simp only [zipIdx_cons, mapM_cons, eq_ok] at h
    obtain ⟨head, hhead, tail, htail, rfl⟩ := h
    obtain ⟨hids, hrelates, hunrelates⟩ := ih _ htail
    rcases preparePropertyMutation_spec hhead with rfl | ⟨patch, other, rfl, rfl, hid⟩
    · exact ⟨by rw [map_cons, hids, map_cons], fun edge => by simp [hrelates],
        fun id => by simp [hunrelates]⟩
    · refine ⟨?_, fun edge => by simp [hrelates], fun id => by simp [hunrelates]⟩
      rw [map_cons, hids, map_cons]
      exact congrArg (· :: _) hid

theorem validateEdgeMutations_spec [Environment] {resolver : PointIncarnationResolver}
    {tenantForNid : Nid → Option String}
    {types : GraphTypeCatalog} {promoted seen : Finset EdgeId}
    (h : graph.validateEdgeMutations resolver mutations tenantForNid types promoted = .ok seen) :
    (mutations.map EdgeMutation.edgeId).Nodup ∧
      (∀ edge, .relate edge ∈ mutations → edge.edgeId ∉ promoted →
        graph.containsEdgeId edge.edgeId = .ok false) ∧
      ∀ edgeId, .unrelate edgeId ∈ mutations → graph.hasLiveEdge edgeId = .ok true := by
  rw [validateEdgeMutations] at h
  have hstep : ∀ (seen : Finset EdgeId) (item : EdgeMutation × ℕ) next, (do
        ensure (item.1.edgeId ∉ seen)
          (invalidEdgeItem item.2 "one EdgeId is mutated more than once")
        graph.validateEdgeMutation resolver tenantForNid types promoted item.1 item.2
        pure (insert item.1.edgeId seen)) = .ok next →
      graph.validateEdgeMutation resolver tenantForNid types promoted item.1 item.2 = .ok () ∧
        (EdgeMutation.edgeId ∘ Prod.fst) item ∉ seen ∧
        next = insert ((EdgeMutation.edgeId ∘ Prod.fst) item) seen := by
    intro seen item next hnext
    simp only [eq_ok] at hnext
    exact ⟨hnext.2.1, hnext.1, hnext.2.2.symm⟩
  have hnodup := (foldlM_nodup (fun seen item next hnext => (hstep seen item next hnext).2) h).1
  rw [← map_map, zipIdx_map_fst] at hnodup
  -- every mutation passed its own check
  have hchecks := foldlM_forall (fun seen item next hnext => (hstep seen item next hnext).1) h
  have hcheck : ∀ mutation ∈ mutations, ∃ itemIndex,
      graph.validateEdgeMutation resolver tenantForNid types promoted mutation itemIndex =
        .ok () := by
    intro mutation hmem
    rw [← zipIdx_map_fst 0 mutations, mem_map] at hmem
    obtain ⟨item, hitem, rfl⟩ := hmem
    exact ⟨item.2, hchecks item hitem⟩
  refine ⟨hnodup, fun edge hedge hnew => ?_, fun edgeId hmem => ?_⟩
  · obtain ⟨itemIndex, hrelate⟩ := hcheck _ hedge
    simp only [validateEdgeMutation, validateRelate, hnew, decide_false, Bool.false_eq_true,
      if_false, eq_ok] at hrelate
    obtain ⟨-, known, hknown, hfresh, -⟩ := hrelate
    rw [Bool.not_eq_true'] at hfresh
    rw [hknown, hfresh]
  · obtain ⟨itemIndex, hunrelate⟩ := hcheck _ hmem
    simp only [validateEdgeMutation, eq_ok] at hunrelate
    obtain ⟨live, hlive, rfl⟩ := hunrelate
    exact hlive

end MutableGraphState

/-! ## One batch -/

/-- **What an accepted batch does to the graph.** -/
structure BatchApplied (graph after : MutableGraphState) (batch : GraphBatch)
    (plan : DeferredMutationPlan) : Prop where
  planned : Planned graph plan
  valid : batch.Valid
  creates : plan.createdEdgeIds = batch.deferredBinds.map GraphDeferredBind.edgeId
  /-- The edges that are related and those that are promoted are different ones. -/
  apart : ((batch.edgeMutations ++ plan.promoted).map EdgeMutation.edgeId).Nodup
  fresh : ∀ {edge}, .relate edge ∈ batch.edgeMutations →
    graph.containsEdgeId edge.edgeId = .ok false
  live : ∀ {edgeId}, .unrelate edgeId ∈ batch.edgeMutations → graph.hasLiveEdge edgeId = .ok true
  pending : ∀ {edgeId}, after.pendingEdges.get edgeId = plan.projected graph edgeId
  sessions : ∀ {sessionId}, after.deferredSessions.lookup sessionId = plan.session graph sessionId
  index : IndexExact after.pendingByEndpoint after.pendingEdges
  sealedLedger : after.sealedLedger = graph.sealedLedger
  sealedNamespaces : after.sealedNamespaces = graph.sealedNamespaces
  edgeIds : ∀ {edgeId}, edgeId ∈ after.edgeIds ↔ (edgeId ∈ graph.edgeIds ∨
      graph.pendingEdges.get edgeId = none ∧
        ∃ edge, .relate edge ∈ batch.edgeMutations ++ plan.promoted ∧ edge.edgeId = edgeId) ∨
    edgeId ∈ plan.createdEdgeIds
  kept : ∀ {edgeId},
    (∀ edge, .relate edge ∈ batch.edgeMutations ++ plan.promoted → edge.edgeId ≠ edgeId) →
    after.edges.get edgeId = graph.edges.get edgeId
  related : ∀ {edge}, .relate edge ∈ batch.edgeMutations ++ plan.promoted →
    after.edges.get edge.edgeId = some edge.stored
  tombstones : ∀ {edgeId}, edgeId ∈ after.edgeTombstones ↔ (edgeId ∈ graph.edgeTombstones ∨
    .unrelate edgeId ∈ batch.edgeMutations) ∨ edgeId ∈ plan.abortedEdgeIds

theorem applyValidatedIdempotency_eq (graph : MutableGraphState)
    (entry : Option GraphIdempotencyState) : ∃ table,
      graph.applyValidatedIdempotency entry = { graph with idempotency := table } := by
  cases entry with
  | none => exact ⟨graph.idempotency, rfl⟩
  | some entry =>
    rw [MutableGraphState.applyValidatedIdempotency]
    split
    · exact ⟨graph.idempotency, rfl⟩
    · exact ⟨_, rfl⟩

variable {batch : GraphBatch} {prepared : PreparedGraphBatch} {recordLsn : ℕ}

theorem prepareGraphBatch_eq_ok [Environment] {collection : Collection}
    (h : collection.prepareGraphBatch recordLsn batch = .ok prepared) :
    batch.validate = .ok () ∧
      (∃ resolver types, collection.graph.planDeferred resolver recordLsn batch types =
        .ok prepared.deferredPlan) ∧
      (∃ resolver tenant types seen, collection.graph.validateEdgeMutations resolver
        (batch.edgeMutations ++ prepared.deferredPlan.promoted) tenant types
        (prepared.deferredPlan.promoted.filterMap EdgeMutation.created).toFinset = .ok seen) ∧
      collection.graph.preparePropertyMutations
        (batch.edgeMutations ++ prepared.deferredPlan.promoted) = .ok prepared.edgeMutations := by
  simp only [Collection.prepareGraphBatch, eq_ok] at h
  obtain ⟨hvalid, -, -, assigned, -, -, -, types, -, plan, hplan, seen, hseen, mutations,
    hmutations, rfl⟩ := h
  exact ⟨hvalid, ⟨_, _, hplan⟩, ⟨_, _, _, _, hseen⟩, hmutations⟩

theorem applyPrepared_spec [Environment] {collection : Collection}
    (hgraph : Consistent collection.graph)
    (h : collection.prepareGraphBatch recordLsn batch = .ok prepared) :
    BatchApplied collection.graph (collection.applyPrepared batch prepared).graph batch
      prepared.deferredPlan := by
  obtain ⟨hvalidate, ⟨_, _, hplan⟩, ⟨_, _, _, _, hseen⟩, hprepared⟩ := prepareGraphBatch_eq_ok h
  have hvalid := GraphBatch.validate_eq_ok hvalidate
  obtain ⟨hplanned, hcreates⟩ := planDeferred_spec hgraph hplan
  obtain ⟨hnodup, hfresh, hlive⟩ := MutableGraphState.validateEdgeMutations_spec hseen
  obtain ⟨hids, hrelates, hunrelates⟩ := MutableGraphState.preparePropertyMutations_spec hprepared
  -- the edge mutations, over a state that differs in its types and change log only
  have hedged := MutableGraphState.applyEdgeMutations_spec (hids ▸ hnodup)
    { collection.graph.trackPersistChanges prepared.recordLsn prepared.edgeMutations
      prepared.deferredPlan with types := prepared.stagedTypes }
  rw [Collection.applyPrepared]
  generalize MutableGraphState.applyEdgeMutations _ _ = edged at hedged
  have hwell : PendingWellFormed edged :=
    ⟨fun hget => hgraph.keyed (hedged.pending ▸ hget), by
      rw [hedged.pending, hedged.index]
      exact hgraph.exact⟩
  obtain ⟨pending, index, sessions, happly, hpending, hsessions, hexact⟩ :=
    MutableGraphState.applyDeferredPlan_spec hwell fun edgeId edge hupdate =>
      (hplanned.updates hupdate).1
  obtain ⟨table, htable⟩ :=
    applyValidatedIdempotency_eq (edged.applyDeferredPlan prepared.deferredPlan) batch.idempotency
  dsimp only
  rw [htable, happly]
  refine ⟨hplanned, hvalid, hcreates, hnodup, fun {edge} hedge => ?_, fun {edgeId} hmem => ?_,
    fun {edgeId} => ?_, fun {sessionId} => ?_, hexact, hedged.sealedLedger,
    hedged.sealedNamespaces, fun {edgeId} => ?_, fun {edgeId} hkept => ?_, fun {edge} hedge => ?_,
    fun {edgeId} => ?_⟩
  · refine hfresh edge (mem_append_left _ hedge) fun hpromoted => ?_
    rw [mem_toFinset, mem_filterMap] at hpromoted
    obtain ⟨mutation, hmutation, hcreated⟩ := hpromoted
    obtain ⟨relate, -, rfl, -⟩ := hplanned.promoted hmutation
    rw [map_append, nodup_append] at hnodup
    exact hnodup.2.2 _ (mem_map_of_mem hedge) _ (mem_map_of_mem hmutation)
      (Option.some.inj hcreated).symm
  · exact hlive edgeId (mem_append_left _ hmem)
  · rw [hpending, DeferredMutationPlan.projected, DeferredMutationPlan.projected, hedged.pending]
    rfl
  · rw [hsessions, DeferredMutationPlan.session, DeferredMutationPlan.session, hedged.sessions]
    rfl
  · change edgeId ∈ edged.edgeIds ∪ _ ↔ _
    rw [Finset.mem_union, mem_toFinset, hedged.edgeIds]
    simp only [hrelates]
    rfl
  · exact hedged.kept fun edge hedge => hkept edge ((hrelates edge).mp hedge)
  · exact hedged.related ((hrelates edge).mpr hedge)
  · change edgeId ∈ edged.edgeTombstones ∪ _ ↔ _
    rw [Finset.mem_union, mem_toFinset, hedged.tombstones, hunrelates, mem_append]
    refine or_congr_left (or_congr_right ⟨fun hor => hor.resolve_right fun hmem => ?_, .inl⟩)
    obtain ⟨relate, -, heq, -⟩ := hplanned.promoted hmem
    cases heq

/-! ## What becomes of an edge -/

/-- An edge that was never created, and the three things that become of one that was. -/
inductive Fate (graph : MutableGraphState) (created aborted : Finset EdgeId) (edgeId : EdgeId) :
    Prop
  | absent : edgeId ∉ created → graph.pendingEdges.get edgeId = none → ¬ Stored graph edgeId →
      edgeId ∉ aborted → Fate graph created aborted edgeId
  | pending (edge : PendingEdge) : edgeId ∈ created → graph.pendingEdges.get edgeId = some edge →
      ¬ Stored graph edgeId → edgeId ∉ aborted → Fate graph created aborted edgeId
  | stored : edgeId ∈ created → graph.pendingEdges.get edgeId = none → Stored graph edgeId →
      edgeId ∉ aborted → Fate graph created aborted edgeId
  | aborted : edgeId ∈ created → graph.pendingEdges.get edgeId = none → ¬ Stored graph edgeId →
      edgeId ∈ aborted → Fate graph created aborted edgeId

/-- **Every edge is accounted for.** -/
structure Accounted (graph : MutableGraphState) (created aborted : Finset EdgeId) : Prop where
  /-- The ledger holds the edges that were ever created. -/
  ledger : ∀ {edgeId}, edgeId ∈ created ↔ graph.containsEdgeId edgeId = .ok true
  fate : ∀ edgeId, Fate graph created aborted edgeId
  tombstoned : ∀ {edgeId}, edgeId ∈ aborted → edgeId ∈ graph.edgeTombstones
  tombstone : ∀ {edgeId}, edgeId ∈ graph.edgeTombstones → Stored graph edgeId ∨ edgeId ∈ aborted

variable {edgeId : EdgeId}

theorem containsEdgeId_eq_true : graph.containsEdgeId edgeId = .ok true ↔
      edgeId ∈ graph.edgeIds ∨ graph.sealedLedger.contains edgeId = .ok true := by
  rw [MutableGraphState.containsEdgeId]
  split
  · next hmem => exact ⟨fun _ => .inl hmem, fun _ => rfl⟩
  · next hmem => exact ⟨.inr, fun h => h.resolve_left hmem⟩

/-- An edge that can be removed is stored. -/
theorem stored_of_hasLiveEdge (h : graph.hasLiveEdge edgeId = .ok true) : Stored graph edgeId := by
  simp only [MutableGraphState.hasLiveEdge, eq_ok, Option.isSome_iff_exists] at h
  obtain ⟨name, hname, label, rfl⟩ := h
  rw [MutableGraphState.edgeNamespace] at hname
  split at hname
  · split at hname
    · next edge hedge => exact .inl ⟨edge, hedge⟩
    · exact .inr ⟨label, hname⟩
  · cases hname

variable {edge : PendingEdge} {created aborted : Finset EdgeId} {plan : DeferredMutationPlan}

namespace Accounted

section

variable (h : Accounted graph created aborted)
include h

theorem fresh (hfresh : graph.containsEdgeId edgeId = .ok false) :
    graph.pendingEdges.get edgeId = none ∧ ¬ Stored graph edgeId ∧ edgeId ∉ aborted := by
  have hnot : edgeId ∉ created := fun hmem => by
    rw [h.ledger, hfresh] at hmem
    cases hmem
  cases h.fate edgeId with
  | absent _ hpending hstored haborted => exact ⟨hpending, hstored, haborted⟩
  | pending _ hcreated | stored hcreated | aborted hcreated => exact absurd hcreated hnot

theorem of_pending (hpending : graph.pendingEdges.get edgeId = some edge) :
    edgeId ∈ created ∧ ¬ Stored graph edgeId ∧ edgeId ∉ aborted := by
  cases h.fate edgeId with
  | pending _ hcreated _ hstored haborted => exact ⟨hcreated, hstored, haborted⟩
  | absent _ hnone | stored _ hnone | aborted _ hnone => cases hpending.symm.trans hnone

theorem of_stored (hstored : Stored graph edgeId) :
    edgeId ∈ created ∧ graph.pendingEdges.get edgeId = none ∧ edgeId ∉ aborted := by
  cases h.fate edgeId with
  | stored hcreated hnone _ haborted => exact ⟨hcreated, hnone, haborted⟩
  | absent _ _ hnot | pending _ _ _ hnot | aborted _ _ hnot => exact absurd hstored hnot

end

end Accounted

section

variable (h : Planned graph plan)
include h

theorem Planned.relate {relate : RelateMutation} (hmem : .relate relate ∈ plan.promoted) :
    ∃ edge, edge.promotion = some relate ∧ Origin graph plan edge ∧
      plan.pendingUpdates.get relate.edgeId = some none ∧ relate.edgeId ∉ plan.abortedEdgeIds := by
  obtain ⟨promoted, edge, heq, hrest⟩ := h.promoted hmem
  cases heq
  exact ⟨edge, hrest⟩

/-- An update of a plan is about an edge that is new or was pending. -/
theorem Planned.known {update : Option PendingEdge}
    (hupdate : plan.pendingUpdates.get edgeId = some update) :
    Known graph plan edgeId := by
  cases update with
  | some edge => exact (h.updates hupdate).1 ▸ (h.updates hupdate).2.1.known
  | none =>
    rcases h.ended hupdate with haborted | ⟨relate, hrelate, rfl⟩
    · exact (h.aborted haborted).2
    · obtain ⟨edge, hpromotion, hedge, -⟩ := h.relate hrelate
      exact (PendingEdge.promotion_eq_some hpromotion).1 ▸ hedge.known

end

namespace BatchApplied

section

variable (h : BatchApplied graph after batch plan)
include h

theorem mem_createdEdgeIds :
    edgeId ∈ batch.createdEdgeIds ↔
      (∃ edge, .relate edge ∈ batch.edgeMutations ∧ edge.edgeId = edgeId) ∨
        edgeId ∈ plan.createdEdgeIds := by
  rw [GraphBatch.createdEdgeIds, mem_toFinset, mem_append, mem_filterMap, h.creates]
  refine or_congr_left ⟨?_, fun ⟨edge, hedge, hid⟩ => ⟨_, hedge, congrArg some hid⟩⟩
  rintro ⟨mutation, hmem, hcreated⟩
  cases mutation with
  | relate edge => exact ⟨edge, hmem, Option.some.inj hcreated⟩
  | unrelate | properties => cases hcreated

/-- An edge that is new or was pending is not stored and was not aborted. -/
theorem not_stored_of_known (hacc : Accounted graph created aborted)
    (hknown : Known graph plan edgeId) : ¬ Stored graph edgeId ∧ edgeId ∉ aborted := by
  rcases hknown with hnew | ⟨old, hold⟩
  · exact (hacc.fresh (h.planned.created hnew).1).2
  · exact (hacc.of_pending hold).2

/-- An edge that is related outright is not part of the plan. -/
theorem no_update_of_related (hacc : Accounted graph created aborted) {edge : RelateMutation}
    (hedge : .relate edge ∈ batch.edgeMutations) : plan.pendingUpdates.get edge.edgeId = none := by
  refine Option.eq_none_iff_forall_ne_some.mpr fun update hupdate => ?_
  rcases h.planned.known hupdate with hnew | ⟨old, hold⟩
  · rw [h.creates, mem_map] at hnew
    obtain ⟨bind, hbind, heq⟩ := hnew
    exact h.valid.disjoint bind hbind (heq ▸ mem_map_of_mem hedge)
  · cases hold.symm.trans (hacc.fresh (h.fresh hedge)).1

/-- What is stored afterwards was stored, or is related or promoted by the batch. -/
theorem stored_after_iff : Stored after edgeId ↔ Stored graph edgeId ∨
      ∃ relate, .relate relate ∈ batch.edgeMutations ++ plan.promoted ∧ relate.edgeId = edgeId := by
  by_cases hrelated : ∃ relate, .relate relate ∈ batch.edgeMutations ++ plan.promoted ∧
      relate.edgeId = edgeId
  · refine iff_of_true ?_ (.inr hrelated)
    obtain ⟨relate, hmem, rfl⟩ := hrelated
    exact .inl ⟨_, h.related hmem⟩
  · rw [or_iff_left hrelated, Stored, Stored, h.sealedNamespaces, h.kept]
    exact fun relate hmem hid => hrelated ⟨relate, hmem, hid⟩

section

variable (hacc : Accounted graph created aborted)
include hacc

theorem ledger_after :
    edgeId ∈ created ∪ batch.createdEdgeIds ↔ after.containsEdgeId edgeId = .ok true := by
  rw [Finset.mem_union, hacc.ledger, h.mem_createdEdgeIds, containsEdgeId_eq_true,
    containsEdgeId_eq_true, h.edgeIds, h.sealedLedger]
  constructor
  · rintro ((hmem | hsealed) | ⟨edge, hedge, rfl⟩ | hnew)
    · exact .inl (.inl (.inl hmem))
    · exact .inr hsealed
    · exact .inl (.inl (.inr ⟨(hacc.fresh (h.fresh hedge)).1, edge, mem_append_left _ hedge,
        rfl⟩))
    · exact .inl (.inr hnew)
  · rintro (((hmem | ⟨hnone, edge, hedge, rfl⟩) | hnew) | hsealed)
    · exact .inl (.inl hmem)
    · rcases mem_append.mp hedge with hedge | hpromoted
      · exact .inr (.inl ⟨edge, hedge, rfl⟩)
      · obtain ⟨pending, -, -, hended, -⟩ := h.planned.relate hpromoted
        rcases h.planned.known hended with hnew | ⟨old, hold⟩
        · exact .inr (.inr hnew)
        · cases hold.symm.trans hnone
    · exact .inr (.inr hnew)
    · exact .inl (.inr hsealed)

/-- **What becomes of an edge in one batch.** -/
theorem fate_after (edgeId : EdgeId) :
    Fate after (created ∪ batch.createdEdgeIds) (aborted ∪ plan.abortedEdgeIds.toFinset)
      edgeId := by
  -- an edge without an update is not aborted by the plan
  have haborts : edgeId ∈ aborted ∪ plan.abortedEdgeIds.toFinset ↔
      edgeId ∈ aborted ∨ edgeId ∈ plan.abortedEdgeIds := by
    rw [Finset.mem_union, mem_toFinset]
  by_cases hrelated : ∃ edge, .relate edge ∈ batch.edgeMutations ∧ edge.edgeId = edgeId
  · have hin : edgeId ∈ created ∪ batch.createdEdgeIds :=
      Finset.mem_union_right _ (h.mem_createdEdgeIds.mpr (.inl hrelated))
    obtain ⟨edge, hedge, rfl⟩ := hrelated
    have hupdate := h.no_update_of_related hacc hedge
    obtain ⟨hpending, -, haborted⟩ := hacc.fresh (h.fresh hedge)
    refine .stored hin ?_ (.inl ⟨_, h.related (mem_append_left _ hedge)⟩) ?_
    · rw [h.pending, projected_of_none hupdate, hpending]
    · rw [haborts, not_or]
      exact ⟨haborted, fun hmem => by cases hupdate.symm.trans (h.planned.aborted hmem).1⟩
  · -- only the plan can have touched the edge
    have hpromoted : ∀ {relate : RelateMutation},
        .relate relate ∈ batch.edgeMutations ++ plan.promoted → relate.edgeId = edgeId →
        plan.pendingUpdates.get edgeId = some none ∧ edgeId ∉ plan.abortedEdgeIds := by
      rintro relate hmem rfl
      rcases mem_append.mp hmem with hmem | hmem
      · exact absurd ⟨relate, hmem, rfl⟩ hrelated
      · obtain ⟨edge, -, -, hupdate⟩ := h.planned.relate hmem
        exact hupdate
    have hafter : Stored after edgeId → Stored graph edgeId ∨
        plan.pendingUpdates.get edgeId = some none ∧ edgeId ∉ plan.abortedEdgeIds :=
      fun hstored => (h.stored_after_iff.mp hstored).imp_right fun ⟨_, hmem, hid⟩ =>
        hpromoted hmem hid
    cases hupdate : plan.pendingUpdates.get edgeId with
    | none =>
      have hcreated : edgeId ∈ created ∪ batch.createdEdgeIds ↔ edgeId ∈ created := by
        rw [Finset.mem_union, h.mem_createdEdgeIds]
        refine ⟨fun hor => hor.resolve_right fun hor => ?_, .inl⟩
        obtain ⟨update, hsome⟩ := (h.planned.created (hor.resolve_left hrelated)).2
        cases hupdate.symm.trans hsome
      have hsame : edgeId ∈ aborted ∪ plan.abortedEdgeIds.toFinset ↔ edgeId ∈ aborted := by
        rw [haborts]
        exact ⟨fun hor => hor.resolve_right fun hmem =>
          (by cases hupdate.symm.trans (h.planned.aborted hmem).1), .inl⟩
      have hpending : after.pendingEdges.get edgeId = graph.pendingEdges.get edgeId := by
        rw [h.pending, projected_of_none hupdate]
      have hstored : Stored after edgeId ↔ Stored graph edgeId := by
        refine ⟨fun hstored => (hafter hstored).resolve_right fun hended => ?_,
          fun hold => h.stored_after_iff.mpr (.inl hold)⟩
        cases hupdate.symm.trans hended.1
      cases hacc.fate edgeId with
      | absent h₁ h₂ h₃ h₄ =>
        exact .absent (mt hcreated.mp h₁) (hpending.trans h₂) (mt hstored.mp h₃) (mt hsame.mp h₄)
      | pending edge h₁ h₂ h₃ h₄ =>
        exact .pending edge (hcreated.mpr h₁) (hpending.trans h₂) (mt hstored.mp h₃)
          (mt hsame.mp h₄)
      | stored h₁ h₂ h₃ h₄ =>
        exact .stored (hcreated.mpr h₁) (hpending.trans h₂) (hstored.mpr h₃) (mt hsame.mp h₄)
      | aborted h₁ h₂ h₃ h₄ =>
        exact .aborted (hcreated.mpr h₁) (hpending.trans h₂) (mt hstored.mp h₃) (hsame.mpr h₄)
    | some update =>
      have hknown := h.planned.known hupdate
      obtain ⟨hnotStored, hnotAborted⟩ := h.not_stored_of_known hacc hknown
      have hin : edgeId ∈ created ∪ batch.createdEdgeIds := by
        rcases hknown with hnew | ⟨old, hold⟩
        · exact Finset.mem_union_right _ (h.mem_createdEdgeIds.mpr (.inr hnew))
        · exact Finset.mem_union_left _ (hacc.of_pending hold).1
      have hpending : after.pendingEdges.get edgeId = update := by
        rw [h.pending, DeferredMutationPlan.projected, hupdate, Option.getD_some]
      cases update with
      | some edge =>
        refine .pending edge hin hpending (fun hstored => ?_) ?_
        · cases hupdate.symm.trans ((hafter hstored).resolve_left hnotStored).1
        · rw [haborts, not_or]
          exact ⟨hnotAborted, fun hmem =>
            by cases hupdate.symm.trans (h.planned.aborted hmem).1⟩
      | none =>
        rcases h.planned.ended hupdate with haborted | ⟨relate, hmem, hid⟩
        · exact .aborted hin hpending (fun hstored =>
            ((hafter hstored).resolve_left hnotStored).2 haborted) (haborts.mpr (.inr haborted))
        · have happlied := mem_append_right batch.edgeMutations hmem
          refine .stored hin hpending (.inl ⟨_, hid ▸ h.related happlied⟩) ?_
          rw [haborts, not_or]
          exact ⟨hnotAborted, (hpromoted happlied hid).2⟩

/-- **One batch keeps the accounts.** -/
theorem accounted :
    Accounted after (created ∪ batch.createdEdgeIds) (aborted ∪ plan.abortedEdgeIds.toFinset) where
  ledger := h.ledger_after hacc
  fate := h.fate_after hacc
  tombstoned := by
    intro edgeId hmem
    rw [Finset.mem_union, mem_toFinset] at hmem
    rw [h.tombstones]
    exact hmem.imp (fun hold => .inl (hacc.tombstoned hold)) id
  tombstone := by
    intro edgeId hmem
    rw [h.tombstones] at hmem
    rw [Finset.mem_union, mem_toFinset]
    rcases hmem with (hold | hremoved) | haborted
    · exact (hacc.tombstone hold).imp (fun hstored => h.stored_after_iff.mpr (.inl hstored)) .inl
    · exact .inl (h.stored_after_iff.mpr (.inl (stored_of_hasLiveEdge (h.live hremoved))))
    · exact .inr (.inr haborted)

end

/-- **One batch keeps the pending edges consistent.** -/
theorem consistent (hgraph : Consistent graph) :
    Consistent after where
  keyed := fun hedge => (h.planned.of_projected hgraph (h.pending ▸ hedge)).1
  exact := h.index
  session := by
    intro edgeId edge hedge
    obtain ⟨session, hsession, hrest⟩ := h.planned.session (h.pending ▸ hedge)
    exact ⟨session, h.sessions.trans hsession, hrest⟩
  missing := fun hedge => (h.planned.of_projected hgraph (h.pending ▸ hedge)).2

end

end BatchApplied

/-! ## What later batches keep -/

/-- The node at an endpoint of a stored edge. -/
def StoredEdge.nid (edge : StoredEdge) : GraphDeferredEndpoint → Nid
  | .source => edge.source
  | .target => edge.target

/-- The node to which an endpoint of an edge is bound, while it is pending and once it is stored. -/
def boundNid (graph : MutableGraphState) (edgeId : EdgeId) (endpoint : GraphDeferredEndpoint) :
    Option Nid :=
  match graph.pendingEdges.get edgeId with
  | some edge => edge.nid endpoint
  | none => (graph.edges.get edgeId).map (·.nid endpoint)

/-- A session stays in its state once it has ended, and keeps its opening position. -/
def SessionsFollow (before after : MutableGraphState) : Prop :=
  ∀ sessionId session, before.deferredSessions.lookup sessionId = some session →
    ∃ session', after.deferredSessions.lookup sessionId = some session' ∧
      session'.openingLsn = session.openingLsn ∧ (session.status ≠ .open → session' = session)

namespace BatchApplied

theorem sessionsFollow (h : BatchApplied graph after batch plan) : SessionsFollow graph after := by
  intro sessionId session hsession
  rw [h.sessions, DeferredMutationPlan.session]
  cases hupdate : plan.sessionUpdates.lookup sessionId with
  | none => exact ⟨session, hsession, rfl, fun _ => rfl⟩
  | some new =>
    rcases h.planned.sessions hupdate with ⟨hnone, -⟩ | ⟨old, hold, hopen, hlsn, -⟩
    · cases hsession.symm.trans hnone
    · cases hold.symm.trans hsession
      exact ⟨new, rfl, hlsn, fun hne => absurd hopen hne⟩

variable {endpoint : GraphDeferredEndpoint}

section

variable (h : BatchApplied graph after batch plan)
include h

section

variable (hacc : Accounted graph created aborted)
include hacc

/-- A bound endpoint of a pending edge stays bound, also in the edge that is promoted. -/
theorem bound_of_pending (hedge : graph.pendingEdges.get edgeId = some edge) {nid : Nid}
    (hbound : edge.nid endpoint = some nid) :
    boundNid after edgeId endpoint = some nid ∨ edgeId ∈ plan.abortedEdgeIds := by
  have horigin : ∀ {new : PendingEdge}, Origin graph plan new → new.edgeId = edgeId →
      new.nid endpoint = some nid := by
    rintro new (hnew | ⟨old, hold, hgrows⟩) rfl
    · cases hedge.symm.trans (hacc.fresh (h.planned.created hnew).1).1
    · cases hold.symm.trans hedge
      exact hgrows.nid hbound
  rw [boundNid, h.pending, DeferredMutationPlan.projected]
  cases hupdate : plan.pendingUpdates.get edgeId with
  | none =>
    rw [Option.getD_none, hedge]
    exact .inl hbound
  | some update =>
    cases update with
    | some new =>
      obtain ⟨hkey, hnew, -⟩ := h.planned.updates hupdate
      exact .inl (horigin hnew hkey)
    | none =>
      rcases h.planned.ended hupdate with haborted | ⟨relate, hmem, rfl⟩
      · exact .inr haborted
      · obtain ⟨new, hpromotion, hnew, -⟩ := h.planned.relate hmem
        obtain ⟨hkey, hsource, htarget⟩ := PendingEdge.promotion_eq_some hpromotion
        have hnid := horigin hnew hkey.symm
        refine .inl ?_
        rw [Option.getD_some, h.related (mem_append_right _ hmem), ← hnid]
        cases endpoint
        · exact hsource.symm
        · exact htarget.symm

theorem edges_of_stored (hstored : Stored graph edgeId) :
    after.edges.get edgeId = graph.edges.get edgeId ∧ after.pendingEdges.get edgeId = none := by
  have hupdate : plan.pendingUpdates.get edgeId = none :=
    Option.eq_none_iff_forall_ne_some.mpr fun update hsome =>
      (h.not_stored_of_known hacc (h.planned.known hsome)).1 hstored
  refine ⟨h.kept fun relate hmem heq => ?_, ?_⟩
  · subst heq
    rcases mem_append.mp hmem with hmem | hmem
    · exact (hacc.fresh (h.fresh hmem)).2.1 hstored
    · obtain ⟨-, -, -, hended, -⟩ := h.planned.relate hmem
      cases hupdate.symm.trans hended
  · rw [h.pending, projected_of_none hupdate]
    exact (hacc.of_stored hstored).2.1

theorem bound {nid : Nid} (hbound : boundNid graph edgeId endpoint = some nid) :
    boundNid after edgeId endpoint = some nid ∨ edgeId ∈ plan.abortedEdgeIds := by
  rw [boundNid] at hbound
  cases hpending : graph.pendingEdges.get edgeId with
  | some edge =>
    rw [hpending] at hbound
    exact h.bound_of_pending hacc hpending hbound
  | none =>
    rw [hpending] at hbound
    obtain ⟨edge, hedge, hnid⟩ := Option.map_eq_some_iff.mp hbound
    obtain ⟨hsame, hnone⟩ := h.edges_of_stored hacc (.inl ⟨edge, hedge⟩)
    refine .inl ?_
    rw [boundNid, hnone, hsame, hedge]
    exact congrArg some hnid

end

end

end BatchApplied

/-- One of three statements holds, and no other. -/
def ExactlyOne (p q r : Prop) : Prop := (p ∧ ¬q ∧ ¬r) ∨ (¬p ∧ q ∧ ¬r) ∨ (¬p ∧ ¬q ∧ r)

theorem Fate.exactlyOne (h : Fate graph created aborted edgeId)
    (hmem : edgeId ∈ created) : ExactlyOne
      (∃ edge, graph.pendingEdges.get edgeId = some edge) (Stored graph edgeId)
      (edgeId ∈ aborted) := by
  cases h with
  | absent hnot => exact absurd hmem hnot
  | pending edge _ hpending hstored haborted => exact .inl ⟨⟨edge, hpending⟩, hstored, haborted⟩
  | stored _ hnone hstored haborted =>
    exact .inr (.inl ⟨fun ⟨edge, hedge⟩ => (by cases hedge.symm.trans hnone), hstored, haborted⟩)
  | aborted _ hnone hstored haborted =>
    exact .inr (.inr ⟨fun ⟨edge, hedge⟩ => (by cases hedge.symm.trans hnone), hstored, haborted⟩)

end

/-! ## Runs -/

/-- A collection, with the edges that were ever created and those that an abort has ended. -/
structure World where
  collection : Collection
  created : Finset EdgeId
  aborted : Finset EdgeId

namespace World

def new (epoch : GraphEpoch) : World := ⟨.new epoch, ∅, ∅⟩

/-- The graph of the collection. -/
abbrev graph (world : World) : MutableGraphState := world.collection.graph

/-- What holds in every world of a run. -/
structure Inv (world : World) : Prop where
  consistent : Consistent world.graph
  accounted : Accounted world.graph world.created world.aborted

/-- What a later world of a run keeps of an earlier one. -/
structure Follows (before after : World) : Prop where
  sessions : SessionsFollow before.graph after.graph
  aborted : before.aborted ⊆ after.aborted
  bound : ∀ {edgeId endpoint nid}, boundNid before.graph edgeId endpoint = some nid →
    boundNid after.graph edgeId endpoint = some nid ∨ edgeId ∈ after.aborted

theorem inv_new (epoch : GraphEpoch) : (new epoch).Inv where
  consistent := ⟨⟨nofun, indexExact_empty⟩, nofun, nofun⟩
  accounted :=
    { ledger := by simp [new, Collection.new, MutableGraphState.new,
        MutableGraphState.containsEdgeId]
      fate := fun edgeId => by
        refine .absent (Finset.notMem_empty _) rfl ?_ (Finset.notMem_empty _)
        rintro (⟨edge, hedge⟩ | ⟨name, hname⟩)
        · cases hedge
        · cases hname
      tombstoned := fun h => absurd h (Finset.notMem_empty _)
      tombstone := fun h => absurd h (Finset.notMem_empty _) }

theorem Follows.refl (world : World) : world.Follows world :=
  ⟨fun _ session h => ⟨session, h, rfl, fun _ => rfl⟩, subset_rfl, .inl⟩

theorem Follows.trans {first second third : World} (h : first.Follows second)
    (h' : second.Follows third) : first.Follows third where
  sessions := by
    intro sessionId session hsession
    obtain ⟨middle, hmiddle, hlsn, hended⟩ := h.sessions sessionId session hsession
    obtain ⟨last, hlast, hlsn', hended'⟩ := h'.sessions sessionId middle hmiddle
    refine ⟨last, hlast, hlsn'.trans hlsn, fun hne => ?_⟩
    have hsame := hended hne
    exact (hended' (hsame ▸ hne)).trans hsame
  aborted := h.aborted.trans h'.aborted
  bound := fun hbound => (h.bound hbound).elim h'.bound fun hmem => .inr (h'.aborted hmem)

section Run

variable [Environment]

/-- A batch at a position of the log: it is refused, or prepared and applied. -/
def step (world : World) (event : ℕ × GraphBatch) : World :=
  match world.collection.prepareGraphBatch event.1 event.2 with
  | .error _ => world
  | .ok prepared =>
    ⟨world.collection.applyPrepared event.2 prepared, world.created ∪ event.2.createdEdgeIds,
      world.aborted ∪ prepared.deferredPlan.abortedEdgeIds.toFinset⟩

def run (world : World) (events : List (ℕ × GraphBatch)) : World := events.foldl step world

variable {world : World}

/-- **One batch keeps the invariant and what was decided.** -/
theorem step_keeps (h : world.Inv) (event : ℕ × GraphBatch) :
    (world.step event).Inv ∧ world.Follows (world.step event) := by
  rw [step]
  split
  · exact ⟨h, .refl world⟩
  · next prepared hprepared =>
    have happlied := applyPrepared_spec h.consistent hprepared
    refine ⟨⟨happlied.consistent h.consistent, happlied.accounted h.accounted⟩,
      happlied.sessionsFollow, Finset.subset_union_left, fun hbound => ?_⟩
    refine (happlied.bound h.accounted hbound).imp id fun hmem => ?_
    exact Finset.mem_union_right _ (mem_toFinset.mpr hmem)

theorem run_keeps (h : world.Inv) (events : List (ℕ × GraphBatch)) :
    (world.run events).Inv ∧ world.Follows (world.run events) := by
  induction events generalizing world with
  | nil => exact ⟨h, .refl world⟩
  | cons event events ih =>
    obtain ⟨hinv, hfollows⟩ := step_keeps h event
    obtain ⟨hrest, hrestFollows⟩ := ih hinv
    exact ⟨hrest, hfollows.trans hrestFollows⟩

end Run

end World

/-- **Deferred sessions stay consistent.**  After any batches, accepted or refused, the pending
edges agree with the sessions and the index lists exactly their missing endpoints.  Whatever more
batches follow, a session that has ended stays ended and has no pending edge, a bound endpoint keeps
its node for as long as its edge is not aborted, and every edge ever created is pending, stored or
tombstoned by an abort, and only one of these. -/
theorem deferred_sessions_consistent [Environment] (epoch : GraphEpoch)
    (first rest : List (ℕ × GraphBatch)) :
    let before := (World.new epoch).run first
    let after := before.run rest
    Consistent after.graph ∧
      (∀ sessionId session, before.graph.deferredSessions.lookup sessionId = some session →
        session.status ≠ .open →
        after.graph.deferredSessions.lookup sessionId = some session ∧
          ∀ edgeId edge, after.graph.pendingEdges.get edgeId = some edge →
            edge.sessionId ≠ sessionId) ∧
      (∀ edgeId endpoint nid, boundNid before.graph edgeId endpoint = some nid →
        boundNid after.graph edgeId endpoint = some nid ∨ edgeId ∈ after.aborted) ∧
      (∀ edgeId ∈ after.created,
        ExactlyOne (∃ edge, after.graph.pendingEdges.get edgeId = some edge)
          (Stored after.graph edgeId) (edgeId ∈ after.aborted)) ∧
      after.aborted ⊆ after.graph.edgeTombstones := by
  intro before after
  have hbefore := (World.run_keeps (World.inv_new epoch) first).1
  obtain ⟨hafter, hfollows⟩ := World.run_keeps hbefore rest
  refine ⟨hafter.consistent, fun sessionId session hsession hended => ?_,
    fun edgeId endpoint nid hbound => hfollows.bound hbound,
    fun edgeId hmem => (hafter.accounted.fate edgeId).exactlyOne hmem,
    fun edgeId hmem => hafter.accounted.tombstoned hmem⟩
  obtain ⟨session', hlater, -, hsame⟩ := hfollows.sessions sessionId session hsession
  rw [hsame hended] at hlater
  refine ⟨hlater, fun edgeId edge hedge heq => ?_⟩
  obtain ⟨held, hheld, hopen, -⟩ := hafter.consistent.session hedge
  rw [heq] at hheld
  cases hheld.symm.trans hlater
  exact hended hopen

/-- An environment in which nothing is too long. -/
@[reducible] def plainEnvironment : Environment :=
  ⟨fun _ => 0, fun _ => 0, fun _ => "", fun _ => .ok ()⟩

/-- A session opens with an edge from a missing point to itself; the batch that writes the point
binds both endpoints. -/
def selfLoop : List (ℕ × GraphBatch) :=
  [(5, { GraphBatch.default with
      typeConfigurations := [⟨1, "cites", none⟩]
      deferredSessions := [.open "load" none]
      deferredBinds := [⟨"load", 2 ^ 40 + 1, "a", "a", none, none, 1,
        .tenant "@chiron:default", .object []⟩] }),
    (6, { GraphBatch.default with
      pointMutations := [.upsert ⟨"a", .object []⟩]
      handleAssignments := [⟨"a", 2 ^ 40 + 7⟩]
      edgeBinds := [⟨"load", 2 ^ 40 + 1, .source, "a", 2 ^ 40 + 7⟩,
        ⟨"load", 2 ^ 40 + 1, .target, "a", 2 ^ 40 + 7⟩] })]

/-- The index first lists the two endpoints under one key, then the edge is stored. -/
example :
    (@World.run plainEnvironment (.new 1) (selfLoop.take 1)).graph.pendingByEndpoint.lookup
      ("a", "load", 5) = some [(2 ^ 40 + 1, .source), (2 ^ 40 + 1, .target)] ∧
    (@World.run plainEnvironment (.new 1) selfLoop).graph.edges.get (2 ^ 40 + 1) =
      some ⟨2 ^ 40 + 1, 2 ^ 40 + 7, 2 ^ 40 + 7, 1, .tenant "@chiron:default"⟩ := by
  decide +kernel

end ChironDB.Graph.State
