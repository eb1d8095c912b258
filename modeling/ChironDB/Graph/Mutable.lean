/-
# The mutable graph of a collection

`mutable_graph.rs`, `graph_resolver.rs` and the graph part of `db.rs`: the resolver of live points,
the catalog of edge types, the unsealed topology with its adjacency, the deferred sessions with
their pending edges, and how one `GraphBatch` is prepared against all of them and then applied.

Preparing a batch reads and may refuse; applying a prepared batch cannot fail.  What lies sealed in
artifacts is read through a pinned generation, of which only the answers of its readers matter
here.
-/

import ChironDB.Graph.Batch
import ChironDB.Tables.Index

namespace ChironDB.Graph.State

open Fault Tables

/-! ## Identities of points and types -/

structure PointIncarnationResolver where
  liveByPoint : Table String Nid
  liveByNid : Table Nid String
  retired : Finset Nid

namespace PointIncarnationResolver

/-- `default`. -/
def empty : PointIncarnationResolver := ⟨∅, ∅, ∅⟩

variable (self : PointIncarnationResolver)

def liveNid (pointId : String) : Option Nid := self.liveByPoint.lookup pointId

def livePointId (nid : Nid) : Option String := self.liveByNid.lookup nid

def isRetired (nid : Nid) : Bool := nid ∈ self.retired

def invalid (message : String) : GaussError :=
  .invalidRequest ("invalid graph incarnation assignment: " ++ message)

def bindLive (pointId : String) (nid : Nid) : Result PointIncarnationResolver := do
  ensure (nid ≠ 0) (invalid "Nid=0 cannot identify a live graph node")
  ensure (nid ∉ self.retired) (invalid "a retired Nid cannot become live again")
  match self.liveByPoint.lookup pointId with
  | some existing =>
    ensure (existing = nid) (invalid "a live point ID cannot change Nid")
    pure self
  | none =>
    ensure (self.liveByNid.lookup nid).isNone (invalid "a live Nid cannot identify two point IDs")
    pure ⟨self.liveByPoint.insert pointId nid, self.liveByNid.insert nid pointId, self.retired⟩

def retire (pointId : String) : PointIncarnationResolver :=
  match self.liveByPoint.lookup pointId with
  | none => self
  | some nid =>
    ⟨self.liveByPoint.erase pointId, self.liveByNid.erase nid, insert nid self.retired⟩

end PointIncarnationResolver

structure GraphTypeCatalog where
  byId : TreeMap TypeId GraphTypeConfiguration
  byName : Table String TypeId

namespace GraphTypeCatalog

/-- `default`. -/
def empty : GraphTypeCatalog := ⟨.empty, ∅⟩

def invalidCatalog (message : String) : GaussError :=
  .invalidRequest ("invalid graph type catalog: " ++ message)

def validateCatalogName (label value : String) : Result Unit :=
  ensure (value ≠ "" && value.utf8ByteSize ≤ maxGraphCatalogNameBytes)
    (invalidCatalog (label ++ " must contain 1..=255 UTF-8 bytes"))

def get (self : GraphTypeCatalog) (typeId : TypeId) : Option GraphTypeConfiguration :=
  self.byId.get typeId

def configure (self : GraphTypeCatalog) (definition : GraphTypeConfiguration) :
    Result GraphTypeCatalog := do
  ensure (definition.typeId ≠ 0) (invalidCatalog "TypeId=0 is reserved")
  validateCatalogName "edge type" definition.name
  definition.weightProperty.forM (validateCatalogName "weight property")
  ensure ((self.byId.get definition.typeId).all (·.name = definition.name))
    (invalidCatalog "a TypeId cannot be remapped to another name")
  ensure ((self.byName.lookup definition.name).all (· = definition.typeId))
    (invalidCatalog "an edge type name cannot identify two TypeIds")
  pure ⟨self.byId.insert definition.typeId definition,
    self.byName.insert definition.name definition.typeId⟩

end GraphTypeCatalog

/-! ## Topology -/

structure StoredEdge where
  edgeId : EdgeId
  source : Nid
  target : Nid
  typeId : TypeId
  «namespace» : GraphNamespace
  deriving DecidableEq, Repr

def RelateMutation.stored (self : RelateMutation) : StoredEdge :=
  ⟨self.edgeId, self.source, self.target, self.typeId, self.namespace⟩

/-- An edge as a cursor hands it out. -/
structure AdjacencyEdge where
  edgeId : EdgeId
  source : Nid
  target : Nid
  typeId : TypeId
  deriving DecidableEq, Repr

def StoredEdge.adjacency (edge : StoredEdge) : AdjacencyEdge :=
  ⟨edge.edgeId, edge.source, edge.target, edge.typeId⟩

structure NamespaceAdjacency where
  outgoing : Table Nid (List EdgeId)
  incoming : Table Nid (List EdgeId)

namespace NamespaceAdjacency

def empty : NamespaceAdjacency := ⟨∅, ∅⟩

/-- `entry(key).or_default().push(edge)`. -/
def push (rows : Table Nid (List EdgeId)) (nid : Nid) (edgeId : EdgeId) :
    Table Nid (List EdgeId) :=
  rows.insert nid ((rows.lookup nid).getD [] ++ [edgeId])

def insert (self : NamespaceAdjacency) (edge : StoredEdge) : NamespaceAdjacency :=
  ⟨push self.outgoing edge.source edge.edgeId, push self.incoming edge.target edge.edgeId⟩

/-- `outgoing` and `incoming`. -/
def row (self : NamespaceAdjacency) (nid : Nid) (incoming : Bool) : List EdgeId :=
  ((if incoming then self.incoming else self.outgoing).lookup nid).getD []

end NamespaceAdjacency

structure MutableAdjacency where
  tenants : Table String NamespaceAdjacency
  adminCrossTenant : NamespaceAdjacency

namespace MutableAdjacency

def empty : MutableAdjacency := ⟨∅, .empty⟩

def insert (self : MutableAdjacency) (edge : StoredEdge) : MutableAdjacency :=
  match edge.namespace with
  | .tenant tenant =>
    let adjacency := (self.tenants.lookup tenant).getD .empty
    { self with tenants := self.tenants.insert tenant (adjacency.insert edge) }
  | .adminCrossTenant => { self with adminCrossTenant := self.adminCrossTenant.insert edge }

def inNamespace (self : MutableAdjacency) : GraphNamespace → Option NamespaceAdjacency
  | .tenant tenant => self.tenants.lookup tenant
  | .adminCrossTenant => some self.adminCrossTenant

end MutableAdjacency

/-- A pinned generation, by what its readers return. -/
structure SealedLedger where
  contains : EdgeId → Result Bool
  len : ℕ

structure SealedNamespaces where
  lookup : EdgeId → Result (Option GraphNamespace)
  len : ℕ

structure SealedAdjacency where
  /-- The steps of the cursor of a row that carry an edge. -/
  edgeCandidates : GraphNamespace → Nid → Bool → Result (List (Result AdjacencyEdge))
  namespaces : List GraphNamespace

/-! ## The state -/

inductive DeferredSessionStatus
  | «open» | committed | aborted
  deriving DecidableEq, Repr

structure DeferredSession where
  openingLsn : ℕ
  status : DeferredSessionStatus
  owner : Option GraphSessionOwner
  deriving DecidableEq, Repr

structure PendingEdge where
  sessionId : String
  openingLsn : ℕ
  edgeId : EdgeId
  sourcePointId : String
  targetPointId : String
  sourceNid : Option Nid
  targetNid : Option Nid
  typeId : TypeId
  «namespace» : GraphNamespace
  properties : Json.Value

structure PersistChanges where
  ledger : TreeMap EdgeId ℕ
  topology : TreeMap EdgeId ℕ
  properties : TreeMap EdgeId ℕ

abbrev EndpointKey := String × String × ℕ

structure MutableGraphState where
  epoch : GraphEpoch
  types : GraphTypeCatalog
  edgeIds : Finset EdgeId
  sealedLedger : SealedLedger
  edges : TreeMap EdgeId StoredEdge
  propertyTail : TreeMap EdgeId Json.Value
  sealedNamespaces : SealedNamespaces
  sealedProperties : EdgeId → Result (Option Json.Value)
  liveEdges : ℕ
  edgeTombstones : Finset EdgeId
  adjacency : MutableAdjacency
  sealedAdjacency : Option SealedAdjacency
  deferredSessions : Table String DeferredSession
  pendingEdges : TreeMap EdgeId PendingEdge
  pendingByEndpoint : Table EndpointKey (List (EdgeId × GraphDeferredEndpoint))
  idempotency : Table String GraphIdempotencyState
  persistChanges : PersistChanges

structure DeferredMutationPlan where
  sessionUpdates : Table String DeferredSession
  pendingUpdates : TreeMap EdgeId (Option PendingEdge)
  createdEdgeIds : List EdgeId
  abortedEdgeIds : List EdgeId
  promoted : List EdgeMutation

namespace PendingEdge

variable (self : PendingEdge)

/-- The point an endpoint names. -/
def pointId : GraphDeferredEndpoint → String
  | .source => self.sourcePointId
  | .target => self.targetPointId

/-- The identity an endpoint is bound to. -/
def nid : GraphDeferredEndpoint → Option Nid
  | .source => self.sourceNid
  | .target => self.targetNid

def bind (nid : Nid) : GraphDeferredEndpoint → PendingEdge
  | .source => { self with sourceNid := some nid }
  | .target => { self with targetNid := some nid }

/-- The key under which a missing endpoint is indexed. -/
def endpointKey (endpoint : GraphDeferredEndpoint) : EndpointKey :=
  (self.pointId endpoint, self.sessionId, self.openingLsn)

/-- The edge, once both its endpoints are bound. -/
def promotion : Option RelateMutation :=
  match self.sourceNid, self.targetNid with
  | some source, some target =>
    some ⟨self.edgeId, source, target, self.typeId, self.namespace, self.properties⟩
  | _, _ => none

/-- The points of the missing endpoints of an edge of a session. -/
def unbound (sessionId : String) : List String :=
  if self.sessionId = sessionId then
    (if self.sourceNid.isNone then [self.sourcePointId] else []) ++
      (if self.targetNid.isNone then [self.targetPointId] else [])
  else []

end PendingEdge

/-- The pending edge that a deferred bind records. -/
def GraphDeferredBind.pending (self : GraphDeferredBind) (openingLsn : ℕ) : PendingEdge :=
  ⟨self.sessionId, openingLsn, self.edgeId, self.sourcePointId, self.targetPointId,
    self.sourceNid, self.targetNid, self.typeId, self.namespace, self.properties⟩

def invalidDeferred (message : String) : GaussError :=
  .invalidRequest ("invalid deferred graph session: " ++ message)

def invalidDeferredItem (itemIndex : ℕ) (message : String) : GaussError :=
  .invalidRequest ("invalid deferred edge mutation at index " ++ toString itemIndex ++ ": " ++
    message)

def invalidEdgeItem (itemIndex : ℕ) (message : String) : GaussError :=
  .invalidRequest ("invalid graph edge mutation at index " ++ toString itemIndex ++ ": " ++ message)

def edgeNotFound (edgeId : EdgeId) (itemIndex : ℕ) : GaussError :=
  .graph .edgeNotFound ("EdgeId " ++ toString edgeId ++ " is not live") (some itemIndex)

def sessionNotOpen (sessionId : String) (itemIndex : ℕ) : GaussError :=
  .graph .deferredSessionNotFound ("deferred session '" ++ sessionId ++ "' is not open")
    (some itemIndex)

def typeNotConfigured (typeId : TypeId) (itemIndex : ℕ) : GaussError :=
  .graph .typeNotFound ("edge type " ++ toString typeId ++ " is not configured") (some itemIndex)

namespace MutableGraphState

def new (epoch : GraphEpoch) : MutableGraphState where
  epoch := epoch
  types := .empty
  edgeIds := ∅
  sealedLedger := ⟨fun _ => .ok false, 0⟩
  edges := .empty
  propertyTail := .empty
  sealedNamespaces := ⟨fun _ => .ok none, 0⟩
  sealedProperties := fun _ => .ok none
  liveEdges := 0
  edgeTombstones := ∅
  adjacency := .empty
  sealedAdjacency := none
  deferredSessions := ∅
  pendingEdges := .empty
  pendingByEndpoint := ∅
  idempotency := ∅
  persistChanges := ⟨.empty, .empty, .empty⟩

variable (self : MutableGraphState)

def containsEdgeId (id : EdgeId) : Result Bool :=
  if id ∈ self.edgeIds then .ok true else self.sealedLedger.contains id

def edgeVisible (edgeId : EdgeId) : Bool := edgeId ∉ self.edgeTombstones

def edgeNamespace (edgeId : EdgeId) : Result (Option GraphNamespace) :=
  if self.edgeVisible edgeId then
    match self.edges.get edgeId with
    | some edge => .ok (some edge.namespace)
    | none => self.sealedNamespaces.lookup edgeId
  else .ok none

def hasLiveEdge (edgeId : EdgeId) : Result Bool := do
  let «namespace» ← self.edgeNamespace edgeId
  pure «namespace».isSome

def storedProperties (edgeId : EdgeId) : Result Json.Value :=
  match self.propertyTail.get edgeId with
  | some properties => .ok properties
  | none => do
    match ← self.sealedProperties edgeId with
    | some properties => pure properties
    | none => .error (.invalidRequest "sealed graph edge has no property row")

/-- `edge_properties`. -/
def edgeProperties (edgeId : EdgeId) : Result (Option Json.Value) := do
  if ← self.hasLiveEdge edgeId then
    let properties ← self.storedProperties edgeId
    pure (some properties)
  else pure none

/-- `edge_candidates`: the sealed rows, then the unsealed ones. -/
def edgeCandidates («namespace» : GraphNamespace) (nid : Nid) (incoming : Bool) :
    Result (List (Result AdjacencyEdge)) := do
  let tail := ((self.adjacency.inNamespace «namespace»).map (·.row nid incoming)).getD []
  let fromSealed ← match self.sealedAdjacency with
    | some base => base.edgeCandidates «namespace» nid incoming
    | none => pure []
  pure (fromSealed ++ tail.map fun id =>
    match self.edges.get id with
    | some edge => .ok edge.adjacency
    | none => .error (.invalidRequest "mutable adjacency has no topology"))

def incidentNamespaces (tenant : Option String) : List GraphNamespace :=
  .adminCrossTenant :: match tenant with
    | some tenant => [.tenant tenant]
    | none => self.adjacency.tenants.keys.map .tenant ++
        (self.sealedAdjacency.map SealedAdjacency.namespaces).getD []

def hasLiveIncidentEdgeExcluding (nid : Nid) (tenant : Option String) (removed : Finset EdgeId) :
    Result Bool :=
  (self.incidentNamespaces tenant).anyM fun «namespace» => [false, true].anyM fun incoming => do
    let steps ← self.edgeCandidates «namespace» nid incoming
    steps.anyM fun step => do
      let edge ← step
      pure (edge.edgeId ∉ removed && self.edgeVisible edge.edgeId &&
        (edge.source = nid || edge.target = nid))

def validateIdempotency (entry : Option GraphIdempotencyState) : Result Unit :=
  entry.forM fun entry => ensure ((self.idempotency.lookup entry.key).all (· = entry))
    (.invalidRequest ("idempotency key '" ++ entry.key ++
      "' is already bound to another graph request in epoch " ++ toString self.epoch))

def applyValidatedIdempotency (entry : Option GraphIdempotencyState) : MutableGraphState :=
  match entry with
  | some entry =>
    if (self.idempotency.lookup entry.key).isSome then self
    else { self with idempotency := self.idempotency.insert entry.key entry }
  | none => self

end MutableGraphState

/-! ## Planning deferred mutations -/

namespace DeferredMutationPlan

/-- `default`. -/
def empty : DeferredMutationPlan := ⟨∅, .empty, [], [], []⟩

variable (self : DeferredMutationPlan)

/-- A session as the batch will leave it. -/
def session (graph : MutableGraphState) (sessionId : String) : Option DeferredSession :=
  (self.sessionUpdates.lookup sessionId).or (graph.deferredSessions.lookup sessionId)

/-- `session_is_open`. -/
def sessionIsOpen (graph : MutableGraphState) (sessionId : String) : Bool :=
  (self.session graph sessionId).any (·.status = .open)

/-- A pending edge as the batch will leave it. -/
def projected (graph : MutableGraphState) (edgeId : EdgeId) : Option PendingEdge :=
  (self.pendingUpdates.get edgeId).getD (graph.pendingEdges.get edgeId)

/-- The loop that promotes every update with two bound endpoints. -/
def promote : DeferredMutationPlan :=
  { self with
    promoted := self.promoted ++ self.pendingUpdates.values.filterMap fun update =>
      (update.bind PendingEdge.promotion).map .relate
    pendingUpdates := self.pendingUpdates.mapValues fun update =>
      update.filter (·.promotion.isNone) }

/-- One edge of an aborted session, unless it has been promoted. -/
def abortEdge (edgeId : EdgeId) : DeferredMutationPlan :=
  if (self.pendingUpdates.get edgeId).any Option.isNone then self
  else { self with
    pendingUpdates := self.pendingUpdates.insert edgeId none
    abortedEdgeIds := self.abortedEdgeIds ++ [edgeId] }

end DeferredMutationPlan

def validateDeferredEndpoint (resolver : PointIncarnationResolver) (pointId : String)
    (recordedNid : Option Nid) (itemIndex : ℕ) : Result Unit :=
  ensure (resolver.liveNid pointId = recordedNid) (invalidDeferredItem itemIndex
    "pending edge must record the exact live Nid or None for an absent endpoint")

/-- `projected_unbound_endpoints`. -/
def projectedUnboundEndpoints (current : TreeMap EdgeId PendingEdge)
    (updates : TreeMap EdgeId (Option PendingEdge)) (sessionId : String) : List String :=
  sortedKeys ((current.entries.flatMap fun entry =>
      (((updates.get entry.1).getD (some entry.2)).map (·.unbound sessionId)).getD []) ++
    updates.entries.flatMap fun entry =>
      if current.containsKey entry.1 then []
      else (entry.2.map (·.unbound sessionId)).getD [])

/-- An edge property document is checked once more where it is applied. -/
def validatePropertyDocument [Environment] (properties : Json.Value) (itemIndex : ℕ) :
    Result Unit := do
  ensure properties.isObject (invalidEdgeItem itemIndex "edge properties must be a JSON object")
  ensure (Environment.valueLength properties ≤ maxEdgePropertyBytes) (.graph .propertyTooLarge
    ("edge properties are " ++ toString (Environment.valueLength properties) ++
      " bytes; maximum is " ++ toString maxEdgePropertyBytes) (some itemIndex))

namespace MutableGraphState

variable (self : MutableGraphState)

/-- Only an open session is committed or aborted. -/
def planTerminal (sessionId : String) : Result Unit :=
  match self.deferredSessions.lookup sessionId with
  | none => .error (.graph .deferredSessionNotFound
      ("deferred session '" ++ sessionId ++ "' does not exist") none)
  | some session => ensure (session.status = .open)
      (invalidDeferred ("deferred session '" ++ sessionId ++ "' is not open"))

/-- The first loop of `plan_deferred`, with the mutations that end a session. -/
def planSession (recordLsn : ℕ) (acc : DeferredMutationPlan × List GraphDeferredSessionMutation)
    (mutation : GraphDeferredSessionMutation) :
    Result (DeferredMutationPlan × List GraphDeferredSessionMutation) :=
  match mutation with
  | .open sessionId owner => do
    ensure (self.deferredSessions.lookup sessionId).isNone
      (invalidDeferred ("deferred session '" ++ sessionId ++ "' already exists"))
    pure ({ acc.1 with
      sessionUpdates := acc.1.sessionUpdates.insert sessionId ⟨recordLsn, .open, owner⟩ }, acc.2)
  | .commit sessionId => do
    self.planTerminal sessionId
    pure (acc.1, acc.2 ++ [.commit sessionId])
  | .abort sessionId => do
    self.planTerminal sessionId
    pure (acc.1, acc.2 ++ [.abort sessionId])

section Plan

variable [Environment]

/-- The loop over the edges that are created pending. -/
def planCreate (resolver : PointIncarnationResolver) (types : GraphTypeCatalog)
    (plan : DeferredMutationPlan) (item : GraphDeferredBind × ℕ) : Result DeferredMutationPlan := do
  let (create, itemIndex) := item
  ensure (plan.sessionIsOpen self create.sessionId) (sessionNotOpen create.sessionId itemIndex)
  let known ← self.containsEdgeId create.edgeId
  ensure (!known && create.edgeId ∉ plan.createdEdgeIds)
    (invalidDeferredItem itemIndex "EdgeId already exists in the stable ledger")
  ensure (types.get create.typeId).isSome (typeNotConfigured create.typeId itemIndex)
  validatePropertyDocument create.properties itemIndex
  validateDeferredEndpoint resolver create.sourcePointId create.sourceNid itemIndex
  validateDeferredEndpoint resolver create.targetPointId create.targetNid itemIndex
  match plan.session self create.sessionId with
  | none => .error (.panicked "validated open deferred session exists")
  | some session => pure { plan with
      createdEdgeIds := plan.createdEdgeIds ++ [create.edgeId]
      pendingUpdates := plan.pendingUpdates.insert create.edgeId
        (some (create.pending session.openingLsn)) }

end Plan

/-- The pending edge a bind refers to. -/
def boundPending (plan : DeferredMutationPlan) (edgeId : EdgeId) (itemIndex : ℕ) :
    Result PendingEdge :=
  match plan.pendingUpdates.get edgeId with
  | some (some pending) => .ok pending
  | some none => .error (invalidDeferredItem itemIndex "deferred edge is already fully bound")
  | none => match self.pendingEdges.get edgeId with
    | some pending => .ok pending
    | none => .error (invalidDeferredItem itemIndex "pending EdgeId does not exist")

def immutableBinding : GraphDeferredEndpoint → String
  | .source => "source binding is immutable or names the wrong point"
  | .target => "target binding is immutable or names the wrong point"

/-- The loop over the endpoints that are bound. -/
def planBind (resolver : PointIncarnationResolver) (assignments : List GraphHandleAssignment)
    (plan : DeferredMutationPlan) (item : GraphEdgeBind × ℕ) : Result DeferredMutationPlan := do
  let (bind, itemIndex) := item
  ensure (plan.sessionIsOpen self bind.sessionId) (sessionNotOpen bind.sessionId itemIndex)
  let pending ← self.boundPending plan bind.edgeId itemIndex
  ensure (pending.sessionId = bind.sessionId) (invalidDeferredItem itemIndex
    "pending EdgeId belongs to another deferred session")
  ensure (⟨bind.pointId, bind.nid⟩ ∈ assignments && resolver.liveNid bind.pointId = some bind.nid)
    (invalidDeferredItem itemIndex
      "EdgeBind must name the exact Nid assigned in the same GraphBatch")
  ensure (pending.pointId bind.endpoint = bind.pointId && (pending.nid bind.endpoint).isNone)
    (invalidDeferredItem itemIndex (immutableBinding bind.endpoint))
  pure { plan with
    pendingUpdates := plan.pendingUpdates.insert bind.edgeId
      (some (pending.bind bind.nid bind.endpoint)) }

/-- The edges an abort ends, those of the state and those of the plan. -/
def abortIds (plan : DeferredMutationPlan) (sessionId : String) : List EdgeId :=
  (((self.pendingEdges.values ++ plan.pendingUpdates.values.filterMap id).filter
    (·.sessionId = sessionId)).map PendingEdge.edgeId).dedup

/-- The new status of a session that ends. -/
def closeSession (plan : DeferredMutationPlan) (sessionId : String)
    (status : DeferredSessionStatus) : Result DeferredMutationPlan :=
  match self.deferredSessions.lookup sessionId with
  | none => .error (.panicked "validated terminal session exists")
  | some session => .ok { plan with
      sessionUpdates := plan.sessionUpdates.insert sessionId { session with status := status } }

/-- The last loop of `plan_deferred`. -/
def planClose [Environment] (plan : DeferredMutationPlan)
    (mutation : GraphDeferredSessionMutation) : Result DeferredMutationPlan :=
  match mutation with
  | .open _ _ => .error (.panicked "unreachable")
  | .commit sessionId => do
    let offenders := projectedUnboundEndpoints self.pendingEdges plan.pendingUpdates sessionId
    ensure offenders.isEmpty (.graph .deferredEndpointsRemain
      ("deferred session '" ++ sessionId ++ "' has " ++ toString offenders.length ++
        " unbound endpoints: " ++ Environment.debugPoints offenders) none)
    self.closeSession plan sessionId .committed
  | .abort sessionId =>
    let ended := (self.abortIds plan sessionId).foldl DeferredMutationPlan.abortEdge plan
    self.closeSession ended sessionId .aborted

/-- `plan_deferred`. -/
def planDeferred [Environment] (resolver : PointIncarnationResolver) (recordLsn : ℕ)
    (batch : GraphBatch) (types : GraphTypeCatalog) : Result DeferredMutationPlan := do
  let (opened, terminal) ← batch.deferredSessions.foldlM (self.planSession recordLsn) (.empty, [])
  let created ← batch.deferredBinds.zipIdx.foldlM (self.planCreate resolver types) opened
  let bound ← batch.edgeBinds.zipIdx.foldlM (self.planBind resolver batch.handleAssignments) created
  terminal.foldlM self.planClose bound.promote

/-! ## Validating and applying -/

/-- `DEFAULT_GRAPH_NAMESPACE`. -/
def defaultGraphNamespace : String := "@chiron:default"

/-- Whether the tenants of the endpoints belong to the namespace of an edge. -/
def namespaceAllows (source target : Option String) : GraphNamespace → Bool
  | .tenant tenant => source.getD defaultGraphNamespace = tenant &&
      target.getD defaultGraphNamespace = tenant
  | .adminCrossTenant => source.isSome && target.isSome && source ≠ target

def namespaceRefusal : GraphNamespace → String
  | .tenant _ => "tenant-local edge endpoints must belong to its physical namespace"
  | .adminCrossTenant => "admin cross-tenant edge endpoints must belong to different named tenants"

def endpointNotLive (nid : Nid) (itemIndex : ℕ) : GaussError :=
  .graph .endpointNotFound ("endpoint Nid " ++ toString nid ++ " is not live") (some itemIndex)

section Validate

variable [Environment]

def validateRelate (resolver : PointIncarnationResolver) (relate : RelateMutation)
    (tenantForNid : Nid → Option String) (types : GraphTypeCatalog) (promotingPending : Bool)
    (itemIndex : ℕ) : Result Unit := do
  ensure (wellFormedId relate.edgeId) (invalidEdgeItem itemIndex "invalid EdgeId")
  if promotingPending then pure ()
  else
    let known ← self.containsEdgeId relate.edgeId
    ensure (!known) (invalidEdgeItem itemIndex "EdgeId already exists in the stable ledger")
  ensure (types.get relate.typeId).isSome (typeNotConfigured relate.typeId itemIndex)
  [relate.source, relate.target].forM fun nid =>
    ensure (resolver.livePointId nid).isSome (endpointNotLive nid itemIndex)
  ensure (namespaceAllows (tenantForNid relate.source) (tenantForNid relate.target)
    relate.namespace) (invalidEdgeItem itemIndex (namespaceRefusal relate.namespace))
  validatePropertyDocument relate.properties itemIndex

def validateEdgeMutation (resolver : PointIncarnationResolver)
    (tenantForNid : Nid → Option String) (types : GraphTypeCatalog)
    (promotedPendingIds : Finset EdgeId) (mutation : EdgeMutation) (itemIndex : ℕ) :
    Result Unit :=
  match mutation with
  | .relate edge => self.validateRelate resolver edge tenantForNid types
      (edge.edgeId ∈ promotedPendingIds) itemIndex
  | .unrelate edgeId => do
    let live ← self.hasLiveEdge edgeId
    ensure live (edgeNotFound edgeId itemIndex)
  | .properties patch => do
    let live ← self.hasLiveEdge patch.edgeId
    ensure live (edgeNotFound patch.edgeId itemIndex)
    validatePropertyDocument patch.properties itemIndex

/-- `validate_edge_mutations_with_types_and_promotions`. -/
def validateEdgeMutations (resolver : PointIncarnationResolver) (mutations : List EdgeMutation)
    (tenantForNid : Nid → Option String) (types : GraphTypeCatalog)
    (promotedPendingIds : Finset EdgeId) : Result (Finset EdgeId) :=
  mutations.zipIdx.foldlM (fun seen (mutation, itemIndex) => do
    ensure (mutation.edgeId ∉ seen)
      (invalidEdgeItem itemIndex "one EdgeId is mutated more than once")
    self.validateEdgeMutation resolver tenantForNid types promotedPendingIds mutation itemIndex
    pure (insert mutation.edgeId seen)) ∅

/-- The fields of a patch over those of a document. -/
def mergeDocument (document patch : Json.Value) : Json.Value :=
  match document, patch with
  | .object fields, .object changes =>
    .object (changes.foldl (fun fields change => insertEntry change.1 change.2 fields) fields)
  | _, _ => document

/-- A patch that merges becomes one that replaces. -/
def resolvePatch (patch : EdgePropertyMutation) (itemIndex : ℕ) : Result EdgePropertyMutation :=
  match patch.mode with
  | .replace => .ok patch
  | .merge => do
    match ← self.edgeProperties patch.edgeId with
    | none => .error (edgeNotFound patch.edgeId itemIndex)
    | some document =>
      pure ⟨patch.edgeId, .replace, mergeDocument document patch.properties⟩

def preparePropertyMutation (mutation : EdgeMutation) (itemIndex : ℕ) : Result EdgeMutation :=
  match mutation with
  | .properties patch => do
    let prepared ← self.resolvePatch patch itemIndex
    validatePropertyDocument prepared.properties itemIndex
    pure (.properties prepared)
  | mutation => pure mutation

/-- `prepare_property_mutations`. -/
def preparePropertyMutations (mutations : List EdgeMutation) : Result (List EdgeMutation) :=
  mutations.zipIdx.mapM fun item => self.preparePropertyMutation item.1 item.2

end Validate

/-- `track_persist_changes`, for one mutation. -/
def trackMutation (recordLsn : ℕ) (changes : PersistChanges) (mutation : EdgeMutation) :
    PersistChanges :=
  match mutation with
  | .relate edge =>
    { ledger := if self.pendingEdges.containsKey edge.edgeId then changes.ledger
        else changes.ledger.insert edge.edgeId recordLsn
      topology := changes.topology.insert edge.edgeId recordLsn
      properties := changes.properties.insert edge.edgeId recordLsn }
  | .properties patch =>
    { changes with properties := changes.properties.insert patch.edgeId recordLsn }
  | .unrelate _ => changes

/-- `track_persist_changes`. -/
def trackPersistChanges (recordLsn : ℕ) (mutations : List EdgeMutation)
    (deferred : DeferredMutationPlan) : MutableGraphState :=
  let changes := mutations.foldl (self.trackMutation recordLsn) self.persistChanges
  { self with persistChanges := { changes with
      ledger := deferred.createdEdgeIds.foldl
        (fun ledger id => ledger.insert id recordLsn) changes.ledger } }

/-- `apply_validated_edge_mutations`, for one mutation. -/
def applyEdgeMutation (self : MutableGraphState) (mutation : EdgeMutation) : MutableGraphState :=
  match mutation with
  | .relate relate =>
    { self with
      adjacency := self.adjacency.insert relate.stored
      edgeIds := if self.pendingEdges.containsKey relate.edgeId then self.edgeIds
        else insert relate.edgeId self.edgeIds
      edges := self.edges.insert relate.edgeId relate.stored
      propertyTail := self.propertyTail.insert relate.edgeId relate.properties
      liveEdges := self.liveEdges + 1 }
  | .unrelate edgeId =>
    { self with
      edgeTombstones := insert edgeId self.edgeTombstones
      liveEdges := self.liveEdges - 1 }
  | .properties patch =>
    match patch.mode with
    | .replace =>
      { self with propertyTail := self.propertyTail.insert patch.edgeId patch.properties }
    | .merge =>
      -- a prepared batch holds no patch of this kind
      match self.propertyTail.get patch.edgeId with
      | some document => { self with
          propertyTail := self.propertyTail.insert patch.edgeId
            (mergeDocument document patch.properties) }
      | none => self

def applyEdgeMutations (mutations : List EdgeMutation) : MutableGraphState :=
  mutations.foldl applyEdgeMutation self

/-- `index_pending_edge`, for one endpoint. -/
def indexEndpoint (pending : PendingEdge)
    (index : Table EndpointKey (List (EdgeId × GraphDeferredEndpoint)))
    (endpoint : GraphDeferredEndpoint) :
    Table EndpointKey (List (EdgeId × GraphDeferredEndpoint)) :=
  if (pending.nid endpoint).isNone then
    index.insert (pending.endpointKey endpoint)
      ((index.lookup (pending.endpointKey endpoint)).getD [] ++ [(pending.edgeId, endpoint)])
  else index

/-- `unindex_pending_edge`, for one endpoint. -/
def unindexEndpoint (pending : PendingEdge)
    (index : Table EndpointKey (List (EdgeId × GraphDeferredEndpoint)))
    (endpoint : GraphDeferredEndpoint) :
    Table EndpointKey (List (EdgeId × GraphDeferredEndpoint)) :=
  match index.lookup (pending.endpointKey endpoint) with
  | some entries =>
    let kept := entries.filter (·.1 ≠ pending.edgeId)
    if kept.isEmpty then index.erase (pending.endpointKey endpoint)
    else index.insert (pending.endpointKey endpoint) kept
  | none => index

/-- `apply_deferred_plan`, for one pending update. -/
def applyPendingUpdate (self : MutableGraphState) (update : EdgeId × Option PendingEdge) :
    MutableGraphState :=
  let removed := match self.pendingEdges.get update.1 with
    | some previous => { self with
        pendingEdges := self.pendingEdges.remove update.1
        pendingByEndpoint :=
          [.source, .target].foldl (unindexEndpoint previous) self.pendingByEndpoint }
    | none => self
  match update.2 with
  | some pending => { removed with
      pendingEdges := removed.pendingEdges.insert update.1 pending
      pendingByEndpoint :=
        [.source, .target].foldl (indexEndpoint pending) removed.pendingByEndpoint }
  | none => removed

/-- `apply_deferred_plan`. -/
def applyDeferredPlan (plan : DeferredMutationPlan) : MutableGraphState :=
  let opened := { self with
    edgeIds := self.edgeIds ∪ plan.createdEdgeIds.toFinset
    deferredSessions := plan.sessionUpdates.entries.foldl
      (fun sessions entry => sessions.insert entry.1 entry.2) self.deferredSessions }
  let updated := plan.pendingUpdates.entries.foldl applyPendingUpdate opened
  { updated with edgeTombstones := updated.edgeTombstones ∪ plan.abortedEdgeIds.toFinset }

end MutableGraphState

/-! ## A batch against its collection -/

/-- The points, the resolver and the graph of a collection whose graph is enabled. -/
structure Collection where
  points : Table String Point
  resolver : PointIncarnationResolver
  graph : MutableGraphState

structure PreparedGraphBatch where
  recordLsn : ℕ
  stagedResolver : PointIncarnationResolver
  stagedTypes : GraphTypeCatalog
  deferredPlan : DeferredMutationPlan
  edgeMutations : List EdgeMutation

namespace Collection

def new (epoch : GraphEpoch) : Collection := ⟨∅, .empty, .new epoch⟩

variable (self : Collection)

/-- `replay_point_tenant`, after a lookup among the points that the batch writes. -/
def pointTenant (resolver : PointIncarnationResolver) (nid : Nid) : Option String :=
  ((resolver.livePointId nid).bind self.points.lookup).bind Point.tenant

def stageAssignment (upsertIds : List String) (staged : PointIncarnationResolver)
    (assignment : GraphHandleAssignment) : Result PointIncarnationResolver := do
  ensure ((self.points.lookup assignment.pointId).isSome || assignment.pointId ∈ upsertIds)
    (.invalidRequest ("handle assignment references missing point '" ++ assignment.pointId ++ "'"))
  staged.bindLive assignment.pointId assignment.nid

def checkPointMutation [Environment] (staged : PointIncarnationResolver)
    (mutation : GraphPointMutation) : Result Unit :=
  match mutation with
  | .upsert point => do
    Environment.validatePoint point
    ensure (staged.liveNid point.id).isSome (.invalidRequest
      ("upsert for '" ++ point.id ++ "' has no live Nid assignment"))
  | .delete pointId nid => do
    ensure (staged.liveNid pointId = some nid) (.invalidRequest
      ("delete for '" ++ pointId ++ "' does not match its live Nid"))
    ensure (self.points.lookup pointId).isSome (.invalidRequest
      ("delete references missing point '" ++ pointId ++ "'"))

/-- A point changes its tenant only without edges. -/
def checkTenantMove (removed : Finset EdgeId) (mutation : GraphPointMutation) : Result Unit :=
  match mutation with
  | .delete _ _ => pure ()
  | .upsert point =>
    match self.resolver.liveNid point.id with
    | none => pure ()
    | some nid => do
      let currentTenant := self.pointTenant self.resolver nid
      if currentTenant ≠ point.tenant then
        let held ← self.graph.hasLiveIncidentEdgeExcluding nid currentTenant removed
        ensure (!held) (.graph .tenantMoveHasEdges ("tenant change for Nid " ++ toString nid ++
          " requires every incident edge to be removed with UNRELATE in the same GraphBatch")
          none)
      else pure ()

def removedEdge : EdgeMutation → Option EdgeId
  | .unrelate edgeId => some edgeId
  | .relate _ | .properties _ => none

def upserted : GraphPointMutation → Option Point
  | .upsert point => some point
  | .delete _ _ => none

def deleted : GraphPointMutation → Option String
  | .upsert _ => none
  | .delete pointId _ => some pointId

/-- The tenant of a node once the batch is applied. -/
def stagedTenant (staged : PointIncarnationResolver) (batch : GraphBatch) (nid : Nid) :
    Option String :=
  match (batch.pointMutations.filterMap upserted).find? (staged.liveNid ·.id = some nid) with
  | some point => point.tenant
  | none => self.pointTenant staged nid

/-- `prepare_graph_batch`. -/
def prepareGraphBatch [Environment] (recordLsn : ℕ) (batch : GraphBatch) :
    Result PreparedGraphBatch := do
  batch.validate
  ensure (batch.graphEpoch = self.graph.epoch) (.graph .epochMismatch
    ("GraphBatch epoch " ++ toString batch.graphEpoch ++ " does not match active graph epoch " ++
      toString self.graph.epoch) none)
  self.graph.validateIdempotency batch.idempotency
  let upsertIds := (batch.pointMutations.filterMap upserted).map Point.id
  let assigned ← batch.handleAssignments.foldlM (self.stageAssignment upsertIds) self.resolver
  batch.pointMutations.forM (self.checkPointMutation assigned)
  batch.pointMutations.forM
    (self.checkTenantMove (batch.edgeMutations.filterMap removedEdge).toFinset)
  let staged := (batch.pointMutations.filterMap deleted).foldl PointIncarnationResolver.retire
    assigned
  let types ← batch.typeConfigurations.foldlM GraphTypeCatalog.configure self.graph.types
  let plan ← self.graph.planDeferred staged recordLsn batch types
  let edgeMutations := batch.edgeMutations ++ plan.promoted
  let _ ← self.graph.validateEdgeMutations staged edgeMutations (self.stagedTenant staged batch)
    types (plan.promoted.filterMap EdgeMutation.created).toFinset
  let prepared ← self.graph.preparePropertyMutations edgeMutations
  pure ⟨recordLsn, staged, types, plan, prepared⟩

def applyPointMutation (points : Table String Point) : GraphPointMutation → Table String Point
  | .upsert point => points.insert point.id point
  | .delete pointId _ => points.erase pointId

/-- `apply_prepared_graph_batch`. -/
def applyPrepared (batch : GraphBatch) (prepared : PreparedGraphBatch) : Collection :=
  let tracked := self.graph.trackPersistChanges prepared.recordLsn prepared.edgeMutations
    prepared.deferredPlan
  let typed := { tracked with types := prepared.stagedTypes }
  { points := batch.pointMutations.foldl applyPointMutation self.points
    resolver := prepared.stagedResolver
    graph := ((typed.applyEdgeMutations prepared.edgeMutations).applyDeferredPlan
      prepared.deferredPlan).applyValidatedIdempotency batch.idempotency }

end Collection

end ChironDB.Graph.State
