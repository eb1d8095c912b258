/-
# Graph batches

`wal.rs` and `chirondb-types/src/graph.rs`: a `GraphBatch` is the one record by which a collection
changes its graph.  It configures edge types, writes and deletes points, assigns the identities of
new nodes, relates and unrelates edges, and drives the deferred sessions in which edges may name
points that do not exist yet.

`GraphBatch.validate` is the check a batch passes before anything reads it.  Every loop of it keeps
the keys it has met, so an accepted batch mutates a session once and an edge once
(`GraphBatch.Valid`).
-/

import ChironDB.Fault.Result
import ChironDB.Graph.Identity
import ChironDB.Json.Value

namespace ChironDB.Graph.State

open Fault

abbrev Nid := ℕ

abbrev EdgeId := ℕ

abbrev TypeId := ℕ

abbrev GraphEpoch := ℕ

/-- `MAX_GRAPH_CATALOG_NAME_BYTES`. -/
def maxGraphCatalogNameBytes : ℕ := 255

/-- `MAX_EDGE_PROPERTY_BYTES`. -/
def maxEdgePropertyBytes : ℕ := 64 * 1024

/-- `MAX_GRAPH_BATCH_BYTES`. -/
def maxGraphBatchBytes : ℕ := 16 * 1024 * 1024

/-- `from_parts`, of nodes and of edges. -/
def fromParts (epoch counter : ℕ) : Option ℕ :=
  if epoch = 0 ∨ graphAllocatorMaxEpoch < epoch ∨ counter = 0 ∨
      graphAllocatorMaxCounter < counter then none
  else some (epoch * 2 ^ 40 + counter)

/-- Whether an identity is the one its epoch and its counter make. -/
def wellFormedId (id : ℕ) : Bool := fromParts (id / 2 ^ 40) (id % 2 ^ 40) = some id

inductive GraphErrorCode
  | graphDisabled | endpointNotFound | edgeNotFound | typeNotFound | epochMismatch
  | propertyTooLarge | deferredSessionNotFound | deferredEndpointsRemain | tenantMoveHasEdges
  deriving DecidableEq, Repr

inductive GaussError
  | invalidRequest (message : String)
  | graph (code : GraphErrorCode) (message : String) (itemIndex : Option ℕ)
  /-- What reading an artifact fails with. -/
  | artifact (message : String)
  /-- A failed `expect`. -/
  | panicked (message : String)
  deriving DecidableEq, Repr

abbrev Result := Except GaussError

inductive GraphNamespace
  | tenant (name : String)
  | adminCrossTenant
  deriving DecidableEq, Repr

/-- A point; its vectors matter to `validate_point` alone. -/
structure Point where
  id : String
  payload : Json.Value

/-- `TENANT_FIELD`, read from the payload. -/
def Point.tenant (point : Point) : Option String :=
  match point.payload.get "tenant_id" with
  | some (.string tenant) => some tenant
  | _ => none

inductive GraphPointMutation
  | upsert (point : Point)
  | delete (pointId : String) (nid : Nid)

def GraphPointMutation.pointId : GraphPointMutation → String
  | .upsert point => point.id
  | .delete pointId _ => pointId

structure GraphHandleAssignment where
  pointId : String
  nid : Nid
  deriving DecidableEq, Repr

structure GraphTypeConfiguration where
  typeId : TypeId
  name : String
  weightProperty : Option String
  deriving DecidableEq, Repr

structure RelateMutation where
  edgeId : EdgeId
  source : Nid
  target : Nid
  typeId : TypeId
  «namespace» : GraphNamespace
  properties : Json.Value

inductive EdgePropertyMode
  | merge | replace
  deriving DecidableEq, Repr

structure EdgePropertyMutation where
  edgeId : EdgeId
  mode : EdgePropertyMode
  properties : Json.Value

inductive EdgeMutation
  | relate (edge : RelateMutation)
  | unrelate (edgeId : EdgeId)
  | properties (patch : EdgePropertyMutation)

/-- `mutation_edge_id`. -/
def EdgeMutation.edgeId : EdgeMutation → EdgeId
  | .relate edge => edge.edgeId
  | .unrelate edgeId => edgeId
  | .properties patch => patch.edgeId

/-- The edge a mutation creates. -/
def EdgeMutation.created : EdgeMutation → Option EdgeId
  | .relate edge => some edge.edgeId
  | .unrelate _ | .properties _ => none

structure GraphDeferredBind where
  sessionId : String
  edgeId : EdgeId
  sourcePointId : String
  targetPointId : String
  sourceNid : Option Nid
  targetNid : Option Nid
  typeId : TypeId
  «namespace» : GraphNamespace
  properties : Json.Value

inductive GraphDeferredEndpoint
  | source | target
  deriving DecidableEq, Repr

structure GraphEdgeBind where
  sessionId : String
  edgeId : EdgeId
  endpoint : GraphDeferredEndpoint
  pointId : String
  nid : Nid
  deriving DecidableEq, Repr

structure GraphSessionOwner where
  principal : String
  tenant : Option String
  deriving DecidableEq, Repr

inductive GraphDeferredSessionMutation
  | «open» (sessionId : String) (owner : Option GraphSessionOwner)
  | commit (sessionId : String)
  | abort (sessionId : String)
  deriving DecidableEq, Repr

def GraphDeferredSessionMutation.sessionId : GraphDeferredSessionMutation → String
  | .open sessionId _ => sessionId
  | .commit sessionId => sessionId
  | .abort sessionId => sessionId

def GraphDeferredSessionMutation.owner : GraphDeferredSessionMutation → Option GraphSessionOwner
  | .open _ owner => owner
  | .commit _ | .abort _ => none

structure GraphIdempotencyState where
  key : String
  requestSha256 : List UInt8
  createdAtUnixMs : ℕ
  expiresAtUnixMs : ℕ
  edgeIds : List EdgeId
  deriving DecidableEq, Repr

structure GraphBatch where
  version : ℕ
  graphEpoch : GraphEpoch
  typeConfigurations : List GraphTypeConfiguration
  pointMutations : List GraphPointMutation
  handleAssignments : List GraphHandleAssignment
  edgeMutations : List EdgeMutation
  deferredBinds : List GraphDeferredBind
  edgeBinds : List GraphEdgeBind
  deferredSessions : List GraphDeferredSessionMutation
  idempotency : Option GraphIdempotencyState

/-- `GRAPH_BATCH_VERSION`. -/
def graphBatchVersion : ℕ := 1

/-- `GraphBatch::default`. -/
def GraphBatch.default : GraphBatch :=
  ⟨graphBatchVersion, 1, [], [], [], [], [], [], [], none⟩

/-- What `serde_json`, the standard formatter and the collection's own rules compute. -/
class Environment where
  /-- The number of bytes of a value in JSON. -/
  valueLength : Json.Value → ℕ
  /-- The number of bytes of a batch in JSON. -/
  batchLength : GraphBatch → ℕ
  /-- The debug form of a set of point identifiers. -/
  debugPoints : List String → String
  /-- `validate_point`, against the configuration of the collection. -/
  validatePoint : Point → Result Unit

def invalidGraphBatch (message : String) : GaussError :=
  .invalidRequest ("invalid GraphBatch: " ++ message)

def validateGraphKey (label value : String) : Result Unit :=
  ensure (value ≠ "" && value.utf8ByteSize ≤ 1024)
    (invalidGraphBatch (label ++ " must contain 1..=1024 UTF-8 bytes"))

def validateCatalogKey (label value : String) : Result Unit :=
  ensure (value ≠ "" && value.utf8ByteSize ≤ maxGraphCatalogNameBytes)
    (invalidGraphBatch (label ++ " must contain 1..=255 UTF-8 bytes"))

def validateNid (nid : Nid) : Result Unit :=
  ensure (wellFormedId nid) (invalidGraphBatch "invalid or unassigned Nid")

def validateEdgeId (edgeId : EdgeId) : Result Unit :=
  ensure (wellFormedId edgeId) (invalidGraphBatch "invalid or unassigned EdgeId")

def validateTypeId (typeId : TypeId) : Result Unit :=
  ensure (typeId ≠ 0) (invalidGraphBatch "TypeId=0 is reserved")

def validateNamespace : GraphNamespace → Result Unit
  | .tenant tenant => validateGraphKey "tenant namespace" tenant
  | .adminCrossTenant => .ok ()

def GraphSessionOwner.validate (owner : GraphSessionOwner) : Result Unit := do
  validateGraphKey "session principal" owner.principal
  owner.tenant.forM (validateGraphKey "session tenant")

/-- A loop that checks every item and refuses a key it has met before. -/
def checkOnce {α κ : Type} [DecidableEq κ] (check : α → Result Unit) (key : α → κ)
    (message : α → String) (items : List α) (seen : Finset κ) : Result (Finset κ) :=
  items.foldlM (fun seen item => do
    check item
    ensure (key item ∉ seen) (invalidGraphBatch (message item))
    pure (insert (key item) seen)) seen

theorem checkOnce_eq_ok {α κ : Type} [DecidableEq κ] {check : α → Result Unit} {key : α → κ}
    {message : α → String} {items : List α} {seen after : Finset κ}
    (h : checkOnce check key message items seen = .ok after) :
    (items.map key).Nodup ∧ (∀ item ∈ items, key item ∉ seen) ∧
      after = seen ∪ (items.map key).toFinset := by
  refine foldlM_nodup (fun seen item next hnext => ?_) h
  simp only [eq_ok] at hnext
  exact ⟨hnext.2.1, hnext.2.2.symm⟩

section Validate

variable [Environment]

open Environment

def validateProperties (properties : Json.Value) : Result Unit :=
  ensure (valueLength properties ≤ maxEdgePropertyBytes)
    (invalidGraphBatch ("edge properties are " ++ toString (valueLength properties) ++
      " bytes; maximum is " ++ toString maxEdgePropertyBytes))

/-- `validate_checkpoint`; the edges of the result. -/
def GraphIdempotencyState.validateCheckpoint (self : GraphIdempotencyState) :
    Result (Finset EdgeId) := do
  validateGraphKey "idempotency key" self.key
  ensure (self.requestSha256 ≠ List.replicate 32 0)
    (invalidGraphBatch "idempotency request SHA-256 cannot be all zero")
  ensure (self.createdAtUnixMs ≠ 0 && self.createdAtUnixMs < self.expiresAtUnixMs)
    (invalidGraphBatch "idempotency wall-clock instants require 0 < created_at < expires_at")
  ensure (self.edgeIds ≠ [])
    (invalidGraphBatch "idempotency result must contain at least one created EdgeId")
  ensure (self.edgeIds.length ≤ maxGraphEdgesPerBatch)
    (invalidGraphBatch "idempotency result has too many EdgeIds")
  checkOnce validateEdgeId id (fun _ => "idempotency result contains a duplicate EdgeId")
    self.edgeIds ∅

def validateTypeConfiguration (configuration : GraphTypeConfiguration) : Result Unit := do
  validateTypeId configuration.typeId
  validateCatalogKey "edge type name" configuration.name
  configuration.weightProperty.forM (validateCatalogKey "edge weight property")

/-- The loop over the configurations, which keeps the identities and the names. -/
def validateTypeConfigurations (configurations : List GraphTypeConfiguration) :
    Result (Finset TypeId × Finset String) :=
  configurations.foldlM (fun seen configuration => do
    validateTypeConfiguration configuration
    ensure (configuration.typeId ∉ seen.1)
      (invalidGraphBatch "one TypeId is configured more than once")
    ensure (configuration.name ∉ seen.2)
      (invalidGraphBatch "one edge type name is configured more than once")
    pure (insert configuration.typeId seen.1, insert configuration.name seen.2)) (∅, ∅)

def validatePointMutation (mutation : GraphPointMutation) : Result Unit := do
  match mutation with
  | .upsert _ => pure ()
  | .delete _ nid => validateNid nid
  validateGraphKey "point ID" mutation.pointId

/-- The loop over the assignments, which keeps the points and the identities. -/
def validateHandleAssignments (assignments : List GraphHandleAssignment) :
    Result (Finset String × Finset Nid) :=
  assignments.foldlM (fun seen assignment => do
    validateGraphKey "assignment point ID" assignment.pointId
    validateNid assignment.nid
    ensure (assignment.pointId ∉ seen.1) (invalidGraphBatch
      ("point ID '" ++ assignment.pointId ++ "' has more than one handle assignment"))
    ensure (assignment.nid ∉ seen.2) (invalidGraphBatch "one Nid is assigned more than once")
    pure (insert assignment.pointId seen.1, insert assignment.nid seen.2)) (∅, ∅)

def validateEdgeMutation (mutation : EdgeMutation) : Result Unit := do
  match mutation with
  | .relate edge =>
    validateNid edge.source
    validateNid edge.target
    validateTypeId edge.typeId
    validateNamespace edge.namespace
    validateProperties edge.properties
  | .unrelate _ => pure ()
  | .properties patch => validateProperties patch.properties
  validateEdgeId mutation.edgeId

def validateDeferredBind (bind : GraphDeferredBind) : Result Unit := do
  validateGraphKey "deferred session ID" bind.sessionId
  validateEdgeId bind.edgeId
  validateGraphKey "deferred source point ID" bind.sourcePointId
  validateGraphKey "deferred target point ID" bind.targetPointId
  bind.sourceNid.forM validateNid
  bind.targetNid.forM validateNid
  validateTypeId bind.typeId
  validateNamespace bind.namespace
  validateProperties bind.properties

def validateEdgeBind (bind : GraphEdgeBind) : Result Unit := do
  validateGraphKey "edge-bind session ID" bind.sessionId
  validateEdgeId bind.edgeId
  validateGraphKey "edge-bind point ID" bind.pointId
  validateNid bind.nid

def validateSessionMutation (mutation : GraphDeferredSessionMutation) : Result Unit := do
  validateGraphKey "deferred session ID" mutation.sessionId
  mutation.owner.forM GraphSessionOwner.validate

/-- The edges a batch creates. -/
def GraphBatch.createdEdgeIds (batch : GraphBatch) : Finset EdgeId :=
  (batch.edgeMutations.filterMap EdgeMutation.created ++
    batch.deferredBinds.map GraphDeferredBind.edgeId).toFinset

def GraphBatch.validate (batch : GraphBatch) : Result Unit := do
  ensure (batch.version = graphBatchVersion) (invalidGraphBatch
    ("unsupported version " ++ toString batch.version ++ "; expected 1"))
  ensure (batch.graphEpoch ≠ 0) (invalidGraphBatch "graph epoch cannot be zero")
  ensure (!(batch.pointMutations.isEmpty && batch.typeConfigurations.isEmpty &&
      batch.handleAssignments.isEmpty && batch.edgeMutations.isEmpty &&
      batch.deferredBinds.isEmpty && batch.edgeBinds.isEmpty && batch.deferredSessions.isEmpty &&
      batch.idempotency.isNone))
    (invalidGraphBatch "batch has no mutation or durable state")
  let _ ← validateTypeConfigurations batch.typeConfigurations
  let edgeCount := batch.edgeMutations.length + batch.deferredBinds.length + batch.edgeBinds.length
  ensure (edgeCount ≤ maxGraphEdgesPerBatch) (invalidGraphBatch
    (toString edgeCount ++ " edge operations exceed fixed limit 4096"))
  let _ ← checkOnce validatePointMutation GraphPointMutation.pointId
    (fun mutation => "point ID '" ++ mutation.pointId ++ "' has more than one mutation")
    batch.pointMutations ∅
  let _ ← validateHandleAssignments batch.handleAssignments
  let edgeIds ← checkOnce validateEdgeMutation EdgeMutation.edgeId
    (fun _ => "one EdgeId is mutated more than once") batch.edgeMutations ∅
  let _ ← checkOnce validateDeferredBind GraphDeferredBind.edgeId
    (fun _ => "one EdgeId is mutated more than once") batch.deferredBinds edgeIds
  let _ ← checkOnce validateEdgeBind (fun bind => (bind.edgeId, bind.endpoint))
    (fun _ => "one deferred edge endpoint is bound more than once") batch.edgeBinds ∅
  let _ ← checkOnce validateSessionMutation GraphDeferredSessionMutation.sessionId
    (fun _ => "one deferred session is mutated more than once") batch.deferredSessions ∅
  batch.idempotency.forM fun idempotency => do
    let resultEdgeIds ← idempotency.validateCheckpoint
    ensure (resultEdgeIds = batch.createdEdgeIds) (invalidGraphBatch
      "idempotency result must exactly match the EdgeIds created by this request")
  ensure (batchLength batch ≤ maxGraphBatchBytes) (invalidGraphBatch
    ("serialized GraphBatch is " ++ toString (batchLength batch) ++ " bytes; maximum is " ++
      toString maxGraphBatchBytes))

/-- What the loops of an accepted batch have established. -/
structure GraphBatch.Valid (batch : GraphBatch) : Prop where
  /-- Every session is mutated once. -/
  sessions : (batch.deferredSessions.map GraphDeferredSessionMutation.sessionId).Nodup
  /-- Every edge is mutated once. -/
  edges : (batch.edgeMutations.map EdgeMutation.edgeId).Nodup
  /-- Every deferred edge is created once. -/
  creates : (batch.deferredBinds.map GraphDeferredBind.edgeId).Nodup
  /-- No edge is mutated and created. -/
  disjoint : ∀ bind ∈ batch.deferredBinds, bind.edgeId ∉ batch.edgeMutations.map EdgeMutation.edgeId

theorem GraphBatch.validate_eq_ok {batch : GraphBatch} (h : batch.validate = .ok ()) :
    batch.Valid := by
  simp only [GraphBatch.validate, eq_ok] at h
  obtain ⟨-, -, -, _, -, -, _, -, _, -, edgeIds, hedges, _, hcreates, _, -, _, hsessions, -⟩ := h
  obtain ⟨hnodup, -, rfl⟩ := checkOnce_eq_ok hedges
  obtain ⟨hbinds, hfresh, -⟩ := checkOnce_eq_ok hcreates
  refine ⟨(checkOnce_eq_ok hsessions).1, hnodup, hbinds, fun bind hbind hmem => ?_⟩
  exact hfresh bind hbind (by simpa using hmem)

end Validate

end ChironDB.Graph.State
