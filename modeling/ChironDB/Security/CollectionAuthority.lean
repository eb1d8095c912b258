/-
# The live authority of a collection

`authorize_resource` and `validate_payload_write` of `security/policy.rs`, and the operations of
`CollectionAuthority` in `security/context.rs`: `create_with_options`, `data_with_options`,
`schema_with_commit`, `graph_backfill_with_commit` and `change_resources`.  Each operation plans
its change against the current snapshot, hands the change to a commit callback and installs it
once the callback has succeeded.  The callback appends a protected transaction, and the
write-ahead log validates the transaction before it writes it.

The operations hold one mutex, so a run is a sequence of them.  Epochs, leases and the clock
only decide whether an operation goes ahead; their verdicts are inputs here.
-/

import ChironDB.Security.Replay

namespace ChironDB

/-- `MAX_WAL_RECORD_BYTES`. -/
def Journal.maxWalRecordBytes : ℕ := 64 * 1024 * 1024

namespace Security

open Tables Json Fault

/-- What else the `uuid` and `serde_json` crates compute for the operations. -/
class Planning extends Encoding where
  /-- `Uuid::to_string`. -/
  formatUuid : Uuid → String
  /-- The number of bytes of a template in JSON. -/
  templateLength : IngestTemplate → ℕ
  /-- The number of bytes of the points of a request in JSON, given their payloads. -/
  pointsLength : List Value → ℕ
  /-- The number of bytes of a list of records in JSON. -/
  recordsLength : List ResourceRecord → ℕ
  /-- Whether `Value::pointer` finds a value. -/
  hasPointer : Value → String → Bool

/-! ## Authorization -/

def subjectMatches (principal : PrincipalRecord) (groups : Finset String)
    (resource : ResourceRecord) : Subject → Bool
  | .principal id => id = principal.id
  | .group id => id ∈ groups
  | .department id => id = principal.attributes.department
  | .owner => resource.labels.owner = principal.id

section Authorize

variable (principal : PrincipalRecord) (groups : Finset String) (resource : ResourceRecord)
  (action : Action)

/-- One grant of a record on the way up. -/
def applyGrant (current : ResourceRecord) (permit : Bool) (grant : ObjectGrant) : Result Bool :=
  if (current.key = resource.key || grant.inherit) && action ∈ grant.actions &&
      subjectMatches principal groups current grant.subject then
    match grant.effect with
    | .deny => .error .notFound
    | .permit => .ok true
  else .ok permit

/-- The loop of `authorize_resource`, with the keys passed so far, the number of grants met, and
whether one of them permits the action. -/
def authorizeAbove (resources : TreeMap PointKey ResourceRecord) :
    ℕ → List PointKey → ℕ → Bool → ResourceRecord → Result Bool
  | 0, visited, _, _, current =>
    if current.key ∈ visited then .error (.invalid "inheritance cycle")
    else .error .budgetExceeded
  | room + 1, visited, count, permit, current => do
    ensure (current.key ∉ visited) (.invalid "inheritance cycle")
    ensure (count + current.grants.length ≤ maxPolicyGrants) .budgetExceeded
    let permit ← current.grants.foldlM (applyGrant principal groups resource action current) permit
    match current.parent with
    | none => .ok permit
    | some parent => do
      ensure (parent.tenant = resource.key.tenant && parent.collection = resource.key.collection)
        (.invalid "inheritance crosses security domain")
      match (resources.get parent).filter fun parent =>
          !parent.retired && !parent.labels.quarantined with
      | none => .error .notFound
      | some next =>
        authorizeAbove resources room (current.key :: visited)
          (count + current.grants.length) permit next

def authorizeResource (policy : CollectionPolicy) (resources : TreeMap PointKey ResourceRecord) :
    Result Unit := do
  ensure (principal.enabled && !resource.retired && !(resource.labels.quarantined &&
        !(action = .labelsManage && action ∈ principal.installationActions)) &&
      resource.labels.classification ≤ principal.attributes.clearance) .notFound
  let permit ← authorizeAbove principal groups resource action resources maxInheritanceDepth [] 0
    (((action = .labelsManage || action = .grantsManage) &&
        action ∈ principal.installationActions) ||
      (resource.labels.department = principal.attributes.department &&
        action ∈ policy.departmentActions) ||
      (resource.labels.owner = principal.id && action ∈ policy.ownerActions)) resource
  ensure permit .notFound

variable {principal groups resource action}

theorem retired_of_authorizeResource {policy : CollectionPolicy}
    {resources : TreeMap PointKey ResourceRecord}
    (h : authorizeResource principal groups resource action policy resources = .ok ()) :
    resource.retired = false := by
  have hlive := ensure_eq_ok.mp (seq_eq_ok.mp h).1
  simp only [Bool.and_eq_true, Bool.not_eq_true'] at hlive
  exact hlive.1.1.2

end Authorize

/-! ## Payloads of new points -/

section PayloadWrite

variable (record : ResourceRecord) (attributes : SubjectAttributes)

mutual

/-- The visitor of `validate_payload_write`; it returns the number of values visited. -/
def visitWrite (path : String) (depth count : ℕ) : Value → Result ℕ
  | .object fields => do
    ensure (depth ≤ 16 && count + 1 ≤ maxPolicyGrants) .budgetExceeded
    if record.properties.containsKey path then do
      ensure (fieldAllowed record attributes path .write) .forbidden
      pure (count + 1)
    else do
      ensure (!(fields.isEmpty && path ≠ "")) .forbidden
      visitWrites path depth (count + 1) fields
  | _ => do
    ensure (depth ≤ 16 && count + 1 ≤ maxPolicyGrants) .budgetExceeded
    ensure (fieldAllowed record attributes path .write) .forbidden
    pure (count + 1)

def visitWrites (path : String) (depth count : ℕ) : List (String × Value) → Result ℕ
  | [] => .ok count
  | (name, value) :: rest => do
    let count ← visitWrite (childPath path name) (depth + 1) count value
    visitWrites path depth count rest

end

def validatePayloadWrite (payload : Value) : Result Unit := do
  ensure payload.isObject (.invalid "payload must be an object")
  let _ ← visitWrite record attributes "" 0 0 payload

end PayloadWrite

/-! ## Operations -/

/-- A new point: which representations it brings, and its payload. -/
structure NewPoint where
  dense : Bool
  vectors : List String
  sparse : Bool
  payload : Value

structure AccessContext where
  principal : PrincipalRecord
  groups : Finset String
  /-- `identity.allows` for the tenant and the collection of the context. -/
  allows : Action → Bool
  tenant : String
  action : Action
  /-- Whether the context was bound to the snapshot that is current now. -/
  current : Bool
  /-- The verdict of the leases. -/
  permit : Result Unit

/-- How an operation fails; `unfinished` is one that is still drawing identifiers. -/
inductive Failure
  | security (error : SecurityError)
  | duplicateKey
  | commit (refusal : Refusal)
  | unfinished
  deriving DecidableEq, Repr

/-- A security error as a failure. -/
def fail {α : Type} : Result α → Except Failure α
  | .ok a => .ok a
  | .error error => .error (.security error)

@[simp] theorem fail_eq_ok {α : Type} {x : Result α} {a : α} : fail x = .ok a ↔ x = .ok a := by
  cases x <;> simp [fail]

section Operations

variable [Planning] [GraphBatches]

/-- The commit callback: the log validates the transaction and then writes it, with an outcome of
its own. -/
def append (batch : ProtectedBatch) (outcome : Except Refusal Unit) : Except Failure Unit :=
  (do batch.validate; outcome : Except Refusal Unit).mapError .commit

/-- A transaction that follows a snapshot. -/
def nextBatch (snapshot : PolicySnapshot) (revision generation : ℕ)
    (bindings : List ResourceRecord) (content : ProtectedContent) : ProtectedBatch :=
  { version := securityVersion
    security :=
      { incarnation := snapshot.checkpoint.incarnation
        expectedRevision := snapshot.checkpoint.revision
        revision
        expectedGeneration := snapshot.resources.generation
        generation
        policy := none
        bindings }
    content }

/-- The snapshot after a change of the policy epoch. -/
def rotate (snapshot : PolicySnapshot) (resources : ResourceIndex) (revision generation : ℕ) :
    PolicySnapshot :=
  ⟨{ snapshot.checkpoint with revision, dataGeneration := generation }, resources⟩

/-- `capacity::overlay_bytes`, then `capacity::check` at the current policy. -/
def planBytes (snapshot : PolicySnapshot) (changed : List ResourceRecord) : Result ℕ := do
  let metadataBytes ← overlayBytes snapshot.resources.metadataBytes snapshot.resources.records
    changed
  checkCapacity snapshot.checkpoint.collection snapshot.checkpoint.incarnation
    snapshot.checkpoint.policy metadataBytes capacityLimit
  pure metadataBytes

/-! ### Create -/

structure CreateRequest where
  template : String
  points : List NewPoint
  ids : Option (List String)
  request : Option (String × List UInt8)
  /-- What `Uuid::new_v4` returns from call to call. -/
  draws : List Uuid

/-- The records made so far and the identifiers still to be drawn. -/
structure Draft where
  created : List ResourceRecord
  draws : List Uuid

/-- The first drawn identifier that is not taken. -/
def drawFresh (taken : Uuid → Bool) (draws : List Uuid) : Except Failure (Uuid × List Uuid) :=
  match draws.dropWhile taken with
  | [] => .error .unfinished
  | id :: rest => .ok (id, rest)

def publicKey (snapshot : PolicySnapshot) (context : AccessContext) (id : String) : PointKey :=
  ⟨snapshot.checkpoint.incarnation, context.tenant, id⟩

/-- Whether a key belongs to a record or to one of the records made so far. -/
def keyTaken (snapshot : PolicySnapshot) (created : List ResourceRecord) (key : PointKey) : Bool :=
  snapshot.resources.records.containsKey key || created.any fun record => record.key = key

def storageTaken (snapshot : PolicySnapshot) (created : List ResourceRecord) (id : Uuid) : Bool :=
  snapshot.resources.physical.containsKey id || created.any fun record => record.storageId = id

def chooseKey (snapshot : PolicySnapshot) (context : AccessContext) (draft : Draft) :
    Option String → Except Failure (PointKey × List Uuid)
  | some id => do
    let key := publicKey snapshot context id
    ensure (!keyTaken snapshot draft.created key) .duplicateKey
    pure (key, draft.draws)
  | none => do
    let (id, draws) ← drawFresh (fun id => keyTaken snapshot draft.created
      (publicKey snapshot context (Planning.formatUuid id))) draft.draws
    pure (publicKey snapshot context (Planning.formatUuid id), draws)

def newRecord (snapshot : PolicySnapshot) (context : AccessContext) (template : IngestTemplate)
    (key : PointKey) (storageId : Uuid) : ResourceRecord :=
  { key
    storageId
    labels :=
      { owner := context.principal.id
        department := template.department
        classification := template.classification
        quarantined := false }
    properties := template.properties
    representations := template.representations
    grants := []
    parent := none
    revision := snapshot.checkpoint.revision
    retired := false
    createReceipt := none }

def NewPoint.names (point : NewPoint) : List String :=
  point.vectors ++ (if point.dense then ["dense"] else []) ++
    (if point.sparse then ["sparse"] else [])

/-- The checks on one representation that a point brings. -/
def checkRepresentation (record : ResourceRecord) (attributes : SubjectAttributes)
    (point : NewPoint) (name : String) : Result Unit :=
  match record.representations.get name with
  | none => .error .forbidden
  | some representation => do
    ensure (representation.classification ≤ attributes.clearance) .forbidden
    ensure (decide (∀ field ∈ representation.sourceFields,
        Planning.hasPointer point.payload field = true))
      (.invalid "representation source is absent from ingest input")

/-- One round of the loop over the points. -/
def draftPoint (snapshot : PolicySnapshot) (context : AccessContext) (template : IngestTemplate)
    (ids : Option (List String)) (draft : Draft) (entry : NewPoint × ℕ) :
    Except Failure Draft := do
  let (key, draws) ← chooseKey snapshot context draft (ids.map fun ids => ids.getD entry.2 "")
  let (storageId, draws) ← drawFresh (storageTaken snapshot draft.created) draws
  let record := newRecord snapshot context template key storageId
  fail (validatePayloadWrite record context.principal.attributes entry.1.payload)
  fail (entry.1.names.forM (checkRepresentation record context.principal.attributes entry.1))
  pure ⟨draft.created ++ [record], draws⟩

/-- The first record of a request with an idempotency key carries the receipt. -/
def withReceipt (context : AccessContext) (request : Option (String × List UInt8)) :
    List ResourceRecord → List ResourceRecord
  | [] => []
  | record :: rest =>
    { record with
      createReceipt := request.map fun request =>
        ⟨context.principal.id, request.1, request.2,
          (record :: rest).map fun record => record.key.id⟩ } :: rest

/-- A record of a create is installed. -/
def ResourceIndex.insertCreated (index : ResourceIndex) (record : ResourceRecord) :
    ResourceIndex :=
  { index with
    createRequests := record.createReceipt.elim index.createRequests fun receipt =>
      index.createRequests.insert (receipt.requestKey record.key.tenant) record.key
    physical := index.physical.insert record.storageId record.key
    records := index.records.insert record.key record }

/-- The bound on the labels that are repeated for every point. -/
def checkCreateBudget (template : IngestTemplate) (points : List NewPoint) : Result Unit := do
  let limit := Journal.maxWalRecordBytes / 2
  ensure (Planning.templateLength template ≤ limit) .budgetExceeded
  let metadata := (Planning.templateLength template + 1024) * points.length
  ensure (metadata ≤ limit) .budgetExceeded
  ensure (Planning.pointsLength (points.map NewPoint.payload) ≤ limit - metadata) .budgetExceeded

def createWithOptions (snapshot : PolicySnapshot) (context : AccessContext)
    (input : CreateRequest) (content : ProtectedContent) (outcome : Except Refusal Unit) :
    Except Failure (PolicySnapshot × ProtectedBatch) := do
  ensure (context.action = .create && context.current) (.security .forbidden)
  ensure (!input.points.isEmpty && input.points.length ≤ 1024) (.security .budgetExceeded)
  ensure (input.ids.all fun ids => ids.length = input.points.length &&
      ids.all fun id => id ≠ "" && byteLength id ≤ 1024)
    (.security (.invalid "invalid public point ID"))
  ensure (!(input.points.any fun point => !point.names.isEmpty) || context.allows .ingest)
    (.security .forbidden)
  let template ← fail (((snapshot.checkpoint.policy.templates.get input.template).elim
    (.error .forbidden) .ok))
  ensure (template.classification ≤ context.principal.attributes.clearance) (.security .forbidden)
  fail (checkCreateBudget template input.points)
  fail context.permit
  let generation ← fail (successor snapshot.resources.generation)
  let draft ← input.points.zipIdx.foldlM (draftPoint snapshot context template input.ids)
    ⟨[], input.draws⟩
  ensure (input.request.all fun request => !snapshot.resources.createRequests.containsKey
      (toLex (context.tenant, toLex (context.principal.id, request.1)))) (.security .conflict)
  let created := withReceipt context input.request draft.created
  let metadataBytes ← fail (planBytes snapshot created)
  let batch := nextBatch snapshot snapshot.checkpoint.revision generation created content
  append batch outcome
  pure (⟨snapshot.checkpoint, { created.foldl ResourceIndex.insertCreated snapshot.resources with
    generation, metadataBytes }⟩, batch)

/-! ### Update and delete -/

/-- One round of the loop over the keys to retire, with what is left of the byte budget. -/
def retireKey (snapshot : PolicySnapshot) (context : AccessContext)
    (state : List ResourceRecord × ℕ) (key : PointKey) : Result (List ResourceRecord × ℕ) := do
  ensure (key.tenant = context.tenant && key.collection = snapshot.checkpoint.incarnation) .notFound
  let record ← (snapshot.resources.records.get key).elim (.error .notFound) .ok
  authorizeResource context.principal context.groups record .delete snapshot.checkpoint.policy
    snapshot.resources.records
  ensure (Encoding.recordLength record ≤ state.2) .budgetExceeded
  pure (state.1 ++ [{ record with retired := true }], state.2 - Encoding.recordLength record)

def dataWithOptions (snapshot : PolicySnapshot) (context : AccessContext) (retire : List PointKey)
    (drained : Result Unit) (content : ProtectedContent) (outcome : Except Refusal Unit) :
    Except Failure (PolicySnapshot × ProtectedBatch) := do
  ensure ((context.action = .update || context.action = .delete) &&
      !(context.action = .update && !retire.isEmpty) && context.current) (.security .forbidden)
  fail context.permit
  let (retired, _) ← fail (retire.foldlM (retireKey snapshot context)
    ([], Journal.maxWalRecordBytes / 2))
  let metadataBytes ← fail (planBytes snapshot retired)
  let next ← fail (successor snapshot.resources.generation)
  let resources : ResourceIndex :=
    { snapshot.resources with
      records := .insertAll ResourceRecord.key snapshot.resources.records retired
      generation := next
      metadataBytes }
  if context.action = .delete then do
    let revision ← fail (successor snapshot.checkpoint.revision)
    fail drained
    let batch := nextBatch snapshot revision next retired content
    append batch outcome
    pure (rotate snapshot resources revision next, batch)
  else do
    let batch := nextBatch snapshot snapshot.checkpoint.revision next retired content
    append batch outcome
    pure (⟨snapshot.checkpoint, resources⟩, batch)

/-! ### Schema and backfill -/

def schemaWithCommit (snapshot : PolicySnapshot) (context : AccessContext)
    (expectedRevision : ℕ) (drained : Result Unit) (content : ProtectedContent)
    (outcome : Except Refusal Unit) : Except Failure (PolicySnapshot × ProtectedBatch) := do
  ensure (context.action = .schema && context.current) (.security .forbidden)
  ensure (expectedRevision = snapshot.checkpoint.revision) (.security .conflict)
  fail context.permit
  let next ← fail (successor snapshot.resources.generation)
  let revision ← fail (successor expectedRevision)
  fail drained
  let batch := nextBatch snapshot revision next [] content
  append batch outcome
  pure (rotate snapshot { snapshot.resources with generation := next } revision next, batch)

def graphBackfillWithCommit (snapshot : PolicySnapshot) (permit : Result Unit)
    (content : ProtectedContent) (outcome : Except Refusal Unit) :
    Except Failure (PolicySnapshot × ProtectedBatch) := do
  fail permit
  let next ← fail (successor snapshot.resources.generation)
  let batch := nextBatch snapshot snapshot.checkpoint.revision next [] content
  append batch outcome
  pure (⟨snapshot.checkpoint, { snapshot.resources with generation := next }⟩, batch)

/-! ### Labels and grants -/

/-- One round of the loop over the changed records, with the keys met so far. -/
def overlayChange (snapshot : PolicySnapshot) (context : AccessContext) (revision : ℕ)
    (seen : Finset PointKey) (record : ResourceRecord) : Result (Finset PointKey) := do
  let old ← (snapshot.resources.records.get record.key).elim (.error .notFound) .ok
  ensure (!old.retired && !record.retired && old.storageId = record.storageId &&
      record.key.tenant = context.tenant && record.revision = revision && record.key ∉ seen)
    (.invalid "invalid security resource update")
  validateResource snapshot.checkpoint.incarnation revision record
  pure (insert record.key seen)

/-- A record as `change_resources` proposes it. -/
def proposed (snapshot : PolicySnapshot) (changed : List ResourceRecord) (key : PointKey) :
    Option ResourceRecord :=
  (TreeMap.get (.insertAll ResourceRecord.key .empty changed) key).or
    (snapshot.resources.records.get key)

/-- Every 64 records the leases and the clock may end the loop. -/
def interruptAt (interrupt : ℕ → Result Unit) (index : ℕ) : Result Unit :=
  if index % 64 = 0 then interrupt index else .ok ()

/-- The check of one chain. -/
def checkProposed (snapshot : PolicySnapshot) (changed : List ResourceRecord)
    (interrupt : ℕ → Result Unit) (entry : ResourceRecord × ℕ) : Result Unit := do
  interruptAt interrupt entry.2
  checkChain (proposed snapshot changed) "inheritance crosses a security domain"
    "inheritance parent is absent"
    ((TreeMap.get (.insertAll ResourceRecord.key .empty changed) entry.1.key).getD entry.1)

def changeResources (snapshot : PolicySnapshot) (context : AccessContext) (expectedRevision : ℕ)
    (changed : List ResourceRecord) (interrupt : ℕ → Result Unit) (drained : Result Unit)
    (outcome : Except Refusal Unit) : Except Failure (PolicySnapshot × ProtectedBatch) := do
  ensure ((context.action = .labelsManage || context.action = .grantsManage) && context.current)
    (.security .forbidden)
  ensure (expectedRevision = snapshot.checkpoint.revision) (.security .conflict)
  ensure (!changed.isEmpty && changed.length ≤ 1024) (.security .budgetExceeded)
  ensure (Planning.recordsLength changed ≤ Journal.maxWalRecordBytes / 2)
    (.security .budgetExceeded)
  let revision ← fail (successor expectedRevision)
  fail context.permit
  let generation ← fail (successor snapshot.resources.generation)
  let _ ← fail (changed.foldlM (overlayChange snapshot context revision) ∅)
  let metadataBytes ← fail (planBytes snapshot changed)
  fail (snapshot.resources.records.values.zipIdx.forM (checkProposed snapshot changed interrupt))
  fail drained
  let batch := nextBatch snapshot revision generation changed .policy
  append batch outcome
  pure (rotate snapshot { snapshot.resources with
      records := .insertAll ResourceRecord.key snapshot.resources.records changed
      generation
      metadataBytes } revision generation, batch)

end Operations

end Security
end ChironDB
