/-
# Replay of protected transactions

`ProtectedBatch::validate` and `ReplaySecurity` of `security/storage.rs`.  A protected
transaction carries a change of the security catalog next to the content it writes.  Recovery
starts from a verified checkpoint and applies one transaction after another; what it reads is
not trusted, so `apply` checks the whole transaction before it changes anything.

**Hostile transactions.**  Whatever transactions are applied, the keys and the
storage identities of the catalog stay inverse to each other and are never rebound, a retired
resource stays as it is and receives no content, a transaction that leaves the revision alone
changes no permission, and every chain of parents stays sound.
-/

import ChironDB.Security.Resource

namespace ChironDB.Security

open Tables Fault List

/-- How a transaction is refused; `panicked` is an index out of a map. -/
inductive Refusal
  | security (error : SecurityError)
  | graph (message : String)
  | panicked
  deriving DecidableEq, Repr

/-- `storage::invalid`. -/
def invalid (message : String) : Refusal := .security (.invalid message)

/-- A security error as a refusal. -/
def refuse {α : Type} : Result α → Except Refusal α
  | .ok a => .ok a
  | .error error => .error (.security error)

variable {α : Type} {x : Result α} {a : α}

@[simp] theorem refuse_eq_ok : refuse x = .ok a ↔ x = .ok a := by
  cases x <;> simp [refuse]

theorem refuse_ne_panicked : refuse x ≠ .error .panicked := by
  cases x <;> simp [refuse]

inductive GraphPointMutation
  | upsert (pointId : String)
  | delete (pointId : String)
  deriving DecidableEq, Repr

/-- The graph transactions that protected content may hold.  Nothing here depends on what
`GraphBatch::validate` refuses. -/
class GraphBatches where
  Batch : Type
  validate : Batch → Except String Unit
  pointMutations : Batch → List GraphPointMutation

structure SecurityDelta where
  incarnation : Uuid
  expectedRevision : ℕ
  revision : ℕ
  expectedGeneration : ℕ
  generation : ℕ
  policy : Option CollectionPolicy
  bindings : List ResourceRecord

/-- The content of a transaction; of its points only the identifiers matter here. -/
inductive ProtectedContent [GraphBatches]
  | upsert (points : List String)
  | delete (ids : List String)
  | graph (batch : GraphBatches.Batch)
  | schema
  | graphLifecycle
  | policy

structure ProtectedBatch [GraphBatches] where
  version : ℕ
  security : SecurityDelta
  content : ProtectedContent

section Model

variable [Encoding] [GraphBatches]

def GraphPointMutation.upserted : GraphPointMutation → Option String
  | .upsert id => some id
  | .delete _ => none

def GraphPointMutation.deleted : GraphPointMutation → Option String
  | .upsert _ => none
  | .delete id => some id

/-- `point_ids`: the identifiers that are written and those that are deleted. -/
def ProtectedContent.pointIds : ProtectedContent → List String × List String
  | .upsert points => (points, [])
  | .delete ids => ([], ids)
  | .graph batch =>
    ((GraphBatches.pointMutations batch).filterMap GraphPointMutation.upserted,
      (GraphBatches.pointMutations batch).filterMap GraphPointMutation.deleted)
  | .schema | .graphLifecycle | .policy => ([], [])

def ProtectedContent.validate : ProtectedContent → Except Refusal Unit
  | .graph batch => (GraphBatches.validate batch).mapError .graph
  | _ => .ok ()

/-- The loop over the bindings, with the keys and the storage identities met so far. -/
def validateBindings (delta : SecurityDelta) : Except Refusal (Finset PointKey × Finset Uuid) :=
  delta.bindings.foldlM (fun seen record => do
    refuse (validateResource delta.incarnation delta.revision record)
    ensure (record.key ∉ seen.1 && record.storageId ∉ seen.2)
      (invalid "duplicate security binding in transaction")
    pure (insert record.key seen.1, insert record.storageId seen.2)) (∅, ∅)

def checkIdentifier (id : String) : Except Refusal Unit :=
  ensure (Encoding.parseUuid id).isSome
    (invalid "protected content requires distinct physical identifiers")

/-- The loop over the identifiers of the content. -/
def validateIdentifiers (ids : List String) : Except Refusal (Finset String) :=
  ids.foldlM (fun seen id => do
    checkIdentifier id
    ensure (id ∉ seen) (invalid "protected content requires distinct physical identifiers")
    pure (insert id seen)) ∅

def ProtectedBatch.validate (batch : ProtectedBatch) : Except Refusal Unit := do
  let delta := batch.security
  ensure (batch.version = securityVersion && delta.incarnation ≠ 0 &&
      delta.expectedRevision ≠ 0 && delta.expectedGeneration ≠ 0)
    (invalid "invalid protected transaction revision or size")
  ensure (delta.expectedGeneration + 1 < 2 ^ 64) (.security .unavailable)
  ensure (delta.generation = delta.expectedGeneration + 1 &&
      (delta.revision = delta.expectedRevision ||
        (delta.revision = delta.expectedRevision + 1 && delta.expectedRevision + 1 < 2 ^ 64)) &&
      !(delta.policy.isSome && delta.revision = delta.expectedRevision) &&
      delta.bindings.length ≤ 1024)
    (invalid "invalid protected transaction revision or size")
  delta.policy.toList.forM fun config => refuse (validateCollectionPolicy config)
  let _ ← validateBindings delta
  batch.content.validate
  let ids := batch.content.pointIds
  ensure (ids.1.length + ids.2.length ≤ 1024) (.security .budgetExceeded)
  let _ ← validateIdentifiers (ids.1 ++ ids.2)

structure ReplaySecurity where
  checkpoint : SecurityCheckpoint
  records : TreeMap PointKey ResourceRecord
  physical : TreeMap Uuid PointKey
  metadataBytes : ℕ
  deriving DecidableEq

namespace ReplaySecurity

/-- A record of the checkpoint moves into the maps. -/
def drain (s : ReplaySecurity) (record : ResourceRecord) : Result ReplaySecurity := do
  let bytes ← recordBytes record
  let metadataBytes ← checkedAdd s.metadataBytes bytes
  pure { s with
      metadataBytes
      physical := s.physical.insert record.storageId record.key
      records := s.records.insert record.key record }

/-- `ReplaySecurity::new`. -/
def new (checkpoint : SecurityCheckpoint) : Result ReplaySecurity := do
  let _ ← PolicySnapshot.validate checkpoint
  checkpoint.resources.foldlM drain ⟨{ checkpoint with resources := [] }, .empty, .empty, 0⟩

/-- The bindings of a transaction by key. -/
def updated (delta : SecurityDelta) : TreeMap PointKey ResourceRecord :=
  .insertAll ResourceRecord.key .empty delta.bindings

/-- Whether a transaction changes the policy or the permissions. -/
def changedPolicy (delta : SecurityDelta) : Bool := delta.revision ≠ delta.expectedRevision

/-- The checks on one binding. -/
def checkBinding (s : ReplaySecurity) (delta : SecurityDelta) (record : ResourceRecord) :
    Except Refusal Unit :=
  match s.records.get record.key with
  | some old => do
    ensure (old.storageId = record.storageId && !old.retired)
      (invalid "resource identities cannot be reassigned or revived")
    ensure (changedPolicy delta || record = { old with retired := true })
      (invalid "content transaction cannot modify permissions")
  | none =>
    ensure (!s.physical.containsKey record.storageId && !record.retired &&
        record.parent.isNone && record.grants.isEmpty)
      (invalid "invalid new resource binding")

/-- The storage identities of the new bindings. -/
def created (s : ReplaySecurity) (delta : SecurityDelta) : List Uuid :=
  sortedKeys ((delta.bindings.filter fun record => !s.records.containsKey record.key).map
    ResourceRecord.storageId)

/-- The storage identities of the bindings that retire a resource. -/
def retired (s : ReplaySecurity) (delta : SecurityDelta) : List Uuid :=
  sortedKeys ((delta.bindings.filter fun record =>
    s.records.containsKey record.key && record.retired).map ResourceRecord.storageId)

def parseId (id : String) : Except Refusal Uuid :=
  (Encoding.parseUuid id).elim (.error (invalid "invalid content identity")) .ok

/-- The set of the identifiers, in order. -/
def parseIds (ids : List String) : Except Refusal (List Uuid) := do
  let ids ← ids.mapM parseId
  pure (sortedKeys ids)

/-- A record as it will be. -/
def overlay (s : ReplaySecurity) (delta : SecurityDelta) (key : PointKey) :
    Option ResourceRecord :=
  ((updated delta).get key).or (s.records.get key)

/-- The checks on an identity that is written. -/
def checkUpsert (s : ReplaySecurity) (delta : SecurityDelta) (id : Uuid) : Except Refusal Unit :=
  if id ∈ s.created delta then .ok ()
  else match s.physical.get id with
    | none => .error (invalid "content has no security binding")
    | some key => match s.overlay delta key with
      | none => .error .panicked
      | some record => ensure (!record.retired) (invalid "content revives a retired resource")

/-- The checks on an identity that is deleted. -/
def checkDelete (s : ReplaySecurity) (id : Uuid) : Except Refusal Unit :=
  ensure (s.physical.containsKey id) (invalid "delete has no security binding")

/-- The check of one chain against the proposed catalog. -/
def checkOverlay (s : ReplaySecurity) (delta : SecurityDelta) (start : ResourceRecord) :
    Except Refusal Unit :=
  refuse (checkChain (s.overlay delta) "inheritance crosses a security domain"
    "inheritance parent is absent" (((updated delta).get start.key).getD start))

/-- Every chain is checked when the permissions change. -/
def checkChains (s : ReplaySecurity) (delta : SecurityDelta) : Except Refusal Unit :=
  if changedPolicy delta then (s.records.values ++ delta.bindings).forM (s.checkOverlay delta)
  else .ok ()

/-- The checks of `apply`, which all come before its first change.  The result is the number of
bytes of the new catalog. -/
def verify (s : ReplaySecurity) (batch : ProtectedBatch) : Except Refusal ℕ := do
  batch.validate
  let delta := batch.security
  ensure (delta.incarnation = s.checkpoint.incarnation &&
      delta.expectedGeneration = s.checkpoint.dataGeneration &&
      delta.expectedRevision = s.checkpoint.revision)
    (invalid "protected transaction is not contiguous with its authority")
  delta.bindings.forM (s.checkBinding delta)
  let upserts ← parseIds batch.content.pointIds.1
  let deletes ← parseIds batch.content.pointIds.2
  ensure (s.created delta ⊆ upserts && s.retired delta = deletes)
    (invalid "content and security mutations disagree")
  upserts.forM (s.checkUpsert delta)
  deletes.forM s.checkDelete
  s.checkChains delta
  let metadataBytes ← refuse (overlayBytes s.metadataBytes s.records delta.bindings)
  refuse (checkCapacity s.checkpoint.collection s.checkpoint.incarnation
    (delta.policy.getD s.checkpoint.policy) metadataBytes capacityLimit)
  pure metadataBytes

/-- One binding is installed. -/
def bind (s : ReplaySecurity) (record : ResourceRecord) : ReplaySecurity :=
  { s with
    physical := s.physical.insert record.storageId record.key
    records := s.records.insert record.key record }

/-- The last assignments of `apply`. -/
def advance (s : ReplaySecurity) (delta : SecurityDelta) (metadataBytes : ℕ) : ReplaySecurity :=
  { s with
    checkpoint :=
      { s.checkpoint with
        policy := delta.policy.getD s.checkpoint.policy
        revision := delta.revision
        dataGeneration := delta.generation }
    metadataBytes }

/-- What is done to the state before a refusal is kept. -/
abbrev Replaying : Type → Type := ExceptT Refusal (StateM ReplaySecurity)

/-- `ReplaySecurity::apply`. -/
def apply (batch : ProtectedBatch) : Replaying Unit := do
  let s ← get
  let metadataBytes ← liftExcept (s.verify batch)
  batch.security.bindings.forM fun record => modify fun s => s.bind record
  modify fun s => s.advance batch.security metadataBytes

/-- `ReplaySecurity::finish`. -/
def finish (s : ReplaySecurity) : SecurityCheckpoint :=
  { s.checkpoint with resources := s.records.values }

/-- A sequence of transactions, whether they are accepted or not. -/
def replay (s : ReplaySecurity) (batches : List ProtectedBatch) : ReplaySecurity :=
  batches.foldl (fun s batch => ((apply batch).run s).2) s

end ReplaySecurity

end Model

/-! ## Bindings -/

variable {record : ResourceRecord} {delta : SecurityDelta}

variable {s : ReplaySecurity}

namespace ReplaySecurity

/-- A record that may be installed: its key and its storage identity are bound to each other, or
both are new. -/
structure Fits (s : ReplaySecurity) (record : ResourceRecord) : Prop where
  key : ∀ old, s.records.get record.key = some old → old.storageId = record.storageId
  identity : ∀ key, s.physical.get record.storageId = some key → key = record.key

theorem records_foldl (s : ReplaySecurity) (bindings : List ResourceRecord) :
    (bindings.foldl bind s).records = .insertAll ResourceRecord.key s.records bindings := by
  induction bindings generalizing s with
  | nil => rfl
  | cons record bindings ih => exact ih (s.bind record)

theorem checkpoint_foldl (s : ReplaySecurity) (bindings : List ResourceRecord) :
    (bindings.foldl bind s).checkpoint = s.checkpoint := by
  induction bindings generalizing s with
  | nil => rfl
  | cons record bindings ih => exact ih (s.bind record)

theorem Fits.bind {other : ResourceRecord} (h : s.Fits other) (hkey : other.key ≠ record.key)
    (hid : other.storageId ≠ record.storageId) : (s.bind record).Fits other := by
  refine ⟨fun old hold => h.key old ?_, fun key hheld => h.identity key ?_⟩
  · rwa [ReplaySecurity.bind, TreeMap.get_insert, if_neg hkey] at hold
  · rwa [ReplaySecurity.bind, TreeMap.get_insert, if_neg hid] at hheld

/-- Bindings that fit keep the maps inverse to each other and rebind no storage identity. -/
theorem inverse_foldl {bindings : List ResourceRecord} (hinverse : Inverse s.records s.physical)
    (hfits : ∀ record ∈ bindings, s.Fits record) (hkeys : (bindings.map ResourceRecord.key).Nodup)
    (hids : (bindings.map ResourceRecord.storageId).Nodup) :
    Inverse (bindings.foldl bind s).records (bindings.foldl bind s).physical ∧
      ∀ id key, s.physical.get id = some key →
        (bindings.foldl bind s).physical.get id = some key := by
  induction bindings generalizing s with
  | nil => exact ⟨hinverse, fun _ _ h => h⟩
  | cons record bindings ih =>
    rw [map_cons, nodup_cons] at hkeys hids
    have hrecord := hfits record mem_cons_self
    have hrest : ∀ other ∈ bindings, (s.bind record).Fits other := fun other hother =>
      (hfits other (mem_cons_of_mem _ hother)).bind
        (fun heq => hkeys.1 (heq ▸ mem_map_of_mem hother))
        (fun heq => hids.1 (heq ▸ mem_map_of_mem hother))
    obtain ⟨hinv, hkeep⟩ := ih (hinverse.insert hrecord.key hrecord.identity) hrest hkeys.2 hids.2
    refine ⟨hinv, fun id key hheld => hkeep id key ?_⟩
    rw [ReplaySecurity.bind, TreeMap.get_insert]
    split
    · next heq => rw [hrecord.identity key (heq ▸ hheld)]
    · exact hheld

/-- A binding of a known key: it keeps the storage identity, and the record was not retired. -/
theorem checkBinding_known {old : ResourceRecord} (h : s.checkBinding delta record = .ok ())
    (hold : s.records.get record.key = some old) :
    old.storageId = record.storageId ∧ old.retired = false ∧
      (changedPolicy delta = true ∨ record = { old with retired := true }) := by
  rw [checkBinding, hold] at h
  simpa [seq_eq_ok, and_assoc] using h

theorem checkBinding_new (h : s.checkBinding delta record = .ok ())
    (hnew : s.records.get record.key = none) :
    s.physical.get record.storageId = none ∧ record.retired = false ∧ record.parent = none ∧
      record.grants = [] := by
  rw [checkBinding, hnew] at h
  simpa [TreeMap.containsKey_eq_false_iff, and_assoc] using h

end ReplaySecurity

/-! ## What the checks establish -/

section Checks

variable [Encoding] [GraphBatches]

/-- What a valid transaction is like. -/
structure ProtectedBatch.Valid (batch : ProtectedBatch) : Prop where
  generation : batch.security.generation = batch.security.expectedGeneration + 1
  revision : batch.security.revision = batch.security.expectedRevision ∨
    batch.security.revision = batch.security.expectedRevision + 1
  policy : batch.security.revision = batch.security.expectedRevision → batch.security.policy = none
  keys : (batch.security.bindings.map ResourceRecord.key).Nodup
  identities : (batch.security.bindings.map ResourceRecord.storageId).Nodup

omit [GraphBatches] in
theorem apart_of_validateBindings {seen : Finset PointKey × Finset Uuid}
    (h : validateBindings delta = .ok seen) :
    delta.bindings.Pairwise fun first second =>
      first.key ≠ second.key ∧ first.storageId ≠ second.storageId := by
  refine (foldlM_fresh (fun b first second => ?_) |>.mp ⟨seen, h⟩).2.2
  simp only [Bool.and_eq_true, decide_eq_true_eq, Finset.mem_insert, not_or]
  grind

variable {batch : ProtectedBatch}

theorem ProtectedBatch.valid_of_validate (h : batch.validate = .ok ()) : batch.Valid := by
  simp only [validate, eq_ok, Bool.or_eq_true, Bool.not_eq_true', Bool.and_eq_false_iff,
    decide_eq_false_iff_not] at h
  obtain ⟨-, -, ⟨⟨⟨hgeneration, hrevision⟩, hpolicy⟩, -⟩, -, seen, hseen, -⟩ := h
  have hapart := apart_of_validateBindings hseen
  refine ⟨hgeneration, hrevision.imp_right And.left, fun heq => ?_, ?_, ?_⟩
  · rcases hpolicy with hnone | hne
    · exact Option.not_isSome_iff_eq_none.mp (by simp [hnone])
    · exact absurd heq hne
  · exact pairwise_map.mpr (hapart.imp And.left)
  · exact pairwise_map.mpr (hapart.imp And.right)

namespace ReplaySecurity

/-- What `verify` checks against the catalog. -/
structure Admissible (s : ReplaySecurity) (batch : ProtectedBatch) (metadataBytes : ℕ) :
    Prop where
  valid : batch.validate = .ok ()
  incarnation : batch.security.incarnation = s.checkpoint.incarnation
  generation : batch.security.expectedGeneration = s.checkpoint.dataGeneration
  revision : batch.security.expectedRevision = s.checkpoint.revision
  bindings : ∀ record ∈ batch.security.bindings, s.checkBinding batch.security record = .ok ()
  content : ∃ upserts deletes, parseIds batch.content.pointIds.1 = .ok upserts ∧
    parseIds batch.content.pointIds.2 = .ok deletes ∧
    s.created batch.security ⊆ upserts ∧ s.retired batch.security = deletes ∧
    (∀ id ∈ upserts, s.checkUpsert batch.security id = .ok ()) ∧
    ∀ id ∈ deletes, s.checkDelete id = .ok ()
  chains : changedPolicy batch.security = true →
    ∀ start ∈ s.records.values ++ batch.security.bindings,
      s.checkOverlay batch.security start = .ok ()
  bytes : overlayBytes s.metadataBytes s.records batch.security.bindings = .ok metadataBytes
  capacity : checkCapacity s.checkpoint.collection s.checkpoint.incarnation
    (batch.security.policy.getD s.checkpoint.policy) metadataBytes capacityLimit = .ok ()

theorem verify_eq_ok {metadataBytes : ℕ} :
    s.verify batch = .ok metadataBytes ↔ s.Admissible batch metadataBytes := by
  simp only [verify, eq_ok, forM_eq_ok, refuse_eq_ok]
  constructor
  · rintro ⟨hvalid, ⟨⟨hi, hg⟩, hr⟩, hbindings, upserts, hupserts, deletes, hdeletes,
      ⟨hcreated, hretired⟩, hup, hdel, hchains, bytes, hbytes, hcapacity, rfl⟩
    refine ⟨hvalid, hi, hg, hr, hbindings,
      ⟨upserts, deletes, hupserts, hdeletes, hcreated, hretired, hup, hdel⟩, fun hchanged => ?_,
      hbytes, hcapacity⟩
    rw [checkChains, if_pos hchanged] at hchains
    exact forM_eq_ok.mp hchains
  · rintro ⟨hvalid, hi, hg, hr, hbindings, ⟨upserts, deletes, hupserts, hdeletes, hcreated,
      hretired, hup, hdel⟩, hchains, hbytes, hcapacity⟩
    refine ⟨hvalid, ⟨⟨hi, hg⟩, hr⟩, hbindings, upserts, hupserts, deletes, hdeletes,
      ⟨hcreated, hretired⟩, hup, hdel, ?_, _, hbytes, hcapacity, rfl⟩
    rw [checkChains]
    split
    · next hchanged => exact forM_eq_ok.mpr (hchains hchanged)
    · rfl

/-- The state after an accepted transaction. -/
def install (s : ReplaySecurity) (delta : SecurityDelta) (metadataBytes : ℕ) : ReplaySecurity :=
  (delta.bindings.foldl bind s).advance delta metadataBytes

omit [Encoding] [GraphBatches] in
theorem install_eq (s : ReplaySecurity) (delta : SecurityDelta) (metadataBytes : ℕ) :
    s.install delta metadataBytes = ⟨{ s.checkpoint with
          policy := delta.policy.getD s.checkpoint.policy
          revision := delta.revision
          dataGeneration := delta.generation },
        .insertAll ResourceRecord.key s.records delta.bindings,
        (delta.bindings.foldl bind s).physical, metadataBytes⟩ := by
  rw [install, advance, checkpoint_foldl, records_foldl]

omit [Encoding] [GraphBatches] in
theorem run_bind_of_ok {β : Type} {x : Replaying α} {f : α → Replaying β} {t : ReplaySecurity}
    (h : x.run s = (.ok a, t)) : (x >>= f).run s = (f a).run t := by
  rw [ExceptT.run_bind]
  change (StateT.bind _ _) s = _
  rw [StateT.bind, h]
  rfl

omit [Encoding] [GraphBatches] in
theorem run_forM_bind (bindings : List ResourceRecord) (s : ReplaySecurity) :
    (bindings.forM fun record => (modify fun s => s.bind record : Replaying Unit)).run s =
      (.ok (), bindings.foldl bind s) := by
  induction bindings generalizing s with
  | nil => rfl
  | cons record bindings ih => exact ih (s.bind record)

/-- **A transaction takes effect as a whole or not at all.** -/
theorem run_apply (s : ReplaySecurity) (batch : ProtectedBatch) :
    (apply batch).run s = match s.verify batch with
      | .ok metadataBytes => (.ok (), s.install batch.security metadataBytes)
      | .error refusal => (.error refusal, s) := by
  have hget : (get : Replaying ReplaySecurity).run s = (.ok s, s) := rfl
  rw [apply, run_bind_of_ok hget]
  cases s.verify batch with
  | error refusal => rfl
  | ok metadataBytes =>
    have hlift : (liftExcept (.ok metadataBytes : Except Refusal ℕ) : Replaying ℕ).run s =
      (.ok metadataBytes, s) := rfl
    rw [run_bind_of_ok hlift, run_bind_of_ok (run_forM_bind _ s)]
    rfl

variable {metadataBytes : ℕ}

section Accepted

theorem Admissible.fits (h : s.Admissible batch metadataBytes)
    (hinverse : Inverse s.records s.physical) :
    ∀ record ∈ batch.security.bindings, s.Fits record := by
  intro record hmem
  have hcheck := h.bindings record hmem
  cases hold : s.records.get record.key with
  | some old =>
    obtain ⟨hsame, -, -⟩ := checkBinding_known hcheck hold
    have hbound := hinverse.bound hold
    rw [hsame] at hbound
    refine ⟨fun other hother => ?_, fun key hheld => ?_⟩
    · rw [hold] at hother
      cases hother
      exact hsame
    · exact Option.some.inj (hheld.symm.trans hbound)
  | none =>
    obtain ⟨hfree, -⟩ := checkBinding_new hcheck hold
    exact ⟨fun other hother => absurd hother (by simp [hold]),
      fun key hheld => absurd hheld (by simp [hfree])⟩

omit [Encoding] in
/-- The records after the transaction are the proposed ones. -/
theorem get_install (bytes : ℕ) (hkeys : (batch.security.bindings.map ResourceRecord.key).Nodup)
    (key : PointKey) :
    (s.install batch.security bytes).records.get key = s.overlay batch.security key := by
  change (batch.security.bindings.foldl bind s).records.get key = _
  rw [records_foldl, overlay, updated]
  by_cases hkey : key ∈ batch.security.bindings.map ResourceRecord.key
  · obtain ⟨record, hrecord, rfl⟩ := mem_map.mp hkey
    rw [TreeMap.get_insertAll_of_mem hkeys hrecord, TreeMap.get_insertAll_of_mem hkeys hrecord]
    rfl
  · rw [TreeMap.get_insertAll_of_not_mem hkey, TreeMap.get_insertAll_of_not_mem hkey]
    rfl

theorem Admissible.inverse (h : s.Admissible batch metadataBytes)
    (hinverse : Inverse s.records s.physical) :
    Inverse (s.install batch.security metadataBytes).records
        (s.install batch.security metadataBytes).physical ∧
      ∀ id key, s.physical.get id = some key →
        (s.install batch.security metadataBytes).physical.get id = some key := by
  have hvalid := ProtectedBatch.valid_of_validate h.valid
  exact inverse_foldl hinverse (h.fits hinverse) hvalid.keys hvalid.identities

variable {key : PointKey}

omit [Encoding] [GraphBatches] in
theorem overlay_eq_some (hkeys : (delta.bindings.map ResourceRecord.key).Nodup) :
    s.overlay delta key = some record ↔ (record ∈ delta.bindings ∧ record.key = key) ∨
      (key ∉ delta.bindings.map ResourceRecord.key ∧ s.records.get key = some record) := by
  rw [overlay, updated, Option.or_eq_some_iff, TreeMap.get_insertAll_eq_some hkeys]
  by_cases hkey : key ∈ delta.bindings.map ResourceRecord.key
  · obtain ⟨found, hfound, rfl⟩ := mem_map.mp hkey
    simp [TreeMap.get_insertAll_of_mem hkeys hfound, hkey]
  · simp [TreeMap.get_insertAll_of_not_mem hkey, hkey]

section

variable (h : s.Admissible batch metadataBytes)
include h

/-- **What becomes of a record:** it keeps its storage identity, and a retired one stays as it
is. -/
theorem Admissible.kept (hrecord : s.records.get key = some record) :
    ∃ next, s.overlay batch.security key = some next ∧ next.storageId = record.storageId ∧
      (record.retired = true → next = record) ∧
      (changedPolicy batch.security = false →
        next = record ∨ next = { record with retired := true }) := by
  have hkeys := (ProtectedBatch.valid_of_validate h.valid).keys
  by_cases hkey : key ∈ batch.security.bindings.map ResourceRecord.key
  · obtain ⟨next, hnext, rfl⟩ := mem_map.mp hkey
    obtain ⟨hsame, hlive, hchange⟩ := checkBinding_known (h.bindings next hnext) hrecord
    refine ⟨next, (overlay_eq_some hkeys).mpr (.inl ⟨hnext, rfl⟩), hsame.symm,
      fun hretired => absurd hretired (by simp [hlive]), fun hcontent => .inr ?_⟩
    exact hchange.resolve_left (by simp [hcontent])
  · exact ⟨record, (overlay_eq_some hkeys).mpr (.inr ⟨hkey, hrecord⟩), rfl, fun _ => rfl,
      fun _ => .inl rfl⟩

theorem Admissible.fresh (hnew : s.records.get key = none)
    (hrecord : s.overlay batch.security key = some record) :
    record.parent = none ∧ record.grants = [] ∧ record.retired = false := by
  have hkeys := (ProtectedBatch.valid_of_validate h.valid).keys
  rcases (overlay_eq_some hkeys).mp hrecord with ⟨hmem, rfl⟩ | ⟨-, hold⟩
  · obtain ⟨-, hlive, hparent, hgrants⟩ := checkBinding_new (h.bindings record hmem) hnew
    exact ⟨hparent, hgrants, hlive⟩
  · rw [hnew] at hold
    cases hold

/-- **The chains of the proposed catalog are sound.** -/
theorem Admissible.chains_sound (hs : Consistent s.records s.physical)
    (hrecord : s.overlay batch.security key = some record) :
    SoundChain (s.overlay batch.security) key := by
  have hkeys := (ProtectedBatch.valid_of_validate h.valid).keys
  have hown : ∀ key record, s.overlay batch.security key = some record → record.key = key := by
    intro key record hget
    rw [← get_install metadataBytes hkeys] at hget
    exact (h.inverse hs.inverse).1.own hget
  have hkey := hown key record hrecord
  subst hkey
  cases hchanged : changedPolicy batch.security with
  | true =>
    -- Every record of the proposed catalog has been checked as a start.
    rw [← checkChain_iff hown hrecord]
    rcases (overlay_eq_some hkeys).mp hrecord with ⟨hmem, -⟩ | ⟨hnot, hold⟩
    · have hcheck := h.chains hchanged record (mem_append_right _ hmem)
      rw [checkOverlay, updated, TreeMap.get_insertAll_of_mem hkeys hmem] at hcheck
      exact refuse_eq_ok.mp hcheck
    · have hcheck := h.chains hchanged record (mem_append_left _ (TreeMap.mem_values.mpr ⟨_, hold⟩))
      rw [checkOverlay, updated, TreeMap.get_insertAll_of_not_mem hnot] at hcheck
      exact refuse_eq_ok.mp hcheck
  | false =>
    cases hold : s.records.get record.key with
    | some old =>
      -- Content keeps the parents of the records that were there.
      refine (hs.chains hold).mono fun key before hbefore => ?_
      obtain ⟨next, hnext, -, -, hchange⟩ := h.kept hbefore
      refine ⟨next, hnext, ?_⟩
      rcases hchange hchanged with rfl | rfl <;> rfl
    | none =>
      have hroot := (h.fresh hold hrecord).1
      refine ⟨[record.key], .root ?_, nodup_singleton _, by simp [maxInheritanceDepth], ?_⟩
      · rw [parentsOf_eq hrecord, hroot]
      · intro ancestor hmem
        rw [mem_singleton.mp hmem]
        exact ⟨rfl, rfl⟩

end

variable {id : String}

omit [GraphBatches] in
theorem parseId_eq_ok {uuid : Uuid} :
    parseId id = .ok uuid ↔ Encoding.parseUuid id = some uuid := by
  rw [parseId]
  cases Encoding.parseUuid id <;> simp

omit [GraphBatches] in
theorem exists_of_parseIds {ids : List String} {out : List Uuid} (h : parseIds ids = .ok out)
    (hid : id ∈ ids) : ∃ uuid ∈ out, Encoding.parseUuid id = some uuid := by
  rw [parseIds, bind_eq_ok] at h
  obtain ⟨uuids, huuids, hout⟩ := h
  cases hout
  have hmem := mem_map_of_mem (f := parseId) hid
  rw [mapM_eq_ok.mp huuids, mem_map] at hmem
  obtain ⟨uuid, hmem, hparse⟩ := hmem
  exact ⟨uuid, mem_sortedKeys.mpr hmem, parseId_eq_ok.mp hparse.symm⟩

/-- **Only live resources receive content.** -/
theorem Admissible.live (h : s.Admissible batch metadataBytes)
    (hinverse : Inverse s.records s.physical) (hid : id ∈ batch.content.pointIds.1) :
    ∃ uuid key record, Encoding.parseUuid id = some uuid ∧
      (s.install batch.security metadataBytes).physical.get uuid = some key ∧
      (s.install batch.security metadataBytes).records.get key = some record ∧
      record.retired = false := by
  have hkeys := (ProtectedBatch.valid_of_validate h.valid).keys
  obtain ⟨hafter, hkeep⟩ := h.inverse hinverse
  obtain ⟨upserts, deletes, hupserts, -, -, -, hchecks, -⟩ := h.content
  obtain ⟨uuid, hmem, hparse⟩ := exists_of_parseIds hupserts hid
  have hcheck := hchecks uuid hmem
  rw [checkUpsert] at hcheck
  split at hcheck
  · next hcreated =>
    rw [created, mem_sortedKeys, mem_map] at hcreated
    obtain ⟨record, hrecord, rfl⟩ := hcreated
    rw [mem_filter, Bool.not_eq_true', TreeMap.containsKey_eq_false_iff] at hrecord
    have hnext : (s.install batch.security metadataBytes).records.get record.key =
        some record := by
      rw [get_install _ hkeys, overlay_eq_some hkeys]
      exact .inl ⟨hrecord.1, rfl⟩
    exact ⟨_, _, record, hparse, hafter.bound hnext, hnext,
      (checkBinding_new (h.bindings record hrecord.1) hrecord.2).2.1⟩
  · split at hcheck
    · cases hcheck
    · next key hkey =>
      split at hcheck
      · cases hcheck
      · next record hrecord =>
        refine ⟨uuid, key, record, hparse, hkeep _ _ hkey, ?_, by simpa using hcheck⟩
        rw [get_install _ hkeys, hrecord]

end Accepted

/-! ## Runs -/

/-- The bindings that a catalog has, a later one still has; retired resources are as they were. -/
structure Kept (s t : ReplaySecurity) : Prop where
  physical : ∀ {id key}, s.physical.get id = some key → t.physical.get id = some key
  records : ∀ {key record}, s.records.get key = some record →
    ∃ next, t.records.get key = some next ∧ next.storageId = record.storageId ∧
      (record.retired = true → next = record)

namespace Kept

variable {s t u : ReplaySecurity}

omit [Encoding] [GraphBatches] in
theorem refl (s : ReplaySecurity) : Kept s s := ⟨id, fun h => ⟨_, h, rfl, fun _ => rfl⟩⟩

omit [Encoding] [GraphBatches] in
theorem trans (h : Kept s t) (h' : Kept t u) : Kept s u := by
  refine ⟨fun hget => h'.physical (h.physical hget), fun hget => ?_⟩
  obtain ⟨next, hnext, hid, hretired⟩ := h.records hget
  obtain ⟨last, hlast, hid', hretired'⟩ := h'.records hnext
  refine ⟨last, hlast, hid'.trans hid, fun hr => ?_⟩
  have hsame := hretired hr
  rw [hretired' (by rw [hsame]; exact hr), hsame]

end Kept

/-- **What an accepted transaction may do.** -/
structure Accepted (s : ReplaySecurity) (batch : ProtectedBatch) (t : ReplaySecurity) : Prop where
  generation : t.checkpoint.dataGeneration = s.checkpoint.dataGeneration + 1
  revision : t.checkpoint.revision = s.checkpoint.revision ∨
    t.checkpoint.revision = s.checkpoint.revision + 1
  kept : Kept s t
  /-- What it writes belongs to live resources. -/
  live : ∀ id ∈ batch.content.pointIds.1, ∃ uuid key record, Encoding.parseUuid id = some uuid ∧
    t.physical.get uuid = some key ∧ t.records.get key = some record ∧ record.retired = false
  /-- A transaction that leaves the revision alone changes no permission. -/
  permissions : batch.security.revision = batch.security.expectedRevision →
    t.checkpoint.policy = s.checkpoint.policy ∧
    (∀ {key record}, s.records.get key = some record → t.records.get key = some record ∨
        t.records.get key = some { record with retired := true }) ∧
    ∀ {key record}, s.records.get key = none → t.records.get key = some record →
      record.parent = none ∧ record.grants = []

section Runs

theorem Admissible.accepted (h : s.Admissible batch metadataBytes)
    (hinverse : Inverse s.records s.physical) :
    Accepted s batch (s.install batch.security metadataBytes) := by
  have hvalid := ProtectedBatch.valid_of_validate h.valid
  refine ⟨?_, ?_, ⟨fun hget => (h.inverse hinverse).2 _ _ hget, fun hget => ?_⟩,
    fun id hid => h.live hinverse hid, fun hcontent => ⟨?_, fun hget => ?_, fun hnew hget => ?_⟩⟩
  · exact hvalid.generation.trans (by rw [h.generation])
  · rw [← h.revision]
    exact hvalid.revision
  · obtain ⟨next, hnext, hid, hretired, -⟩ := h.kept hget
    exact ⟨next, by rw [get_install _ hvalid.keys, hnext], hid, hretired⟩
  · change batch.security.policy.getD _ = _
    rw [hvalid.policy hcontent, checkpoint_foldl]
    rfl
  · obtain ⟨next, hnext, -, -, hchange⟩ := h.kept hget
    rw [get_install _ hvalid.keys, hnext]
    rcases hchange (by simp [changedPolicy, hcontent]) with rfl | rfl
    · exact .inl rfl
    · exact .inr rfl
  · rw [get_install _ hvalid.keys] at hget
    obtain ⟨hparent, hgrants, -⟩ := h.fresh hnew hget
    exact ⟨hparent, hgrants⟩

theorem Admissible.consistent (h : s.Admissible batch metadataBytes)
    (hs : Consistent s.records s.physical) :
    Consistent (s.install batch.security metadataBytes).records
      (s.install batch.security metadataBytes).physical := by
  have hkeys := (ProtectedBatch.valid_of_validate h.valid).keys
  refine ⟨(h.inverse hs.inverse).1, fun {key record} hget => ?_⟩
  have hlookup : (s.install batch.security metadataBytes).records.get =
      s.overlay batch.security := funext (get_install _ hkeys)
  rw [hlookup] at hget ⊢
  exact h.chains_sound hs hget

/-- The replay of a snapshot that has been admitted. -/
def ofSnapshot (snapshot : PolicySnapshot) : ReplaySecurity :=
  ⟨snapshot.checkpoint, snapshot.resources.records, snapshot.resources.physical,
    snapshot.resources.metadataBytes⟩

omit [GraphBatches] in
/-- Replay starts from the catalog that the admission of its checkpoint builds. -/
theorem new_eq_ok {checkpoint : SecurityCheckpoint} {start : ReplaySecurity} :
    new checkpoint = .ok start ↔ ∃ snapshot, PolicySnapshot.validate checkpoint = .ok snapshot ∧
        start = ofSnapshot snapshot := by
  have hloop : ∀ snapshot, PolicySnapshot.validate checkpoint = .ok snapshot →
      checkpoint.resources.foldlM drain
        ⟨{ checkpoint with resources := [] }, .empty, .empty, 0⟩ = .ok (ofSnapshot snapshot) := by
    intro snapshot hsnapshot
    obtain ⟨hindex, -, -, hheader⟩ := PolicySnapshot.validate_eq_ok hsnapshot
    rw [ofSnapshot, hheader]
    refine foldlM_simulates (fun index : ResourceIndex =>
      (⟨{ checkpoint with resources := [] }, index.records, index.physical,
        index.metadataBytes⟩ : ReplaySecurity)) (fun index record next hnext => ?_) hindex
    obtain ⟨bytes, total, _, hbytes, htotal, -, -, -, -, rfl⟩ :=
      ResourceIndex.addRecord_eq_ok.mp hnext
    simp only [drain, eq_ok]
    exact ⟨bytes, hbytes, total, htotal, rfl⟩
  rw [new, bind_eq_ok]
  constructor
  · rintro ⟨snapshot, hsnapshot, hstart⟩
    exact ⟨snapshot, hsnapshot, Except.ok.inj (hstart.symm.trans (hloop snapshot hsnapshot))⟩
  · rintro ⟨snapshot, hsnapshot, rfl⟩
    exact ⟨snapshot, hsnapshot, hloop snapshot hsnapshot⟩

/-- No transaction makes `verify` index a map out of its keys. -/
theorem verify_avoids_panicked (hinverse : Inverse s.records s.physical) (batch : ProtectedBatch) :
    Avoids .panicked (s.verify batch) := by
  have hrefuse : ∀ {α : Type} {x : Result α}, Avoids .panicked (refuse x) := refuse_ne_panicked
  have hcontent : Avoids .panicked batch.content.validate := by
    cases batch.content with
    | graph graph =>
      rw [ProtectedContent.validate]
      cases GraphBatches.validate graph <;> simp [Avoids, Except.mapError]
    | _ => exact .ok _
  have hvalidate : Avoids .panicked batch.validate := by
    exact .bind (.ensure (by simp [invalid])) fun _ _ => .bind (.ensure (by simp)) fun _ _ =>
      .bind (.ensure (by simp [invalid])) fun _ _ => .bind (.forM fun _ _ => hrefuse) fun _ _ =>
      .bind (.foldlM fun _ _ => hrefuse.bind fun _ _ =>
        .bind (.ensure (by simp [invalid])) fun _ _ => .ok _) fun _ _ =>
      .bind hcontent fun _ _ => .bind (.ensure (by simp)) fun _ _ =>
      .bind (.foldlM fun _ _ => .bind (.ensure (by simp [invalid])) fun _ _ =>
        .bind (.ensure (by simp [invalid])) fun _ _ => .ok _) fun _ _ => .ok _
  have hparse : ∀ ids, Avoids .panicked (parseIds ids) := by
    intro ids
    refine .bind (.mapM fun id => ?_) fun _ _ => .ok _
    rw [parseId]
    cases Encoding.parseUuid id <;> simp [Avoids, invalid]
  have hbinding : ∀ record, Avoids .panicked (s.checkBinding batch.security record) := by
    intro record
    rw [checkBinding]
    split
    · exact .bind (.ensure (by simp [invalid])) fun _ _ => .ensure (by simp [invalid])
    · exact .ensure (by simp [invalid])
  have hupsert : ∀ id, Avoids .panicked (s.checkUpsert batch.security id) := by
    intro id
    rw [checkUpsert]
    split
    · exact .ok _
    · split
      · simp [Avoids, invalid]
      · next key hkey =>
        -- The key of a storage identity always has a record.
        obtain ⟨record, hrecord, -⟩ := hinverse.held hkey
        rw [overlay, hrecord]
        cases (updated batch.security).get key <;> exact .ensure (by simp [invalid])
  refine hvalidate.bind fun _ _ => .bind (.ensure (by simp [invalid])) fun _ _ =>
    .bind (.forM fun record _ => hbinding record) fun _ _ => (hparse _).bind fun _ _ =>
    (hparse _).bind fun _ _ => .bind (.ensure (by simp [invalid])) fun _ _ =>
    .bind (.forM fun id _ => hupsert id) fun _ _ =>
    .bind (.forM fun _ _ => .ensure (by simp [invalid])) fun _ _ => .bind ?_ fun _ _ =>
    hrefuse.bind fun _ _ => hrefuse.bind fun _ _ => .ok _
  rw [checkChains]
  split
  · exact .forM fun _ _ => hrefuse
  · exact .ok _

theorem consistent_apply (hs : Consistent s.records s.physical) (batch : ProtectedBatch) :
    Consistent ((apply batch).run s).2.records ((apply batch).run s).2.physical ∧
      Kept s ((apply batch).run s).2 := by
  rw [run_apply]
  cases hverify : s.verify batch with
  | error refusal => exact ⟨hs, .refl s⟩
  | ok metadataBytes =>
    have h := verify_eq_ok.mp hverify
    exact ⟨h.consistent hs, (h.accepted hs.inverse).kept⟩

theorem consistent_replay (hs : Consistent s.records s.physical) (batches : List ProtectedBatch) :
    Consistent (s.replay batches).records (s.replay batches).physical ∧
      Kept s (s.replay batches) := by
  induction batches generalizing s with
  | nil => exact ⟨hs, .refl s⟩
  | cons batch batches ih =>
    obtain ⟨hnext, hkept⟩ := consistent_apply hs batch
    obtain ⟨hlast, hkept'⟩ := ih hnext
    exact ⟨hlast, hkept.trans hkept'⟩

/-- **Hostile transactions.**  After any transactions from a verified checkpoint the catalog is
consistent.  The next transaction is refused without an effect, or it is accepted and does what
an accepted transaction may do; and nothing that follows undoes a binding or a retirement. -/
theorem replay_secure {checkpoint : SecurityCheckpoint} {start : ReplaySecurity}
    (hstart : new checkpoint = .ok start) (before : List ProtectedBatch) (batch : ProtectedBatch)
    (later : List ProtectedBatch) :
    Consistent (start.replay before).records (start.replay before).physical ∧
      (∀ refusal t, (apply batch).run (start.replay before) = (.error refusal, t) →
        t = start.replay before ∧ refusal ≠ .panicked) ∧
      (∀ t, (apply batch).run (start.replay before) = (.ok (), t) →
        Accepted (start.replay before) batch t) ∧
      Kept (start.replay before) ((start.replay before).replay later) := by
  obtain ⟨snapshot, hsnapshot, rfl⟩ := new_eq_ok.mp hstart
  have hconsistent := (consistent_replay (s := ofSnapshot snapshot)
    (PolicySnapshot.validate_consistent hsnapshot) before).1
  refine ⟨hconsistent, fun refusal t ht => ?_, fun t ht => ?_,
    (consistent_replay hconsistent later).2⟩
  · rw [run_apply] at ht
    have hpanic := verify_avoids_panicked hconsistent.inverse batch
    split at ht
    · cases ht
    · next refusal' hverify =>
      cases ht
      refine ⟨rfl, fun heq => hpanic ?_⟩
      rw [hverify, heq]
  · rw [run_apply] at ht
    split at ht
    · next metadataBytes hverify =>
      cases ht
      exact (verify_eq_ok.mp hverify).accepted hconsistent.inverse
    · cases ht

end Runs

end ReplaySecurity

end Checks

/-! A collection without resources, and the transaction that creates its first one. -/

/-- One identifier, and records and headers of a fixed length. -/
@[reducible] def articleEncoding : Encoding where
  parseUuid id := if id = "article" then some 7 else none
  recordLength _ := 300
  storedLength _ _ _ := 200

/-- Content without graphs. -/
@[reducible] def noGraphs : GraphBatches := ⟨Empty, fun _ => .ok (), fun _ => []⟩

def articleCheckpoint : SecurityCheckpoint := ⟨1, "articles", 1, 1, 1, ⟨∅, ∅, .empty⟩, []⟩

def createdArticle : ResourceRecord :=
  ⟨⟨1, "acme", "first"⟩, 7, ⟨"writer", "press", .internal, false⟩, .empty, .empty, [], none, 1,
    false, none⟩

def articleCreation : @ProtectedBatch noGraphs :=
  @ProtectedBatch.mk noGraphs 1 ⟨1, 1, 1, 1, 2, none, [createdArticle]⟩
    (@ProtectedContent.upsert noGraphs ["article"])

theorem replay_secure_article : ∃ start t,
    @ReplaySecurity.new articleEncoding articleCheckpoint = .ok start ∧
      (@ReplaySecurity.apply articleEncoding noGraphs articleCreation).run start = (.ok (), t) ∧
      @ReplaySecurity.Accepted articleEncoding noGraphs start articleCreation t :=
  ⟨_, _, rfl, rfl, (@ReplaySecurity.replay_secure articleEncoding noGraphs articleCheckpoint _ rfl
    [] articleCreation []).2.2.1 _ rfl⟩

end ChironDB.Security
