/-
# Resource catalogs

`validate_collection_policy` and `validate_resource` of `security/policy.rs`, the aggregate bound
of `security/capacity.rs`, and `PolicySnapshot::validate` of `security/context.rs`, which admits a
checkpoint as the authority of a collection.

A catalog keeps its records by key and, the other way round, the key of each storage identity.
An admitted catalog is **consistent**: the two maps are inverse to each other, and the parents of
every record form a lineage of at most `MAX_INHERITANCE_DEPTH` records of one tenant and one
collection (`validate_consistent`).
-/

import ChironDB.Security.Policy
import ChironDB.Tables.Lineage

namespace ChironDB.Security

open Tables Fault List

/-- What the `uuid` and `serde_json` crates compute for the catalog. -/
class Encoding where
  /-- `Uuid::parse_str`. -/
  parseUuid : String → Option Uuid
  /-- The number of bytes of a record in JSON. -/
  recordLength : ResourceRecord → ℕ
  /-- The number of bytes of the stored checkpoint of a collection without its records, at the
  largest revision, generation and watermark. -/
  storedLength : String → Uuid → CollectionPolicy → ℕ

section Validation

variable [Encoding]

def validateNamedTemplate (entry : String × IngestTemplate) : Result Unit := do
  ensure (identifier entry.1) (.invalid "invalid ingest template name")
  validateTemplate entry.2

def validateCollectionPolicy (config : CollectionPolicy) : Result Unit := do
  ensure (config.templates.entries.length ≤ maxPolicyGrants) .budgetExceeded
  config.templates.entries.forM validateNamedTemplate
  ensure (decide (∀ action ∈ config.departmentActions ∪ config.ownerActions, action.isData = true))
    (.invalid "object permits cannot grant administrative actions")

def validateReceipt (record : ResourceRecord) (receipt : CreateReceipt) : Result Unit :=
  ensure (identifier receipt.principal && identifier receipt.requestId &&
      receipt.requestDigest ≠ List.replicate 32 0 && receipt.ids ≠ [] &&
      receipt.ids.length ≤ 1024 && receipt.ids.toFinset.card = receipt.ids.length &&
      receipt.ids.head? = some record.key.id &&
      receipt.ids.all fun id => (Encoding.parseUuid id).isSome)
    (.invalid "invalid create receipt")

def Subject.valid : Subject → Bool
  | .owner => true
  | .principal id | .group id | .department id => identifier id

def validateGrant (grant : ObjectGrant) : Result Unit := do
  ensure (grant.actions ≠ ∅ && decide (∀ action ∈ grant.actions, action.isResource = true))
    (.invalid "invalid object grant actions")
  ensure grant.subject.valid (.invalid "invalid grant subject")

def validateResource (incarnation : Uuid) (revision : ℕ) (record : ResourceRecord) :
    Result Unit := do
  ensure (record.key.collection = incarnation && identifier record.key.tenant &&
      record.key.id ≠ "" && byteLength record.key.id ≤ 1024 && record.storageId ≠ 0 &&
      identifier record.labels.owner && identifier record.labels.department &&
      record.revision ≠ 0 && record.revision ≤ revision)
    (.invalid "invalid resource binding")
  ensure (record.grants.length ≤ maxPolicyGrants) .budgetExceeded
  record.createReceipt.toList.forM (validateReceipt record)
  record.grants.forM validateGrant
  validateTemplate record.template

end Validation

/-! ## Inheritance -/

/-- The loop that follows the parents of a record.  `path` holds the keys passed so far, and
`room` is what is left of `MAX_INHERITANCE_DEPTH`. -/
def followParents (lookup : PointKey → Option ResourceRecord) (start : PointKey)
    (crossed absent : String) (path : List PointKey) : ℕ → ResourceRecord → Result Unit
  | 0, current =>
    if current.key ∈ path then .error (.invalid "inheritance cycle") else .error .budgetExceeded
  | room + 1, current =>
    if current.key ∈ path then .error (.invalid "inheritance cycle")
    else match current.parent with
      | none => .ok ()
      | some parent =>
        if parent.tenant ≠ start.tenant || parent.collection ≠ start.collection then
          .error (.invalid crossed)
        else match lookup parent with
          | none => .error (.invalid absent)
          | some next =>
            followParents lookup start crossed absent (current.key :: path) room next

/-- The parent pointers of a catalog. -/
def parentsOf (lookup : PointKey → Option ResourceRecord) (key : PointKey) :
    Option (Option PointKey) :=
  (lookup key).map ResourceRecord.parent

/-- Two keys of one tenant and one collection. -/
def SameDomain (left right : PointKey) : Prop :=
  left.tenant = right.tenant ∧ left.collection = right.collection

/-- **A sound chain of parents:** it ends at a root without a cycle, is short, and stays in its
domain. -/
def SoundChain (lookup : PointKey → Option ResourceRecord) (key : PointKey) : Prop :=
  ∃ path, Lineage (parentsOf lookup) key path ∧ path.Nodup ∧ path.length ≤ maxInheritanceDepth ∧
    ∀ ancestor ∈ path, SameDomain ancestor key

variable {lookup : PointKey → Option ResourceRecord}

/-- A catalog that keeps the records and their parents keeps the sound chains. -/
theorem SoundChain.mono {lookup' : PointKey → Option ResourceRecord} {key : PointKey}
    (hkeep : ∀ key record, lookup key = some record →
      ∃ record', lookup' key = some record' ∧ record'.parent = record.parent)
    (h : SoundChain lookup key) : SoundChain lookup' key := by
  obtain ⟨path, hlineage, hrest⟩ := h
  refine ⟨path, hlineage.mono fun node parent hnode => ?_, hrest⟩
  obtain ⟨record, hrecord, rfl⟩ := Option.map_eq_some_iff.mp hnode
  obtain ⟨record', hrecord', hparent⟩ := hkeep node record hrecord
  rw [parentsOf, hrecord', Option.map_some, hparent]

variable {record : ResourceRecord}

theorem parentsOf_eq {key : PointKey} (h : lookup key = some record) :
    parentsOf lookup key = some record.parent := by
  rw [parentsOf, h, Option.map_some]

section Parents

variable {start : PointKey} {crossed absent : String}

variable {path : List PointKey} {current : ResourceRecord} {room : ℕ}

section

variable (hown : ∀ key record, lookup key = some record → record.key = key)
include hown

/-- The loop succeeds only along a lineage, which fits in the room. -/
theorem lineage_of_followParents
    (hcurrent : lookup current.key = some current) (hdomain : SameDomain current.key start)
    (h : followParents lookup start crossed absent path room current = .ok ()) :
    ∃ above, Lineage (parentsOf lookup) current.key above ∧ above.length ≤ room ∧
      ∀ ancestor ∈ above, SameDomain ancestor start := by
  induction room generalizing path current with
  | zero =>
    rw [followParents] at h
    split at h <;> cases h
  | succ room ih =>
    rw [followParents] at h
    split at h
    · cases h
    · have hparents := parentsOf_eq hcurrent
      cases hparent : current.parent with
      | none =>
        rw [hparent] at hparents
        refine ⟨[current.key], .root hparents, by simp, fun ancestor hmem => ?_⟩
        rw [mem_singleton.mp hmem]
        exact hdomain
      | some parent =>
        rw [hparent] at h hparents
        dsimp only at h
        split at h
        · cases h
        · next hcrossed =>
          have hsame : SameDomain parent start := by
            simpa [SameDomain] using hcrossed
          cases hnext : lookup parent with
          | none => rw [hnext] at h; cases h
          | some next =>
            rw [hnext] at h
            have hkey := hown parent next hnext
            obtain ⟨above, hlineage, hlength, hall⟩ :=
              ih (by rw [hkey]; exact hnext) (by rw [hkey]; exact hsame) h
            rw [hkey] at hlineage
            exact ⟨current.key :: above, .step hparents hlineage, by simpa using hlength,
              forall_mem_cons.mpr ⟨hdomain, hall⟩⟩

/-- The loop succeeds along a lineage that avoids the path and fits in the room. -/
theorem followParents_of_lineage
    {above : List PointKey} (hcurrent : lookup current.key = some current)
    (hlineage : Lineage (parentsOf lookup) current.key above) (hlength : above.length ≤ room)
    (hall : ∀ ancestor ∈ above, SameDomain ancestor start) (havoid : ∀ key ∈ above, key ∉ path) :
    followParents lookup start crossed absent path room current = .ok () := by
  have hparents := parentsOf_eq hcurrent
  induction room generalizing path above current with
  | zero => cases hlineage <;> simp at hlength
  | succ room ih =>
    have hfresh : current.key ∉ path := by
      cases hlineage <;> exact havoid _ mem_cons_self
    have hnodup := hlineage.nodup
    rw [followParents, if_neg hfresh]
    cases hlineage with
    | root hroot => rw [Option.some.inj (hparents.symm.trans hroot)]
    | @step _ parent above hstep hrest =>
      rw [Option.some.inj (hparents.symm.trans hstep)]
      have hmem : parent ∈ above := by cases hrest <;> exact mem_cons_self
      have hsame := hall parent (mem_cons_of_mem _ hmem)
      dsimp only
      rw [if_neg (by simpa [SameDomain] using hsame)]
      obtain ⟨next, hnext⟩ : ∃ next, lookup parent = some next := by
        cases hrest with
        | root h | step h => exact (Option.map_eq_some_iff.mp h).imp fun _ h => h.1
      have hkey := hown parent next hnext
      rw [hnext]
      dsimp only
      refine ih (by rw [hkey]; exact hnext) (by rw [hkey]; exact hrest)
        (by simpa using hlength) (fun a ha => hall a (mem_cons_of_mem _ ha)) ?_
        (parentsOf_eq (by rw [hkey]; exact hnext))
      intro key hkeymem hpath
      rcases mem_cons.mp hpath with rfl | hpath
      · exact (nodup_cons.mp hnodup).1 hkeymem
      · exact havoid key (mem_cons_of_mem _ hkeymem) hpath

end

/-- The check of one chain. -/
def checkChain (lookup : PointKey → Option ResourceRecord) (crossed absent : String)
    (record : ResourceRecord) : Result Unit :=
  followParents lookup record.key crossed absent [] maxInheritanceDepth record

/-- **The check accepts exactly the sound chains.** -/
theorem checkChain_iff (hown : ∀ key record, lookup key = some record → record.key = key)
    (hrecord : lookup record.key = some record) :
    checkChain lookup crossed absent record = .ok () ↔ SoundChain lookup record.key := by
  constructor
  · intro h
    obtain ⟨path, hlineage, hlength, hall⟩ :=
      lineage_of_followParents hown hrecord ⟨rfl, rfl⟩ h
    exact ⟨path, hlineage, hlineage.nodup, hlength, hall⟩
  · rintro ⟨path, hlineage, -, hlength, hall⟩
    exact followParents_of_lineage hown hrecord hlineage hlength hall fun _ _ => not_mem_nil

end Parents

/-! ## Capacity -/

/-- `capacity::LIMIT`: one gibibyte, less what the encrypted file adds. -/
def capacityLimit : ℕ := 1024 * 1024 * 1024 - 1024 * 1024

/-- `usize::checked_add`. -/
def checkedAdd (left right : ℕ) : Result ℕ :=
  if left + right < 2 ^ 64 then .ok (left + right) else .error .budgetExceeded

section Capacity

variable [Encoding]

/-- `capacity::record_bytes`: one more byte for a comma. -/
def recordBytes (record : ResourceRecord) : Result ℕ := do
  ensure (Encoding.recordLength record ≤ capacityLimit) .budgetExceeded
  checkedAdd (Encoding.recordLength record) 1

/-- `capacity::check`. -/
def checkCapacity (collection : String) (incarnation : Uuid) (policy : CollectionPolicy)
    (recordsBytes limit : ℕ) : Result Unit := do
  ensure (recordsBytes + 52 ≤ limit) .budgetExceeded
  ensure (Encoding.storedLength collection incarnation policy ≤ limit - recordsBytes - 52)
    .budgetExceeded

/-- What a changed record adds to the bytes of a catalog. -/
def overlayRecord (records : TreeMap PointKey ResourceRecord) (current : ℕ)
    (record : ResourceRecord) : Result ℕ := do
  let rest ← match records.get record.key with
    | none => pure current
    | some old => do
      let bytes ← recordBytes old
      if bytes ≤ current then pure (current - bytes) else throw .unavailable
  let bytes ← recordBytes record
  checkedAdd rest bytes

/-- `capacity::overlay_bytes`. -/
def overlayBytes (current : ℕ) (records : TreeMap PointKey ResourceRecord)
    (changed : List ResourceRecord) : Result ℕ :=
  changed.foldlM (overlayRecord records) current

end Capacity

/-! ## Checkpoints -/

structure SecurityCheckpoint where
  version : ℕ
  collection : String
  incarnation : Uuid
  revision : ℕ
  dataGeneration : ℕ
  policy : CollectionPolicy
  resources : List ResourceRecord
  deriving DecidableEq

/-- A create request: its tenant, its principal and its own id. -/
abbrev RequestKey : Type := String ×ₗ String ×ₗ String

structure ResourceIndex where
  records : TreeMap PointKey ResourceRecord
  physical : TreeMap Uuid PointKey
  generation : ℕ
  metadataBytes : ℕ
  createRequests : TreeMap RequestKey PointKey
  deriving DecidableEq

/-- The policy of a collection at one revision; its checkpoint lists no resources. -/
structure PolicySnapshot where
  checkpoint : SecurityCheckpoint
  resources : ResourceIndex
  deriving DecidableEq

def PolicySnapshot.toCheckpoint (snapshot : PolicySnapshot) : SecurityCheckpoint :=
  { snapshot.checkpoint with
    resources := snapshot.resources.records.values
    dataGeneration := snapshot.resources.generation }

def CreateReceipt.requestKey (receipt : CreateReceipt) (tenant : String) : RequestKey :=
  toLex (tenant, toLex (receipt.principal, receipt.requestId))

section Admission

variable [Encoding]

/-- The request of a record, noted unless another record has it. -/
def noteRequest (requests : TreeMap RequestKey PointKey) (record : ResourceRecord) :
    Result (TreeMap RequestKey PointKey) :=
  match record.createReceipt with
  | none => .ok requests
  | some receipt => do
    let key := receipt.requestKey record.key.tenant
    ensure (!requests.containsKey key) (.invalid "duplicate create request binding")
    pure (requests.insert key record.key)

/-- One record of a checkpoint enters the index. -/
def ResourceIndex.addRecord (incarnation : Uuid) (revision : ℕ) (index : ResourceIndex)
    (record : ResourceRecord) : Result ResourceIndex := do
  let bytes ← recordBytes record
  let metadataBytes ← checkedAdd index.metadataBytes bytes
  validateResource incarnation revision record
  let createRequests ← noteRequest index.createRequests record
  ensure (!index.records.containsKey record.key && !index.physical.containsKey record.storageId)
    (.invalid "duplicate logical or physical resource identity")
  pure { index with
      records := index.records.insert record.key record
      physical := index.physical.insert record.storageId record.key
      metadataBytes, createRequests }

/-- Every id of a receipt is a record of the catalog. -/
def checkReceipt (records : TreeMap PointKey ResourceRecord) (record : ResourceRecord)
    (receipt : CreateReceipt) : Result Unit :=
  receipt.ids.forM fun id =>
    ensure (records.containsKey { record.key with id }) (.invalid "missing create receipt binding")

/-- The checks on a record within its catalog. -/
def checkRecord (records : TreeMap PointKey ResourceRecord) (record : ResourceRecord) :
    Result Unit := do
  record.createReceipt.toList.forM (checkReceipt records record)
  checkChain records.get "inheritance crosses collection or tenant" "unknown inheritance parent"
    record

def PolicySnapshot.validate (checkpoint : SecurityCheckpoint) : Result PolicySnapshot := do
  ensure (checkpoint.version = securityVersion && checkpoint.revision ≠ 0 &&
      checkpoint.dataGeneration ≠ 0 && checkpoint.incarnation ≠ 0 &&
      identifier checkpoint.collection && !checkpoint.collection.toList.contains ':')
    (.invalid "invalid security checkpoint identity")
  validateCollectionPolicy checkpoint.policy
  let index ← checkpoint.resources.foldlM
    (ResourceIndex.addRecord checkpoint.incarnation checkpoint.revision)
    ⟨.empty, .empty, checkpoint.dataGeneration, 0, .empty⟩
  checkCapacity checkpoint.collection checkpoint.incarnation checkpoint.policy
    index.metadataBytes capacityLimit
  index.records.values.forM (checkRecord index.records)
  pure ⟨{ checkpoint with resources := [] }, index⟩

end Admission

/-! ## Consistency -/

/-- **The two maps of a catalog are inverse to each other.** -/
structure Inverse (records : TreeMap PointKey ResourceRecord) (physical : TreeMap Uuid PointKey) :
    Prop where
  /-- A record is kept under its own key. -/
  own : ∀ {key record}, records.get key = some record → record.key = key
  /-- Its storage identity leads back to the key. -/
  bound : ∀ {key record}, records.get key = some record → physical.get record.storageId = some key
  /-- Every storage identity belongs to a record. -/
  held : ∀ {id key}, physical.get id = some key →
    ∃ record, records.get key = some record ∧ record.storageId = id

namespace Inverse

variable {records : TreeMap PointKey ResourceRecord} {physical : TreeMap Uuid PointKey}

theorem empty : Inverse .empty .empty :=
  ⟨fun h => by simp at h, fun h => by simp at h, fun h => by simp at h⟩

/-- A record whose key and storage identity are both bound to each other, or both new. -/
theorem insert (h : Inverse records physical)
    (hkey : ∀ old, records.get record.key = some old → old.storageId = record.storageId)
    (hid : ∀ key, physical.get record.storageId = some key → key = record.key) :
    Inverse (records.insert record.key record) (physical.insert record.storageId record.key) := by
  refine ⟨fun {key found} hfound => ?_, fun {key found} hfound => ?_, fun {id key} hfound => ?_⟩
  · rcases TreeMap.of_get_insert hfound with ⟨rfl, rfl⟩ | ⟨-, hfound⟩
    · rfl
    · exact h.own hfound
  · rcases TreeMap.of_get_insert hfound with ⟨rfl, rfl⟩ | ⟨hne, hfound⟩
    · exact TreeMap.get_insert_self _ _
    · have hbound := h.bound hfound
      rw [TreeMap.get_insert, if_neg, hbound]
      intro hsame
      rw [hsame] at hbound
      exact hne (hid key hbound)
  · rcases TreeMap.of_get_insert hfound with ⟨rfl, rfl⟩ | ⟨hne, hfound⟩
    · exact ⟨record, TreeMap.get_insert_self _ _, rfl⟩
    · obtain ⟨held, hheld, hstorage⟩ := h.held hfound
      refine ⟨held, ?_, hstorage⟩
      rw [TreeMap.get_insert, if_neg, hheld]
      rintro rfl
      exact hne (hstorage.symm.trans (hkey held hheld))

end Inverse

/-- **A consistent catalog.** -/
structure Consistent (records : TreeMap PointKey ResourceRecord)
    (physical : TreeMap Uuid PointKey) : Prop where
  inverse : Inverse records physical
  chains : ∀ {key record}, records.get key = some record → SoundChain records.get key

section Admitted

variable [Encoding]

theorem ResourceIndex.addRecord_eq_ok {incarnation : Uuid} {revision : ℕ}
    {index next : ResourceIndex} :
    index.addRecord incarnation revision record = .ok next ↔
      ∃ bytes metadataBytes createRequests, recordBytes record = .ok bytes ∧
        checkedAdd index.metadataBytes bytes = .ok metadataBytes ∧
        validateResource incarnation revision record = .ok () ∧
        noteRequest index.createRequests record = .ok createRequests ∧
        index.records.get record.key = none ∧ index.physical.get record.storageId = none ∧
        next = { index with
          records := index.records.insert record.key record
          physical := index.physical.insert record.storageId record.key
          metadataBytes, createRequests } := by
  simp only [addRecord, eq_ok, Bool.not_eq_true', TreeMap.containsKey_eq_false_iff]
  constructor
  · rintro ⟨bytes, hbytes, total, htotal, hvalid, requests, hrequests, ⟨hkey, hid⟩, rfl⟩
    exact ⟨bytes, total, requests, hbytes, htotal, hvalid, hrequests, hkey, hid, rfl⟩
  · rintro ⟨bytes, total, requests, hbytes, htotal, hvalid, hrequests, hkey, hid, rfl⟩
    exact ⟨bytes, hbytes, total, htotal, hvalid, requests, hrequests, ⟨hkey, hid⟩, rfl⟩

variable {snapshot : PolicySnapshot} {checkpoint : SecurityCheckpoint}

theorem PolicySnapshot.validate_eq_ok (h : validate checkpoint = .ok snapshot) :
    checkpoint.resources.foldlM (ResourceIndex.addRecord checkpoint.incarnation checkpoint.revision)
        ⟨.empty, .empty, checkpoint.dataGeneration, 0, .empty⟩ = .ok snapshot.resources ∧
      checkCapacity checkpoint.collection checkpoint.incarnation checkpoint.policy
        snapshot.resources.metadataBytes capacityLimit = .ok () ∧
      (∀ record ∈ snapshot.resources.records.values,
        checkRecord snapshot.resources.records record = .ok ()) ∧
      snapshot.checkpoint = { checkpoint with resources := [] } := by
  simp only [validate, eq_ok, forM_eq_ok] at h
  obtain ⟨-, -, index, hindex, hcapacity, hrecords, rfl⟩ := h
  exact ⟨hindex, hcapacity, hrecords, rfl⟩

/-- **An admitted catalog is consistent.** -/
theorem PolicySnapshot.validate_consistent (h : validate checkpoint = .ok snapshot) :
    Consistent snapshot.resources.records snapshot.resources.physical := by
  obtain ⟨hindex, -, hrecords, -⟩ := validate_eq_ok h
  have hinverse : Inverse snapshot.resources.records snapshot.resources.physical := by
    refine foldlM_invariant (fun index => Inverse index.records index.physical)
      (fun index record _ next hkeeps hnext => ?_) hindex .empty
    obtain ⟨_, _, _, -, -, -, -, hkey, hid, rfl⟩ := ResourceIndex.addRecord_eq_ok.mp hnext
    exact hkeeps.insert (fun old hold => by rw [hkey] at hold; cases hold)
      (fun key hheld => by rw [hid] at hheld; cases hheld)
  refine ⟨hinverse, fun {key record} hget => ?_⟩
  have hown := hinverse.own hget
  have hcheck := (seq_eq_ok.mp (hrecords record (TreeMap.mem_values.mpr ⟨key, hget⟩))).2
  subst hown
  exact (checkChain_iff (fun _ _ => hinverse.own) hget).mp hcheck

end Admitted

end ChironDB.Security
