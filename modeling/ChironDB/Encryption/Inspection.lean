/-
# Inspecting a tree of encrypted files

`chirondb-core/src/encryption.rs`: `inspect_persisted_file`, `inspect_tree`, `verify_tree`,
`logical_tree_digest`, `referenced_key_ids`; the manifests of `wal.rs` and the cold indexes of
`segment.rs` that list raw bytes.

What key rotation asks of the tree before and after it has rewritten the files: which key ids the
envelopes name, whether every file authenticates, and the digest of all contents.  Nothing here
changes a file.
-/

import ChironDB.Encryption.Frames
import ChironDB.Tables.Index

namespace ChironDB.Encryption

open Codec Crypto Fault Tables

inductive TreeError
  | envelope (error : GaussError)
  | io (message : String)
  | json (message : String)
  | walCorruption (path : Path) (message : String)
  | segmentCorruption (path : Path) (message : String)
  deriving DecidableEq

def invalidRequest (message : String) : TreeError := .envelope (.invalidRequest message)

/-- An error of the envelope code. -/
def lift {α : Type} : Result α → Except TreeError α
  | .ok a => .ok a
  | .error e => .error (.envelope e)

@[simp] theorem lift_eq_ok {α : Type} {r : Result α} {a : α} : lift r = .ok a ↔ r = .ok a := by
  cases r <;> simp [lift]

/-- The regular files below a root, and the directories. -/
structure Tree where
  files : Table Path Bytes
  directories : List Path
  /-- How much randomness was drawn. -/
  drawn : ℕ

def display (path : Path) : String := "/".intercalate path

/-! ## Records -/

structure KeyRotationJournal where
  schemaVersion : ℕ
  operation : String
  activeKeyId : String
  logicalDigest : String
  phase : String
  deriving DecidableEq

structure WalArchiveManifestFile where
  name : String
  bytes : ℕ
  sha256 : String
  encoding : String
  deriving DecidableEq

structure WalArchiveManifest where
  version : ℕ
  files : List WalArchiveManifestFile
  deriving DecidableEq

structure ColdIndexObjectFilePayload where
  name : String
  key : String
  bytes : ℕ
  plaintextBytes : ℕ
  crc : UInt32
  deriving DecidableEq

structure ColdIndexSegmentPayload where
  id : String
  points : ℕ
  files : ℕ
  bytes : ℕ
  manifestCrc : UInt32
  objectKeyPrefix : Option String
  objectFiles : List ColdIndexObjectFilePayload
  deriving DecidableEq

structure ColdIndexPayload where
  segments : List ColdIndexSegmentPayload
  deriving DecidableEq

/-- Ciphers, checksums, JSON and randomness. -/
structure Services where
  aead : Aead
  crc32 : Bytes → UInt32
  base64 : Base64
  /-- The digest in hexadecimal. -/
  sha256 : Bytes → String
  journalBytes : KeyRotationJournal → Bytes
  readJournal : Bytes → Except String KeyRotationJournal
  manifestBytes : WalArchiveManifest → Bytes
  readManifest : Bytes → Except String WalArchiveManifest
  coldIndexBytes : ColdIndexPayload → Bytes
  readColdIndex : Bytes → Except String ColdIndexPayload
  draws : ℕ → Draws
  uuid : ℕ → String

/-! ## One file -/

def maxTreeKeyIds : ℕ := 32 * 1024

def recordTreeKeyId (keys : List String) (id : String) : Result (List String) := do
  ensure (keys.length < maxTreeKeyIds || id ∈ keys)
    (corruption "encrypted tree has too many key IDs")
  pure (keys.insert id)

section File

variable (services : Services) (keyring : Option Keyring)

/-- The envelope of a frame, decrypted when there is a keyring. -/
def inspectEnvelope (envelope : Bytes) : Result EnvelopeInfo :=
  match keyring with
  | some keyring => do
    let found ← decryptBytes services.aead keyring envelope
    pure found.1
  | none => do
    let parsed ← parseHeader envelope
    pure parsed.info

def verifyChunk (layout : EncryptedLayout) (file : Bytes) (index : ℕ) : Result ℕ := do
  let (start, stop) ← layout.encryptedChunkRange index
  ensure (stop ≤ file.length) (corruption "truncated encrypted chunk frame")
  let _ ← layout.decryptChunkFrame services.aead index (field file start (stop - start))
  pure stop

def verifyFile (keyring : Keyring) (file : Bytes) : Result EnvelopeInfo := do
  let header ← readEncryptedHeader file
  let layout ← EncryptedLayout.fromHeader services.aead keyring header
  let stop ← (List.range layout.chunkCount).foldlM
    (fun _ index => verifyChunk services layout file index) layout.bodyOffset
  ensure (stop = file.length) (corruption "encrypted file length mismatch")
  pure layout.info

def inspectWalFile (keys : List String) (bytes : Bytes) : Result (Option (List String)) :=
  if bytes = [] then .ok (some keys)
  else do
    ensure (8 ≤ bytes.length) (corruption "partial WAL frame header")
    let len := ofLeBytes (bytes.take 4)
    ensure (len ≤ maxWalRecord) (corruption "WAL frame exceeds maximum size")
    ensure (8 + len ≤ bytes.length) (corruption "partial WAL frame payload")
    let payload := field bytes 8 len
    ensure ((services.crc32 payload).toNat = ofLeBytes (field bytes 4 4))
      (corruption "WAL frame CRC mismatch")
    if !isEncrypted payload then pure none
    else
      let info ← inspectEnvelope services keyring payload
      let keys ← recordTreeKeyId keys info.keyId
      inspectWalFile keys (bytes.drop (8 + len))
  termination_by bytes.length
  decreasing_by
    have hbytes : bytes ≠ [] := by assumption
    have := List.length_pos_of_ne_nil hbytes
    rw [List.length_drop]
    omega

def maxAuditLine : ℕ := 128 * 1024 * 1024

/-- The lines of a file, each with its line feed. -/
def rawLines (line : Bytes) : Bytes → List Bytes
  | [] => if line = [] then [] else [line.reverse]
  | b :: rest =>
    if b = 10 then (b :: line).reverse :: rawLines [] rest else rawLines (b :: line) rest

/-- A line without a byte at its end. -/
def withoutLast (c : Char) (text : List Char) : List Char :=
  if text.getLast? = some c then text.dropLast else text

def inspectAuditFile (keys : List String) : List Bytes → Result (Option (List String))
  | [] => .ok (some keys)
  | raw :: rest => do
    ensure (raw.length ≤ maxAuditLine) (corruption "audit frame exceeds maximum size")
    let text ← auditText raw
    let line := withoutLast '\r' (withoutLast '\n' text.toList)
    if line = [] then inspectAuditFile keys rest
    else
      match auditEncoded line with
      | none => pure none
      | some encoded =>
        let envelope ← decodeFrame services.base64 encoded
        ensure (isEncrypted envelope) (corruption "audit frame lacks CHIRENC1 envelope")
        let info ← inspectEnvelope services keyring envelope
        ensure (info.fileType = .audit) (corruption "audit frame has the wrong file type")
        let keys ← recordTreeKeyId keys info.keyId
        inspectAuditFile keys rest

def inspectPersistedFile (path : Path) (bytes : Bytes) : Result (Option (List String)) := do
  if isAuditLog path then inspectAuditFile services keyring [] (rawLines [] bytes)
  else if isEncrypted bytes then
    match keyring with
    | some keyring => do
      let info ← verifyFile services keyring bytes
      pure (some [info.keyId])
    | none => do
      let header ← readEncryptedHeader bytes
      let parsed ← parseHeader header
      pure (some [parsed.info.keyId])
  else if isWalSegment path then inspectWalFile services keyring [] bytes
  else pure none

end File

/-! ## The tree -/

section Walk

variable (services : Services) (keyring : Keyring)

structure EncryptionTreeReport where
  keyIds : List String
  plaintextPaths : List Path

/-- One file of `inspect_tree`. -/
def inspectEntry (report : EncryptionTreeReport) (entry : (_ : Path) × Bytes) :
    Result EncryptionTreeReport := do
  match ← inspectPersistedFile services none entry.1 entry.2 with
  | some keys =>
    let keyIds := keys.foldl (fun ids id => ids.insert id) report.keyIds
    ensure (keyIds.length ≤ maxTreeKeyIds) (corruption "encrypted tree has too many key IDs")
    pure { report with keyIds }
  | none =>
    if isBootstrapFile entry.1 then pure report
    else pure { report with plaintextPaths := report.plaintextPaths ++ [entry.1] }

def inspectTree (tree : Tree) : Result EncryptionTreeReport :=
  tree.files.entries.foldlM (inspectEntry services) ⟨[], []⟩

/-- One file of the second walk of `verify_tree`. -/
def verifyEntry (entry : (_ : Path) × Bytes) : Except TreeError Unit := do
  let found ← lift (inspectPersistedFile services (some keyring) entry.1 entry.2)
  ensure (found.isSome || isBootstrapFile entry.1)
    (invalidRequest ("unsupported persisted file " ++ display entry.1))

def verifyTree (tree : Tree) : Except TreeError Unit := do
  let report ← lift (inspectTree services tree)
  ensure (report.plaintextPaths = []) (invalidRequest ("persisted tree contains " ++
    toString report.plaintextPaths.length ++ " plaintext files: " ++
    ", ".intercalate ((report.plaintextPaths.take 16).map display)))
  tree.files.entries.forM (verifyEntry services keyring)

def logicalDigestExcludes (path : Path) : Bool :=
  (fileName path).any (· ∈ ["wal.manifest.json", "cold_index.gdx", ".chirondb.lock",
    ".generation-migration.json", ".key-rotation.json"])

def logicalTreeDigest (tree : Tree) : Except TreeError String := do
  let files ← (tree.files.entries.filter fun entry => !logicalDigestExcludes entry.1).mapM
    fun entry => do
      let plaintext ← lift (canonicalPlaintext services.aead services.crc32 services.base64 keyring
        entry.1 entry.2)
      pure (utf8 (display entry.1.tail), plaintext)
  let sorted := files.insertionSort fun left right => compare left.1 right.1 ≠ .gt
  pure (services.sha256 (utf8 "CHIRON-LOGICAL-TREE-V1" ++ [0] ++ (sorted.map fun file =>
    leBytes 8 file.1.length ++ file.1 ++ leBytes 8 file.2.length ++ file.2).flatten))

/-- The key ids that the envelopes of a file name. -/
def fileKeyIds (entry : (_ : Path) × Bytes) : Except TreeError (List String) := do
  match ← lift (classifyPersistedFile services.crc32 services.base64 entry.1 entry.2) with
  | .encrypted infos => pure (infos.map EnvelopeInfo.keyId)
  | _ => pure []

def referencedKeyIds (tree : Tree) : Except TreeError (List String) := do
  let ids ← tree.files.entries.mapM (fileKeyIds services)
  pure ids.flatten

end Walk

end ChironDB.Encryption
