/-
# Key rotation of a whole tree

`chirondb-core/src/encryption.rs`: `rewrap_tree`, `rewrap_tree_resumable`; `wal.rs`:
`refresh_archive_manifests_for_encryption`; `segment.rs`: `refresh_cold_indexes_for_encryption`;
`fs_util.rs`: `atomic_write_with`.

Rotation walks over all files and replaces those with an envelope of another key, one atomic write
per file.  Archive manifests and cold indexes list the raw bytes of other files, so they are built
anew afterwards.  A journal in the root is there while a rotation is unfinished, and the last step
removes it.  A run may stop at any write with an error or a crash, before or behind the rename, and
may leave a temporary sibling; the next run starts over on what it finds.
-/

import ChironDB.Encryption.Inspection
import Mathlib

namespace ChironDB.Encryption

open Codec Crypto Fault Fault.Program Tables

abbrev Rotation := Program Tree TreeError

/-! ## Files -/

section Files

variable (services : Services) (keyring : Keyring)

def readFile (path : Path) : Rotation Bytes := do
  let tree ← get
  match tree.files.lookup path with
  | some bytes => pure bytes
  | none => throw (.io ("no such file " ++ display path))

/-- `temporary_sibling`. -/
def temporarySibling (tree : Tree) (path : Path) : Path :=
  path.dropLast ++ ["." ++ (fileName path).getD "data" ++ "." ++ services.uuid tree.drawn ++ ".tmp"]

def Tree.put (tree : Tree) (path : Path) (bytes : Bytes) : Tree :=
  { tree with files := tree.files.insert path bytes, drawn := tree.drawn + 1 }

/-- What an atomic write leaves that did not pass: nothing, the new file, or a temporary sibling
with the first bytes. -/
def writePart (path : Path) (bytes : Bytes) (part : ℕ) (tree : Tree) : Tree :=
  match part with
  | 0 => { tree with drawn := tree.drawn + 1 }
  | 1 => tree.put path bytes
  | n + 2 =>
    let temporary := temporarySibling services tree path
    if temporary ∈ tree.files then tree else tree.put temporary (bytes.take n)

def atomicWrite (path : Path) (bytes : Bytes) : Rotation Unit :=
  effect (.io ("cannot replace " ++ display path)) (writePart services path bytes)
    (fun tree => tree.put path bytes)

/-- `durable_remove_file`: the name may be gone when the sync fails. -/
def durableRemoveFile (path : Path) : Rotation Unit :=
  effect (.io ("cannot remove " ++ display path))
    (fun part tree => if part = 0 then tree else { tree with files := tree.files.erase path })
    (fun tree => { tree with files := tree.files.erase path })

/-- A file that is encrypted as a whole with fresh draws. -/
def writeEncrypted (path : Path) (fileType : FileType) (plaintext : Bytes) : Rotation Unit := do
  let tree ← get
  let envelope ← Program.ofExcept (lift (encryptBytesWithChunkSize services.aead keyring
    (services.draws tree.drawn) fileType plaintext defaultChunkSize))
  atomicWrite services path envelope

end Files

/-! ## Archive manifests -/

section Archives

variable (services : Services) (keyring : Keyring)

/-- `str::parse::<u64>`. -/
def parseU64 (text : List Char) : Option ℕ :=
  let digits := if text.head? = some '+' then text.tail else text
  if digits = [] || !digits.all Char.isDigit then none
  else
    let value := digits.foldl (fun n c => 10 * n + (c.toNat - '0'.toNat)) 0
    if value < 2 ^ 64 then some value else none

/-- `segment_name`: at least six digits. -/
def segmentName (index : ℕ) : String :=
  let digits := toString index
  String.ofList (List.replicate (6 - digits.length) '0') ++ digits ++ ".gdwal"

def segmentIndex (path : Path) : Except TreeError ℕ :=
  let name := ((fileName path).getD "").toList
  match parseU64 (name.take (name.length - ".gdwal".length)) with
  | some index => .ok index
  | none => .error (.walCorruption path "invalid WAL segment index")

/-- `all_wal_segments`: the indexes of the segments in a directory. -/
def allWalSegments (tree : Tree) (dir : Path) : Except TreeError (List ℕ) := do
  let paths := tree.files.keys.filter fun path => path.dropLast = dir && isWalSegment path
  let indexes ← paths.mapM segmentIndex
  pure (indexes.insertionSort (· ≤ ·))

def archiveFileEncoding (path : Path) (bytes : Bytes) : String :=
  if isEncrypted bytes then "chirenc1"
  else if isWalSegment path then
    if bytes = [] then "wal-framed-empty"
    else if field bytes 8 8 = magic then "wal-framed-chirenc1"
    else "wal-framed-json"
  else "plaintext"

def archiveManifestFile (tree : Tree) (dir : Path) (name : String) :
    Except TreeError WalArchiveManifestFile :=
  match tree.files.lookup (dir ++ [name]) with
  | none => .error (.io ("no such file " ++ display (dir ++ [name])))
  | some bytes =>
    .ok ⟨name, bytes.length, services.sha256 bytes, archiveFileEncoding (dir ++ [name]) bytes⟩

def archiveManifestForEncryptedDir (tree : Tree) (dir : Path) :
    Except TreeError WalArchiveManifest := do
  let segments ← allWalSegments tree dir
  let base := if dir ++ ["wal.base"] ∈ tree.files then ["wal.base"] else []
  let names := (segments.map segmentName ++ base).insertionSort (· ≤ ·)
  let files ← names.mapM (archiveManifestFile services tree dir)
  pure ⟨2, files⟩

def refreshArchiveManifest (dir : Path) : Rotation Unit := do
  let tree ← get
  let expected ← Program.ofExcept (archiveManifestForEncryptedDir services tree dir)
  let path := dir ++ ["wal.manifest.json"]
  writeEncrypted services keyring path .metadata (services.manifestBytes expected ++ [10])
  let envelope ← readFile path
  let decoded ← Program.ofExcept (lift (decryptBytes services.aead keyring envelope))
  match services.readManifest decoded.2 with
  | .error e => throw (.walCorruption path ("invalid rebuilt manifest: " ++ e))
  | .ok actual =>
    require (actual = expected) (.walCorruption path
      "rebuilt archive manifest does not match rewritten WAL files")

/-- The paths of the files with a name, in order. -/
def filesNamed (tree : Tree) (name : String) : List Path :=
  (tree.files.keys.filter fun path => fileName path = some name).insertionSort (· ≤ ·)

def refreshArchiveManifests : Rotation Unit := do
  let tree ← get
  ((filesNamed tree "wal.manifest.json").map List.dropLast).forM
    (refreshArchiveManifest services keyring)

end Archives

/-! ## Cold indexes -/

section ColdIndexes

variable (services : Services) (keyring : Keyring)

/-- `COLD_INDEX_MAGIC`. -/
def coldIndexMagic : Bytes := utf8 "GAUSSCL1"

def decryptPersistedFile (tree : Tree) (path : Path) : Except TreeError Bytes :=
  match tree.files.lookup path with
  | none => .error (.io ("no such file " ++ display path))
  | some bytes => do
    ensure (isEncrypted bytes)
      (invalidRequest ("expected encrypted persisted file " ++ display path))
    let found ← lift (decryptBytes services.aead keyring bytes)
    pure found.2

def readEncryptedFramed (tree : Tree) (path : Path) (mark : Bytes) (label : String) :
    Except TreeError Bytes := do
  let bytes ← decryptPersistedFile services keyring tree path
  ensure (20 ≤ bytes.length && bytes.take 8 = mark)
    (.segmentCorruption path ("invalid " ++ label ++ " header"))
  ensure (ofLeBytes (field bytes 8 8) = bytes.length - 20 &&
      (services.crc32 (bytes.drop 20)).toNat = ofLeBytes (field bytes 16 4))
    (.segmentCorruption path (label ++ " length or crc mismatch"))
  pure (bytes.drop 20)

def readColdIndex (tree : Tree) (path : Path) : Except TreeError ColdIndexPayload := do
  let payload ← readEncryptedFramed services keyring tree path coldIndexMagic "cold index"
  match services.readColdIndex payload with
  | .ok index => pure index
  | .error e => .error (.json e)

/-- `directory_stats`: the number of the files below a directory, and their bytes. -/
def directoryStats (tree : Tree) (dir : Path) : ℕ × ℕ :=
  let files := tree.files.entries.filter fun entry => dir.isPrefixOf entry.1
  (files.length, (files.map fun entry => entry.2.length).sum)

def isDir (tree : Tree) (path : Path) : Bool :=
  path ∈ tree.directories || tree.files.keys.any fun file => path.isPrefixOf file && path ≠ file

/-- The marker of a segment: its seal, or its manifest. -/
def segmentMarker (tree : Tree) (dir : Path) : Option Path :=
  if dir ++ ["seal.gdx"] ∈ tree.files then some (dir ++ ["seal.gdx"])
  else if dir ++ ["manifest.gdx"] ∈ tree.files then some (dir ++ ["manifest.gdx"])
  else none

/-- One segment of an index, with the accounting of the files that are there. -/
def refreshColdSegment (tree : Tree) (path : Path) (segment : ColdIndexSegmentPayload) :
    Except TreeError ColdIndexSegmentPayload := do
  let dir := path.dropLast ++ [segment.id]
  if !isDir tree dir then
    ensure (segment.objectFiles ≠ [])
      (.segmentCorruption path ("cold segment '" ++ segment.id ++ "' is missing locally"))
    pure segment
  else
    match segmentMarker tree dir with
    | none => .error (.segmentCorruption dir "cold segment has no checked marker")
    | some markerPath => do
      let (files, bytes) := directoryStats tree dir
      let remote := segment.objectFiles.find? fun file =>
        file.name = "diskann.gdx" && dir ++ [file.name] ∉ tree.files
      let files := if remote.isSome then files + 1 else files
      let bytes := bytes + (remote.elim 0 ColdIndexObjectFilePayload.bytes)
      let marker ← decryptPersistedFile services keyring tree markerPath
      ensure (segment.objectFiles = [] || segment.objectFiles.length = files)
        (.segmentCorruption path ("cold object file count disagrees with local segment '" ++
          segment.id ++ "' after rewrite"))
      pure { segment with files, bytes, manifestCrc := services.crc32 marker }

/-- The loop over the segments, which refuses a second segment of one id. -/
def refreshColdSegments (tree : Tree) (path : Path) :
    List String → List ColdIndexSegmentPayload → Except TreeError (List ColdIndexSegmentPayload)
  | _, [] => .ok []
  | indexed, segment :: rest => do
    ensure (segment.id ∉ indexed)
      (.segmentCorruption path ("duplicate cold index segment '" ++ segment.id ++ "'"))
    let refreshed ← refreshColdSegment services keyring tree path segment
    let others ← refreshColdSegments tree path (segment.id :: indexed) rest
    pure (refreshed :: others)

/-- The directories beside an index that hold a segment. -/
def localSegments (tree : Tree) (dir : Path) : List String :=
  (tree.files.keys.filter fun path => path.dropLast.dropLast = dir && path.dropLast ≠ dir &&
    (fileName path = some "seal.gdx" || fileName path = some "manifest.gdx")).filterMap parentName

def coldIndexFor (tree : Tree) (path : Path) : Except TreeError ColdIndexPayload := do
  let index ← readColdIndex services keyring tree path
  let segments ← refreshColdSegments services keyring tree path [] index.segments
  (localSegments tree path.dropLast).forM fun id =>
    ensure (id ∈ index.segments.map ColdIndexSegmentPayload.id)
      (.segmentCorruption path ("cold index missing local segment '" ++ id ++ "'"))
  pure ⟨segments⟩

def refreshColdIndex (path : Path) : Rotation Unit := do
  let tree ← get
  let index ← Program.ofExcept (coldIndexFor services keyring tree path)
  let payload := services.coldIndexBytes index
  writeEncrypted services keyring path .segment (coldIndexMagic ++ leBytes 8 payload.length ++
    leBytes 4 (services.crc32 payload).toNat ++ payload)
  let tree ← get
  let checked ← Program.ofExcept (readColdIndex services keyring tree path)
  require (checked = index)
    (.segmentCorruption path "rebuilt cold index changed during authenticated write")

def refreshColdIndexes : Rotation Unit := do
  let tree ← get
  (filesNamed tree "cold_index.gdx").forM (refreshColdIndex services keyring)

end ColdIndexes

/-! ## The rotation -/

section Resumable

variable (services : Services) (keyring : Keyring) (root : String)

def journalPath : Path := [root, ".key-rotation.json"]

def validateRotationFrontier (tree : Tree) : Except TreeError Unit :=
  match tree.files.lookup [root, ".protected-installation"] with
  | some bytes => ensure (!(utf8 "CHRNINSTALL7\n").isPrefixOf bytes) (invalidRequest
      "key rewrapping is not qualified for common-frontier format 1; retain the existing keyring")
  | none => .ok ()

/-- The visit of one file. -/
def rewrapPath (count : ℕ) (path : Path) : Rotation ℕ := do
  let bytes ← readFile path
  let tree ← get
  match ← Program.ofExcept (lift
      (classifyPersistedFile services.crc32 services.base64 path bytes)) with
  | .encrypted infos =>
    if infos.any fun info => info.keyId ≠ keyring.activeKeyId then
      let rotated ← Program.ofExcept (lift (rotateFile services.aead services.crc32
        services.base64 keyring (fun i => (services.draws (tree.drawn + i)).wrapNonce) path bytes))
      modify fun tree => { tree with drawn := tree.drawn + (bytes.length + 1) }
      match rotated with
      | some rotated => atomicWrite services path rotated
      | none => pure ()
      pure (min (count + 1) (2 ^ 64 - 1))
    else pure count
  | .bootstrap => pure count
  | .plaintext =>
    throw (invalidRequest ("cannot rotate mixed plaintext/encrypted tree: " ++ display path))

def rewrapTree : Rotation ℕ := do
  let tree ← get
  Program.ofExcept (validateRotationFrontier root tree)
  tree.files.keys.foldlM (rewrapPath services keyring) 0

/-- The journal of this rotation: found, or written. -/
def openJournal (logicalDigest : String) : Rotation Unit := do
  let tree ← get
  match tree.files.lookup (journalPath root) with
  | some bytes =>
    match services.readJournal bytes with
    | .error e => throw (invalidRequest ("invalid key rotation journal: " ++ e))
    | .ok existing =>
      require (existing = ⟨2, "key_rotation", keyring.activeKeyId, logicalDigest, "rewrapping"⟩)
        (invalidRequest "key rotation journal does not match the requested key or logical tree")
  | none => atomicWrite services (journalPath root) (services.journalBytes
      ⟨2, "key_rotation", keyring.activeKeyId, logicalDigest, "rewrapping"⟩)

/-- The checks behind the rewriting. -/
def checkRotated (logicalDigest : String) : Rotation Unit := do
  let tree ← get
  Program.ofExcept (verifyTree services keyring tree)
  let verified ← Program.ofExcept (logicalTreeDigest services keyring tree)
  require (verified = logicalDigest) (invalidRequest
    ("key rotation changed logical tree identity: expected " ++ logicalDigest ++ ", found " ++
      verified))
  let referenced ← Program.ofExcept (referencedKeyIds services tree)
  require (referenced ≠ [] ∧ ∀ id ∈ referenced, id = keyring.activeKeyId) (invalidRequest
    ("key rotation retained non-active local key references: " ++ toString referenced))

def rewrapTreeResumable : Rotation ℕ := do
  let tree ← get
  Program.ofExcept (validateRotationFrontier root tree)
  let logicalDigest ← Program.ofExcept (logicalTreeDigest services keyring tree)
  openJournal services keyring root logicalDigest
  let rotated ← rewrapTree services keyring root
  refreshArchiveManifests services keyring
  refreshColdIndexes services keyring
  checkRotated services keyring logicalDigest
  durableRemoveFile (journalPath root)
  pure rotated

/-- The runs of a rotation, each on what the one before has left. -/
def attempts (tree : Tree) (scripts : List (List Event)) : Tree :=
  scripts.foldl
    (fun tree script => (rewrapTreeResumable services keyring root tree script).final) tree

end Resumable

end ChironDB.Encryption
