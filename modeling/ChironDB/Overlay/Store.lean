/-
# The store of visibility overlays

`overlay.rs`: the versions of a collection's visibility stand in directories of their own, and
`CURRENT` names the one that is in force.  A version is staged under another name, synced and
renamed; then `CURRENT` is replaced.  In memory the store holds one version, which is pending until
it is published; changes to a pending version keep its number.

A directory that is staged, like a file that is replaced, is there as a whole or not at all, and may
be there although the call failed (`Replacing`).  What a failed attempt leaves under the temporary
name is removed before it is used again and read by nobody.  `CURRENT` and the names of the
directories are numbers in decimal, kept here as numbers.
-/

import ChironDB.Fault.Slot
import ChironDB.Overlay.Format

namespace ChironDB.Overlay

open Codec Fault

inductive OverlayOpenMode
  | recover
  | resetToSegmentBase
  deriving DecidableEq, Repr

/-- The directory `overlays`. -/
structure Disk where
  versions : List (ℕ × VersionDir)
  current : Option ℕ

namespace Disk

def dir (disk : Disk) (version : ℕ) : Option VersionDir := disk.versions.lookup version

/-- A staged directory gets its name. -/
def add (disk : Disk) (version : ℕ) (dir : VersionDir) : Disk :=
  { disk with versions := (version, dir) :: disk.versions }

/-- The greatest version that has a directory. -/
def maximum (disk : Disk) : ℕ := (disk.versions.map Prod.fst).foldr max 0

end Disk

/-- What goes wrong in the file system during a call. -/
structure Faults where
  /-- Nothing that is read fails. -/
  read : Bool
  staging : Replacing
  /-- The staged version is read back. -/
  verify : Bool
  current : Replacing
  deriving DecidableEq

/-- A working disk. -/
def Faults.none : Faults := ⟨true, .done, true, .done⟩

def ioError : GaussError := .io "input/output error"

def nextOverlayVersion (disk : Disk) : Result ℕ := do
  ensure (disk.maximum + 1 < 2 ^ 64) (.invalidRequest "overlay version overflow")
  pure (disk.maximum + 1)

structure OverlayStore where
  current : OverlaySet
  dirty : Bool
  nextVersion : ℕ
  deriving DecidableEq

section Store

variable (crc : Bytes → UInt32) (roaring : Roaring)

def loadVersion (disk : Disk) (version : ℕ) : Result OverlaySet := do
  let dir ← (disk.dir version).elim (.error (.io "No such file or directory")) .ok
  decodeVersion crc roaring version dir

def loadCurrent (disk : Disk) : Result (Option OverlaySet) :=
  match disk.current with
  | none => .ok none
  | some version => (loadVersion crc roaring disk version).map some

/-- `stage_version`. -/
def stageVersion (faults : Faults) (disk : Disk) (overlay : OverlaySet) : Result Unit × Disk :=
  if (disk.dir overlay.version).isSome then
    (do
      ensure faults.read ioError
      let found ← loadVersion crc roaring disk overlay.version
      ensure (found = overlay)
        (.segmentCorruption "refusing to overwrite a different overlay version")
      ensure (faults.staging = .done) ioError, disk)
  else
    match encodeVersion crc roaring overlay with
    | .error e => (.error e, disk)
    | .ok dir =>
      match faults.staging with
      | .done => (.ok (), disk.add overlay.version dir)
      | .refused => (.error ioError, disk)
      | .unsynced => (.error ioError, disk.add overlay.version dir)

def publish (faults : Faults) (disk : Disk) (overlay : OverlaySet) : Result Unit × Disk :=
  match stageVersion crc roaring faults disk overlay with
  | (.error e, disk) => (.error e, disk)
  | (.ok (), disk) =>
    match faults.current with
    | .done => (.ok (), { disk with current := some overlay.version })
    | .refused => (.error ioError, disk)
    | .unsynced => (.error ioError, { disk with current := some overlay.version })

/-- The staged version is read again. -/
def verifyStaged (faults : Faults) (disk : Disk) (overlay : OverlaySet) (message : String) :
    Result Unit := do
  ensure faults.verify ioError
  let found ← loadVersion crc roaring disk overlay.version
  ensure (found = overlay) (.segmentCorruption message)

namespace OverlayStore

variable (store : OverlayStore)

def installPending (generation : ℕ) (points : SegmentOrdinalSet) (edges : Finset UInt64) :
    Result OverlayStore :=
  if store.dirty then
    .ok { store with current := ⟨store.current.version, generation, points, edges⟩, dirty := true }
  else do
    ensure (store.nextVersion + 1 < 2 ^ 64) (.invalidRequest "overlay version overflow")
    pure ⟨⟨store.nextVersion, generation, points, edges⟩, true, store.nextVersion + 1⟩

def tombstonePoint (segment : String) (ordinal : UInt32) : Result (Bool × OverlayStore) := do
  validateSegmentId segment
  if store.current.pointTombstones.contains segment ordinal then pure (false, store)
  else do
    let store ← store.installPending store.current.generation
      (insert (segment, ordinal) store.current.pointTombstones) store.current.edgeTombstones
    pure (true, store)

def reconcilePoints (points : SegmentOrdinalSet) : Result (Bool × OverlayStore) :=
  let reconciled := store.current.pointTombstones.unionWith points
  if reconciled = store.current.pointTombstones then pure (false, store)
  else do
    let store ← store.installPending store.current.generation reconciled
      store.current.edgeTombstones
    pure (true, store)

def replaceEdges (edges : Finset UInt64) : Result (Bool × OverlayStore) := do
  validateEdgeTombstones edges
  if edges = store.current.edgeTombstones then pure (false, store)
  else do
    let store ← store.installPending store.current.generation store.current.pointTombstones edges
    pure (true, store)

def publishPending (faults : Faults) (disk : Disk) : Result Unit × Disk × OverlayStore :=
  if !store.dirty then (.ok (), disk, store)
  else
    match publish crc roaring faults disk store.current with
    | (.error e, disk) => (.error e, disk, store)
    | (.ok (), disk) => (.ok (), disk, { store with dirty := false })

/-- `prepare_replacement_generation`. -/
def prepareReplacementGeneration (generation : ℕ) (points : SegmentOrdinalSet)
    (edges : Finset UInt64) : Result (OverlaySet × OverlayStore) := do
  validateEdgeTombstones edges
  ensure (store.nextVersion + 1 < 2 ^ 64) (.invalidRequest "overlay version overflow")
  pure (⟨store.nextVersion, generation, points, edges⟩,
    { store with nextVersion := store.nextVersion + 1 })

def prepareGeneration (generation : ℕ) (points : SegmentOrdinalSet) :
    Result (OverlaySet × OverlayStore) :=
  store.prepareReplacementGeneration generation points store.current.edgeTombstones

def stageCut (faults : Faults) (disk : Disk) (generation : ℕ) (points : SegmentOrdinalSet) :
    Result OverlaySet × Disk × OverlayStore :=
  match store.prepareGeneration generation points with
  | .error e => (.error e, disk, store)
  | .ok (cut, store) =>
    match stageVersion crc roaring faults disk cut with
    | (.error e, disk) => (.error e, disk, store)
    | (.ok (), disk) =>
      ((verifyStaged crc roaring faults disk cut
        "staged cut differs from frozen visibility").map fun _ => cut, disk, store)

def stagePending (faults : Faults) (disk : Disk) : Result OverlaySet × Disk × OverlayStore :=
  match stageVersion crc roaring faults disk store.current with
  | (.error e, disk) => (.error e, disk, store)
  | (.ok (), disk) =>
    match verifyStaged crc roaring faults disk store.current
        "staged overlay differs from candidate visibility" with
    | .error e => (.error e, disk, store)
    | .ok () => (.ok store.current, disk, { store with dirty := false })

/-- The store that `open` makes of what it finds. -/
def found (generation : ℕ) (installed : List String) (segmentBase : SegmentOrdinalSet)
    (nextVersion : ℕ) (loaded : Option OverlaySet) : Result OverlayStore :=
  let keep := fun segment => decide (segment ∈ installed)
  match loaded with
  | some loaded =>
    if loaded.generation = generation then
      let before := loaded.pointTombstones.retainSegments keep
      let points := before.unionWith segmentBase
      if before = points then
        .ok ⟨⟨loaded.version, generation, points.retainSegments keep, loaded.edgeTombstones⟩,
          false, nextVersion⟩
      else fresh (points.retainSegments keep) loaded.edgeTombstones
    else fresh (segmentBase.retainSegments keep) ∅
  | none => fresh (segmentBase.retainSegments keep) ∅
where
  /-- A version that is to be published. -/
  fresh (points : SegmentOrdinalSet) (edges : Finset UInt64) : Result OverlayStore := do
    ensure (nextVersion + 1 < 2 ^ 64) (.invalidRequest "overlay version overflow")
    pure ⟨⟨nextVersion, generation, points, edges⟩, true, nextVersion + 1⟩

/-- `open`, up to its publication. -/
def recovered (faults : Faults) (disk : Disk) (generation : ℕ) (installed : List String)
    (segmentBase : SegmentOrdinalSet) (mode : OverlayOpenMode) : Result OverlayStore := do
  ensure faults.read ioError
  let nextVersion ← nextOverlayVersion disk
  let loaded ← match mode with
    | .recover => loadCurrent crc roaring disk
    | .resetToSegmentBase => .ok none
  found generation installed segmentBase nextVersion loaded

/-- `open`. -/
def openStore (faults : Faults) (disk : Disk) (generation : ℕ) (installed : List String)
    (segmentBase : SegmentOrdinalSet) (mode : OverlayOpenMode) : Result OverlayStore × Disk :=
  match recovered crc roaring faults disk generation installed segmentBase mode with
  | .error e => (.error e, disk)
  | .ok store =>
    match store.publishPending crc roaring faults disk with
    | (.error e, disk, _) => (.error e, disk)
    | (.ok (), disk, store) => (.ok store, disk)

end OverlayStore

end Store

end ChironDB.Overlay
