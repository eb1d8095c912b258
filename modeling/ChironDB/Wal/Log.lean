/-
# The write-ahead log

`chirondb-core/src/wal.rs`: the handle `Wal` (`WalHandle` here) and what it does to its directory.
Every method is a `Fault.Program` over the directory and the handle, so each of its
file-system steps can fail or be the last before a crash, and the handle keeps the
fields a method had assigned before its error.  The functions without a handle
(`open`, `recover_from`, `truncate_to_lsn`) run on the directory alone.

LSNs and segment indices are natural numbers: the overflow checks of the code are
out of reach of a log that can be written.  Security checkpoints of protected
collections, fault-injection hooks, metrics and memory admission are left out.
-/

import ChironDB.Wal.Disk

namespace ChironDB.Wal

open Codec Fault

variable {Entry : Type} (codec : RecordCodec Entry)

/-- `TailPolicy`. -/
inductive TailPolicy
  | strict
  | inspectFinalActive
  | repairFinalActive
  deriving DecidableEq, Repr

/-- `WalScanStats`. -/
structure WalScanStats where
  records : ℕ
  bytes : ℕ
  endLsn : ℕ
  repairedTailBytes : ℕ := 0
  deriving DecidableEq, Repr

/-- `repair_or_reject_torn_tail`. -/
def repairOrRejectTornTail (policy : TailPolicy) (watermark index : ℕ) (finalActive : Bool)
    (lastGoodSegmentOffset tornBytes : ℕ) (message : String) (stats : WalScanStats) :
    Io WalScanStats :=
  if finalActive = false ∨ policy = .strict then throw (.walCorruption (.segment index) message)
  else if stats.endLsn < watermark then
    throw (.invalidRequest ("WAL watermark " ++ toString watermark ++
      " exceeds repaired WAL length " ++ toString stats.endLsn))
  else if policy = .inspectFinalActive then pure stats
  else do
    probe
    setFileLen index lastGoodSegmentOffset
    syncFile index
    probe
    pure { stats with repairedTailBytes := tornBytes }

/-- `scan_records`, with a visitor that collects the frames. -/
def scanRecords (watermark : ℕ) (policy : TailPolicy) :
    Io (List (Frame Entry) × WalScanStats) := do
  let base ← readBase
  let segments ← listSegments
  let (scan, stop) := scanFrames codec watermark base.lsn
    (segments.map fun segment => (segment.1, segment.2.bytes))
  let stats : WalScanStats :=
    { records := scan.visited.length, bytes := scan.offset - base.lsn, endLsn := scan.offset }
  match stop with
  | none => pure (scan.visited, stats)
  | some (.failed e) => throw e
  | some (.torn index finalActive segmentOffset tornBytes message) => do
    let stats ← repairOrRejectTornTail policy watermark index finalActive segmentOffset
      tornBytes message stats
    pure (scan.visited, stats)

/-- `Wal::recover_from`. -/
def recoverFrom (watermark : ℕ) : Io (List (Frame Entry) × WalScanStats) :=
  scanRecords codec watermark .repairFinalActive

/-- `Wal::scan_from`. -/
def scanFrom (watermark : ℕ) : Io (List (Frame Entry) × WalScanStats) :=
  scanRecords codec watermark .strict

/-- `validate_record_boundary`. -/
def validateRecordBoundary (targetLsn : ℕ) : Io Unit := do
  let base ← readBase
  if targetLsn = base.lsn then pure ()
  else if targetLsn < base.lsn then
    throw (.invalidRequest ("WAL target LSN " ++ toString targetLsn ++
      " precedes retained WAL base " ++ toString base.lsn))
  else do
    let _ ← scanRecords codec targetLsn .strict
    pure ()

/-- The handle `Wal`: `path` is the segment `activeIndex`, `file` is open on
`fileIndex`. -/
structure WalHandle where
  activeIndex : ℕ
  fileIndex : ℕ
  baseLsn : ℕ
  segmentBytes : ℕ
  poisoned : Bool := false
  unsyncedBytes : ℕ := 0
  deriving DecidableEq, Repr

/-- `open_with_segment_bytes`: segments below the retained prefix are removed, the
active segment is created when there is none, and the frontier is published. -/
def openWithSegmentBytes (segmentBytes : ℕ) : Io WalHandle := do
  probe
  let base ← readBase
  probe
  let disk ← get
  (disk.allWalSegments.filter fun segment => segment.1 < base.firstSegment).forM
    fun segment => removeFile segment.1
  let segments ← listSegments
  probe
  let baseLsn := base.lsn + (segments.dropLast.map fun segment => segment.2.bytes.length).sum
  let activeIndex := segments.getLast?.elim base.firstSegment Prod.fst
  let disk ← get
  probe
  Program.when (disk.segments[activeIndex]? = none) do
    createNew activeIndex
    syncFile activeIndex
    probe
  Program.when (base.lastSegment ≠ some activeIndex)
    (writeWalBase { base with lastSegment := some activeIndex })
  pure { activeIndex, fileIndex := activeIndex, baseLsn,
         segmentBytes := max segmentBytes (headerLen + 1) }

/-- The cut that `truncate_to_lsn` makes: one segment is shortened, those behind it are
removed and the frontier is published if there was one. -/
def cutSegment (base : WalBase) (index remaining : ℕ) (later : List (ℕ × File)) : Io Unit := do
  probe
  setFileLen index remaining
  syncFile index
  later.forM fun segment => removeFile segment.1
  probe
  Program.when (base.lastSegment.isSome = true)
    (writeWalBase { base with lastSegment := some index })

/-- The loop of `truncate_to_lsn` over the retained segments. -/
def truncateSegments (base : WalBase) (targetLsn : ℕ) : List (ℕ × File) → ℕ → Io Unit
  | [], remaining =>
    if remaining = 0 then pure ()
    else throw (.invalidRequest ("WAL target LSN " ++ toString targetLsn ++ " exceeds WAL length"))
  | (index, _) :: later, remaining => do
    let len ← fileLen index
    if len ≤ remaining then truncateSegments base targetLsn later (remaining - len)
    else cutSegment base index remaining later

/-- The segments behind the one that `truncate_to_lsn` cuts: these it removes. -/
def laterSegments : List (ℕ × File) → ℕ → List (ℕ × File)
  | [], _ => []
  | (_, file) :: later, remaining =>
    if file.bytes.length ≤ remaining then laterSegments later (remaining - file.bytes.length)
    else later

/-- `Wal::truncate_to_lsn`. -/
def truncateToLsn (targetLsn : ℕ) : Io Unit := do
  let base ← readBase
  let segments ← listSegments
  if segments = [] then
    if targetLsn = base.lsn then pure ()
    else throw (.invalidRequest ("WAL target LSN " ++ toString targetLsn ++ " exceeds empty WAL"))
  else do
    validateRecordBoundary codec targetLsn
    truncateSegments base targetLsn segments (targetLsn - base.lsn)

/-- The directory and the handle open on it. -/
structure World where
  disk : Disk
  wal : WalHandle

/-- A method of the handle. -/
abbrev Op := Program World GaussError

/-- A computation on the directory, as a part of a method. -/
def onDisk {α : Type} (c : Io α) : Op α :=
  Program.zoom World.disk (fun disk world => { world with disk }) c

/-- Assign fields of the handle. -/
def assign (f : WalHandle → WalHandle) : Op Unit :=
  modify fun world => { world with wal := f world.wal }

/-- `ensure_available`. -/
def ensureAvailable : Op Unit := do
  let world ← get
  Program.require (world.wal.poisoned = false)
    (.walUnavailable "previous WAL write or sync failure poisoned this handle")

/-- The world with its handle poisoned. -/
def World.poisoned (world : World) : World :=
  { world with wal := { world.wal with poisoned := true } }

/-- Poison the handle and return an error with this text before the cause. -/
def poison {α : Type} (context : String) (e : GaussError) : Op α := do
  modify World.poisoned
  throw (.walUnavailable (context ++ e.text))

/-- A part of a method whose errors poison the handle. -/
def poisoning {α : Type} (context : String) (c : Op α) : Op α := tryCatch c (poison context)

/-- `Wal::len`: the LSN of the end of the log. -/
def len : Op ℕ := do
  let world ← get
  let fileBytes ← onDisk (fileLen world.wal.fileIndex)
  pure (world.wal.baseLsn + fileBytes)

/-- `Wal::sync`. -/
def sync : Op Unit := do
  ensureAvailable
  let world ← get
  poisoning "WAL sync failed: " (onDisk (syncFile world.wal.fileIndex))
  assign fun wal => { wal with unsyncedBytes := 0 }

/-- `Wal::rotate`: the handle points behind the old segment before the new one is
created. -/
def rotate (currentLen : ℕ) : Op Unit := do
  let world ← get
  onDisk (syncFile world.wal.fileIndex)
  assign fun wal => { wal with
    unsyncedBytes := 0, baseLsn := wal.baseLsn + currentLen, activeIndex := wal.activeIndex + 1 }
  onDisk (createNew (world.wal.activeIndex + 1))
  assign fun wal => { wal with fileIndex := world.wal.activeIndex + 1 }
  onDisk (syncFile (world.wal.activeIndex + 1))
  onDisk probe
  let base ← onDisk readBase
  onDisk (writeWalBase { base with lastSegment := some (world.wal.activeIndex + 1) })

/-- The writes of `append_payload`. -/
def writeFrame (payload : Bytes) : Op Unit := do
  let world ← get
  poisoning "WAL write failed: " do
    onDisk (writeFile world.wal.fileIndex (leBytes 4 payload.length))
    onDisk (writeFile world.wal.fileIndex (leBytes 4 (codec.checksum payload).toNat))
    onDisk (writeFile world.wal.fileIndex payload)
  assign fun wal => { wal with unsyncedBytes := wal.unsyncedBytes + headerLen + payload.length }

/-- `append_payload`. -/
def appendPayload (lsn : ℕ) (payload : Bytes) (andSync : Bool) : Op ℕ := do
  ensureAvailable
  let world ← get
  let currentLen ← poisoning "WAL write failed: " (onDisk (fileLen world.wal.fileIndex))
  Program.require (world.wal.baseLsn + currentLen = lsn)
    (.walCorruption (.segment world.wal.activeIndex) "archive replay is not contiguous with WAL")
  Program.require (payload.length ≤ maxWalRecordBytes)
    (.invalidRequest ("WAL record is " ++ toString payload.length ++ " bytes; maximum is " ++
      toString maxWalRecordBytes ++ " bytes"))
  Program.when (0 < currentLen ∧ world.wal.segmentBytes < currentLen + headerLen + payload.length)
    (poisoning "WAL rotation failed: " (rotate currentLen))
  writeFrame codec payload
  Program.when (andSync = true) sync
  pure (lsn + headerLen + payload.length)

/-- `append_inner`, at the time `unixMs`. -/
def appendInner (entry : Entry) (unixMs nonce : ℕ) (andSync : Bool) : Op ℕ := do
  ensureAvailable
  Program.ofExcept (codec.admission entry)
  let world ← get
  let currentLen ← poisoning "WAL write failed: " (onDisk (fileLen world.wal.fileIndex))
  let payload ← Program.ofExcept
    (encodeRecord codec (world.wal.baseLsn + currentLen) unixMs nonce entry)
  appendPayload codec (world.wal.baseLsn + currentLen) payload andSync

/-- `reset_inner`: an empty successor is created, then `wal.base` moves to it. -/
def resetInner (oldSegments : List (ℕ × File)) : Op Unit := do
  let world ← get
  onDisk (syncFile world.wal.fileIndex)
  let resetLsn ← len
  let successorIndex := oldSegments.getLast?.elim 0 fun segment => segment.1 + 1
  poisoning "WAL write failed: " (onDisk (createNew successorIndex))
  poisoning "WAL write failed: " (onDisk (syncFile successorIndex))
  onDisk probe
  onDisk (writeWalBase
    { lsn := resetLsn, firstSegment := successorIndex, lastSegment := some successorIndex })
  assign fun wal => { wal with
    fileIndex := successorIndex, activeIndex := successorIndex, baseLsn := resetLsn,
    unsyncedBytes := 0 }
  oldSegments.forM fun segment => onDisk (removeFile segment.1)

/-- `Wal::reset`. -/
def reset : Op Unit := do
  ensureAvailable
  onDisk probe
  let world ← get
  poisoning "WAL reset failed: " (resetInner world.disk.allWalSegments)

/-- The loop of `drop_prefix` that counts the segments covered by `upToLsn`: how
many there are and the LSN behind them. -/
def coveredSegments (activeIndex upToLsn : ℕ) : List (ℕ × File) → ℕ → ℕ × ℕ
  | [], newBaseLsn => (0, newBaseLsn)
  | (index, file) :: later, newBaseLsn =>
    if index = activeIndex ∨ upToLsn < newBaseLsn + file.bytes.length then (0, newBaseLsn)
    else
      let (count, lsn) := coveredSegments activeIndex upToLsn later (newBaseLsn + file.bytes.length)
      (count + 1, lsn)

/-- The part of `drop_prefix` behind a rotation: publish the new base, then remove the
segments it covers. -/
def dropSegments (base : WalBase) (upToLsn : ℕ) : Op Unit := do
  let segments ← onDisk listSegments
  let world ← get
  let (dropCount, newBaseLsn) := coveredSegments world.wal.activeIndex upToLsn segments base.lsn
  onDisk probe
  if dropCount = 0 then pure ()
  else
    match segments[dropCount]? with
    | none => throw .io -- the code indexes out of bounds here
    | some (firstSegment, _) => do
      onDisk (writeWalBase
        { lsn := newBaseLsn, firstSegment, lastSegment := some world.wal.activeIndex })
      (segments.take dropCount).forM fun segment => onDisk (removeFile segment.1)
      onDisk probe

/-- `Wal::drop_prefix`. -/
def dropPrefix (upToLsn : ℕ) : Op Unit := do
  ensureAvailable
  let base ← onDisk readBase
  let endLsn ← len
  Program.require (base.lsn ≤ upToLsn ∧ upToLsn ≤ endLsn)
    (.invalidRequest ("WAL prefix LSN " ++ toString upToLsn ++ " is outside " ++
      toString base.lsn ++ "..=" ++ toString endLsn))
  onDisk (validateRecordBoundary codec upToLsn)
  let world ← get
  poisoning "WAL write failed: " (onDisk (syncFile world.wal.fileIndex))
  let activeLen ← onDisk (fileLen world.wal.fileIndex)
  Program.when (0 < activeLen ∧ endLsn ≤ upToLsn) (rotate activeLen)
  dropSegments base upToLsn

/-- `FrozenWalArchive`: the base, the immutable segments and their lengths, the end. -/
structure FrozenWalArchive where
  base : WalBase
  segments : List (ℕ × ℕ)
  endLsn : ℕ
  deriving DecidableEq, Repr

/-- `FrozenWalArchive::capture`. -/
def capture (base : WalBase) (segments : List (ℕ × File)) (endLsn : ℕ) :
    Io (Option FrozenWalArchive) := do
  probe
  let frozen := segments.map fun segment => (segment.1, segment.2.bytes.length)
  let dataBytes := (frozen.map Prod.snd).sum
  Program.require (base.lsn + dataBytes = endLsn)
    (.walCorruption .directory ("frozen WAL archive spans " ++ toString base.lsn ++ ".." ++
      toString (base.lsn + dataBytes) ++ ", expected end LSN " ++ toString endLsn))
  if dataBytes = 0 then pure none
  else do
    probe
    let archived : WalBase :=
      if base.lastSegment.isSome then { base with lastSegment := frozen.getLast?.map Prod.fst }
      else base
    pure (some { base := archived, segments := frozen, endLsn })

/-- `Wal::freeze_archive_cut`. -/
def freezeArchiveCut (endLsn : ℕ) : Op (Option FrozenWalArchive) := do
  ensureAvailable
  let actualEnd ← len
  Program.require (actualEnd = endLsn) (.invalidRequest ("WAL archive cut " ++ toString endLsn ++
      " does not match current end LSN " ++ toString actualEnd))
  let world ← get
  let activeLen ← onDisk (fileLen world.wal.fileIndex)
  Program.when (activeLen = 0)
    (poisoning "WAL write failed: " (onDisk (syncFile world.wal.fileIndex)))
  Program.when (activeLen ≠ 0) (rotate activeLen)
  let base ← onDisk readBase
  let segments ← onDisk listSegments
  let world ← get
  onDisk (capture base (segments.filter fun segment => segment.1 < world.wal.activeIndex) endLsn)

section Rules

variable {α : Type} {x : Program.Exits World GaussError} {world : World}

/-- The exits of a part of a method that runs on the directory. -/
def exitsOnDisk (x : Program.Exits World GaussError) (world : World) :
    Program.Exits Disk GaussError :=
  ⟨x.allowed, fun e disk => x.fault e { world with disk }, fun disk => x.down { world with disk }⟩

theorem onDisk_ensures {post : α → World → Prop} {c : Io α}
    (h : c.Ensures (exitsOnDisk x world) (fun a disk => post a { world with disk }) world.disk) :
    (onDisk c).Ensures x post world :=
  .zoom h

theorem assign_ensures {post : Unit → World → Prop} {f : WalHandle → WalHandle}
    (h : post () { world with wal := f world.wal }) : (assign f).Ensures x post world :=
  .modify h

theorem ensureAvailable_ensures {post : Unit → World → Prop}
    (havailable : world.wal.poisoned = false) (h : post () world) : ensureAvailable.Ensures x post world :=
  .bind (.get (.require (fun _ => h) fun hnot => absurd havailable hnot))

/-- The exits of a part of a method whose errors poison the handle. -/
def exitsPoisoning (context : String) (x : Program.Exits World GaussError) :
    Program.Exits World GaussError :=
  ⟨x.allowed, fun e w => x.fault (.walUnavailable (context ++ e.text)) w.poisoned, x.down⟩

theorem poisoning_ensures {post : α → World → Prop} {context : String} {c : Op α}
    (h : c.Ensures (exitsPoisoning context x) post world) :
    (poisoning context c).Ensures x post world := by
  refine .tryCatch (h.mono rfl (fun _ _ hp => hp) ?_ (fun _ hd => hd))
  intro e w hw
  exact .bind (.modify (.throw hw))

end Rules

end ChironDB.Wal
