/-
# Archive replay

`chirondb-core/src/wal/archive_replay.rs`: `replay_archive` appends to a WAL the frames
of an archived one that lie behind its end, after checking that the two agree where
they overlap.  The target is read through a `PrefixReader`, one forward pass over its
segments that is independent of how the archive is segmented.

The archive is another directory, which is only read (`inArchive`).  What replay asks
of an entry, whether encryption is on and the callback `appended` are parameters
(`ReplayRules`); `replayArchive` returns the records it calls the callback with.
`Replayable` is when it succeeds, and `replayArchive_ensures` says what it leaves then
and otherwise: frames already in the target never change, and what is appended is a
beginning of the archived frames behind its end.
-/

import ChironDB.Wal.Methods

namespace ChironDB.Wal

open Codec Fault List

variable {Entry : Type} (codec : RecordCodec Entry)

/-- How `replay_archive` sorts the entries. -/
inductive EntryKind
  | catalog
  | graphBatch
  | other
  deriving DecidableEq, Repr

/-- What replay needs of the code around it. -/
structure ReplayRules (Entry : Type) where
  kind : Entry → EntryKind
  /-- `batch.validate()`. -/
  validate : Entry → Except GaussError Unit
  encryptionEnabled : Bool
  isEncrypted : Bytes → Bool
  /-- The callback. -/
  appended : WalRecord Entry → Except GaussError Unit

/-- The checks on the entry of an archived record. -/
def ReplayRules.checkEntry (rules : ReplayRules Entry) (entry : Entry) : Except GaussError Unit :=
  match rules.kind entry with
  | .catalog => .error (.walCorruption .directory "catalog entry found in collection WAL archive")
  | .graphBatch => rules.validate entry
  | .other => .ok ()

/-- A computation on the archive, as a part of a method; it leaves the world alone. -/
def inArchive {α : Type} (archive : Disk) (c : Io α) : Op α := fun world events =>
  match c archive events with
  | .done a _ rest => .done a world rest
  | .error e _ rest => .error e world rest
  | .crashed _ => .crashed world

/-- All bytes of a segment, as `open_wal_reader` gives them to be read. -/
def readFile (index : ℕ) : Io Bytes := do
  probe
  let disk ← get
  match disk.segments[index]? with
  | some file => pure file.bytes
  | none => throw .io

/-- `PrefixReader`: the segments to come, the unread bytes of the open one, the LSN of
these and the LSN of its end. -/
structure PrefixReader where
  segments : List (ℕ × File)
  reader : Option Bytes
  position : ℕ
  segmentEnd : ℕ
  path : WalPath

namespace PrefixReader

/-- The reader at the start of the next segment. -/
def advance (reader : PrefixReader) (index : ℕ) (later : List (ℕ × File)) (bytes : Bytes) :
    PrefixReader where
  segments := later
  reader := some bytes
  position := reader.segmentEnd
  segmentEnd := reader.segmentEnd + bytes.length
  path := .segment index

/-- The loop of `matches`: open segments until one reaches beyond `lsn`. -/
def seek (lsn : ℕ) : List (ℕ × File) → PrefixReader → Op PrefixReader
  | [], reader =>
    if reader.segmentEnd ≤ lsn then
      throw (.walCorruption reader.path "missing snapshot WAL overlap")
    else pure reader
  | (index, _) :: later, reader =>
    if reader.segmentEnd ≤ lsn then do
      let bytes ← onDisk (readFile index)
      seek lsn later (reader.advance index later bytes)
    else pure reader

/-- The end of `matches`: read the payload of a frame, whose header says that it has
`len` bytes, and compare it. -/
def comparePayload (reader : PrefixReader) (lsn len : ℕ) (rest payload : Bytes) :
    Op (Bool × PrefixReader) :=
  if len ≠ payload.length ∨ reader.segmentEnd < lsn + headerLen + len then pure (false, reader)
  else do
    onDisk probe
    Program.require (headerLen + len ≤ rest.length) .io
    let existing := (rest.drop headerLen).take len
    Program.require ((codec.checksum existing).toNat = ofLeBytes ((rest.drop 4).take 4))
      (.walCorruption reader.path "snapshot overlap CRC mismatch")
    let reader := { reader with
      reader := some (rest.drop (headerLen + len)), position := lsn + headerLen + len }
    if existing = payload then pure (true, reader)
    else do
      let old ← Program.ofExcept ((codec.decodePersistent existing).mapError .codec)
      let new ← Program.ofExcept ((codec.decodePersistent payload).mapError .codec)
      pure (decide (old = new), reader)

/-- The middle of `matches`: read the header of the frame at `lsn`. -/
def compareFrame (reader : PrefixReader) (lsn : ℕ) (rest payload : Bytes) :
    Op (Bool × PrefixReader) := do
  onDisk probe
  Program.require (headerLen ≤ rest.length) .io
  reader.comparePayload codec lsn (ofLeBytes (rest.take 4)) rest payload

/-- `PrefixReader::matches`. -/
def matchesAt (reader : PrefixReader) (lsn : ℕ) (payload : Bytes) : Op (Bool × PrefixReader) := do
  Program.require (reader.position ≤ lsn)
    (.walCorruption reader.path "non-monotonic archive overlap")
  let reader ← seek lsn reader.segments reader
  let bytes := reader.reader.getD []
  onDisk probe
  Program.require (lsn - reader.position ≤ bytes.length)
    (.walCorruption reader.path "short snapshot WAL overlap")
  reader.compareFrame codec lsn (bytes.drop (lsn - reader.position)) payload

end PrefixReader

/-- The visitor of `replay_archive`: the reader afterwards, and the record if it was
appended. -/
def replayFrame (rules : ReplayRules Entry) (existingEnd retained : ℕ) (reader : PrefixReader)
    (frame : Frame Entry) : Op (PrefixReader × Option (WalRecord Entry)) := do
  Program.ofExcept (rules.checkEntry frame.record.entry)
  let endLsn := frame.record.lsn + frame.size
  if frame.record.lsn < existingEnd then do
    Program.require (endLsn ≤ existingEnd ∧ (retained ≤ frame.record.lsn ∨ endLsn ≤ retained))
      (.walCorruption .directory "archive overlaps a partial snapshot WAL frame")
    if retained ≤ frame.record.lsn then do
      let (same, reader) ← reader.matchesAt codec frame.record.lsn frame.payload
      Program.require (same = true)
        (.walCorruption .directory "archive diverges from retained snapshot WAL")
      pure (reader, none)
    else pure (reader, none)
  else do
    let here ← len
    Program.require (frame.record.lsn = here)
      (.walCorruption .directory "gap between snapshot WAL and archive suffix")
    Program.require (rules.encryptionEnabled = true → rules.isEncrypted frame.payload = true)
      (.walCorruption .directory ("plaintext archive frames require an explicit encryption " ++
        "migration; WAL offsets cannot be rewritten"))
    let _ ← appendPayload codec frame.record.lsn frame.payload false
    Program.ofExcept (rules.appended frame.record)
    pure (reader, some frame.record)

/-- The frames of the archive, one after the other. -/
def replayFrames (rules : ReplayRules Entry) (existingEnd retained : ℕ) :
    List (Frame Entry) → PrefixReader → Op (List (WalRecord Entry))
  | [], _ => pure []
  | frame :: frames, reader => do
    let (reader, call) ← replayFrame codec rules existingEnd retained reader frame
    let calls ← replayFrames rules existingEnd retained frames reader
    pure (call.toList ++ calls)

/-- The part of `replay_archive` behind its checks of the two bases. -/
def replayFrom (rules : ReplayRules Entry) (archive : Disk) (existingEnd retained : ℕ) :
    Op (List (WalRecord Entry)) := do
  let base ← onDisk readBase
  let segments ← onDisk listSegments
  let reader : PrefixReader := ⟨segments, none, base.lsn, base.lsn, .directory⟩
  let archiveBase ← inArchive archive readBase
  let archived ← inArchive archive listSegments
  let (scan, stop) := scanFrames codec 0 archiveBase.lsn
    (archived.map fun segment => (segment.1, segment.2.bytes))
  let calls ← replayFrames codec rules existingEnd retained scan.visited reader
  match stop with
  | none => do
    sync
    pure calls
  | some (.failed e) => throw e
  | some (.torn index _ _ _ message) => throw (.walCorruption (.segment index) message)

/-- `Wal::replay_archive`, with the records that it calls `appended` with. -/
def replayArchive (rules : ReplayRules Entry) (archive : Disk) : Op (List (WalRecord Entry)) := do
  ensureAvailable
  let existingEnd ← len
  let base ← onDisk readBase
  let archiveBase ← inArchive archive readBase
  Program.require (archiveBase.lsn ≤ existingEnd)
    (.walCorruption .directory "gap between snapshot WAL and archive suffix")
  let overlapStart := max archiveBase.lsn base.lsn
  Program.when (overlapStart < existingEnd) do
    let _ ← onDisk (scanFrom codec overlapStart)
    pure ()
  replayFrom codec rules archive existingEnd base.lsn

/-- A frame begins below an LSN and ends behind it. -/
def Frame.Straddles (frame : Frame Entry) (lsn : ℕ) : Prop :=
  frame.record.lsn < lsn ∧ lsn < frame.record.lsn + frame.size

/-- Two payloads of one length that open to the same text. -/
def SamePayload (a b : Bytes) : Prop :=
  a.length = b.length ∧ codec.decodePersistent a = codec.decodePersistent b

/-- An archived frame that replay onto the log accepts. -/
structure Accepted (rules : ReplayRules Entry) (log : List (Frame Entry)) (retained : ℕ)
    (frame : Frame Entry) : Prop where
  entry : rules.checkEntry frame.record.entry = .ok ()
  whole : ¬ frame.Straddles retained ∧ ¬ frame.Straddles (extent log)
  agrees : retained ≤ frame.record.lsn → frame.record.lsn < extent log →
    ∃ target ∈ log, target.record.lsn = frame.record.lsn ∧
      SamePayload codec target.payload frame.payload
  fresh : extent log ≤ frame.record.lsn →
    (rules.encryptionEnabled = true → rules.isEncrypted frame.payload = true) ∧
      rules.appended frame.record = .ok ()

/-- An archive that can be replayed onto the log. -/
structure Replayable (rules : ReplayRules Entry) (log archived : List (Frame Entry))
    (retained archiveBase : ℕ) : Prop where
  noGap : archiveBase ≤ extent log
  boundary : retained ≤ archiveBase → Boundary 0 log archiveBase
  accepted : ∀ frame ∈ archived, Accepted codec rules log retained frame

variable {codec}

variable {passed later : List (List (Frame Entry))} {front rest frames : List (Frame Entry)}
  {reader : PrefixReader} {lsn : ℕ}

variable {α : Type} {post : List (WalRecord Entry) → World → Prop}
  {x : Program.Exits World GaussError} {rules : ReplayRules Entry} {world : World}

section Reading

theorem inArchive_ensures {c : Io α} {archive : Disk} {post : α → World → Prop}
    (h : c.Ensures ⟨x.allowed, fun e _ => x.fault e world, fun _ => x.down world⟩
      (fun a _ => post a world) archive) : (inArchive archive c).Ensures x post world := by
  intro events hevents
  have hmeets := h events hevents
  rw [inArchive]
  cases hout : c archive events with
  | done | error | crashed =>
    rw [hout] at hmeets
    exact hmeets

variable {disk : Disk} {index : ℕ}

theorem readFile_ensures {x : Program.Exits Disk GaussError} {post : Bytes → Disk → Prop}
    (hsafe : x.Safe disk) {file : File} (hfile : disk.segments[index]? = some file)
    (hpost : post file.bytes disk) : (readFile index).Ensures x post disk := by
  refine .bind (probe_ensures hsafe (.bind (.get ?_)))
  rw [hfile]
  exact .pure hpost

/-- The retained segments hold these frames. -/
def Disk.Images (codec : RecordCodec Entry) (disk : Disk) (segments : List (List (Frame Entry))) :
    Prop :=
  ∀ i frames, segments[i]? = some frames →
    ∃ file, disk.segments[disk.walBase.firstSegment + i]? = some file ∧
      file.bytes = image codec frames

namespace PrefixReader

/-- Where the reader is: it has opened the segments `passed`, and of their frames read
`front`. -/
structure At (codec : RecordCodec Entry) (disk : Disk) (reader : PrefixReader)
    (passed later : List (List (Frame Entry))) (front rest : List (Frame Entry)) : Prop where
  segments : reader.segments.map Prod.fst =
    (numbered (disk.walBase.firstSegment + passed.length) later).map Prod.fst
  segmentEnd : reader.segmentEnd = disk.walBase.lsn + extent passed.flatten
  opened : passed.flatten = front ++ rest
  position : reader.position = disk.walBase.lsn + extent front
  bytes : reader.reader.getD [] = image codec rest

theorem At.advance {more : List (ℕ × File)} {bytes : Bytes}
    (h : reader.At codec disk passed (frames :: later) front rest) (hmore : more.map Prod.fst =
      (numbered (disk.walBase.firstSegment + passed.length + 1) later).map Prod.fst)
    (hbytes : bytes = image codec frames) :
    (reader.advance index more bytes).At codec disk (passed ++ [frames]) later passed.flatten
      frames where
  segments := by
    rw [length_append, length_singleton, ← Nat.add_assoc]
    exact hmore
  segmentEnd := by
    rw [flatten_append, flatten_singleton, extent_append, ← Nat.add_assoc,
      ← h.segmentEnd, ← image_length codec, ← hbytes]
    rfl
  opened := by rw [flatten_append, flatten_singleton]
  position := h.segmentEnd
  bytes := hbytes

variable {segs : List (List (Frame Entry))}

/-- The loop stops at the segment with the LSN in it. -/
theorem At.seek_ensures {post : PrefixReader → World → Prop}
    (h : reader.At codec world.disk passed later front rest) (hsegs : segs = passed ++ later)
    (hfiles : world.disk.Images codec segs) (hsafe : x.Safe world)
    (hlt : lsn < world.disk.walBase.lsn + extent segs.flatten) (hle : reader.position ≤ lsn)
    (hpost : ∀ reader' passed' later' front' rest', segs = passed' ++ later' →
      reader'.At codec world.disk passed' later' front' rest' → reader'.position ≤ lsn →
        lsn < reader'.segmentEnd → post reader' world) :
    (seek lsn reader.segments reader).Ensures x post world := by
  induction later generalizing reader passed front rest with
  | nil =>
    have hnil : reader.segments = [] := map_eq_nil_iff.mp h.segments
    rw [hnil, seek]
    rw [hsegs, append_nil, ← h.segmentEnd] at hlt
    exact .ite (fun hge => absurd hge (not_le.mpr hlt)) fun _ =>
      .pure (hpost reader passed [] front rest hsegs h hle hlt)
  | cons frames later ih =>
    have hsegments := h.segments
    cases hlist : reader.segments with
    | nil =>
      rw [hlist] at hsegments
      cases hsegments
    | cons segment more =>
      obtain ⟨index, file⟩ := segment
      rw [hlist, numbered, map_cons, map_cons, List.cons.injEq] at hsegments
      obtain ⟨rfl, hmore⟩ := hsegments
      rw [seek]
      refine .ite (fun hge => .bind ?_) fun hnot =>
        .pure (hpost reader passed _ front rest hsegs h hle (not_le.mp hnot))
      obtain ⟨file', hfile, hbytes⟩ := hfiles passed.length frames (by
        rw [hsegs, getElem?_append_right le_rfl, Nat.sub_self]
        rfl)
      refine onDisk_ensures (readFile_ensures hsafe hfile ?_)
      exact ih (h.advance hmore hbytes) (by rw [hsegs, append_assoc]; rfl) hge

variable {post : Bool × PrefixReader → World → Prop} {payload old new : Bytes}
  {target : Frame Entry} (hsafe : x.Safe world)
  (hfits : target.payload.length ≤ maxWalRecordBytes)
  (hold : codec.decodePersistent target.payload = .ok old)
  (hnew : codec.decodePersistent payload = .ok new)
include hsafe hfits hold hnew

/-- The reader in front of a frame compares its payload. -/
theorem At.compareFrame_ensures {skipped more : List (Frame Entry)}
    (h : reader.At codec world.disk passed later front (skipped ++ target :: more))
    (hlsn : lsn = world.disk.walBase.lsn + extent (front ++ skipped))
    (hpost : ∀ same reader', (same = true ↔ SamePayload codec target.payload payload) →
      (same = true → reader'.At codec world.disk passed later (front ++ skipped ++ [target]) more) →
        post (same, reader') world) :
    (reader.compareFrame codec lsn (frameBytes codec target.payload ++ image codec more)
      payload).Ensures x post world := by
  have hread : headerLen + target.payload.length ≤
      (frameBytes codec target.payload ++ image codec more).length := by
    rw [length_append, frameBytes_length]
    exact Nat.le_add_right _ _
  have hinside : lsn + headerLen + target.payload.length ≤ reader.segmentEnd := by
    rw [hlsn, h.segmentEnd, h.opened]
    simp only [extent_append, extent_cons, Frame.size]
    omega
  refine .bind (onDisk_ensures (probe_ensures hsafe (.bind (.require (fun _ => ?_)
    fun hnot => absurd ((Nat.le_add_right _ _).trans hread) hnot))))
  rw [take_frameBytes, ofLeBytes_length hfits, comparePayload]
  refine .ite (fun hdiffers => .pure ?_) fun hlengths => .bind (onDisk_ensures (probe_ensures
    hsafe (.bind (.require (fun _ => ?_) fun hnot => absurd hread hnot))))
  · refine hpost false reader ⟨fun hfalse => absurd hfalse Bool.false_ne_true, fun hsame => ?_⟩
      fun hfalse => absurd hfalse Bool.false_ne_true
    rcases hdiffers with hne | hbeyond
    · exact absurd hsame.1 hne
    · omega
  rw [drop_header_frameBytes, take_left, drop_take_frameBytes, drop_frameBytes, ofLeBytes_checksum]
  refine .bind (.require (fun _ => ?_) fun hnot => absurd rfl hnot)
  have hlength : target.payload.length = payload.length := by
    by_contra hne
    exact hlengths (.inl hne)
  have hnext : ({ reader with
      reader := some (image codec more),
      position := lsn + headerLen + target.payload.length } : PrefixReader).At codec world.disk
        passed later (front ++ skipped ++ [target]) more := {
    segments := h.segments
    segmentEnd := h.segmentEnd
    opened := by
      rw [h.opened]
      simp
    position := by
      rw [hlsn, extent_concat (front ++ skipped), Frame.size]
      simp only [Nat.add_assoc]
    bytes := rfl }
  refine .ite (fun heq => .pure ?_) fun _ => ?_
  · exact hpost true _ ⟨fun _ => ⟨hlength, by rw [heq]⟩, fun _ => rfl⟩ fun _ => hnext
  · rw [hold, hnew]
    refine .bind (.ofExcept (fun old' hold' => .bind (.ofExcept (fun new' hnew' => .pure ?_)
      fun e he => by cases he)) fun e he => by cases he)
    cases hold'
    cases hnew'
    refine hpost _ _ ?_ fun _ => hnext
    rw [decide_eq_true_iff, SamePayload, hold, hnew, Except.ok.injEq]
    exact ⟨fun heq => ⟨hlength, heq⟩, fun hsame => hsame.2⟩

/-- **The comparison of a payload with the frame at an LSN.** -/
theorem At.matchesAt_ensures {before after : List (Frame Entry)}
    (h : reader.At codec world.disk passed later front rest) (hsegs : segs = passed ++ later)
    (hfiles : world.disk.Images codec segs) (hle : reader.position ≤ lsn)
    (htarget : segs.flatten = before ++ target :: after)
    (hlsn : lsn = world.disk.walBase.lsn + extent before)
    (hpost : ∀ same reader', (same = true ↔ SamePayload codec target.payload payload) →
      (same = true → ∃ passed' later' rest', segs = passed' ++ later' ∧
        reader'.At codec world.disk passed' later' (before ++ [target]) rest') →
          post (same, reader') world) :
    (reader.matchesAt codec lsn payload).Ensures x post world := by
  have hsize := target.size_pos
  refine .bind (.require (fun _ => .bind ?_) fun hnot => absurd hle hnot)
  refine h.seek_ensures hsegs hfiles hsafe ?_ hle ?_
  · rw [htarget, extent_append, extent_cons]
    omega
  intro reader passed later front rest hsegs h hle hlt
  -- The frame is in the open segment, behind what the reader skips.
  have hfull : before ++ target :: after = front ++ (rest ++ later.flatten) := by
    rw [← htarget, hsegs, flatten_append, h.opened, append_assoc]
  have hsegmentEnd := h.segmentEnd
  have hposition := h.position
  rw [h.opened, extent_append] at hsegmentEnd
  obtain ⟨skipped, rfl⟩ : front <+: before :=
    prefix_of_extent_le (prefix_append front (rest ++ later.flatten)) ⟨_, hfull⟩ (by omega)
  rw [append_assoc, append_cancel_left_eq] at hfull
  have hskip : lsn - reader.position = extent skipped := by
    rw [hlsn, h.position, extent_append]
    omega
  obtain ⟨tail, rfl⟩ : skipped <+: rest :=
    prefix_of_extent_le ⟨_, hfull⟩ (prefix_append rest later.flatten) (by omega)
  rw [append_assoc, append_cancel_left_eq] at hfull
  cases tail with
  | nil =>
    rw [append_nil] at hsegmentEnd
    omega
  | cons frame more =>
    rw [cons_append, List.cons.injEq] at hfull
    obtain ⟨rfl, -⟩ := hfull
    have hbytes : reader.reader.getD [] =
        image codec skipped ++ (frameBytes codec target.payload ++ image codec more) := by
      rw [h.bytes, image_append, image_cons]
    refine .bind (onDisk_ensures (probe_ensures hsafe (.bind (.require (fun _ => ?_)
      fun hnot => ?_))))
    · rw [hbytes, hskip, drop_left' (image_length codec skipped)]
      exact h.compareFrame_ensures hsafe hfits hold hnew hlsn fun same reader' hsame hnext =>
        hpost same reader' hsame fun htrue => ⟨passed, later, more, hsegs, hnext htrue⟩
    · rw [hbytes, length_append, image_length] at hnot
      omega

end PrefixReader

end Reading

section Replaying

/-- No step fails, and nothing crashes. -/
def Quiet (x : Program.Exits World GaussError) : Prop :=
  (∀ n, ¬ x.allowed (.fail n)) ∧ ∀ n, ¬ x.allowed (.crash n)

variable {log : List (Frame Entry)} {retained durable : ℕ}

theorem Quiet.safe (h : Quiet x) (w : World) : x.Safe w :=
  ⟨fun _ n hn => absurd hn (h.1 n), fun n hn => absurd hn (h.2 n)⟩

theorem Quiet.bears (h : Quiet x) : Bears codec x log durable :=
  ⟨fun _ n _ hn => absurd hn (h.1 n), fun n _ hn => absurd hn (h.2 n)⟩

theorem Chained.opens (h : Chained codec lsn frames) {frame : Frame Entry} (hmem : frame ∈ frames) :
    frame.payload.length ≤ maxWalRecordBytes ∧
      ∃ text, codec.decodePersistent frame.payload = .ok text := by
  obtain ⟨before, after, -, hat⟩ := h.at_mem hmem
  cases hat with
  | cons decodes fits rest =>
    have hdecodes := decodes .directory
    rw [decodeRecord] at hdecodes
    cases htext : codec.decodePersistent frame.payload with
    | error e =>
      rw [htext] at hdecodes
      cases hdecodes
    | ok text => exact ⟨fits, text, rfl⟩

/-- An archived frame behind the end of the log is accepted by three checks. -/
theorem accepted_iff_of_le {frame : Frame Entry} (hretained : retained ≤ extent log)
    (hle : extent log ≤ frame.record.lsn) : Accepted codec rules log retained frame ↔
      rules.checkEntry frame.record.entry = .ok () ∧
      (rules.encryptionEnabled = true → rules.isEncrypted frame.payload = true) ∧
      rules.appended frame.record = .ok () := by
  refine ⟨fun h => ⟨h.entry, h.fresh hle⟩, fun ⟨hentry, hfresh⟩ => ⟨hentry, ⟨?_, ?_⟩, ?_,
    fun _ => hfresh⟩⟩
  · exact fun hstraddles => absurd hstraddles.1 (not_lt.mpr (hretained.trans hle))
  · exact fun hstraddles => absurd hstraddles.1 (not_lt.mpr hle)
  · exact fun _ hlt => absurd hlt (not_lt.mpr hle)

/-- **The archived frames behind the end of the log are appended**, up to one that is
not accepted. -/
theorem replayFrames_append_ensures {written : List (Frame Entry)}
    (h : Live codec world written durable) (hwritten : extent log ≤ extent written)
    (hretained : retained ≤ extent log) (hchained : Chained codec 0 (written ++ frames))
    (hquiet : Quiet x)
    (hfault : ∀ e w done, done <+: frames → Live codec w (written ++ done) durable →
      (∃ frame ∈ frames, ¬ Accepted codec rules log retained frame) → x.fault e w)
    (hpost : ∀ w, Live codec w (written ++ frames) durable →
      w.disk.walBase.lsn = world.disk.walBase.lsn →
      (∀ frame ∈ frames, Accepted codec rules log retained frame) →
        post (frames.map Frame.record) w) :
    (replayFrames codec rules (extent log) retained frames reader).Ensures x post world := by
  induction frames generalizing written reader world post with
  | nil =>
    rw [append_nil] at hpost
    exact .pure (hpost world h rfl (forall_mem_nil _))
  | cons frame frames ih =>
    have hstep : Chained codec 0 (written ++ [frame]) := by
      rw [← singleton_append, ← append_assoc] at hchained
      exact (Chained.append_iff.mp hchained).1
    have hlsn : frame.record.lsn = extent written := by
      rw [← Nat.zero_add (extent written)]
      exact (Chained.append_iff.mp hstep).2.head_lsn
    have hiff : Accepted codec rules log retained frame ↔ _ :=
      accepted_iff_of_le hretained (hlsn ▸ hwritten)
    have hrefused : ∀ e, ¬ Accepted codec rules log retained frame → x.fault e world :=
      fun e hnot => hfault e world [] (List.nil_prefix) (by rw [append_nil]; exact h)
        ⟨frame, mem_cons_self, hnot⟩
    refine .bind (.bind (.ofExcept (fun _ hentry => ?_) fun e he => hrefused e fun hacc => ?_))
    · refine .ite (fun hlt => absurd hlt (by omega)) fun _ => .bind ?_
      obtain ⟨-, _, _, _, _, hattached, -⟩ := id h
      refine hattached.len_ensures (hquiet.safe world) (.bind (.require (fun _ => .bind (.require
        (fun hencrypted => .bind ?_) fun hnot => ?_)) fun hnot => absurd hlsn hnot))
      · rw [hlsn]
        refine appendPayload_ensures hstep h false hquiet.bears fun w hw hbase =>
          .bind (.ofExcept (fun _ hcall => .pure ?_) fun e he => ?_)
        · refine .bind (ih hw ?_ ?_ ?_ ?_)
          · rw [extent_append]
            omega
          · rw [append_assoc]
            exact hchained
          · rintro e w' done hdone hw' ⟨f, hf, hnot⟩
            refine hfault e w' (frame :: done) (prefix_cons_inj frame |>.mpr hdone) ?_
              ⟨f, mem_cons_of_mem _ hf, hnot⟩
            rw [append_assoc] at hw'
            exact hw'
          · intro w' hw' hbase' haccepted
            refine .pure (hpost w' ?_ (hbase'.trans hbase) ?_)
            · rw [append_assoc] at hw'
              exact hw'
            · exact forall_mem_cons.mpr ⟨hiff.mpr ⟨hentry, hencrypted, hcall⟩, haccepted⟩
        · refine hfault e w [frame] ⟨frames, rfl⟩ hw ⟨frame, mem_cons_self, fun hacc => ?_⟩
          rw [(hiff.mp hacc).2.2] at he
          cases he
      · exact hrefused _ fun hacc => hnot (hiff.mp hacc).2.1
    · rw [hacc.entry] at he
      cases he

theorem Chained.eq_of_lsn (h : Chained codec lsn frames) :
    ∀ f ∈ frames, ∀ g ∈ frames, f.record.lsn = g.record.lsn → f = g := by
  induction h with
  | nil lsn => exact forall_mem_nil _
  | @cons lsn frame frames decodes fits rest ih =>
    have hhead : frame.record.lsn = lsn := (Chained.cons decodes fits rest).head_lsn
    have hsize := frame.size_pos
    intro f hf g hg heq
    rcases mem_cons.mp hf with rfl | hf' <;> rcases mem_cons.mp hg with rfl | hg'
    · rfl
    · have := rest.le_lsn g hg'
      omega
    · have := rest.le_lsn f hf'
      omega
    · exact ih f hf' g hg' heq

/-- A boundary below the end of the log is where one of the retained frames begins. -/
theorem Attached.frame_at {gone tail : List (Frame Entry)} {sealed : List (List (Frame Entry))}
    {active : File} {world : World} (h : Attached codec world log gone sealed active tail)
    (hboundary : Boundary world.disk.walBase.lsn (sealed ++ [tail]).flatten lsn)
    (hlt : lsn < extent log) :
    ∃ before target after, (sealed ++ [tail]).flatten = before ++ target :: after ∧
      lsn = world.disk.walBase.lsn + extent before ∧ target ∈ log ∧ target.record.lsn = lsn := by
  have hflat : (sealed ++ [tail]).flatten = sealed.flatten ++ tail := by
    rw [flatten_append, flatten_singleton]
  obtain ⟨before, after, hsplit, rfl⟩ := hboundary
  have hretained : Chained codec world.disk.walBase.lsn (before ++ after) := by
    rw [← hsplit, hflat]
    exact h.chained_above prefix_rfl
  have hlog : log = gone ++ (before ++ after) := by rw [h.log_eq, ← hflat, hsplit]
  cases after with
  | nil =>
    rw [hlog, append_nil, extent_append, ← h.base] at hlt
    omega
  | cons target after =>
    refine ⟨before, target, after, hsplit, rfl, ?_, (Chained.append_iff.mp hretained).2.head_lsn⟩
    rw [hlog]
    exact mem_append_right _ (mem_append_right _ mem_cons_self)

/-- **The archived frames from an LSN on**: those before the end of the log are compared
with it, the others are appended, up to one that is not accepted. -/
theorem replayFrames_ensures {gone tail : List (Frame Entry)} {sealed : List (List (Frame Entry))}
    {active : File} (h : Live codec world log durable)
    (hattached : Attached codec world log gone sealed active tail)
    (hfiles : world.disk.Images codec (sealed ++ [tail]))
    (hreader : reader.At codec world.disk passed later front rest)
    (hsegs : sealed ++ [tail] = passed ++ later) (hchained : Chained codec lsn frames)
    (hlsn : lsn ≤ extent log) (hboundary : world.disk.walBase.lsn ≤ lsn →
      Boundary world.disk.walBase.lsn (sealed ++ [tail]).flatten lsn)
    (hposition : reader.position ≤ max lsn world.disk.walBase.lsn)
    (hquiet : Quiet x)
    (hfault : ∀ e w done, done <+: frames.filter (fun frame => extent log ≤ frame.record.lsn) →
      Live codec w (log ++ done) durable →
      (∃ frame ∈ frames, ¬ Accepted codec rules log world.disk.walBase.lsn frame) → x.fault e w)
    (hpost : ∀ w,
      Live codec w (log ++ frames.filter fun frame => extent log ≤ frame.record.lsn) durable →
      w.disk.walBase.lsn = world.disk.walBase.lsn →
      (∀ frame ∈ frames, Accepted codec rules log world.disk.walBase.lsn frame) →
        post ((frames.filter fun frame => extent log ≤ frame.record.lsn).map Frame.record) w) :
    (replayFrames codec rules (extent log) world.disk.walBase.lsn frames reader).Ensures x post
      world := by
  have hsafe := hquiet.safe world
  have hend : extent log = world.disk.walBase.lsn + extent (sealed ++ [tail]).flatten := by
    rw [hattached.extent_log, flatten_append, flatten_singleton, extent_append, Nat.add_assoc]
  induction frames generalizing lsn reader passed later front rest post with
  | nil =>
    refine .pure (hpost world ?_ rfl (forall_mem_nil _))
    rw [filter_nil, append_nil]
    exact h
  | cons frame frames ih =>
    have hhead : frame.record.lsn = lsn := hchained.head_lsn
    rcases Nat.lt_or_ge lsn (extent log) with hlt | hge
    swap
    · -- From here on everything is behind the end of the log.
      have hall : (frame :: frames).filter (fun frame => extent log ≤ frame.record.lsn) =
          frame :: frames := filter_eq_self.mpr fun f hf => by
        have := hchained.le_lsn f hf
        exact decide_eq_true (by omega)
      have heq : lsn = extent log := le_antisymm hlsn hge
      rw [hall] at hfault hpost
      refine replayFrames_append_ensures h le_rfl (by omega) ?_ hquiet hfault hpost
      refine Chained.append_iff.mpr ⟨hattached.chained, ?_⟩
      rw [Nat.zero_add, ← heq]
      exact hchained
    have hskip : (frame :: frames).filter (fun frame => extent log ≤ frame.record.lsn) =
        frames.filter (fun frame => extent log ≤ frame.record.lsn) := by
      rw [filter_cons, if_neg (by rw [decide_eq_true_iff]; omega)]
    rw [hskip] at hfault hpost
    have hsize := frame.size_pos
    have hrest : Chained codec (lsn + frame.size) frames := by
      cases hchained with
      | cons decodes fits rest => exact rest
    have hrefused : ∀ e, ¬ Accepted codec rules log world.disk.walBase.lsn frame →
        x.fault e world := fun e hnot =>
      hfault e world [] nil_prefix (by rw [append_nil]; exact h) ⟨frame, mem_cons_self, hnot⟩
    -- What follows once the frame is accepted.
    have hnext : ∀ {reader' : PrefixReader} {passed' later' front' rest'},
        Accepted codec rules log world.disk.walBase.lsn frame →
        reader'.At codec world.disk passed' later' front' rest' →
        sealed ++ [tail] = passed' ++ later' → lsn + frame.size ≤ extent log →
        (world.disk.walBase.lsn ≤ lsn + frame.size → Boundary world.disk.walBase.lsn
          (sealed ++ [tail]).flatten (lsn + frame.size)) →
        reader'.position ≤ max (lsn + frame.size) world.disk.walBase.lsn →
        (do
          let calls ← replayFrames codec rules (extent log) world.disk.walBase.lsn frames reader'
          pure ((none : Option (WalRecord Entry)).toList ++ calls)).Ensures x post world := by
      intro reader' passed' later' front' rest' haccepted hreader' hsegs' hle hbound hpos
      refine .bind (ih hreader' hsegs' hrest hle hbound hpos ?_ ?_)
      · rintro e w done hdone hw ⟨f, hf, hnot⟩
        exact hfault e w done hdone hw ⟨f, mem_cons_of_mem _ hf, hnot⟩
      · intro w hw hbase hacc
        exact .pure (hpost w hw hbase (forall_mem_cons.mpr ⟨haccepted, hacc⟩))
    refine .bind (.bind (.ofExcept (fun _ hentry => ?_) fun e he => hrefused e fun hacc => ?_))
    swap
    · rw [hacc.entry] at he
      cases he
    refine .ite (fun _ => .bind (.require (fun hwhole => ?_) fun hnot => hrefused _ fun hacc =>
      ?_)) fun hnlt => absurd (hhead ▸ hlt) hnlt
    swap
    · have hstraddles := hacc.whole
      rw [Frame.Straddles, Frame.Straddles] at hstraddles
      omega
    have hfresh : ¬ extent log ≤ frame.record.lsn := by omega
    have hnotStraddles : ¬ frame.Straddles world.disk.walBase.lsn ∧
        ¬ frame.Straddles (extent log) := by
      rw [Frame.Straddles, Frame.Straddles]
      omega
    refine .ite (fun hover => .bind ?_) fun hbelow => .pure ?_
    · -- The frame is in the overlap: the log has a frame at its LSN.
      obtain ⟨before, target, after, hsplit, hbefore, hmem, htarget⟩ :=
        hattached.frame_at (hboundary (hhead ▸ hover)) hlt
      obtain ⟨hfits, old, hold⟩ := hattached.chained.opens hmem
      obtain ⟨-, new, hnew⟩ := hchained.opens mem_cons_self
      refine hreader.matchesAt_ensures hsafe hfits hold hnew hsegs hfiles (by omega) hsplit
        (hhead.trans hbefore) ?_
      intro same reader' hsame hat
      refine .bind (.require (fun htrue => .pure ?_) fun hfalse => hrefused _ fun hacc => ?_)
      · obtain ⟨passed', later', rest', hsegs', hreader'⟩ := hat htrue
        have hpayload := hsame.mp htrue
        have hsizes : frame.size = target.size := by
          rw [Frame.size, Frame.size, hpayload.1]
        have hlast : lsn + frame.size = world.disk.walBase.lsn + extent (before ++ [target]) := by
          rw [extent_append, extent_cons, extent_nil, hsizes, hbefore]
          omega
        refine hnext ⟨hentry, hnotStraddles, fun _ _ => ⟨target, hmem,
          htarget.trans hhead.symm, hpayload⟩, fun hle => absurd hle hfresh⟩ hreader' hsegs'
          (by omega) (fun _ => ⟨before ++ [target], after, ?_, hlast⟩) ?_
        · rw [hsplit, append_assoc]
          rfl
        · rw [hreader'.position, hlast]
          exact le_max_left _ _
      · obtain ⟨target', hmem', hlsn', hpayload⟩ := hacc.agrees hover (by omega)
        have heq : target' = target :=
          hattached.chained.eq_of_lsn target' hmem' target hmem (by omega)
        exact hfalse (hsame.mpr (heq ▸ hpayload))
    · refine hnext ⟨hentry, hnotStraddles, fun hle => absurd hle hbelow,
        fun hle => absurd hle hfresh⟩ hreader hsegs (by omega) (fun hle => ?_) ?_
      · have hat : lsn + frame.size = world.disk.walBase.lsn := by omega
        rw [hat]
        exact ⟨[], _, rfl, rfl⟩
      · omega

end Replaying

section Archive

variable {log gone tail : List (Frame Entry)} {sealed : List (List (Frame Entry))} {active : File}
  {durable : ℕ}

theorem map_fst_numbered (n : ℕ) (as : List α) :
    (numbered n as).map Prod.fst = List.range' n as.length := by
  induction as generalizing n with
  | nil => rfl
  | cons a as ih => rw [numbered, map_cons, ih, length_cons, range'_succ]

theorem Attached.images (h : Attached codec world log gone sealed active tail) :
    world.disk.Images codec (sealed ++ [tail]) := by
  intro i frames hframes
  rw [h.stores]
  rcases Nat.lt_or_ge i sealed.length with hlt | hge
  · rw [getElem?_append_left hlt] at hframes
    rw [getElem?_append_left (by rw [length_map]; exact hlt), getElem?_map, hframes]
    exact ⟨_, rfl, rfl⟩
  · rw [getElem?_append_right hge] at hframes
    rw [getElem?_append_right (by rw [length_map]; exact hge), length_map]
    cases hi : i - sealed.length with
    | zero =>
      rw [hi] at hframes
      cases hframes
      exact ⟨active, rfl, h.whole⟩
    | succ k =>
      rw [hi] at hframes
      cases hframes

theorem PrefixReader.at_new (disk : Disk) (sealed : List (List (Frame Entry))) (active : File)
    (tail : List (Frame Entry)) :
    (⟨numbered disk.walBase.firstSegment (sealed.map (sealedFile codec) ++ [active]), none,
      disk.walBase.lsn, disk.walBase.lsn, .directory⟩ : PrefixReader).At codec disk []
        (sealed ++ [tail]) [] [] where
  segments := by
    rw [map_fst_numbered, map_fst_numbered, length_append, length_map, length_append]
    rfl
  segmentEnd := rfl
  opened := rfl
  position := rfl
  bytes := rfl

/-- The strict scan of a directory without a torn tail. -/
theorem Attached.scanFrom_ensures {post : List (Frame Entry) × WalScanStats → World → Prop}
    (h : Attached codec world log gone sealed active tail) (hsafe : x.Safe world) (watermark : ℕ)
    (hpost : watermark ≤ world.disk.walBase.lsn ∨
      Boundary world.disk.walBase.lsn (sealed ++ [tail]).flatten watermark →
        ∀ result, post result world)
    (hrefused : ¬ (watermark ≤ world.disk.walBase.lsn ∨
      Boundary world.disk.walBase.lsn (sealed ++ [tail]).flatten watermark) →
        ∀ e, x.fault e world) :
    (onDisk (scanFrom codec watermark)).Ensures x post world := by
  rw [flatten_append, flatten_singleton] at hpost hrefused
  obtain ⟨hdone, hstop⟩ := h.toIntact.scan_whole h.whole watermark
  refine onDisk_ensures ?_
  rw [scanFrom, scanRecords]
  refine .bind (readBase_ensures hsafe h.toIntact.readWalBase (.bind (listSegments_ensures hsafe
    h.toIntact.walSegments ?_)))
  by_cases hok : watermark ≤ world.disk.walBase.lsn ∨
    Boundary world.disk.walBase.lsn (sealed.flatten ++ tail) watermark
  · obtain ⟨scan, hfound, -⟩ := hdone hok
    simp only [hfound]
    exact .pure (hpost hok _)
  · obtain ⟨scan, stop, hfound⟩ := hstop hok
    simp only [hfound]
    cases stop with
    | failed e => exact .throw (hrefused hok _)
    | torn index finalActive segmentOffset tornBytes message =>
      refine .bind ?_
      rw [repairOrRejectTornTail, if_pos (.inr rfl)]
      exact .throw (hrefused hok _)

variable {archive : Disk} {archivedLog archived new : List (Frame Entry)} {archiveDurable : ℕ}

section

variable (h : Live codec world log durable)
  (harchive : Settled codec archive archivedLog archiveDurable)
  (harchived : archived = archivedLog.filter fun frame => archive.walBase.lsn ≤ frame.record.lsn)
  (hnew : new = archived.filter fun frame => extent log ≤ frame.record.lsn) (hquiet : Quiet x)
include h harchive harchived hnew hquiet

/-- The replay of an archive that begins at a boundary of the log or below its base. -/
theorem replayFrom_ensures (hattached : Attached codec world log gone sealed active tail)
    (hgap : archive.walBase.lsn ≤ extent log)
    (hboundary : world.disk.walBase.lsn ≤ archive.walBase.lsn → Boundary world.disk.walBase.lsn
      (sealed ++ [tail]).flatten archive.walBase.lsn)
    (hfault : ∀ e w done, done <+: new → Live codec w (log ++ done) durable →
      (∃ frame ∈ archived, ¬ Accepted codec rules log world.disk.walBase.lsn frame) → x.fault e w)
    (hpost : ∀ w, Live codec w (log ++ new) (extent (log ++ new)) →
      w.disk.walBase.lsn = world.disk.walBase.lsn →
      (∀ frame ∈ archived, Accepted codec rules log world.disk.walBase.lsn frame) →
        post (new.map Frame.record) w) :
    (replayFrom codec rules archive (extent log) world.disk.walBase.lsn).Ensures x post world := by
  have hsafe := hquiet.safe world
  obtain ⟨segments, scan, hread, hsegments, hfound, -, hvisited⟩ :=
    harchive.scan (Nat.zero_le _)
  rw [← harchived] at hvisited
  have hchained : Chained codec archive.walBase.lsn archived := by
    rw [harchived]
    exact harchive.chained_retained
  refine .bind (onDisk_ensures (readBase_ensures hsafe hattached.toIntact.readWalBase ?_))
  refine .bind (onDisk_ensures (listSegments_ensures hsafe hattached.toIntact.walSegments ?_))
  refine .bind (inArchive_ensures (readBase_ensures hsafe hread ?_))
  refine .bind (inArchive_ensures (listSegments_ensures hsafe hsegments ?_))
  simp only [hfound, hvisited]
  refine .bind (replayFrames_ensures h hattached hattached.images
    (PrefixReader.at_new _ _ _ _) rfl hchained hgap hboundary (le_max_right _ _) hquiet
    (hnew ▸ hfault) fun w hw hbase haccepted => ?_)
  rw [← hnew] at hw ⊢
  exact .bind (sync_ensures hw hquiet.bears fun w' hw' hbase' =>
    .pure (hpost w' hw' (hbase'.trans hbase) haccepted))

/-- **Replay of an archive.**  It returns exactly when the archive is `Replayable`; the log
is then followed by the archived frames behind its end, and otherwise by a beginning of
these. -/
theorem replayArchive_ensures
    (hfault : ∀ e w done, done <+: new → Live codec w (log ++ done) durable →
      ¬ Replayable codec rules log archived world.disk.walBase.lsn archive.walBase.lsn →
        x.fault e w)
    (hpost : ∀ w, Live codec w (log ++ new) (extent (log ++ new)) →
      w.disk.walBase.lsn = world.disk.walBase.lsn →
      Replayable codec rules log archived world.disk.walBase.lsn archive.walBase.lsn →
        post (new.map Frame.record) w) :
    (replayArchive codec rules archive).Ensures x post world := by
  have hsafe := hquiet.safe world
  have hrefused : ∀ e, ¬ Replayable codec rules log archived world.disk.walBase.lsn
      archive.walBase.lsn → x.fault e world := fun e hnot =>
    hfault e world [] nil_prefix (by rw [append_nil]; exact h) hnot
  obtain ⟨-, -, hread, -⟩ := harchive.scan (Nat.zero_le _)
  obtain ⟨havailable, gone, sealed, active, tail, hattached, -⟩ := id h
  have hflat : (sealed ++ [tail]).flatten = sealed.flatten ++ tail := by
    rw [flatten_append, flatten_singleton]
  have hend : extent log = world.disk.walBase.lsn + extent (sealed ++ [tail]).flatten := by
    rw [hattached.extent_log, hflat, extent_append, Nat.add_assoc]
  have hiff := fun hle : world.disk.walBase.lsn ≤ archive.walBase.lsn =>
    hflat ▸ hattached.toIntact.boundary_iff hle
  refine .bind (ensureAvailable_ensures havailable (.bind (hattached.len_ensures hsafe ?_)))
  refine .bind (onDisk_ensures (readBase_ensures hsafe hattached.toIntact.readWalBase ?_))
  refine .bind (inArchive_ensures (readBase_ensures hsafe hread ?_))
  refine .bind (.require (fun hgap => .bind ?_) fun hgap => hrefused _ fun hreplay =>
    hgap hreplay.noGap)
  -- What follows once the archive is known to begin at a boundary.
  have hrun : (world.disk.walBase.lsn ≤ archive.walBase.lsn → Boundary world.disk.walBase.lsn
      (sealed ++ [tail]).flatten archive.walBase.lsn) →
      (replayFrom codec rules archive (extent log) world.disk.walBase.lsn).Ensures x post
        world := by
    intro hboundary
    refine replayFrom_ensures h harchive harchived hnew hquiet hattached hgap hboundary ?_ ?_
    · rintro e w done hdone hw ⟨frame, hframe, hnot⟩
      exact hfault e w done hdone hw fun hreplay => hnot (hreplay.accepted frame hframe)
    · intro w hw hbase haccepted
      exact hpost w hw hbase ⟨hgap, fun hle => (hiff hle).mpr (hboundary hle), haccepted⟩
  refine .when (fun hoverlap => .bind (hattached.scanFrom_ensures hsafe _
    (fun hok _ => .pure (hrun fun hle => ?_)) fun hnot e => hrefused e fun hreplay => hnot ?_))
    fun hover => hrun fun hle => ?_
  · rw [max_eq_left hle] at hok
    rcases hok with hlow | hbound
    · exact ⟨[], _, rfl, le_antisymm hlow hle⟩
    · exact hbound
  · rcases le_total archive.walBase.lsn world.disk.walBase.lsn with hle | hle
    · exact .inl (by rw [max_eq_right hle])
    · rw [max_eq_left hle]
      exact .inr ((hiff hle).mp (hreplay.boundary hle))
  · rw [max_eq_left hle, not_lt] at hover
    exact ⟨_, [], (append_nil _).symm, by omega⟩

end

section

variable (harchived : Chained codec archive.walBase.lsn archived)
  (hnew : new = archived.filter fun frame => extent log ≤ frame.record.lsn)
include harchived hnew

/-- The archived frames behind the end of the log continue it, when no archived frame
straddles its end. -/
theorem extent_new (hgap : archive.walBase.lsn ≤ extent log)
    (hwhole : ∀ frame ∈ archived, ¬ frame.Straddles (extent log)) :
    ∀ frame ∈ archived, frame.record.lsn + frame.size ≤ extent (log ++ new) := by
  subst hnew
  generalize archive.walBase.lsn = lsn at harchived hgap
  induction harchived with
  | nil lsn => exact forall_mem_nil _
  | @cons lsn frame frames decodes fits rest ih =>
    have hhead : frame.record.lsn = lsn := (Chained.cons decodes fits rest).head_lsn
    have hstraddles := hwhole frame mem_cons_self
    rw [Frame.Straddles] at hstraddles
    rcases Nat.lt_or_ge lsn (extent log) with hlt | hge
    · rw [filter_cons, if_neg (by rw [decide_eq_true_iff]; omega)]
      intro f hf
      rcases mem_cons.mp hf with rfl | hf
      · rw [extent_append]
        omega
      · exact ih (fun f hf => hwhole f (mem_cons_of_mem _ hf)) (by omega) f hf
    · -- From here on all archived frames are new.
      have hall : (frame :: frames).filter (fun f => extent log ≤ f.record.lsn) =
          frame :: frames := filter_eq_self.mpr fun f hf => by
        have := (Chained.cons decodes fits rest).le_lsn f hf
        exact decide_eq_true (by omega)
      rw [hall, extent_append]
      intro f hf
      have := (Chained.cons decodes fits rest).end_le f hf
      omega

/-- An archive that has been replayed can be replayed again. -/
theorem Replayable.again {retained : ℕ}
    (h : Replayable codec rules log archived retained archive.walBase.lsn) :
    Replayable codec rules (log ++ new) archived retained archive.walBase.lsn ∧
      archived.filter (fun frame => extent (log ++ new) ≤ frame.record.lsn) = [] := by
  have hends := extent_new harchived hnew h.noGap fun frame hmem => (h.accepted frame hmem).whole.2
  have hlog : extent log ≤ extent (log ++ new) := by
    rw [extent_append]
    exact Nat.le_add_right _ _
  have hcovered : ∀ frame ∈ archived, ¬ extent (log ++ new) ≤ frame.record.lsn := by
    intro frame hmem hle
    have := hends frame hmem
    have := frame.size_pos
    omega
  refine ⟨⟨h.noGap.trans hlog, fun hle => (h.boundary hle).append new, fun frame hmem =>
    ⟨(h.accepted frame hmem).entry, ⟨(h.accepted frame hmem).whole.1, fun hstraddles => ?_⟩,
      fun hle hlt => ?_, fun hle => absurd hle (hcovered frame hmem)⟩⟩, ?_⟩
  · exact absurd (hends frame hmem) (not_le.mpr hstraddles.2)
  · rcases Nat.lt_or_ge frame.record.lsn (extent log) with hold | hfresh
    · obtain ⟨target, htarget, hlsn, hsame⟩ := (h.accepted frame hmem).agrees hle hold
      exact ⟨target, mem_append_left _ htarget, hlsn, hsame⟩
    · refine ⟨frame, mem_append_right _ ?_, rfl, rfl, rfl⟩
      rw [hnew]
      exact mem_filter.mpr ⟨hmem, decide_eq_true hfresh⟩
  · refine filter_eq_nil_iff.mpr fun frame hmem => ?_
    rw [decide_eq_true_iff]
    exact hcovered frame hmem

end

end Archive

section Sample

/-- Every entry is an ordinary one. -/
def ReplayRules.plain (encryptionEnabled : Bool) : ReplayRules ℕ where
  kind _ := .other
  validate _ := .ok ()
  encryptionEnabled
  isEncrypted _ := false
  appended _ := .ok ()

end Sample

end ChironDB.Wal
