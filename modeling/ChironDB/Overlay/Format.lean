/-
# Files of visibility overlays

`overlay.rs`.  A version of the visibility of a collection is a directory with one artifact for
each segment that has tombstones, one for the edges, and a bundle that lists the segments.  An
artifact is

| bytes | field |
| --- | --- |
| 8, 4, 4 | `MAGIC`, `FORMAT_VERSION`, flags |
| 8, 4 | length of the file, number of sections |
| 4 | CRC-32C of all other header fields |
| 4, 4 | id and flags of the section |
| 8, 8, 8 | its offset, length and element count |
| | payload |
| 4 | CRC-32C of the payload |

Tombstones of points are sets of ordinals by segment, and a segment without any is not kept, so
that they are sets of located ordinals.  Bitmaps are serialized by the `roaring` crate.
-/

import ChironDB.Codec.Framing
import ChironDB.Codec.Lines
import ChironDB.Fault.Result
import Mathlib.Data.Finset.Sort
import Mathlib.Data.String.Basic

namespace ChironDB.Overlay

open Codec Fault List

inductive GaussError
  | invalidRequest (message : String)
  | segmentCorruption (message : String)
  | io (message : String)
  deriving DecidableEq, Repr

abbrev Result := Except GaussError

/-- How an error is displayed. -/
def GaussError.display : GaussError → String
  | .invalidRequest message => "invalid request: " ++ message
  | .segmentCorruption message => "segment corruption in " ++ message
  | .io message => message

/-- An error inside a file is a corruption of the file. -/
def within {α : Type} (label : String) : Result α → Result α
  | .ok value => .ok value
  | .error e => .error (.segmentCorruption (label ++ e.display))

variable {α : Type}

theorem within_eq_ok {label : String} {x : Result α} {value : α} :
    within label x = .ok value ↔ x = .ok value := by
  cases x with
  | ok other => rfl
  | error e => simp [within]

/-! ## Sets -/

/-- `SegmentOrdinalSet`: ordinals by segment. -/
abbrev SegmentOrdinalSet := Finset (String × UInt32)

namespace SegmentOrdinalSet

variable (set : SegmentOrdinalSet)

def contains (segment : String) (ordinal : UInt32) : Bool := (segment, ordinal) ∈ set

def retainSegments (keep : String → Bool) : SegmentOrdinalSet := set.filter fun p => keep p.1

def unionWith (other : SegmentOrdinalSet) : SegmentOrdinalSet := set ∪ other

/-- The segments that have a bitmap. -/
def segments : Finset String := set.image Prod.fst

def bitmap (segment : String) : Finset UInt32 :=
  (set.filter fun p => p.1 = segment).image Prod.snd

/-- `insert_bitmap`; an empty bitmap is not kept. -/
def insertBitmap (segment : String) (bitmap : Finset UInt32) : SegmentOrdinalSet :=
  (set.filter fun p => p.1 ≠ segment) ∪ bitmap.image fun ordinal => (segment, ordinal)

end SegmentOrdinalSet

/-- The bitmaps of the `roaring` crate, as they are serialized. -/
structure Roaring where
  serialize : Finset UInt32 → Bytes
  deserialize : Bytes → Option (Finset UInt32)
  serializeTreemap : Finset UInt64 → Bytes
  deserializeTreemap : Bytes → Option (Finset UInt64)

/-- What is serialized is read back. -/
structure Roaring.Lawful (roaring : Roaring) : Prop where
  bitmap : ∀ set, roaring.deserialize (roaring.serialize set) = some set
  treemap : ∀ set, roaring.deserializeTreemap (roaring.serializeTreemap set) = some set

def graphAllocatorCounterBits : ℕ := 40

def graphAllocatorMaxEpoch : ℕ := 2 ^ 24 - 1

def graphAllocatorMaxCounter : ℕ := 2 ^ 40 - 1

/-- `EdgeId::from_parts`, the raw identity. -/
def edgeIdFromParts (epoch counter : ℕ) : Option ℕ :=
  if epoch = 0 ∨ epoch > graphAllocatorMaxEpoch ∨ counter = 0 ∨
      counter > graphAllocatorMaxCounter then none
  else some (epoch * 2 ^ graphAllocatorCounterBits + counter)

/-- An identity that its parts give back. -/
def edgeIdValid (raw : UInt64) : Bool :=
  edgeIdFromParts (raw.toNat / 2 ^ graphAllocatorCounterBits)
    (raw.toNat % 2 ^ graphAllocatorCounterBits) = some raw.toNat

def validateEdgeTombstones (edges : Finset UInt64) : Result Unit :=
  ensure (edges.filter (fun raw => !edgeIdValid raw) = ∅)
    (.invalidRequest "edge tombstone bitmap contains invalid EdgeId")

variable {edges : Finset UInt64}

@[simp] theorem validateEdgeTombstones_eq_ok :
    validateEdgeTombstones edges = .ok () ↔ ∀ raw ∈ edges, edgeIdValid raw := by
  rw [validateEdgeTombstones, ensure_eq_ok, decide_eq_true_eq, Finset.filter_eq_empty_iff]
  simp

structure OverlaySet where
  version : ℕ
  generation : ℕ
  pointTombstones : SegmentOrdinalSet
  edgeTombstones : Finset UInt64
  deriving DecidableEq

/-! ## Artifacts -/

/-- `MAGIC`. -/
def magic : Bytes := [71, 65, 85, 83, 79, 86, 48, 49]

def formatVersion : ℕ := 1

def flagPointBitmap : ℕ := 1

def flagEdgeBitmap : ℕ := 2

def flagBundle : ℕ := 3

def sectionPayload : ℕ := 1

def sectionCount : ℕ := 1

def artifactHeaderBytes : ℕ := 64

def maxOverlayFileBytes : ℕ := 1024 * 1024 * 1024

def maxOverlaySegments : ℕ := 65536

def maxSegmentIdBytes : ℕ := 255

def validateFlags (flags : ℕ) : Result Unit :=
  ensure (flags = flagPointBitmap || flags = flagEdgeBitmap || flags = flagBundle)
    (.invalidRequest "unknown overlay artifact group")

structure DecodedArtifact where
  elemCount : ℕ
  payload : Bytes

variable {payload file : Bytes} {flags : ℕ}

section Artifact

-- `crc_fast::crc32_iscsi`
variable (crc : Bytes → UInt32)

/-- The header up to its checksum. -/
def artifactStart (flags fileLen : ℕ) : List Bytes :=
  [magic, leBytes 4 formatVersion, leBytes 4 flags, leBytes 8 fileLen, leBytes 4 sectionCount]

/-- The table of the one section. -/
def artifactSection (payloadLen elemCount : ℕ) : List Bytes :=
  [leBytes 4 sectionPayload, leBytes 4 0, leBytes 8 artifactHeaderBytes, leBytes 8 payloadLen,
    leBytes 8 elemCount]

/-- The fields of an artifact. -/
def artifactFields (flags elemCount : ℕ) (payload : Bytes) : List Bytes :=
  let start := artifactStart flags (artifactHeaderBytes + (payload.length + 4))
  let table := artifactSection (payload.length + 4) elemCount
  start ++ [leBytes 4 (crc (start ++ table).flatten).toNat] ++ table ++
    [payload, leBytes 4 (crc payload).toNat]

def encodeArtifact (flags elemCount : ℕ) (payload : Bytes) : Result Bytes := do
  validateFlags flags
  ensure (artifactHeaderBytes + (payload.length + 4) ≤ maxOverlayFileBytes)
    (.invalidRequest "overlay artifact exceeds fixed size cap")
  pure (artifactFields crc flags elemCount payload).flatten

def readArtifact (file : Bytes) (expectedFlags : ℕ) : Result DecodedArtifact := do
  ensure (artifactHeaderBytes ≤ file.length && file.length ≤ maxOverlayFileBytes)
    (.segmentCorruption "overlay artifact length violates fixed limits")
  ensure (field file 0 8 = magic) (.segmentCorruption "bad overlay magic")
  ensure (ofLeBytes (field file 8 4) = formatVersion)
    (.segmentCorruption "unsupported overlay format version")
  let flags := ofLeBytes (field file 12 4)
  ensure (flags = flagPointBitmap || flags = flagEdgeBitmap || flags = flagBundle)
    (.segmentCorruption "unknown overlay artifact group")
  ensure (flags = expectedFlags) (.segmentCorruption "overlay artifact group mismatch")
  let fileLen := ofLeBytes (field file 16 8)
  ensure (fileLen = file.length) (.segmentCorruption "overlay file length mismatch")
  ensure (ofLeBytes (field file 24 4) = sectionCount)
    (.segmentCorruption "unsupported overlay section count")
  ensure ((crc (field file 0 28 ++ field file 32 32)).toNat = ofLeBytes (field file 28 4))
    (.segmentCorruption "overlay header CRC32C mismatch")
  let offset := ofLeBytes (field file 40 8)
  let length := ofLeBytes (field file 48 8)
  ensure (ofLeBytes (field file 32 4) = sectionPayload && ofLeBytes (field file 36 4) = 0 &&
      offset = artifactHeaderBytes)
    (.segmentCorruption "unsupported overlay section table")
  ensure (offset + length < 2 ^ 64) (.segmentCorruption "overlay section range overflow")
  ensure (offset + length = fileLen && 4 ≤ length)
    (.segmentCorruption "overlay section range mismatch")
  let payload := field file offset (length - 4)
  ensure ((crc payload).toNat = ofLeBytes (field file (offset + length - 4) 4))
    (.segmentCorruption "overlay payload CRC32C mismatch")
  pure ⟨ofLeBytes (field file 56 8), payload⟩

theorem artifactFields_flatten (flags elemCount : ℕ) (payload : Bytes) :
    (artifactFields crc flags elemCount payload).flatten =
      (artifactStart flags (artifactHeaderBytes + (payload.length + 4))).flatten ++
        (leBytes 4 (crc (artifactStart flags (artifactHeaderBytes + (payload.length + 4)) ++
          artifactSection (payload.length + 4) elemCount).flatten).toNat ++
        ((artifactSection (payload.length + 4) elemCount).flatten ++
          (payload ++ leBytes 4 (crc payload).toNat))) := by
  simp [artifactFields]

theorem artifactStart_length (flags fileLen : ℕ) :
    (artifactStart flags fileLen).flatten.length = 28 := by
  simp [artifactStart, magic]

theorem artifactSection_length (payloadLen elemCount : ℕ) :
    (artifactSection payloadLen elemCount).flatten.length = 32 := by
  simp [artifactSection]

theorem artifactFields_length (flags elemCount : ℕ) (payload : Bytes) :
    (artifactFields crc flags elemCount payload).flatten.length =
      artifactHeaderBytes + (payload.length + 4) := by
  rw [artifactFields_flatten]
  simp only [length_append, artifactStart_length, artifactSection_length, leBytes_length,
    artifactHeaderBytes]
  omega

theorem field_artifact (flags elemCount : ℕ) (payload : Bytes) :
    let file := (artifactFields crc flags elemCount payload).flatten
    let fileLen := artifactHeaderBytes + (payload.length + 4)
    field file 0 8 = magic ∧ field file 8 4 = leBytes 4 formatVersion ∧
      field file 12 4 = leBytes 4 flags ∧ field file 16 8 = leBytes 8 fileLen ∧
      field file 24 4 = leBytes 4 sectionCount ∧
      field file 28 4 = leBytes 4 (crc (artifactStart flags fileLen ++
        artifactSection (payload.length + 4) elemCount).flatten).toNat ∧
      field file 32 4 = leBytes 4 sectionPayload ∧ field file 36 4 = leBytes 4 0 ∧
      field file 40 8 = leBytes 8 artifactHeaderBytes ∧
      field file 48 8 = leBytes 8 (payload.length + 4) ∧ field file 56 8 = leBytes 8 elemCount ∧
      field file artifactHeaderBytes payload.length = payload ∧
      field file (artifactHeaderBytes + payload.length) 4 = leBytes 4 (crc payload).toNat := by
  refine ⟨field_flatten (i := 0) rfl rfl rfl, field_flatten (i := 1) rfl rfl rfl,
    field_flatten (i := 2) rfl rfl rfl, field_flatten (i := 3) rfl rfl rfl,
    field_flatten (i := 4) rfl rfl rfl, field_flatten (i := 5) rfl rfl rfl,
    field_flatten (i := 6) rfl rfl rfl, field_flatten (i := 7) rfl rfl rfl,
    field_flatten (i := 8) rfl rfl rfl, field_flatten (i := 9) rfl rfl rfl,
    field_flatten (i := 10) rfl rfl rfl, field_flatten (i := 11) rfl rfl rfl,
    field_flatten (i := 12) rfl ?_ rfl⟩
  simp [artifactFields, artifactStart, artifactSection, magic, artifactHeaderBytes]
  omega

/-- The checksum of the header covers all that is around it. -/
theorem field_artifact_around (flags elemCount : ℕ) (payload : Bytes) :
    let file := (artifactFields crc flags elemCount payload).flatten
    field file 0 28 ++ field file 32 32 =
      (artifactStart flags (artifactHeaderBytes + (payload.length + 4)) ++
        artifactSection (payload.length + 4) elemCount).flatten := by
  dsimp only
  rw [artifactFields_flatten, flatten_append]
  rfl

/-- **An artifact reads back.** -/
theorem readArtifact_encodeArtifact {elemCount : ℕ} (hcount : elemCount < 2 ^ 64)
    (h : encodeArtifact crc flags elemCount payload = .ok file) :
    readArtifact crc file flags = .ok ⟨elemCount, payload⟩ := by
  simp only [encodeArtifact, eq_ok, validateFlags] at h
  obtain ⟨hflags, hcap, rfl⟩ := h
  have hflags4 : ofLeBytes (leBytes 4 flags) = flags := by
    simp only [Bool.or_eq_true, decide_eq_true_eq] at hflags
    rcases hflags with (rfl | rfl) | rfl <;> rfl
  have hcap' : artifactHeaderBytes + (payload.length + 4) ≤ 2 ^ 30 := hcap
  have hlen := ofLeBytes_leBytes 8 (artifactHeaderBytes + (payload.length + 4)) (by omega)
  have hpay := ofLeBytes_leBytes 8 (payload.length + 4) (by omega)
  have helem := ofLeBytes_leBytes 8 elemCount hcount
  have hcrc (bytes : Bytes) := ofLeBytes_leBytes 4 _ (crc bytes).toNat_lt
  have hoffset : ofLeBytes (leBytes 8 artifactHeaderBytes) = artifactHeaderBytes := rfl
  obtain ⟨h0, h8, h12, h16, h24, h28, h32, h36, h40, h48, h56, hpayload, hlast⟩ :=
    field_artifact crc flags elemCount payload
  have haround := field_artifact_around crc flags elemCount payload
  simp only [readArtifact, eq_ok]
  rw [artifactFields_length, haround, h0, h8, h12, h16, h24, h28, h32, h36, h40, h48, h56, hflags4,
    hlen, hpay, helem, hoffset, Nat.add_sub_cancel, ← Nat.add_assoc, Nat.add_sub_cancel, hpayload,
    hlast, hcrc, hcrc]
  refine ⟨⟨by omega, ?_⟩, rfl, rfl, hflags, rfl, rfl, rfl, rfl, ⟨⟨rfl, rfl⟩, rfl⟩, by omega,
    ⟨rfl, by omega⟩, rfl, rfl⟩
  rw [Nat.add_assoc]
  exact hcap

end Artifact

/-! ## Bundles -/

/-- The bytes of a segment id. -/
def segmentBytes (segment : String) : Bytes := segment.toUTF8.data.toList

/-- `String::from_utf8`. -/
def segmentOfBytes (bytes : Bytes) : Result String :=
  match String.fromUTF8? ⟨bytes.toArray⟩ with
  | some segment => .ok segment
  | none => .error (.invalidRequest "overlay segment id is not UTF-8")

theorem segmentOfBytes_segmentBytes (segment : String) :
    segmentOfBytes (segmentBytes segment) = .ok segment := by
  have hsegment : String.fromUTF8? ⟨(segmentBytes segment).toArray⟩ = _ := ofUtf8?_utf8 segment
  rw [segmentOfBytes, hsegment]

/-- A byte of a segment id: a letter, a digit, `-` or `_`. -/
def segmentByte (b : UInt8) : Bool :=
  (48 ≤ b && b ≤ 57) || (65 ≤ b && b ≤ 90) || (97 ≤ b && b ≤ 122) || b = 45 || b = 95

def segmentIdValid (segment : String) : Bool :=
  segmentBytes segment ≠ [] && (segmentBytes segment).length ≤ maxSegmentIdBytes &&
    (segmentBytes segment).all segmentByte

def validateSegmentId (segment : String) : Result Unit :=
  ensure (segmentIdValid segment) (.invalidRequest "invalid segment id in visibility overlay")

/-- A segment id with its length. -/
def encodeSegment (segment : String) : Result Bytes := do
  validateSegmentId segment
  ensure ((segmentBytes segment).length < 2 ^ 16) (.invalidRequest "overlay segment id exceeds u16")
  pure (leBytes 2 (segmentBytes segment).length ++ segmentBytes segment)

def encodeBundleMetadata (version generation : ℕ) (segments : List String) : Result Bytes := do
  ensure (segments.length < 2 ^ 32) (.invalidRequest "overlay segment count exceeds u32")
  let entries ← segments.mapM encodeSegment
  pure (leBytes 8 version ++ (leBytes 8 generation ++ (leBytes 4 segments.length ++
    entries.flatten)))

/-- The next bytes under a cursor. -/
def readExact (width : ℕ) (error : GaussError) (rest : Bytes) : Result (Bytes × Bytes) := do
  ensure (width ≤ rest.length) error
  pure (rest.take width, rest.drop width)

/-- `read_u16`, `read_u32` and `read_u64`. -/
def readNumber (width : ℕ) (name : String) (rest : Bytes) : Result (ℕ × Bytes) := do
  let (bytes, rest) ← readExact width
    (.invalidRequest ("truncated " ++ name ++ ": failed to fill whole buffer")) rest
  pure (ofLeBytes bytes, rest)

/-- The loop of `decode_bundle_metadata`. -/
def decodeSegments : ℕ → Option String → Bytes → Result (List String × Bytes)
  | 0, _, rest => .ok ([], rest)
  | count + 1, previous, rest => do
    let (len, rest) ← readNumber 2 "overlay segment id length" rest
    ensure (len ≠ 0 && len ≤ maxSegmentIdBytes)
      (.invalidRequest "overlay segment id length exceeds fixed cap")
    let (bytes, rest) ← readExact len (.io "failed to fill whole buffer") rest
    let segment ← segmentOfBytes bytes
    validateSegmentId segment
    ensure (previous.all fun value => value < segment)
      (.invalidRequest "overlay segment ids are not strictly sorted")
    let (segments, rest) ← decodeSegments count (some segment) rest
    pure (segment :: segments, rest)

def decodeBundleMetadata (payload : Bytes) : Result (ℕ × ℕ × List String) := do
  let (version, rest) ← readNumber 8 "overlay version" payload
  let (generation, rest) ← readNumber 8 "overlay generation" rest
  let (count, rest) ← readNumber 4 "overlay segment count" rest
  ensure (count ≤ maxOverlaySegments) (.invalidRequest "overlay segment count exceeds fixed cap")
  let (segments, rest) ← decodeSegments count none rest
  ensure (rest = []) (.invalidRequest "overlay bundle has trailing metadata bytes")
  pure (version, generation, segments)

variable {width : ℕ}

theorem readExact_append (error : GaussError) {bytes : Bytes} (h : bytes.length = width)
    (rest : Bytes) : readExact width error (bytes ++ rest) = .ok (bytes, rest) := by
  subst h
  simp [readExact, ensure, bind, Except.bind, pure, Except.pure]

theorem readNumber_append {n : ℕ} (h : n < 256 ^ width) (name : String) (rest : Bytes) :
    readNumber width name (leBytes width n ++ rest) = .ok (n, rest) := by
  rw [readNumber, readExact_append _ (leBytes_length _ _)]
  simp [bind, Except.bind, pure, Except.pure, ofLeBytes_leBytes _ _ h]

variable {segment : String} {segments : List String}

theorem segmentIdValid_length (h : segmentIdValid segment) :
    (segmentBytes segment).length ≠ 0 ∧ (segmentBytes segment).length ≤ maxSegmentIdBytes := by
  simp only [segmentIdValid, Bool.and_eq_true, decide_eq_true_eq] at h
  exact ⟨fun hnil => h.1.1 (eq_nil_of_length_eq_zero hnil), h.1.2⟩

theorem encodeSegment_eq_ok {entry : Bytes} :
    encodeSegment segment = .ok entry ↔ segmentIdValid segment ∧
      entry = leBytes 2 (segmentBytes segment).length ++ segmentBytes segment := by
  simp only [encodeSegment, validateSegmentId, eq_ok]
  constructor
  · rintro ⟨hvalid, -, rfl⟩
    exact ⟨hvalid, rfl⟩
  · rintro ⟨hvalid, rfl⟩
    have hle := (segmentIdValid_length hvalid).2
    exact ⟨hvalid, hle.trans_lt (by decide), rfl⟩

variable {entries : List Bytes}

theorem decodeSegments_flatten (hsorted : segments.Pairwise (· < ·))
    (h : segments.mapM encodeSegment = .ok entries) {previous : Option String}
    (hprevious : ∀ value ∈ previous, ∀ segment ∈ segments, value < segment) (rest : Bytes) :
    decodeSegments segments.length previous (entries.flatten ++ rest) = .ok (segments, rest) := by
  induction segments generalizing previous entries with
  | nil =>
    rw [mapM_eq_ok] at h
    obtain rfl : entries = [] := by simpa using h.symm
    rfl
  | cons segment segments ih =>
    simp only [mapM_cons, eq_ok] at h
    obtain ⟨entry, hentry, others, hothers, rfl⟩ := h
    obtain ⟨hvalid, rfl⟩ := encodeSegment_eq_ok.mp hentry
    obtain ⟨hne, hle⟩ := segmentIdValid_length hvalid
    rw [pairwise_cons] at hsorted
    have hnext := ih hsorted.2 hothers fun value hvalue => by
      obtain rfl := Option.mem_some.mp hvalue
      exact hsorted.1
    have hlt : (segmentBytes segment).length < 256 ^ 2 := hle.trans_lt (by decide)
    have hfirst : (previous.all fun value => value < segment) = true := by
      cases previous with
      | none => rfl
      | some value =>
        simpa using hprevious value rfl segment mem_cons_self
    rw [length_cons, decodeSegments, flatten_cons, append_assoc,
      append_assoc, readNumber_append hlt]
    simp only [eq_ok, validateSegmentId]
    exact ⟨_, rfl, ⟨hne, hle⟩, _, readExact_append _ rfl _, segment,
      segmentOfBytes_segmentBytes segment, hvalid, hfirst, _, hnext, rfl⟩

/-- **A bundle reads back.** -/
theorem decodeBundleMetadata_encode {version generation : ℕ} (hversion : version < 2 ^ 64)
    (hgeneration : generation < 2 ^ 64) (hcount : segments.length ≤ maxOverlaySegments)
    (hsorted : segments.Pairwise (· < ·))
    (h : encodeBundleMetadata version generation segments = .ok payload) :
    decodeBundleMetadata payload = .ok (version, generation, segments) := by
  simp only [encodeBundleMetadata, eq_ok] at h
  obtain ⟨hcount4, entries, hentries, rfl⟩ := h
  have hsegments : decodeSegments segments.length none (entries.flatten ++ []) =
      .ok (segments, []) :=
    decodeSegments_flatten hsorted hentries (fun value hvalue => by cases hvalue) []
  rw [append_nil] at hsegments
  simp only [decodeBundleMetadata, eq_ok]
  exact ⟨_, readNumber_append hversion _ _, _, readNumber_append hgeneration _ _, _,
    readNumber_append hcount4 _ _, hcount, _, hsegments, rfl, rfl⟩

/-! ## Versions -/

/-- The directory of a version. -/
structure VersionDir where
  bundle : Bytes
  /-- The files of the segments, by the segment. -/
  points : List (String × Bytes)
  edges : Bytes
  deriving DecidableEq

section Version

variable (crc : Bytes → UInt32) (roaring : Roaring)

/-- The file of a segment. -/
def encodePoints (set : SegmentOrdinalSet) (segment : String) : Result (String × Bytes) := do
  validateSegmentId segment
  let bitmap := set.bitmap segment
  let artifact ← encodeArtifact crc flagPointBitmap bitmap.card (roaring.serialize bitmap)
  pure (segment, artifact)

/-- What `stage_version` writes. -/
def encodeVersion (overlay : OverlaySet) : Result VersionDir := do
  let segments := overlay.pointTombstones.segments.sort (· ≤ ·)
  ensure (segments.length ≤ maxOverlaySegments)
    (.invalidRequest "overlay segment count exceeds fixed cap")
  let points ← segments.mapM (encodePoints crc roaring overlay.pointTombstones)
  let edges ← encodeArtifact crc flagEdgeBitmap overlay.edgeTombstones.card
    (roaring.serializeTreemap overlay.edgeTombstones)
  let metadata ← encodeBundleMetadata overlay.version overlay.generation segments
  let bundle ← encodeArtifact crc flagBundle segments.length metadata
  pure ⟨bundle, points, edges⟩

/-- The bitmap of a segment joins those before it. -/
def decodePoints (dir : VersionDir) (set : SegmentOrdinalSet) (segment : String) :
    Result SegmentOrdinalSet := do
  let file ← (dir.points.lookup segment).elim (.error (.io "No such file or directory")) .ok
  let artifact ← readArtifact crc file flagPointBitmap
  let bitmap ← (roaring.deserialize artifact.payload).elim
    (.error (.segmentCorruption "point bitmap: ")) .ok
  ensure (bitmap.card = artifact.elemCount)
    (.segmentCorruption "point bitmap cardinality disagrees with artifact header")
  pure (set.insertBitmap segment bitmap)

/-- What `load_version` makes of a directory. -/
def decodeVersion (version : ℕ) (dir : VersionDir) : Result OverlaySet := do
  let bundle ← readArtifact crc dir.bundle flagBundle
  let (storedVersion, generation, segments) ←
    within "overlay bundle metadata: " (decodeBundleMetadata bundle.payload)
  ensure (storedVersion = version)
    (.segmentCorruption "overlay directory and bundle version disagree")
  ensure (bundle.elemCount = segments.length)
    (.segmentCorruption "overlay bundle segment count disagrees with section metadata")
  ensure ((dir.points.map Prod.fst).toFinset = segments.toFinset)
    (.segmentCorruption "overlay point group disagrees with bundle manifest")
  let points ← segments.foldlM (decodePoints crc roaring dir) ∅
  let artifact ← readArtifact crc dir.edges flagEdgeBitmap
  let edges ← (roaring.deserializeTreemap artifact.payload).elim
    (.error (.segmentCorruption "edge bitmap: ")) .ok
  ensure (edges.card = artifact.elemCount)
    (.segmentCorruption "edge bitmap cardinality disagrees with artifact header")
  within "" (validateEdgeTombstones edges)
  pure ⟨version, generation, points, edges⟩

variable {set : SegmentOrdinalSet}

theorem mem_bitmap {ordinal : UInt32} :
    ordinal ∈ set.bitmap segment ↔ (segment, ordinal) ∈ set := by
  simp [SegmentOrdinalSet.bitmap]

variable {other : SegmentOrdinalSet} {p : String × UInt32}

theorem mem_insertBitmap :
    p ∈ set.insertBitmap segment (other.bitmap segment) ↔
      if p.1 = segment then p ∈ other else p ∈ set := by
  obtain ⟨found, ordinal⟩ := p
  rw [SegmentOrdinalSet.insertBitmap, Finset.mem_union, Finset.mem_filter, Finset.mem_image]
  by_cases h : found = segment
  · subst h
    simp [mem_bitmap]
  · simp [h, Ne.symm h]

theorem mem_foldl_insertBitmap :
    p ∈ segments.foldl (fun set segment => SegmentOrdinalSet.insertBitmap set segment
        (other.bitmap segment)) set ↔ if p.1 ∈ segments then p ∈ other else p ∈ set := by
  induction segments generalizing set with
  | nil => simp
  | cons segment segments ih =>
    rw [foldl_cons, ih, mem_insertBitmap]
    by_cases hhead : p.1 = segment
    · by_cases hrest : p.1 ∈ segments <;> simp [hhead]
    · simp [hhead]

theorem foldl_insertBitmap_segments (set : SegmentOrdinalSet) :
    (set.segments.sort (· ≤ ·)).foldl (fun acc segment => SegmentOrdinalSet.insertBitmap acc
      segment (set.bitmap segment)) ∅ = set := by
  ext p
  rw [mem_foldl_insertBitmap]
  split
  · rfl
  · next hnone =>
    have hout : p ∉ set := fun hp =>
      hnone ((Finset.mem_sort _).mpr (Finset.mem_image.mpr ⟨p, hp, rfl⟩))
    simp [hout]

variable {points : List (String × Bytes)}

/-- A file is found under the segment it was written for. -/
theorem lookup_of_mapM (h : segments.mapM (encodePoints crc roaring set) = .ok points)
    (hsegment : segment ∈ segments) :
    ∃ file, points.lookup segment = some file ∧
      encodePoints crc roaring set segment = .ok (segment, file) := by
  induction segments generalizing points with
  | nil => cases hsegment
  | cons first segments ih =>
    simp only [mapM_cons, eq_ok] at h
    obtain ⟨⟨name, file⟩, hfirst, others, hothers, rfl⟩ := h
    have hname : name = first := by
      simp only [encodePoints, eq_ok, Prod.mk.injEq] at hfirst
      obtain ⟨-, -, -, rfl, -⟩ := hfirst
      rfl
    subst hname
    by_cases heq : segment = name
    · subst heq
      exact ⟨file, by simp, hfirst⟩
    · obtain ⟨found, hlookup, hfound⟩ := ih hothers (mem_of_ne_of_mem heq hsegment)
      refine ⟨found, ?_, hfound⟩
      rw [lookup_cons, beq_false_of_ne heq]
      exact hlookup

theorem map_fst_of_mapM (h : segments.mapM (encodePoints crc roaring set) = .ok points) :
    points.map Prod.fst = segments := by
  induction segments generalizing points with
  | nil =>
    rw [mapM_eq_ok] at h
    obtain rfl : points = [] := by simpa using h.symm
    rfl
  | cons first segments ih =>
    simp only [mapM_cons, eq_ok] at h
    obtain ⟨⟨name, file⟩, hfirst, others, hothers, rfl⟩ := h
    simp only [encodePoints, eq_ok, Prod.mk.injEq] at hfirst
    obtain ⟨-, -, -, rfl, -⟩ := hfirst
    rw [map_cons, ih hothers]

theorem card_bitmap_lt (bitmap : Finset UInt32) : bitmap.card < 2 ^ 64 := by
  have hinj : (bitmap.image UInt32.toNat).card = bitmap.card :=
    Finset.card_image_of_injective _ fun _ _ => UInt32.toNat_inj.mp
  have hsub : bitmap.image UInt32.toNat ⊆ Finset.range (2 ^ 32) := by
    intro n hn
    obtain ⟨ordinal, -, rfl⟩ := Finset.mem_image.mp hn
    exact Finset.mem_range.mpr ordinal.toNat_lt
  have hle := Finset.card_le_card hsub
  rw [hinj, Finset.card_range] at hle
  omega

/-- Valid identities are not zero, so there are fewer than 64-bit numbers. -/
theorem card_edges_lt (h : ∀ raw ∈ edges, edgeIdValid raw) : edges.card < 2 ^ 64 := by
  have hinj : (edges.image UInt64.toNat).card = edges.card :=
    Finset.card_image_of_injective _ fun _ _ => UInt64.toNat_inj.mp
  have hsub : edges.image UInt64.toNat ⊆ (Finset.range (2 ^ 64)).erase 0 := by
    intro n hn
    obtain ⟨raw, hraw, rfl⟩ := Finset.mem_image.mp hn
    refine Finset.mem_erase.mpr ⟨fun hzero => ?_, Finset.mem_range.mpr raw.toNat_lt⟩
    have hvalid := h raw hraw
    simp [edgeIdValid, hzero, edgeIdFromParts] at hvalid
  have hle := Finset.card_le_card hsub
  rw [hinj, Finset.card_erase_of_mem (by simp), Finset.card_range] at hle
  omega

/-- What a version that is written fulfils. -/
structure OverlaySet.Fits (overlay : OverlaySet) : Prop where
  version : overlay.version < 2 ^ 64
  generation : overlay.generation < 2 ^ 64
  edges : ∀ raw ∈ overlay.edgeTombstones, edgeIdValid raw

variable {roaring}

theorem decodePoints_eq (lawful : roaring.Lawful) {dir : VersionDir}
    (hlookup : dir.points.lookup segment = some file)
    (hfile : encodePoints crc roaring set segment = .ok (segment, file)) (acc : SegmentOrdinalSet) :
    decodePoints crc roaring dir acc segment =
      .ok (acc.insertBitmap segment (set.bitmap segment)) := by
  simp only [encodePoints, eq_ok, Prod.mk.injEq, true_and, exists_eq_right] at hfile
  have hread := readArtifact_encodeArtifact crc (card_bitmap_lt _) hfile.2
  simp only [decodePoints, eq_ok]
  exact ⟨file, by rw [hlookup]; rfl, _, hread, _, by rw [lawful.bitmap]; rfl, rfl, rfl⟩

/-- **A version reads back.** -/
theorem decodeVersion_encodeVersion (lawful : roaring.Lawful) {overlay : OverlaySet}
    (hfits : overlay.Fits) {dir : VersionDir} (h : encodeVersion crc roaring overlay = .ok dir) :
    decodeVersion crc roaring overlay.version dir = .ok overlay := by
  simp only [encodeVersion, eq_ok] at h
  obtain ⟨hcount, points, hpoints, edges, hedges, metadata, hmetadata, bundle, hbundle, rfl⟩ := h
  have hsorted := (Finset.sortedLT_sort overlay.pointTombstones.segments).pairwise
  have hread := readArtifact_encodeArtifact crc (by
    have : maxOverlaySegments < 2 ^ 64 := by decide
    omega) hbundle
  have hdecoded := decodeBundleMetadata_encode hfits.version hfits.generation hcount hsorted
    hmetadata
  have hedgesRead := readArtifact_encodeArtifact crc (card_edges_lt hfits.edges) hedges
  have hfold : (overlay.pointTombstones.segments.sort (· ≤ ·)).foldlM
      (decodePoints crc roaring ⟨bundle, points, edges⟩) ∅ = .ok overlay.pointTombstones := by
    rw [foldlM_eq_foldl (g := fun set segment => SegmentOrdinalSet.insertBitmap set segment
      (overlay.pointTombstones.bitmap segment)), foldl_insertBitmap_segments]
    intro segment hsegment acc
    obtain ⟨file, hlookup, hfile⟩ := lookup_of_mapM crc roaring hpoints hsegment
    exact decodePoints_eq crc lawful hlookup hfile acc
  simp only [decodeVersion, eq_ok, within_eq_ok, validateEdgeTombstones_eq_ok]
  exact ⟨_, hread, _, hdecoded, rfl, rfl, by rw [map_fst_of_mapM crc roaring hpoints], _, hfold, _,
    hedgesRead, _, by rw [lawful.treemap]; rfl, rfl, hfits.edges, rfl⟩

variable (roaring)

/-- What `stage_version` demands of a version. -/
structure OverlaySet.Stageable (overlay : OverlaySet) : Prop where
  count : overlay.pointTombstones.segments.card ≤ maxOverlaySegments
  ids : ∀ segment ∈ overlay.pointTombstones.segments, segmentIdValid segment
  points : ∀ segment ∈ overlay.pointTombstones.segments, artifactHeaderBytes +
    ((roaring.serialize (overlay.pointTombstones.bitmap segment)).length + 4) ≤ maxOverlayFileBytes
  edges : artifactHeaderBytes +
    ((roaring.serializeTreemap overlay.edgeTombstones).length + 4) ≤ maxOverlayFileBytes

variable {roaring}

theorem mapM_ok {β : Type} {f : α → Result β} {items : List α}
    (h : ∀ item ∈ items, ∃ result, f item = .ok result) :
    ∃ results, items.mapM f = .ok results := by
  induction items with
  | nil => exact ⟨[], rfl⟩
  | cons item items ih =>
    rw [forall_mem_cons] at h
    obtain ⟨result, hresult⟩ := h.1
    obtain ⟨results, hresults⟩ := ih h.2
    refine ⟨result :: results, ?_⟩
    simp only [mapM_cons, eq_ok]
    exact ⟨result, hresult, results, hresults, rfl⟩

theorem encodeArtifact_ok (elemCount : ℕ) (hflags : validateFlags flags = .ok ())
    (hcap : artifactHeaderBytes + (payload.length + 4) ≤ maxOverlayFileBytes) :
    encodeArtifact crc flags elemCount payload =
      .ok (artifactFields crc flags elemCount payload).flatten := by
  simp only [encodeArtifact, eq_ok, pure, Except.pure]
  exact ⟨hflags, hcap, trivial⟩

theorem encodeSegments_length (h : segments.mapM encodeSegment = .ok entries) :
    entries.flatten.length ≤ segments.length * 257 := by
  induction segments generalizing entries with
  | nil =>
    rw [mapM_eq_ok] at h
    obtain rfl : entries = [] := by simpa using h.symm
    exact le_rfl
  | cons segment segments ih =>
    simp only [mapM_cons, eq_ok] at h
    obtain ⟨entry, hentry, others, hothers, rfl⟩ := h
    obtain ⟨hvalid, rfl⟩ := encodeSegment_eq_ok.mp hentry
    have hle := (segmentIdValid_length hvalid).2
    have hrest := ih hothers
    rw [maxSegmentIdBytes] at hle
    simp only [flatten_cons, length_append, leBytes_length, length_cons]
    omega

/-- **A version that meets the demands is written.** -/
theorem encodeVersion_ok {overlay : OverlaySet} (h : overlay.Stageable roaring) :
    ∃ dir, encodeVersion crc roaring overlay = .ok dir := by
  have hmem : ∀ segment ∈ overlay.pointTombstones.segments.sort (· ≤ ·),
      segment ∈ overlay.pointTombstones.segments := fun segment hs => (Finset.mem_sort _).mp hs
  have hlength : (overlay.pointTombstones.segments.sort (· ≤ ·)).length ≤ maxOverlaySegments := by
    rw [Finset.length_sort]
    exact h.count
  have hpoint : ∀ segment ∈ overlay.pointTombstones.segments.sort (· ≤ ·), ∃ file,
      encodePoints crc roaring overlay.pointTombstones segment = .ok file := by
    intro segment hsegment
    simp only [encodePoints, validateSegmentId, eq_ok]
    exact ⟨_, h.ids _ (hmem _ hsegment), _,
      encodeArtifact_ok crc _ rfl (h.points _ (hmem _ hsegment)), rfl⟩
  have hentry : ∀ segment ∈ overlay.pointTombstones.segments.sort (· ≤ ·), ∃ entry,
      encodeSegment segment = .ok entry :=
    fun segment hsegment => ⟨_, encodeSegment_eq_ok.mpr ⟨h.ids _ (hmem _ hsegment), rfl⟩⟩
  obtain ⟨points, hpoints⟩ := mapM_ok hpoint
  obtain ⟨entries, hentries⟩ := mapM_ok hentry
  have hentriesLength := encodeSegments_length hentries
  simp only [encodeVersion, encodeBundleMetadata, eq_ok]
  refine ⟨_, hlength, points, hpoints, _, encodeArtifact_ok crc _ rfl h.edges, _,
    ⟨hlength.trans_lt (by decide), entries, hentries, rfl⟩, _,
    encodeArtifact_ok crc _ rfl ?_, rfl⟩
  simp only [length_append, leBytes_length, artifactHeaderBytes, maxOverlayFileBytes]
  rw [maxOverlaySegments] at hlength
  omega

end Version

end ChironDB.Overlay
