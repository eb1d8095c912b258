/-
# WAL records, frames and the scan

`chirondb-core/src/wal.rs`: a segment of the write-ahead log is a concatenation of
frames, a frame being the length and the checksum of a payload (`HEADER_LEN` bytes
in all) and the payload itself, an encoded record that carries its own LSN.
`scan_frames_decoded` walks the segments of a log from its base, checks every frame
and hands those at or beyond a watermark to a visitor.

The scan is pure here: it returns the frames it visits, in order, and how it ends
(`Stop` when it is not at the end of the log).  The record codec and the checksum
are parameters (`RecordCodec`): JSON, the encryption envelope and CRC-32 come from
elsewhere, and of them only that a stored record reads back is assumed.

The second half relates the scan to a log made of frames.  On whole frames it does
what `walk` does (`scanSegment_image`), a cut frame stops it as a torn tail
(`scanSegment_torn`), and `walk` succeeds exactly when the watermark is a frame
boundary (`walk_start_eq_ok_iff`).
-/

import ChironDB.Codec.Framing

namespace ChironDB.Wal

open Codec List

/-- A path below the WAL directory. -/
inductive WalPath
  | directory
  | base
  | segment (index : ℕ)
  deriving DecidableEq, Repr

/-- `segment_name`: six digits at least. -/
def segmentName (index : ℕ) : String :=
  "".pushn '0' (6 - (toString index).length) ++ toString index ++ ".gdwal"

def WalPath.display : WalPath → String
  | .directory => "."
  | .base => "wal.base"
  | .segment index => segmentName index

/-- The cases of `GaussError` that the WAL code returns; `codec` stands for the
errors of the record codec and of the entry checks. -/
inductive GaussError
  | io
  | invalidRequest (message : String)
  | walUnavailable (message : String)
  | walCorruption (path : WalPath) (message : String)
  | codec (message : String)
  deriving DecidableEq, Repr

/-- The text of an error. -/
def GaussError.text : GaussError → String
  | .io => "I/O error"
  | .invalidRequest message => "invalid request: " ++ message
  | .walUnavailable message => "wal unavailable: " ++ message
  | .walCorruption path message => "wal corruption in " ++ path.display ++ ": " ++ message
  | .codec message => message

/-- `WalRecord`. -/
structure WalRecord (Entry : Type) where
  lsn : ℕ
  unixMs : ℕ
  entry : Entry
  deriving DecidableEq, Repr

/-- `PersistedWalRecord`: records written before LSNs were stored are bare entries. -/
inductive PersistedWalRecord (Entry : Type)
  | record (record : WalRecord Entry)
  | legacy (entry : Entry)

/-- What the WAL needs of the code around it: the checks `append_inner` makes on an
entry, JSON, the encryption envelope (`nonce` is its randomness) and the checksum. -/
structure RecordCodec (Entry : Type) where
  admission : Entry → Except GaussError Unit
  toVec : WalRecord Entry → Except GaussError Bytes
  fromSlice : Bytes → Except String (PersistedWalRecord Entry)
  encodePersistent : (nonce : ℕ) → Bytes → Except GaussError Bytes
  decodePersistent : Bytes → Except String Bytes
  checksum : Bytes → UInt32
  /-- A serialised record parses to itself. -/
  fromSlice_toVec : ∀ record text, toVec record = .ok text → fromSlice text = .ok (.record record)
  /-- An envelope opens to what was put in it. -/
  decode_encode : ∀ nonce text payload, encodePersistent nonce text = .ok payload →
    decodePersistent payload = .ok text

/-- A codec for concrete runs: three bytes for the LSN, the time and the entry, no
envelope and no checksum. -/
def byteCodec : RecordCodec ℕ where
  admission _ := .ok ()
  toVec record :=
    if record.lsn < 256 ∧ record.unixMs < 256 ∧ record.entry < 256 then
      .ok [UInt8.ofNat record.lsn, UInt8.ofNat record.unixMs, UInt8.ofNat record.entry]
    else .error (.codec "field out of range")
  fromSlice
    | [lsn, unixMs, entry] => .ok (.record ⟨lsn.toNat, unixMs.toNat, entry.toNat⟩)
    | _ => .error "three bytes expected"
  encodePersistent _ text := .ok text
  decodePersistent payload := .ok payload
  checksum _ := 0
  fromSlice_toVec := by
    intro record text htext
    split_ifs at htext with hfits
    cases htext
    simp only [UInt8.toNat_ofNat', Nat.mod_eq_of_lt hfits.1, Nat.mod_eq_of_lt hfits.2.1,
      Nat.mod_eq_of_lt hfits.2.2]
  decode_encode := by
    intro nonce text payload hpayload
    cases hpayload
    rfl

/-- `HEADER_LEN`. -/
def headerLen : ℕ := 8

/-- `MAX_WAL_RECORD_BYTES`. -/
def maxWalRecordBytes : ℕ := 64 * 1024 * 1024

variable {Entry : Type} (codec : RecordCodec Entry)

/-- `encode_record`, at the time `unixMs`. -/
def encodeRecord (lsn unixMs nonce : ℕ) (entry : Entry) : Except GaussError Bytes := do
  let plaintext ← codec.toVec { lsn, unixMs, entry }
  codec.encodePersistent nonce plaintext

/-- `decode_record`. -/
def decodeRecord (path : WalPath) (recordLsn : ℕ) (payload : Bytes) :
    Except GaussError (WalRecord Entry) :=
  match codec.decodePersistent payload with
  | .error e => .error (.walCorruption path ("cannot authenticate WAL record: " ++ e))
  | .ok plaintext =>
    match codec.fromSlice plaintext with
    | .error e => .error (.walCorruption path ("invalid WAL record JSON: " ++ e))
    | .ok (.record record) =>
      if record.lsn ≠ recordLsn then .error (.walCorruption path "lsn mismatch")
      else .ok record
    | .ok (.legacy entry) => .ok { lsn := recordLsn, unixMs := 0, entry }

/-- A record and the payload it was read from. -/
structure Frame (Entry : Type) where
  record : WalRecord Entry
  payload : Bytes
  deriving DecidableEq, Repr

/-- The bytes a frame takes in a segment. -/
def Frame.size (frame : Frame Entry) : ℕ := headerLen + frame.payload.length

/-- What `append_payload` writes: length, checksum, payload. -/
def frameBytes (payload : Bytes) : Bytes :=
  leBytes 4 payload.length ++ (leBytes 4 (codec.checksum payload).toNat ++ payload)

/-- The bytes of a run of frames. -/
def image (frames : List (Frame Entry)) : Bytes :=
  (frames.map fun frame => frameBytes codec frame.payload).flatten

/-- The bytes a run of frames takes. -/
def extent (frames : List (Frame Entry)) : ℕ := (frames.map Frame.size).sum

/-- Where a scan is: the LSN reached, whether the watermark has been seen to be a
record boundary, and the frames handed to the visitor. -/
structure Scan (Entry : Type) where
  offset : ℕ
  watermarkIsBoundary : Bool
  visited : List (Frame Entry)
  deriving DecidableEq, Repr

/-- Why a scan ends before the end of the log: a torn tail, for
`repair_or_reject_torn_tail`, or an error. -/
inductive Stop
  | torn (index : ℕ) (finalActive : Bool) (segmentOffset tornBytes : ℕ) (message : String)
  | failed (error : GaussError)
  deriving DecidableEq, Repr

/-- One frame of the scan: it is visited at or beyond the watermark. -/
def Scan.visit (watermark : ℕ) (scan : Scan Entry) (frame : Frame Entry) : Scan Entry where
  offset := scan.offset + frame.size
  watermarkIsBoundary := scan.watermarkIsBoundary || scan.offset == watermark ||
    scan.offset + frame.size == watermark
  visited := if watermark ≤ scan.offset then scan.visited ++ [frame] else scan.visited

/-- The scan has passed the watermark without meeting it at a record boundary. -/
def Scan.Missed (watermark base : ℕ) (scan : Scan Entry) : Prop :=
  watermark < scan.offset ∧ scan.watermarkIsBoundary = false ∧ base < watermark

instance (watermark base : ℕ) (scan : Scan Entry) : Decidable (scan.Missed watermark base) :=
  inferInstanceAs (Decidable (_ ∧ _ ∧ _))

/-- The error of a watermark inside a record. -/
def notBoundary (watermark : ℕ) : GaussError :=
  .invalidRequest ("WAL watermark " ++ toString watermark ++ " is not a record boundary")

/-- The inner loop of `scan_frames_decoded`, over the rest of one segment.  Every
round takes a header at least, so the length of the segment is enough `fuel`. -/
def scanSegment (index : ℕ) (finalActive : Bool) (watermark base : ℕ) :
    (fuel : ℕ) → (rest : Bytes) → (segmentOffset : ℕ) → Scan Entry →
      Except (Stop × Scan Entry) (Scan Entry)
  | 0, _, _, scan => .ok scan
  | fuel + 1, rest, segmentOffset, scan =>
    if rest = [] then .ok scan
    else if rest.length < headerLen then
      .error (.torn index finalActive segmentOffset rest.length "partial wal header", scan)
    else
      let len := ofLeBytes (rest.take 4)
      if maxWalRecordBytes < len then
        .error (.failed (.walCorruption (.segment index)
          ("wal record length " ++ toString len ++ " exceeds maximum " ++
            toString maxWalRecordBytes)), scan)
      else if rest.length < headerLen + len then
        .error (.torn index finalActive segmentOffset rest.length "torn wal record", scan)
      else
        let payload := (rest.drop headerLen).take len
        if (codec.checksum payload).toNat ≠ ofLeBytes ((rest.drop 4).take 4) then
          .error (.failed (.walCorruption (.segment index) "crc mismatch"), scan)
        else
          match decodeRecord codec (.segment index) scan.offset payload with
          | .error e => .error (.failed e, scan)
          | .ok record =>
            let scan' := scan.visit watermark ⟨record, payload⟩
            if scan'.Missed watermark base then
              .error (.failed (notBoundary watermark), scan')
            else
              scanSegment index finalActive watermark base fuel
                (rest.drop (headerLen + len)) (segmentOffset + headerLen + len) scan'

/-- The outer loop of `scan_frames_decoded`, over segments with their indices. -/
def scanSegments (watermark base : ℕ) :
    List (ℕ × Bytes) → Scan Entry → Except (Stop × Scan Entry) (Scan Entry)
  | [], scan => .ok scan
  | (index, bytes) :: later, scan =>
    if bytes = [] ∧ later ≠ [] then
      .error (.failed (.walCorruption (.segment index) "empty sealed wal segment"), scan)
    else
      match scanSegment codec index later.isEmpty watermark base bytes.length bytes 0 scan with
      | .error stop => .error stop
      | .ok scan' => scanSegments watermark base later scan'

/-- Where a scan starts. -/
def Scan.start (watermark base : ℕ) : Scan Entry where
  offset := base
  watermarkIsBoundary := watermark ≤ base
  visited := []

/-- `scan_frames_decoded` from the listing of the segments on: where the scan got to,
with the frames it visited, and why it stopped if it is not at the end of the log. -/
def scanFrames (watermark base : ℕ) (segments : List (ℕ × Bytes)) : Scan Entry × Option Stop :=
  match scanSegments codec watermark base segments (.start watermark base) with
  | .error (stop, scan) => (scan, some stop)
  | .ok scan =>
    if scan.offset < watermark then
      (scan, some (.failed (.invalidRequest ("WAL watermark " ++ toString watermark ++
        " exceeds WAL length " ++ toString scan.offset))))
    else (scan, none)

variable {lsn watermark base : ℕ} {payload : Bytes} {frames xs : List (Frame Entry)}
  {scan : Scan Entry}

variable {ys : List (Frame Entry)}

section Frames

theorem decodeRecord_encodeRecord {unixMs nonce : ℕ} {entry : Entry}
    (h : encodeRecord codec lsn unixMs nonce entry = .ok payload) (path : WalPath) :
    decodeRecord codec path lsn payload = .ok { lsn, unixMs, entry } := by
  cases htext : codec.toVec { lsn, unixMs, entry } with
  | error e =>
    rw [encodeRecord, htext] at h
    cases h
  | ok plaintext =>
    rw [encodeRecord, htext] at h
    rw [decodeRecord, codec.decode_encode nonce plaintext payload h]
    simp only [codec.fromSlice_toVec _ _ htext, ne_eq, not_true_eq_false, if_false]

theorem decodeRecord_lsn {path : WalPath} {record : WalRecord Entry}
    (h : decodeRecord codec path lsn payload = .ok record) : record.lsn = lsn := by
  rw [decodeRecord] at h
  split at h
  · cases h
  · split at h
    · cases h
    · split_ifs at h with hlsn
      cases h
      exact not_not.mp hlsn
    · cases h
      rfl

@[simp] theorem frameBytes_length (payload : Bytes) :
    (frameBytes codec payload).length = headerLen + payload.length := by
  simp only [frameBytes, length_append, leBytes_length, headerLen]
  omega

theorem frameBytes_ne_nil (payload : Bytes) : frameBytes codec payload ≠ [] := by
  intro h
  have hlen := congrArg List.length h
  rw [frameBytes_length, length_nil, headerLen] at hlen
  omega

@[simp] theorem image_nil : image codec ([] : List (Frame Entry)) = [] := rfl

@[simp] theorem image_cons (frame : Frame Entry) (frames : List (Frame Entry)) :
    image codec (frame :: frames) = frameBytes codec frame.payload ++ image codec frames := rfl

@[simp] theorem image_append (xs ys : List (Frame Entry)) :
    image codec (xs ++ ys) = image codec xs ++ image codec ys := by
  rw [image, map_append, flatten_append]
  rfl

@[simp] theorem extent_nil : extent ([] : List (Frame Entry)) = 0 := rfl

@[simp] theorem extent_cons (frame : Frame Entry) (frames : List (Frame Entry)) :
    extent (frame :: frames) = frame.size + extent frames := rfl

@[simp] theorem extent_append (xs ys : List (Frame Entry)) :
    extent (xs ++ ys) = extent xs + extent ys := by
  rw [extent, map_append, sum_append]
  rfl

theorem extent_concat (xs : List (Frame Entry)) (frame : Frame Entry) :
    extent (xs ++ [frame]) = extent xs + frame.size :=
  extent_append xs [frame]

theorem Frame.size_pos (frame : Frame Entry) : 0 < frame.size := by
  rw [Frame.size, headerLen]
  omega

@[simp] theorem image_length (frames : List (Frame Entry)) :
    (image codec frames).length = extent frames := by
  induction frames with
  | nil => rfl
  | cons frame frames ih =>
    rw [image_cons, length_append, ih, frameBytes_length, extent_cons, Frame.size]

theorem extent_eq_zero_iff : extent frames = 0 ↔ frames = [] := by
  cases frames with
  | nil => simp
  | cons frame frames =>
    have := frame.size_pos
    simp only [extent_cons, reduceCtorEq, iff_false]
    omega

theorem image_eq_nil_iff : image codec frames = [] ↔ frames = [] := by
  rw [← length_eq_zero_iff, image_length, extent_eq_zero_iff]

theorem length_le_extent (frames : List (Frame Entry)) : frames.length ≤ extent frames := by
  induction frames with
  | nil => exact le_rfl
  | cons frame frames ih =>
    have := frame.size_pos
    rw [length_cons, extent_cons]
    omega

/-- The frames are a log from `lsn` on: each payload has an admitted length and
decodes to the frame's record at the LSN where the frame stands. -/
inductive Chained : ℕ → List (Frame Entry) → Prop
  | nil (lsn : ℕ) : Chained lsn []
  | cons {lsn : ℕ} {frame : Frame Entry} {frames : List (Frame Entry)}
      (decodes : ∀ path, decodeRecord codec path lsn frame.payload = .ok frame.record)
      (fits : frame.payload.length ≤ maxWalRecordBytes)
      (rest : Chained (lsn + frame.size) frames) : Chained lsn (frame :: frames)

variable {codec}

theorem Chained.append_iff :
    Chained codec lsn (xs ++ ys) ↔ Chained codec lsn xs ∧ Chained codec (lsn + extent xs) ys := by
  induction xs generalizing lsn with
  | nil => exact ⟨fun h => ⟨.nil lsn, h⟩, fun h => h.2⟩
  | cons frame xs ih =>
    rw [extent_cons, ← Nat.add_assoc]
    constructor
    · intro h
      cases h with
      | cons decodes fits rest =>
        obtain ⟨hxs, hys⟩ := ih.mp rest
        exact ⟨.cons decodes fits hxs, hys⟩
    · rintro ⟨h, hys⟩
      cases h with
      | cons decodes fits rest => exact .cons decodes fits (ih.mpr ⟨rest, hys⟩)

/-- The LSNs of a log start at its base and leave no gap. -/
theorem Chained.head_lsn {frame : Frame Entry}
    (h : Chained codec lsn (frame :: frames)) : frame.record.lsn = lsn := by
  cases h with
  | cons decodes fits rest => exact decodeRecord_lsn codec (decodes .directory)

section

variable (h : Chained codec lsn frames)
include h

theorem Chained.at_mem {frame : Frame Entry}
    (hmem : frame ∈ frames) : ∃ before after, frames = before ++ frame :: after ∧
      Chained codec (lsn + extent before) (frame :: after) := by
  obtain ⟨before, after, rfl⟩ := append_of_mem hmem
  exact ⟨before, after, rfl, (Chained.append_iff.mp h).2⟩

theorem Chained.le_lsn :
    ∀ frame ∈ frames, lsn ≤ frame.record.lsn := by
  intro frame hmem
  obtain ⟨before, after, -, hat⟩ := h.at_mem hmem
  rw [hat.head_lsn]
  exact Nat.le_add_right _ _

theorem Chained.end_le :
    ∀ frame ∈ frames, frame.record.lsn + frame.size ≤ lsn + extent frames := by
  intro frame hmem
  obtain ⟨before, after, rfl, hat⟩ := h.at_mem hmem
  rw [hat.head_lsn, extent_append, extent_cons]
  omega

theorem Chained.lsn_lt :
    ∀ frame ∈ frames, frame.record.lsn < lsn + extent frames := by
  intro frame hmem
  have := h.end_le frame hmem
  have := frame.size_pos
  omega

theorem Chained.filter_at {before after : List (Frame Entry)} (hsplit : frames = before ++ after) :
    frames.filter (fun frame => frame.record.lsn < lsn + extent before) = before ∧
      frames.filter (fun frame => lsn + extent before ≤ frame.record.lsn) = after := by
  subst hsplit
  obtain ⟨hbefore, hafter⟩ := Chained.append_iff.mp h
  rw [filter_append, filter_append]
  constructor
  · rw [filter_eq_self.mpr, filter_eq_nil_iff.mpr, append_nil]
    · intro frame hmem
      simpa using hafter.le_lsn frame hmem
    · intro frame hmem
      simpa using hbefore.lsn_lt frame hmem
  · rw [filter_eq_nil_iff.mpr, filter_eq_self.mpr, nil_append]
    · intro frame hmem
      simpa using hafter.le_lsn frame hmem
    · intro frame hmem
      simpa using hbefore.lsn_lt frame hmem

end

end Frames

variable {scan' : Scan Entry}

section Walk

/-- The scan of whole frames: only a watermark inside a frame can stop it. -/
def walk (watermark base : ℕ) :
    List (Frame Entry) → Scan Entry → Except (Stop × Scan Entry) (Scan Entry)
  | [], scan => .ok scan
  | frame :: frames, scan =>
    let scan' := scan.visit watermark frame
    if scan'.Missed watermark base then .error (.failed (notBoundary watermark), scan')
    else walk watermark base frames scan'

theorem walk_append (watermark base : ℕ) (xs ys : List (Frame Entry)) (scan : Scan Entry) :
    walk watermark base (xs ++ ys) scan = walk watermark base xs scan >>= walk watermark base ys := by
  induction xs generalizing scan with
  | nil => rfl
  | cons frame xs ih =>
    rw [cons_append, walk, walk]
    split
    · rfl
    · exact ih _

variable {codec}

section

variable (payload rest : Bytes)

/-- The header of a frame, whatever follows it, names the length of its payload. -/
theorem take_frameBytes :
    (frameBytes codec payload ++ rest).take 4 = leBytes 4 payload.length := by
  rw [frameBytes, append_assoc, take_left' (leBytes_length 4 _)]

theorem drop_take_frameBytes :
    ((frameBytes codec payload ++ rest).drop 4).take 4 =
      leBytes 4 (codec.checksum payload).toNat := by
  rw [frameBytes, append_assoc, drop_left' (leBytes_length 4 _), append_assoc,
    take_left' (leBytes_length 4 _)]

theorem drop_header_frameBytes :
    (frameBytes codec payload ++ rest).drop headerLen = payload ++ rest := by
  rw [frameBytes, ← append_assoc, append_assoc, drop_left']
  rw [length_append, leBytes_length, leBytes_length, headerLen]

theorem drop_frameBytes :
    (frameBytes codec payload ++ rest).drop (headerLen + payload.length) = rest :=
  drop_left' (frameBytes_length codec payload)

end

theorem ofLeBytes_length (h : payload.length ≤ maxWalRecordBytes) :
    ofLeBytes (leBytes 4 payload.length) = payload.length := by
  apply ofLeBytes_leBytes
  rw [maxWalRecordBytes] at h
  omega

theorem ofLeBytes_checksum (payload : Bytes) :
    ofLeBytes (leBytes 4 (codec.checksum payload).toNat) = (codec.checksum payload).toNat :=
  ofLeBytes_leBytes 4 _ (codec.checksum payload).toNat_lt

section

variable (index : ℕ) (finalActive : Bool) (watermark base fuel segmentOffset : ℕ)
  (scan : Scan Entry)

theorem scanSegment_frame (frame : Frame Entry) (rest : Bytes)
    (decodes : ∀ path, decodeRecord codec path scan.offset frame.payload = .ok frame.record)
    (fits : frame.payload.length ≤ maxWalRecordBytes) :
    scanSegment codec index finalActive watermark base (fuel + 1)
        (frameBytes codec frame.payload ++ rest) segmentOffset scan =
      walk watermark base [frame] scan >>=
        scanSegment codec index finalActive watermark base fuel rest
          (segmentOffset + frame.size) := by
  have hnil : frameBytes codec frame.payload ++ rest ≠ [] := fun h =>
    frameBytes_ne_nil codec _ (append_eq_nil_iff.mp h).1
  have hlen : (frameBytes codec frame.payload ++ rest).length =
      headerLen + frame.payload.length + rest.length := by
    rw [length_append, frameBytes_length]
  rw [scanSegment, if_neg hnil, if_neg (by omega), take_frameBytes, ofLeBytes_length fits]
  simp only
  rw [if_neg (by omega), if_neg (by omega), drop_header_frameBytes, take_left' rfl,
    drop_take_frameBytes, ofLeBytes_checksum, if_neg (fun h => h rfl), decodes, drop_frameBytes,
    Nat.add_assoc segmentOffset, walk]
  simp only
  split
  · rfl
  · rfl

/-- **Whole frames are walked over**, and the scan goes on behind them. -/
theorem scanSegment_image (rest : Bytes) (h : Chained codec scan.offset frames) :
    scanSegment codec index finalActive watermark base (fuel + frames.length)
        (image codec frames ++ rest) segmentOffset scan =
      walk watermark base frames scan >>=
        scanSegment codec index finalActive watermark base fuel rest
          (segmentOffset + extent frames) := by
  induction frames generalizing segmentOffset scan with
  | nil => rfl
  | cons frame frames ih =>
    cases h with
    | cons decodes fits chained =>
      rw [image_cons, append_assoc, length_cons, ← Nat.add_assoc,
        scanSegment_frame index finalActive watermark base _ segmentOffset scan frame _
          decodes fits,
        extent_cons, ← Nat.add_assoc]
      by_cases hmissed : (scan.visit watermark frame).Missed watermark base
      · simp only [walk, if_pos hmissed]
        rfl
      · simp only [walk, if_neg hmissed]
        exact ih _ (scan.visit watermark frame) chained

theorem scanSegment_whole (h : Chained codec scan.offset frames) :
    scanSegment codec index finalActive watermark base (image codec frames).length
      (image codec frames) 0 scan = walk watermark base frames scan := by
  have hscan := scanSegment_image index finalActive watermark base
    (extent frames - frames.length) 0 scan [] h
  rw [append_nil, Nat.sub_add_cancel (length_le_extent frames)] at hscan
  rw [image_length, hscan]
  cases walk watermark base frames scan with
  | error stop => rfl
  | ok scan' =>
    change scanSegment codec index finalActive watermark base _ [] _ scan' = .ok scan'
    cases extent frames - frames.length with
    | zero | succ => rfl

/-- **A cut frame stops the scan as a torn tail.** -/
theorem scanSegment_torn {torn : Bytes} (fits : payload.length ≤ maxWalRecordBytes)
    (hcut : torn <+: frameBytes codec payload) (hne : torn ≠ frameBytes codec payload)
    (hnil : torn ≠ []) :
    ∃ message, scanSegment codec index finalActive watermark base (fuel + 1) torn segmentOffset
      scan = .error (.torn index finalActive segmentOffset torn.length message, scan) := by
  have hlt : torn.length < headerLen + payload.length := by
    rw [← frameBytes_length codec]
    exact lt_of_le_of_ne hcut.length_le fun h => hne (hcut.eq_of_length h)
  rw [scanSegment, if_neg hnil]
  by_cases hheader : torn.length < headerLen
  · exact ⟨_, if_pos hheader⟩
  · have htake : torn.take 4 = leBytes 4 payload.length := by
      obtain ⟨lost, hlost⟩ := hcut
      have hkept : (torn ++ lost).take 4 = torn.take 4 :=
        take_append_of_le_length (by rw [headerLen] at hheader; omega)
      rw [← hkept, hlost, ← append_nil (frameBytes codec payload), take_frameBytes]
    rw [if_neg hheader, htake, ofLeBytes_length fits]
    simp only
    rw [if_neg (by omega), if_pos hlt]
    exact ⟨_, rfl⟩

end

theorem walk_offset (h : walk watermark base frames scan = .ok scan') :
    scan'.offset = scan.offset + extent frames := by
  induction frames generalizing scan with
  | nil =>
    cases h
    rfl
  | cons frame frames ih =>
    rw [walk] at h
    split_ifs at h
    rw [ih h, extent_cons, ← Nat.add_assoc]
    rfl

/-- Values with consecutive indices from `n` on, as the segments of a log have. -/
def numbered {α : Type} : ℕ → List α → List (ℕ × α)
  | _, [] => []
  | n, a :: as => (n, a) :: numbered (n + 1) as

/-- **The scan of sealed segments and an active one** walks over the sealed frames
and then reads the active segment. -/
theorem scanSegments_sealed (watermark base : ℕ) {sealed : List (List (Frame Entry))}
    (first : ℕ) (active : Bytes) (scan : Scan Entry) (hfull : ∀ frames ∈ sealed, frames ≠ [])
    (h : Chained codec scan.offset sealed.flatten) :
    scanSegments codec watermark base (numbered first (sealed.map (image codec) ++ [active])) scan =
      walk watermark base sealed.flatten scan >>=
        scanSegment codec (first + sealed.length) true watermark base active.length active 0 := by
  induction sealed generalizing first scan with
  | nil =>
    rw [map_nil, nil_append, numbered, numbered, scanSegments, if_neg (by simp)]
    change (match scanSegment codec first true watermark base active.length active 0 scan with
      | .error stop => .error stop
      | .ok scan' => .ok scan') =
        scanSegment codec first true watermark base active.length active 0 scan
    cases scanSegment codec first true watermark base active.length active 0 scan with
    | error | ok => rfl
  | cons frames sealed ih =>
    have hne := hfull frames mem_cons_self
    rw [flatten_cons, Chained.append_iff] at h
    have hlater : (numbered (first + 1) (sealed.map (image codec) ++ [active])).isEmpty = false := by
      cases sealed with
      | nil | cons => rfl
    rw [map_cons, cons_append, numbered, scanSegments,
      if_neg (fun hempty => hne ((image_eq_nil_iff codec).mp hempty.1)), hlater,
      scanSegment_whole first false watermark base scan h.1, flatten_cons, walk_append]
    cases hwalk : walk watermark base frames scan with
    | error stop => rfl
    | ok scan' =>
      have hoffset := walk_offset hwalk
      rw [length_cons, show first + (sealed.length + 1) = first + 1 + sealed.length by omega]
      exact ih (first + 1) scan' (fun g hg => hfull g (mem_cons_of_mem _ hg)) (hoffset ▸ h.2)

/-- **The scan of an active segment cut at its end**: the whole frames are walked
over, and what is left of the next one is a torn tail. -/
theorem scanSegment_cut {active : Bytes} (hcut : active <+: image codec frames) :
    ∃ kept torn, kept <+: frames ∧ active = image codec kept ++ torn ∧
      (∀ frame more, frames = kept ++ frame :: more → torn.length < frame.size) ∧
      ∀ index watermark base scan, Chained codec scan.offset frames →
        (torn = [] → scanSegment codec index true watermark base active.length active 0 scan =
          walk watermark base kept scan) ∧
        (torn ≠ [] → ∃ message,
          scanSegment codec index true watermark base active.length active 0 scan =
            walk watermark base kept scan >>= fun scan' =>
              .error (.torn index true (extent kept) torn.length message, scan')) := by
  obtain ⟨k, torn, hk, rfl, htorn⟩ := exists_take_of_prefix_flatten hcut
  have hkept : image codec (frames.take k) =
      (((frames.map fun frame => frameBytes codec frame.payload)).take k).flatten := by
    rw [image, map_take]
  rw [← hkept]
  have hlen : (image codec (frames.take k) ++ torn).length =
      (extent (frames.take k) - (frames.take k).length + torn.length) + (frames.take k).length := by
    have := length_le_extent (frames.take k)
    rw [length_append, image_length]
    omega
  refine ⟨frames.take k, torn, take_prefix _ _, rfl, ?_, fun index watermark base scan h => ?_⟩
  · intro frame more hframes
    obtain rfl | ⟨piece, hpiece, hpre, hproper⟩ := htorn
    · exact frame.size_pos
    · have hnext : frames[k]? = some frame := by
        have hk' : (frames.take k).length = k := by
          rw [length_map] at hk
          rw [length_take, min_eq_left hk]
        calc frames[k]? = (frames.take k ++ frame :: more)[k]? := congrArg (·[k]?) hframes
          _ = some frame := by
            rw [getElem?_append_right hk'.le, hk', Nat.sub_self]
            rfl
      rw [getElem?_map, hnext, Option.map_some, Option.some.injEq] at hpiece
      rw [Frame.size, ← frameBytes_length codec, hpiece]
      exact lt_of_le_of_ne hpre.length_le fun heq => hproper (hpre.eq_of_length heq)
  have hchained : Chained codec scan.offset (frames.take k) := by
    rw [← take_append_drop k frames, Chained.append_iff] at h
    exact h.1
  refine ⟨?_, ?_⟩
  · rintro rfl
    rw [append_nil]
    exact scanSegment_whole index true watermark base scan hchained
  · intro hne
    rw [hlen, scanSegment_image index true watermark base _ 0 scan torn hchained]
    obtain rfl | ⟨piece, hpiece, hpre, hproper⟩ := htorn
    · exact absurd rfl hne
    · rw [getElem?_map, Option.map_eq_some_iff] at hpiece
      obtain ⟨frame, hframe, rfl⟩ := hpiece
      have hfits : frame.payload.length ≤ maxWalRecordBytes := by
        have hdrop : frames.drop k = frame :: frames.drop (k + 1) :=
          drop_eq_getElem?_toList_append.trans (by rw [hframe]; rfl)
        rw [← take_append_drop k frames, Chained.append_iff, hdrop] at h
        cases h.2 with
        | cons decodes fits rest => exact fits
      obtain ⟨fuel, hfuel⟩ : ∃ fuel,
          extent (frames.take k) - (frames.take k).length + torn.length = fuel + 1 :=
        Nat.exists_eq_succ_of_ne_zero (by
          have := length_pos_iff.mpr hne
          omega)
      rw [hfuel, Nat.zero_add]
      cases hwalk : walk watermark base (frames.take k) scan with
      | error stop => exact ⟨"", rfl⟩
      | ok scan' =>
        obtain ⟨message, hmessage⟩ := scanSegment_torn index true watermark base fuel
          (extent (frames.take k)) scan' hfits hpre hproper hne
        exact ⟨message, hmessage⟩

end Walk

section Boundaries

variable {codec}

/-- `lsn` is where some of the frames end and the others begin. -/
def Boundary (base : ℕ) (frames : List (Frame Entry)) (lsn : ℕ) : Prop :=
  ∃ before after, frames = before ++ after ∧ lsn = base + extent before

/-- A boundary inside the first frames is one of these frames alone. -/
theorem Boundary.of_append (h : Boundary base (xs ++ ys) lsn) (hlt : lsn ≤ base + extent xs) :
    Boundary base xs lsn := by
  obtain ⟨before, after, hsplit, rfl⟩ := h
  rcases append_eq_append_iff.mp hsplit with ⟨more, rfl, rfl⟩ | ⟨more, rfl, rfl⟩
  · rw [extent_append] at hlt
    have hmore : more = [] := extent_eq_zero_iff.mp (by omega)
    rw [hmore, append_nil]
    exact ⟨xs, [], (append_nil xs).symm, rfl⟩
  · exact ⟨before, more, rfl, rfl⟩

theorem Boundary.append (h : Boundary base xs lsn)
    (ys : List (Frame Entry)) : Boundary base (xs ++ ys) lsn := by
  obtain ⟨before, after, rfl, rfl⟩ := h
  exact ⟨before, after ++ ys, append_assoc .., rfl⟩

theorem boundary_concat_iff {frame : Frame Entry} : Boundary base (xs ++ [frame]) lsn ↔
    Boundary base xs lsn ∨ lsn = base + extent (xs ++ [frame]) := by
  constructor
  · rintro ⟨before, after, hsplit, rfl⟩
    rcases eq_nil_or_concat after with rfl | ⟨after', last, rfl⟩
    · rw [append_nil] at hsplit
      exact .inr (by rw [hsplit])
    · rw [concat_eq_append, ← append_assoc] at hsplit
      exact .inl ⟨before, after', (append_inj' hsplit rfl).1, rfl⟩
  · rintro (h | rfl)
    · exact h.append [frame]
    · exact ⟨xs ++ [frame], [], (append_nil _).symm, rfl⟩

/-- Of two beginnings of one log the one with fewer bytes is the shorter one. -/
theorem prefix_of_extent_le (hx : xs <+: frames) (hy : ys <+: frames)
    (hle : extent xs ≤ extent ys) : xs <+: ys := by
  rcases prefix_or_prefix_of_prefix hx hy with h | ⟨more, rfl⟩
  · exact h
  · rw [extent_append] at hle
    have hmore : more = [] := extent_eq_zero_iff.mp (by omega)
    rw [hmore, append_nil]

/-- What a scan holds once it is behind the frames `seen`. -/
structure Scan.Covers (watermark base : ℕ) (seen : List (Frame Entry)) (scan : Scan Entry) :
    Prop where
  offset : scan.offset = base + extent seen
  boundary : scan.watermarkIsBoundary = true ↔ watermark ≤ base ∨ Boundary base seen watermark
  visited : scan.visited = seen.filter fun frame => watermark ≤ frame.record.lsn
  caught : ¬ scan.Missed watermark base

theorem Scan.covers_start (watermark base : ℕ) :
    (Scan.start watermark base : Scan Entry).Covers watermark base [] where
  offset := rfl
  boundary := by
    refine decide_eq_true_iff.trans ⟨Or.inl, ?_⟩
    rintro (h | ⟨before, after, hnil, rfl⟩)
    · exact h
    · rw [(append_eq_nil_iff.mp hnil.symm).1]
      exact le_rfl
  visited := rfl
  caught := fun h => absurd h.1 (by
    have := h.2.2
    exact not_lt.mpr this.le)

variable {seen : List (Frame Entry)}

section

variable (h : scan.Covers watermark base seen)
include h

theorem Scan.Covers.visit (frame : Frame Entry) (hchained : Chained codec base (seen ++ [frame]))
    (hcaught : ¬ (scan.visit watermark frame).Missed watermark base) :
    (scan.visit watermark frame).Covers watermark base (seen ++ [frame]) where
  offset := by
    rw [extent_concat, ← Nat.add_assoc, ← h.offset]
    rfl
  boundary := by
    have hat : (scan.visit watermark frame).watermarkIsBoundary = true ↔
        (scan.watermarkIsBoundary = true ∨ scan.offset = watermark) ∨
          scan.offset + frame.size = watermark := by
      simp only [Scan.visit, Bool.or_eq_true, beq_iff_eq]
    rw [hat, h.boundary, h.offset, boundary_concat_iff, extent_concat, Nat.add_assoc]
    constructor
    · rintro (((hbase | hseen) | rfl) | rfl)
      · exact .inl hbase
      · exact .inr (.inl hseen)
      · exact .inr (.inl ⟨seen, [], (append_nil _).symm, rfl⟩)
      · exact .inr (.inr rfl)
    · rintro (hbase | hseen | rfl)
      · exact .inl (.inl (.inl hbase))
      · exact .inl (.inl (.inr hseen))
      · exact .inr rfl
  visited := by
    have hlsn : frame.record.lsn = scan.offset := by
      rw [h.offset]
      exact (Chained.append_iff.mp hchained).2.head_lsn
    rw [filter_append, ← h.visited, filter_singleton, hlsn]
    by_cases hw : watermark ≤ scan.offset
    · simp only [Scan.visit, if_pos hw, decide_eq_true hw, cond_true]
    · simp only [Scan.visit, if_neg hw, decide_eq_false hw, cond_false, append_nil]
  caught := hcaught

theorem Scan.Covers.walk (hchained : Chained codec base (seen ++ frames))
    (hwalk : Wal.walk watermark base frames scan = .ok scan') :
    scan'.Covers watermark base (seen ++ frames) := by
  induction frames generalizing seen scan with
  | nil =>
    cases hwalk
    rw [append_nil]
    exact h
  | cons frame frames ih =>
    rw [Wal.walk] at hwalk
    split_ifs at hwalk with hmissed
    rw [← singleton_append, ← append_assoc] at hchained ⊢
    exact ih (h.visit frame (Chained.append_iff.mp hchained).1 hmissed) hchained hwalk

/-- **A walk passes every watermark but those inside a frame.** -/
theorem Scan.Covers.exists_walk (hchained : Chained codec base (seen ++ frames))
    (hw : watermark ≤ base ∨ Boundary base (seen ++ frames) watermark ∨
      base + extent (seen ++ frames) ≤ watermark) :
    ∃ scan', Wal.walk watermark base frames scan = .ok scan' := by
  induction frames generalizing seen scan with
  | nil => exact ⟨scan, rfl⟩
  | cons frame frames ih =>
    rw [← singleton_append, ← append_assoc] at hchained hw
    have hchained' := (Chained.append_iff.mp hchained).1
    have hcaught : ¬ (scan.visit watermark frame).Missed watermark base := by
      rintro ⟨hlt, hboundary, hbase⟩
      have hoffset : (scan.visit watermark frame).offset = base + extent (seen ++ [frame]) := by
        rw [extent_concat, ← Nat.add_assoc, ← h.offset]
        rfl
      rw [hoffset] at hlt
      have hin : Boundary base (seen ++ [frame]) watermark := by
        rcases hw with hle | hin | hle
        · omega
        · exact hin.of_append hlt.le
        · rw [extent_append] at hle
          omega
      -- The watermark is the end of the frame just visited, or was met before it.
      rcases boundary_concat_iff.mp hin with hseen | rfl
      · simp only [Scan.visit, h.boundary.mpr (.inr hseen), Bool.true_or] at hboundary
        cases hboundary
      · omega
    obtain ⟨scan', hscan'⟩ := ih (h.visit frame hchained' hcaught) hchained hw
    exact ⟨scan', by rw [Wal.walk]; exact (if_neg hcaught).trans hscan'⟩

end

/-- **A walk succeeds exactly when the watermark is not inside a frame.** -/
theorem walk_start_eq_ok_iff (hchained : Chained codec base frames) :
    (∃ scan, walk watermark base frames (.start watermark base) = .ok scan) ↔
      watermark ≤ base ∨ Boundary base frames watermark ∨ base + extent frames ≤ watermark := by
  constructor
  · rintro ⟨scan, hscan⟩
    have hcovers := (Scan.covers_start watermark base).walk hchained hscan
    rw [nil_append] at hcovers
    by_contra hnot
    rw [not_or, not_or] at hnot
    refine hcovers.caught ⟨?_, ?_, not_le.mp hnot.1⟩
    · rw [hcovers.offset]
      exact not_le.mp hnot.2.2
    · rw [← Bool.not_eq_true, hcovers.boundary]
      exact fun h => h.elim hnot.1 hnot.2.1
  · exact fun h => (Scan.covers_start watermark base).exists_walk hchained h

end Boundaries

end ChironDB.Wal
