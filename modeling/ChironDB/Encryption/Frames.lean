/-
# Rotating the key of a file

`chirondb-core/src/encryption.rs`: `classify_persisted_file`, `canonical_plaintext`,
`rewrap_wal_frames`, `rewrap_audit_frames`.

A file of an encrypted installation is an envelope, a WAL segment that is a sequence of frames
(length, checksum, envelope), or an audit log with one envelope in base64 per line.  Its content is
what `canonical_plaintext` makes of it.  A rotated file has the content it had
(`rotateFile_preserved`), and every WAL envelope in it keeps its length, so that the positions of
the records stay what they were.
-/

import ChironDB.Codec.Lines
import ChironDB.Encryption.Rotation

namespace ChironDB.Encryption

open Codec Crypto Fault List

/-! ## Names -/

/-- The components of a path, the name of the root first. -/
abbrev Path := List String

def fileName (path : Path) : Option String := path.getLast?

def parentName (path : Path) : Option String := path.dropLast.getLast?

/-- `Path::extension`: what follows the last dot, if something stands before it. -/
def extension (name : String) : Option (List Char) :=
  let last := name.toList.reverse.takeWhile (· ≠ '.')
  if name.toList.length ≤ last.length + 1 then none else some last.reverse

def isWalSegment (path : Path) : Bool := (fileName path).bind extension = some "gdwal".toList

def isAuditLog (path : Path) : Bool :=
  (fileName path).any fun name => name = "audit.jsonl" ||
    ("audit-".toList.isPrefixOf name.toList && ".jsonl".toList.isSuffixOf name.toList)

def isBootstrapFile (path : Path) : Bool :=
  (fileName path = some "CURRENT" && parentName path ≠ some "overlays") ||
    (fileName path).any (· ∈ [".chirondb.lock", ".generation-migration.json",
      ".key-rotation.json", ".protected-installation"])

/-! ## WAL segments -/

def maxWalRecord : ℕ := 64 * 1024 * 1024

/-- The payloads that a loop over the frames of a segment visits. -/
def walPayloads (bytes : Bytes) : List Bytes :=
  if bytes = [] then []
  else field bytes 8 (ofLeBytes (bytes.take 4)) ::
    walPayloads (bytes.drop (8 + ofLeBytes (bytes.take 4)))
  termination_by bytes.length
  decreasing_by
    have hbytes : bytes ≠ [] := by assumption
    have := length_pos_of_ne_nil hbytes
    rw [length_drop]
    omega

section Wal

variable (aead : Aead) (crc32 : Bytes → UInt32)

def walFrame (payload : Bytes) : Bytes :=
  leBytes 4 payload.length ++ (leBytes 4 (crc32 payload).toNat ++ payload)

def inspectWalFrames (bytes : Bytes) : Result (Option (List EnvelopeInfo)) :=
  if bytes = [] then .ok (some [])
  else do
    ensure (8 ≤ bytes.length) (corruption "partial WAL frame header")
    let len := ofLeBytes (bytes.take 4)
    ensure (len ≤ maxWalRecord) (corruption "WAL frame exceeds maximum size")
    ensure (8 + len ≤ bytes.length) (corruption "partial WAL frame payload")
    let payload := field bytes 8 len
    ensure ((crc32 payload).toNat = ofLeBytes (field bytes 4 4))
      (corruption "WAL frame CRC mismatch")
    if !isEncrypted payload then pure none
    else
      let parsed ← parseHeader payload
      let rest ← inspectWalFrames (bytes.drop (8 + len))
      pure (rest.map (parsed.info :: ·))
  termination_by bytes.length
  decreasing_by
    have hbytes : bytes ≠ [] := by assumption
    have := length_pos_of_ne_nil hbytes
    rw [length_drop]
    omega

def canonicalWalPlaintext (keyring : Keyring) (bytes : Bytes) : Result Bytes := do
  let records ← (walPayloads bytes).mapM fun payload => do
    let plaintext ← decryptBytes aead keyring payload
    ensure (plaintext.2.length < 2 ^ 32) (.invalidRequest "decoded WAL record exceeds u32 length")
    pure (walFrame crc32 plaintext.2)
  pure records.flatten

/-- `rewrap_wal_frames`, up to the write.  The frame at position `i` draws `nonces i`. -/
def rewrapWalFrames (keyring : Keyring) (nonces : ℕ → List.Vector UInt8 12) (bytes : Bytes) :
    Result Bytes := do
  let infos ← inspectWalFrames crc32 bytes
  ensure infos.isSome (corruption "plaintext WAL frame in encrypted tree")
  let frames ← (walPayloads bytes).zipIdx.mapM fun payload => do
    let rotated ← rotateEnvelope aead keyring (nonces payload.2) payload.1
    ensure (rotated.length = payload.1.length) (.invalidRequest
      "WAL key rotation requires old and active key IDs to have equal encoded lengths")
    pure (walFrame crc32 rotated)
  pure frames.flatten

end Wal

/-! ## Audit logs -/

structure Base64 where
  encode : Bytes → List Char
  decode : List Char → Option Bytes

/-- What the encoding is relied on for. -/
structure Base64.Lawful (base64 : Base64) : Prop where
  decode_encode : ∀ bytes, base64.decode (base64.encode bytes) = some bytes
  isLine : ∀ bytes, IsLine (base64.encode bytes)

/-- `char::is_whitespace`. -/
def isWhitespace (c : Char) : Bool :=
  (9 ≤ c.toNat && c.toNat ≤ 13) || c.toNat = 32 || c.toNat = 0x85 || c.toNat = 0xa0 ||
    c.toNat = 0x1680 || (0x2000 ≤ c.toNat && c.toNat ≤ 0x200a) || c.toNat = 0x2028 ||
    c.toNat = 0x2029 || c.toNat = 0x202f || c.toNat = 0x205f || c.toNat = 0x3000

def auditMark : List Char := "CHIRENC1:".toList

/-- The base64 of an audit frame. -/
def auditEncoded (line : List Char) : Option (List Char) :=
  if auditMark.isPrefixOf line then some (line.drop auditMark.length) else none

def auditText (bytes : Bytes) : Result String :=
  match ofUtf8? bytes with
  | some text => .ok text
  | none => .error (corruption "audit log is not UTF-8")

section Audit

variable (aead : Aead) (base64 : Base64)

def decodeFrame (encoded : List Char) : Result Bytes :=
  match base64.decode encoded with
  | some envelope => .ok envelope
  | none => .error (corruption "invalid audit frame base64")

def inspectAuditLines : List (List Char) → Result (Option (List EnvelopeInfo))
  | [] => .ok (some [])
  | line :: rest =>
    match auditEncoded line with
    | none => .ok none
    | some encoded => do
      let envelope ← decodeFrame base64 encoded
      ensure (isEncrypted envelope) (corruption "audit frame lacks CHIRENC1 envelope")
      let parsed ← parseHeader envelope
      ensure (parsed.info.fileType = .audit) (corruption "audit frame has the wrong file type")
      let infos ← inspectAuditLines rest
      pure (infos.map (parsed.info :: ·))

def inspectAuditFrames (bytes : Bytes) : Result (Option (List EnvelopeInfo)) := do
  let text ← auditText bytes
  inspectAuditLines base64 ((lines text.toList).filter (· ≠ []))

def canonicalAuditPlaintext (keyring : Keyring) (bytes : Bytes) : Result Bytes := do
  let text ← auditText bytes
  let infos ← inspectAuditFrames base64 bytes
  let records ← ((lines text.toList).filter fun line => !line.all isWhitespace).mapM fun line =>
    if infos.isSome then do
      -- an encrypted log was inspected, so every line has the mark
      let envelope ← decodeFrame base64 ((auditEncoded line).getD [])
      let plaintext ← decryptBytes aead keyring envelope
      pure (plaintext.2 ++ [10])
    else pure (utf8 (String.ofList line) ++ [10])
  pure records.flatten

/-- `rewrap_audit_frames`, up to the write. -/
def rewrapAuditFrames (keyring : Keyring) (nonces : ℕ → List.Vector UInt8 12) (bytes : Bytes) :
    Result Bytes := do
  let infos ← inspectAuditFrames base64 bytes
  ensure infos.isSome (corruption "plaintext audit frame in encrypted tree")
  let text ← auditText bytes
  let frames ← ((lines text.toList).filter (· ≠ [])).zipIdx.mapM fun line => do
    let envelope ← decodeFrame base64 ((auditEncoded line.1).getD [])
    let rotated ← rotateEnvelope aead keyring (nonces line.2) envelope
    pure (auditMark ++ base64.encode rotated)
  pure (utf8 (String.ofList (unlines frames)))

end Audit

/-! ## Files -/

inductive PersistedFileKind
  | encrypted (infos : List EnvelopeInfo)
  | plaintext
  | bootstrap

section File

variable (aead : Aead) (crc32 : Bytes → UInt32) (base64 : Base64)

def classifyPersistedFile (path : Path) (bytes : Bytes) : Result PersistedFileKind := do
  if isAuditLog path then
    let infos ← inspectAuditFrames base64 bytes
    pure (infos.elim .plaintext .encrypted)
  else if isEncrypted bytes then
    let parsed ← parseHeader bytes
    pure (.encrypted [parsed.info])
  else if isWalSegment path then
    let infos ← inspectWalFrames crc32 bytes
    pure (infos.elim .plaintext .encrypted)
  else if isBootstrapFile path then pure .bootstrap
  else pure .plaintext

def canonicalPlaintext (keyring : Keyring) (path : Path) (bytes : Bytes) : Result Bytes := do
  if isAuditLog path then canonicalAuditPlaintext aead base64 keyring bytes
  else if isEncrypted bytes then
    let plaintext ← decryptBytes aead keyring bytes
    pure plaintext.2
  else if isWalSegment path then
    let infos ← inspectWalFrames crc32 bytes
    if infos.isSome then canonicalWalPlaintext aead crc32 keyring bytes else pure bytes
  else pure bytes

/-- What `rewrap_tree` writes for a file with an envelope that names another key. -/
def rotateFile (keyring : Keyring) (nonces : ℕ → List.Vector UInt8 12) (path : Path)
    (bytes : Bytes) : Result (Option Bytes) := do
  if isAuditLog path then
    let rotated ← rewrapAuditFrames aead base64 keyring nonces bytes
    pure (some rotated)
  else if isEncrypted bytes then
    let rotated ← rewrapEnvelope aead keyring (nonces 0) bytes
    pure (some rotated.2)
  else if isWalSegment path then
    let rotated ← rewrapWalFrames aead crc32 keyring nonces bytes
    pure (some rotated)
  else pure none

/-- The envelopes of a WAL segment. -/
def walEnvelopes (bytes : Bytes) : List Bytes :=
  if isEncrypted bytes then [bytes] else walPayloads bytes

/-- **What rotation keeps of a file**: its content, and in a WAL segment the length of every
envelope. -/
structure Preserved (keyring : Keyring) (path : Path) (bytes rotated : Bytes) : Prop where
  content : ∀ content, canonicalPlaintext aead crc32 base64 keyring path bytes = .ok content →
    canonicalPlaintext aead crc32 base64 keyring path rotated = .ok content
  lengths : isWalSegment path = true →
    (walEnvelopes rotated).map List.length = (walEnvelopes bytes).map List.length

end File

/-! ### Segments -/

variable {envelope : Bytes}

variable {bytes content : Bytes} {nonces : ℕ → List.Vector UInt8 12} {crc32 : Bytes → UInt32}
  {bytes rotated : Bytes} {keyring : Keyring} {base64 : Base64} {aead : Aead} {path : Path}

section Segments

/-- What a frame of an encrypted segment holds. -/
structure IsPayload (payload : Bytes) : Prop where
  length : payload.length ≤ maxWalRecord
  parses : ∃ parsed, parseHeader payload = .ok parsed

variable {payload : Bytes}

theorem walFrame_cut (crc32 : Bytes → UInt32) (h : payload.length ≤ maxWalRecord) (rest : Bytes) :
    let bytes := walFrame crc32 payload ++ rest
    bytes.length = 8 + payload.length + rest.length ∧ ofLeBytes (bytes.take 4) = payload.length ∧
      ofLeBytes (field bytes 4 4) = (crc32 payload).toNat ∧
      field bytes 8 payload.length = payload ∧ bytes.drop (8 + payload.length) = rest := by
  have hcut : walFrame crc32 payload ++ rest = leBytes 4 payload.length ++
      (leBytes 4 (crc32 payload).toNat ++ (payload ++ rest)) := by
    rw [walFrame, append_assoc, append_assoc]
  have hbehind : (walFrame crc32 payload ++ rest).drop 8 = payload ++ rest := by
    rw [hcut, ← append_assoc, drop_left' (by simp)]
  dsimp only
  refine ⟨?_, ?_, ?_, ?_, ?_⟩
  · rw [hcut]
    simp only [length_append, leBytes_length]
    omega
  · rw [hcut, take_left' (leBytes_length _ _), ofLeBytes_leBytes]
    exact h.trans_lt (by decide)
  · rw [hcut, field, drop_left' (leBytes_length _ _), take_left' (leBytes_length _ _),
      ofLeBytes_leBytes 4 _ (crc32 payload).toNat_lt]
  · rw [field, hbehind, take_left]
  · rw [← drop_drop, hbehind, drop_left]

theorem walPayloads_frame (h : payload.length ≤ maxWalRecord) (rest : Bytes) :
    walPayloads (walFrame crc32 payload ++ rest) = payload :: walPayloads rest := by
  obtain ⟨hlength, hlen, -, hpayload, hrest⟩ := walFrame_cut crc32 h rest
  have hne : walFrame crc32 payload ++ rest ≠ [] := by
    intro hnil
    rw [hnil, length_nil] at hlength
    omega
  rw [walPayloads, if_neg hne, hlen, hpayload, hrest]

variable {payloads : List Bytes}

theorem walPayloads_frames (h : ∀ payload ∈ payloads, payload.length ≤ maxWalRecord) :
    walPayloads (payloads.map (walFrame crc32)).flatten = payloads := by
  induction payloads with
  | nil => rw [map_nil, flatten_nil, walPayloads, if_pos rfl]
  | cons payload payloads ih =>
    obtain ⟨hpayload, hrest⟩ := forall_mem_cons.mp h
    rw [map_cons, flatten_cons, walPayloads_frame hpayload, ih hrest]

variable {infos : List EnvelopeInfo}

theorem inspectWalFrames_eq_some (hne : bytes ≠ []) :
    inspectWalFrames crc32 bytes = .ok (some infos) ↔
      8 ≤ bytes.length ∧ ofLeBytes (bytes.take 4) ≤ maxWalRecord ∧
        8 + ofLeBytes (bytes.take 4) ≤ bytes.length ∧
        (crc32 (field bytes 8 (ofLeBytes (bytes.take 4)))).toNat = ofLeBytes (field bytes 4 4) ∧
        ∃ parsed, parseHeader (field bytes 8 (ofLeBytes (bytes.take 4))) = .ok parsed ∧
          ∃ rest, inspectWalFrames crc32 (bytes.drop (8 + ofLeBytes (bytes.take 4))) =
            .ok (some rest) ∧ infos = parsed.info :: rest := by
  rw [inspectWalFrames, if_neg hne]
  simp only [eq_ok]
  refine and_congr_right fun _ => and_congr_right fun _ => and_congr_right fun _ =>
    and_congr_right fun _ => ?_
  split
  · next hplain =>
    simp only [pure_eq_ok, reduceCtorEq, false_iff, not_exists, not_and]
    intro parsed hparsed
    rw [(parseHeader_layout hparsed).magic] at hplain
    cases hplain
  · simp only [eq_ok, Option.map_eq_some_iff]
    constructor
    · rintro ⟨parsed, hparsed, rest, hrest, infos', rfl, rfl⟩
      exact ⟨parsed, hparsed, infos', hrest, rfl⟩
    · rintro ⟨parsed, hparsed, infos', hrest, rfl⟩
      exact ⟨parsed, hparsed, _, hrest, infos', rfl, rfl⟩

/-- **A sequence of frames with envelopes is inspected as such.** -/
theorem inspectWalFrames_frames (h : ∀ payload ∈ payloads, IsPayload payload) :
    ∃ infos, inspectWalFrames crc32 (payloads.map (walFrame crc32)).flatten = .ok (some infos) := by
  induction payloads with
  | nil =>
    refine ⟨[], ?_⟩
    rw [map_nil, flatten_nil, inspectWalFrames, if_pos rfl]
  | cons payload payloads ih =>
    obtain ⟨hpayload, hrest⟩ := forall_mem_cons.mp h
    obtain ⟨infos, hinfos⟩ := ih hrest
    obtain ⟨parsed, hparsed⟩ := hpayload.parses
    obtain ⟨hlength, hlen, hcrc, hfield, hdrop⟩ := walFrame_cut crc32 hpayload.length
      (payloads.map (walFrame crc32)).flatten
    have hne : walFrame crc32 payload ++ (payloads.map (walFrame crc32)).flatten ≠ [] := by
      intro hnil
      rw [hnil, length_nil] at hlength
      omega
    refine ⟨parsed.info :: infos, ?_⟩
    rw [map_cons, flatten_cons, inspectWalFrames_eq_some hne, hlen, hcrc, hfield, hdrop]
    exact ⟨by omega, hpayload.length, by omega, rfl, parsed, hparsed, infos, hinfos, rfl⟩

/-- **What passes the inspection** is a sequence of frames with envelopes. -/
theorem frames_of_inspectWalFrames (h : inspectWalFrames crc32 bytes = .ok (some infos)) :
    bytes = ((walPayloads bytes).map (walFrame crc32)).flatten ∧
      ∀ payload ∈ walPayloads bytes, IsPayload payload := by
  induction hn : bytes.length using Nat.strong_induction_on generalizing bytes infos with
  | _ n ih =>
    by_cases hne : bytes = []
    · rw [walPayloads, if_pos hne]
      exact ⟨hne, forall_mem_nil _⟩
    · obtain ⟨hhead, hmax, hall, hcrc, parsed, hparsed, rest, hrest, -⟩ :=
        (inspectWalFrames_eq_some hne).mp h
      obtain ⟨hframes, hpayloads⟩ := ih _ (by rw [length_drop]; omega) hrest rfl
      have hlength := field_length_of_le hall
      have hlen := leBytes_ofLeBytes (bytes.take 4)
      rw [length_take, min_eq_left (by omega)] at hlen
      have hsum := leBytes_ofLeBytes (field bytes 4 4)
      rw [field_length_of_le (by omega)] at hsum
      have hframe : walFrame crc32 (field bytes 8 (ofLeBytes (bytes.take 4))) =
          bytes.take 4 ++ (field bytes 4 4 ++ field bytes 8 (ofLeBytes (bytes.take 4))) := by
        rw [walFrame, hlength, hlen, hcrc, hsum]
      rw [walPayloads, if_neg hne, map_cons, flatten_cons, ← hframes, hframe]
      refine ⟨?_, forall_mem_cons.mpr ⟨⟨hlength.trans_le hmax, parsed, hparsed⟩, hpayloads⟩⟩
      have hbehind : field bytes 8 (ofLeBytes (bytes.take 4)) ++
          bytes.drop (8 + ofLeBytes (bytes.take 4)) = bytes.drop 8 := by
        rw [field, ← drop_drop, take_append_drop]
      rw [append_assoc, append_assoc, hbehind]
      exact (take_append_field bytes 4 4).symm

/-- A sequence of frames does not look like an envelope. -/
theorem isEncrypted_frames (h : ∀ payload ∈ payloads, payload.length ≤ maxWalRecord) :
    isEncrypted (payloads.map (walFrame crc32)).flatten = false := by
  cases payloads with
  | nil => rfl
  | cons payload payloads =>
    obtain ⟨-, hlen, -, -, -⟩ := walFrame_cut crc32 (h payload mem_cons_self)
      (payloads.map (walFrame crc32)).flatten
    rw [map_cons, flatten_cons]
    apply decide_eq_false
    intro hmagic
    -- read as a length, the mark of an envelope is too large
    have hfour := congrArg (List.take 4) hmagic
    rw [take_take, min_eq_left (by decide)] at hfour
    rw [hfour] at hlen
    have hpayload := h payload mem_cons_self
    rw [← hlen] at hpayload
    exact absurd hpayload (by decide)

/-- **A rotated segment has rotated envelopes.** -/
theorem rewrapWalFrames_spec (hcipher : aead.Correct) (hkeyring : keyring.Loaded)
    (h : rewrapWalFrames aead crc32 keyring nonces bytes = .ok rotated) :
    (∀ payload ∈ walPayloads bytes, IsPayload payload) ∧
      bytes = ((walPayloads bytes).map (walFrame crc32)).flatten ∧
      ∃ payloads, List.Forall₂ (Rotated aead keyring) (walPayloads bytes) payloads ∧
        rotated = (payloads.map (walFrame crc32)).flatten := by
  simp only [rewrapWalFrames, eq_ok] at h
  obtain ⟨infos, hinfos, hsome, frames, hframes, rfl⟩ := h
  obtain ⟨infos, rfl⟩ := Option.isSome_iff_exists.mp hsome
  obtain ⟨hbytes, hpayloads⟩ := frames_of_inspectWalFrames hinfos
  have hall : List.Forall₂ (fun payload frame => ∃ envelope, Rotated aead keyring payload envelope ∧
      frame = walFrame crc32 envelope) (walPayloads bytes) frames := by
    refine forall₂_of_mapM_zipIdx hframes fun payload i frame hframe => ?_
    simp only [eq_ok] at hframe
    obtain ⟨envelope, henvelope, -, hframe⟩ := hframe
    cases hframe
    exact ⟨envelope, rotateEnvelope_spec hcipher hkeyring henvelope, rfl⟩
  obtain ⟨payloads, hrotated, rfl⟩ := exists_map_of_forall₂ hall
  exact ⟨hpayloads, hbytes, payloads, hrotated, rfl⟩

theorem IsPayload.of_rotated (h : IsPayload payload)
    (hrotated : Rotated aead keyring payload envelope) : IsPayload envelope := by
  obtain ⟨-, parsed, -, hparsed, -⟩ := hrotated.header
  exact ⟨hrotated.length.trans_le h.length, parsed, hparsed⟩

theorem canonicalWalPlaintext_rotated
    (h : List.Forall₂ (Rotated aead keyring) (walPayloads bytes) (walPayloads rotated))
    (hcontent : canonicalWalPlaintext aead crc32 keyring bytes = .ok content) :
    canonicalWalPlaintext aead crc32 keyring rotated = .ok content := by
  simp only [canonicalWalPlaintext, eq_ok] at hcontent ⊢
  obtain ⟨records, hrecords, hflat⟩ := hcontent
  refine ⟨records, mapM_congr_of_forall₂ (h.imp ?_) hrecords, hflat⟩
  intro payload envelope hpair record hrecord
  simp only [eq_ok] at hrecord ⊢
  obtain ⟨⟨info, plaintext⟩, hplaintext, hsize, hrecord⟩ := hrecord
  obtain ⟨info', hinfo'⟩ := hpair.decrypts info plaintext hplaintext
  exact ⟨(info', plaintext), hinfo', hsize, hrecord⟩

theorem canonicalPlaintext_frames (hwal : isWalSegment path = true)
    (haudit : isAuditLog path = false) (h : ∀ payload ∈ payloads, IsPayload payload) :
    canonicalPlaintext aead crc32 base64 keyring path (payloads.map (walFrame crc32)).flatten =
      canonicalWalPlaintext aead crc32 keyring (payloads.map (walFrame crc32)).flatten := by
  obtain ⟨infos, hinfos⟩ : ∃ infos, inspectWalFrames crc32
      (payloads.map (walFrame crc32)).flatten = .ok (some infos) := inspectWalFrames_frames h
  have hplain : isEncrypted (payloads.map (walFrame crc32)).flatten = false :=
    isEncrypted_frames fun payload hmem => (h payload hmem).length
  rw [canonicalPlaintext, haudit, hplain, hwal, hinfos]
  rfl

/-- **Rotation keeps a segment.** -/
theorem rewrapWalFrames_preserved (hcipher : aead.Correct) (hkeyring : keyring.Loaded)
    (hwal : isWalSegment path = true) (haudit : isAuditLog path = false)
    (hplain : isEncrypted bytes = false)
    (h : rewrapWalFrames aead crc32 keyring nonces bytes = .ok rotated) :
    Preserved aead crc32 base64 keyring path bytes rotated := by
  obtain ⟨hpayloads, hbytes, payloads, hrotated, rfl⟩ := rewrapWalFrames_spec hcipher hkeyring h
  have hpayloads' : ∀ payload ∈ payloads, IsPayload payload :=
    forall_mem_of_forall₂ hrotated hpayloads fun _ _ hpair hpayload => hpayload.of_rotated hpair
  have hlengths := fun payload hmem => (hpayloads' payload hmem).length
  have hplain' : isEncrypted (payloads.map (walFrame crc32)).flatten = false :=
    isEncrypted_frames hlengths
  have hfound : walPayloads (payloads.map (walFrame crc32)).flatten = payloads :=
    walPayloads_frames hlengths
  constructor
  · intro content hcontent
    rw [canonicalPlaintext_frames hwal haudit hpayloads']
    rw [hbytes, canonicalPlaintext_frames hwal haudit hpayloads, ← hbytes] at hcontent
    exact canonicalWalPlaintext_rotated (hfound.symm ▸ hrotated) hcontent
  · intro _
    rw [walEnvelopes, hplain', if_neg (by decide), hfound, walEnvelopes, hplain, if_neg (by decide)]
    exact forall₂_map_eq hrotated fun _ _ hpair => hpair.length

end Segments

/-! ### Logs -/

section Logs

/-- A line of an encrypted log, and the envelope in it. -/
structure IsFrame (base64 : Base64) (line : List Char) (envelope : Bytes) : Prop where
  decodes : ∃ encoded, auditEncoded line = some encoded ∧ base64.decode encoded = some envelope
  parses : ∃ parsed, parseHeader envelope = .ok parsed ∧ parsed.info.fileType = .audit

variable {encoded : List Char}

theorem decodeFrame_eq_ok :
    decodeFrame base64 encoded = .ok envelope ↔ base64.decode encoded = some envelope := by
  rw [decodeFrame]
  cases base64.decode encoded with
  | none | some => simp

variable {line : List Char}

theorem IsFrame.decodeFrame (h : IsFrame base64 line envelope) :
    decodeFrame base64 ((auditEncoded line).getD []) = .ok envelope := by
  obtain ⟨encoded, hencoded, hdecode⟩ := h.decodes
  rw [hencoded, Option.getD_some, decodeFrame_eq_ok, hdecode]

/-- **The lines of an encrypted log are frames.** -/
theorem inspectAuditLines_eq_some {texts : List (List Char)} :
    (∃ infos, inspectAuditLines base64 texts = .ok (some infos)) ↔
      ∃ envelopes, List.Forall₂ (IsFrame base64) texts envelopes := by
  induction texts with
  | nil => exact ⟨fun _ => ⟨[], .nil⟩, fun _ => ⟨[], rfl⟩⟩
  | cons line texts ih =>
    rw [inspectAuditLines.eq_def]
    constructor
    · rintro ⟨infos, h⟩
      dsimp only at h
      split at h
      · cases h
      · next encoded hencoded =>
        simp only [eq_ok, Option.map_eq_some_iff, decodeFrame_eq_ok] at h
        obtain ⟨envelope, hdecode, -, parsed, hparsed, htype, found, hfound, rest, rfl, -⟩ := h
        obtain ⟨envelopes, hall⟩ := ih.mp ⟨rest, hfound⟩
        exact ⟨envelope :: envelopes,
          .cons ⟨⟨encoded, hencoded, hdecode⟩, parsed, hparsed, htype⟩ hall⟩
    · rintro ⟨envelopes, hall⟩
      cases hall with
      | cons hline hrest =>
        obtain ⟨encoded, hencoded, hdecode⟩ := hline.decodes
        obtain ⟨parsed, hparsed, htype⟩ := hline.parses
        obtain ⟨rest, hfound⟩ := ih.mpr ⟨_, hrest⟩
        refine ⟨parsed.info :: rest, ?_⟩
        simp only [hencoded, eq_ok, Option.map_eq_some_iff, decodeFrame_eq_ok]
        exact ⟨_, hdecode, (parseHeader_layout hparsed).magic, parsed, hparsed, htype, _,
          hfound, rest, rfl, rfl⟩

theorem IsFrame.not_blank (h : IsFrame base64 line envelope) : line.all isWhitespace = false := by
  obtain ⟨encoded, hencoded, -⟩ := h.decodes
  rw [auditEncoded, Option.ite_none_right_eq_some, isPrefixOf_iff_prefix] at hencoded
  obtain ⟨rest, rfl⟩ := hencoded.1
  rfl

variable {text : String}

theorem auditText_eq_ok : auditText bytes = .ok text ↔ ofUtf8? bytes = some text := by
  rw [auditText]
  cases ofUtf8? bytes with
  | none | some => simp

/-- What a log says in one envelope. -/
def auditRecord (aead : Aead) (keyring : Keyring) (envelope : Bytes) : Result Bytes := do
  let plaintext ← decryptBytes aead keyring envelope
  pure (plaintext.2 ++ [10])

/-- A log whose lines are frames has the content of its envelopes. -/
theorem canonicalAuditPlaintext_frames {envelopes : List Bytes} (htext : auditText bytes = .ok text)
    (h : List.Forall₂ (IsFrame base64) ((lines text.toList).filter (· ≠ [])) envelopes) :
    canonicalAuditPlaintext aead base64 keyring bytes = (do
        let records ← envelopes.mapM (auditRecord aead keyring)
        pure records.flatten) := by
  obtain ⟨infos, hinfos⟩ := inspectAuditLines_eq_some.mpr ⟨envelopes, h⟩
  have hinspect : inspectAuditFrames base64 bytes = .ok (some infos) := by
    rw [inspectAuditFrames, htext]
    exact hinfos
  have hfilter : (lines text.toList).filter (fun line => !line.all isWhitespace) =
      (lines text.toList).filter (· ≠ []) := by
    refine filter_congr fun line hline => ?_
    by_cases hne : line = []
    · rw [hne]
      rfl
    · have hmem : line ∈ (lines text.toList).filter (· ≠ []) :=
        mem_filter.mpr ⟨hline, decide_eq_true hne⟩
      obtain ⟨envelope, -, hframe⟩ := forall₂_exists h line hmem
      rw [hframe.not_blank, decide_eq_true hne]
      rfl
  have hrecords : ((lines text.toList).filter (· ≠ [])).mapM (fun line => do
      let envelope ← decodeFrame base64 ((auditEncoded line).getD [])
      let plaintext ← decryptBytes aead keyring envelope
      pure (plaintext.2 ++ [10])) = envelopes.mapM (auditRecord aead keyring) := by
    refine mapM_eq_of_forall₂ (h.imp fun line envelope hframe => ?_)
    rw [hframe.decodeFrame]
    rfl
  rw [canonicalAuditPlaintext, htext, hinspect, ← hrecords, ← hfilter]
  rfl

/-- **A rotated log has rotated envelopes.** -/
theorem rewrapAuditFrames_spec (hcipher : aead.Correct) (hkeyring : keyring.Loaded)
    (h : rewrapAuditFrames aead base64 keyring nonces bytes = .ok rotated) :
    ∃ text envelopes, auditText bytes = .ok text ∧
      List.Forall₂ (IsFrame base64) ((lines text.toList).filter (· ≠ [])) envelopes ∧
      ∃ envelopes', List.Forall₂ (Rotated aead keyring) envelopes envelopes' ∧
        rotated = utf8 (String.ofList
          (unlines (envelopes'.map fun envelope => auditMark ++ base64.encode envelope))) := by
  simp only [rewrapAuditFrames, eq_ok] at h
  obtain ⟨infos, hinfos, hsome, text, htext, frames, hframes, rfl⟩ := h
  obtain ⟨infos, rfl⟩ := Option.isSome_iff_exists.mp hsome
  rw [inspectAuditFrames, htext] at hinfos
  obtain ⟨envelopes, henvelopes⟩ := inspectAuditLines_eq_some.mp ⟨infos, hinfos⟩
  have hall : List.Forall₂ (fun line frame => ∃ rotated,
      (∃ envelope, decodeFrame base64 ((auditEncoded line).getD []) = .ok envelope ∧
        Rotated aead keyring envelope rotated) ∧
      frame = auditMark ++ base64.encode rotated)
      ((lines text.toList).filter (· ≠ [])) frames := by
    refine forall₂_of_mapM_zipIdx hframes fun line i frame hframe => ?_
    simp only [eq_ok] at hframe
    obtain ⟨envelope, hdecode, rotated, hrotated, hframe⟩ := hframe
    cases hframe
    exact ⟨rotated, ⟨envelope, hdecode, rotateEnvelope_spec hcipher hkeyring hrotated⟩, rfl⟩
  obtain ⟨envelopes', hrotated, rfl⟩ := exists_map_of_forall₂ hall
  refine ⟨text, envelopes, htext, henvelopes, envelopes', ?_, rfl⟩
  refine (forall₂_join henvelopes hrotated).imp ?_
  rintro envelope envelope' ⟨line, hline, other, hother, hpair⟩
  cases hline.decodeFrame.symm.trans hother
  exact hpair

theorem auditMark_isLine (h : IsLine encoded) :
    IsLine (auditMark ++ encoded) where
  feed hmem := (mem_append.mp hmem).elim (by decide) h.feed
  carriage hmem := (mem_append.mp hmem).elim (by decide) h.carriage

theorem IsFrame.of_encode (hbase64 : base64.Lawful) {parsed : ParsedHeader}
    (hparsed : parseHeader envelope = .ok parsed) (htype : parsed.info.fileType = .audit) :
    IsFrame base64 (auditMark ++ base64.encode envelope) envelope where
  decodes := by
    refine ⟨base64.encode envelope, ?_, hbase64.decode_encode envelope⟩
    rw [auditEncoded, if_pos, drop_left]
    exact isPrefixOf_iff_prefix.mpr (prefix_append _ _)
  parses := ⟨parsed, hparsed, htype⟩

/-- **Rotation keeps a log.** -/
theorem rewrapAuditFrames_content (hcipher : aead.Correct) (hbase64 : base64.Lawful)
    (hkeyring : keyring.Loaded)
    (h : rewrapAuditFrames aead base64 keyring nonces bytes = .ok rotated)
    (hcontent : canonicalAuditPlaintext aead base64 keyring bytes = .ok content) :
    canonicalAuditPlaintext aead base64 keyring rotated = .ok content := by
  obtain ⟨text, envelopes, htext, hframes, envelopes', hrotated, rfl⟩ :=
    rewrapAuditFrames_spec hcipher hkeyring h
  let frames := envelopes'.map fun envelope => auditMark ++ base64.encode envelope
  have htext' : auditText (utf8 (String.ofList (unlines frames))) =
      .ok (String.ofList (unlines frames)) := auditText_eq_ok.mpr (ofUtf8?_utf8 _)
  have hlines : lines (String.ofList (unlines frames)).toList = frames := by
    rw [String.toList_ofList]
    refine lines_unlines fun line hline => ?_
    obtain ⟨envelope, -, rfl⟩ := mem_map.mp hline
    exact auditMark_isLine (hbase64.isLine envelope)
  have hfilter : frames.filter (· ≠ []) = frames := by
    refine filter_eq_self.mpr fun line hline => ?_
    obtain ⟨envelope, -, rfl⟩ := mem_map.mp hline
    rfl
  have hparses : ∀ envelope ∈ envelopes', ∃ parsed, parseHeader envelope = .ok parsed ∧
      parsed.info.fileType = .audit := by
    refine forall_mem_of_forall₂ hrotated (forall_mem_of_forall₂ hframes (fun _ _ => trivial)
      fun _ _ hframe _ => hframe.parses) ?_
    rintro envelope envelope' hpair ⟨parsed, hparsed, htype⟩
    obtain ⟨found, parsed', hfound, hparsed', hinfo⟩ := hpair.header
    cases hparsed.symm.trans hfound
    refine ⟨parsed', hparsed', ?_⟩
    rw [hinfo]
    exact htype
  have hframes' : List.Forall₂ (IsFrame base64) frames envelopes' := by
    refine forall₂_map_left_iff.mpr (forall₂_same.mpr fun envelope hmem => ?_)
    obtain ⟨parsed, hparsed, htype⟩ := hparses envelope hmem
    exact .of_encode hbase64 hparsed htype
  rw [canonicalAuditPlaintext_frames htext hframes, bind_eq_ok] at hcontent
  rw [canonicalAuditPlaintext_frames htext' (by rw [hlines, hfilter]; exact hframes'), bind_eq_ok]
  obtain ⟨records, hrecords, hflat⟩ := hcontent
  refine ⟨records, mapM_congr_of_forall₂ (hrotated.imp ?_) hrecords, hflat⟩
  intro envelope envelope' hpair record hrecord
  simp only [auditRecord, eq_ok] at hrecord ⊢
  obtain ⟨⟨info, plaintext⟩, hplaintext, hrecord⟩ := hrecord
  obtain ⟨info', hinfo'⟩ := hpair.decrypts info plaintext hplaintext
  exact ⟨(info', plaintext), hinfo', hrecord⟩

end Logs

/-! ### Any file -/

section Any

theorem Preserved.refl (bytes : Bytes) : Preserved aead crc32 base64 keyring path bytes bytes :=
  ⟨fun _ h => h, fun _ => rfl⟩

variable {rotated : Bytes}

theorem Preserved.trans {between : Bytes}
    (h : Preserved aead crc32 base64 keyring path bytes between)
    (h' : Preserved aead crc32 base64 keyring path between rotated) :
    Preserved aead crc32 base64 keyring path bytes rotated :=
  ⟨fun content hcontent => h'.content content (h.content content hcontent),
    fun hwal => (h'.lengths hwal).trans (h.lengths hwal)⟩

theorem isWalSegment_of_isAuditLog (h : isAuditLog path = true) : isWalSegment path = false := by
  rw [isAuditLog, Option.any_eq_true] at h
  obtain ⟨name, hname, hkind⟩ := h
  have hsuffix : ".jsonl".toList <:+ name.toList := by
    simp only [Bool.or_eq_true, Bool.and_eq_true, decide_eq_true_eq] at hkind
    rcases hkind with rfl | hkind
    · exact ⟨"audit".toList, rfl⟩
    · exact isSuffixOf_iff_suffix.mp hkind.2
  have hextension : extension name ≠ some "gdwal".toList := by
    obtain ⟨before, hbefore⟩ := hsuffix
    have hlast : name.toList.reverse.takeWhile (· ≠ '.') = "lnosj".toList := by
      rw [← hbefore, reverse_append]
      rfl
    rw [extension, hlast]
    split <;> simp
  rw [isWalSegment, hname, decide_eq_false_iff_not]
  exact hextension

/-- **Rotation keeps a file.** -/
theorem rotateFile_preserved (hcipher : aead.Correct) (hbase64 : base64.Lawful)
    (hkeyring : keyring.Loaded) {nonces : ℕ → List.Vector UInt8 12}
    (h : rotateFile aead crc32 base64 keyring nonces path bytes = .ok (some rotated)) :
    Preserved aead crc32 base64 keyring path bytes rotated := by
  rw [rotateFile] at h
  split at h
  · next haudit =>
    simp only [eq_ok, Option.some.injEq, exists_eq_right] at h
    constructor
    · intro content hcontent
      rw [canonicalPlaintext, if_pos haudit] at hcontent ⊢
      exact rewrapAuditFrames_content hcipher hbase64 hkeyring h hcontent
    · intro hwal
      rw [isWalSegment_of_isAuditLog haudit] at hwal
      cases hwal
  · next haudit =>
    split at h
    · next hencrypted =>
      simp only [eq_ok, Option.some.injEq] at h
      obtain ⟨⟨info, _⟩, hrewrap, rfl⟩ := h
      have hrotated := rewrapEnvelope_spec hcipher hkeyring hrewrap
      constructor
      · intro content hcontent
        rw [canonicalPlaintext, if_neg haudit, if_pos hencrypted, bind_eq_ok] at hcontent
        rw [canonicalPlaintext, if_neg haudit, if_pos hrotated.isEncrypted, bind_eq_ok]
        obtain ⟨⟨found, plaintext⟩, hplaintext, hcontent⟩ := hcontent
        obtain ⟨found', hfound'⟩ := hrotated.decrypts found plaintext hplaintext
        exact ⟨(found', plaintext), hfound', hcontent⟩
      · intro _
        rw [walEnvelopes, if_pos hrotated.isEncrypted, walEnvelopes, if_pos hencrypted,
          map_singleton, map_singleton, hrotated.length]
    · next hplain =>
      split at h
      · next hwal =>
        simp only [eq_ok, Option.some.injEq, exists_eq_right] at h
        exact rewrapWalFrames_preserved hcipher hkeyring hwal
          (Bool.eq_false_iff.mpr haudit) (Bool.eq_false_iff.mpr hplain) h
      · cases h

end Any

end ChironDB.Encryption
