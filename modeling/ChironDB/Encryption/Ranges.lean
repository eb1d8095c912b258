/-
# Ranges of envelopes

`PersistentFile` reads ranges of a plaintext.  A range has the bytes of the plaintext at its place,
whatever the rest of the file is, and the range of everything is only read from the envelope itself.
With that the three readers of an envelope agree: with each other, with the plaintext that was
encrypted, and in what they refuse.
-/

import ChironDB.Encryption.Streams

namespace ChironDB.Encryption

open Codec Crypto Fault List

/-- The bytes of a range. -/
def slice (plaintext : Bytes) (start stop : ℕ) : Bytes := (plaintext.take stop).drop start

variable {start stop index : ℕ}

theorem slice_append (plaintext : Bytes) {middle : ℕ} (h : middle ≤ stop) :
    slice plaintext start middle ++ slice plaintext (max start middle) stop =
      slice plaintext start stop := by
  rcases le_total start middle with hle | hle
  · have hsplit : slice plaintext start stop = (slice plaintext start stop).take (middle - start) ++
          (slice plaintext start stop).drop (middle - start) := (take_append_drop _ _).symm
    rw [max_eq_right hle, hsplit, slice, slice, slice, take_drop, drop_drop,
      take_take, Nat.add_sub_cancel' hle, min_eq_left h]
  · have hnil : slice plaintext start middle = [] :=
      drop_eq_nil_of_le (by rw [length_take]; omega)
    rw [max_eq_left hle, hnil, nil_append]

theorem slice_of_le (plaintext : Bytes) (h : stop ≤ start) :
    slice plaintext start stop = [] :=
  drop_eq_nil_of_le (by rw [length_take]; omega)

theorem slice_length (plaintext : Bytes) (h : stop ≤ plaintext.length) :
    (slice plaintext start stop).length = stop - start := by
  rw [slice, length_drop, length_take, min_eq_left h]

variable {chunkSize : ℕ}

theorem field_chunkAt (plaintext : Bytes) {copyStart copyEnd : ℕ} (hend : copyEnd ≤ chunkSize) :
    field (chunkAt plaintext chunkSize index) copyStart (copyEnd - copyStart) =
      slice plaintext (index * chunkSize + copyStart) (index * chunkSize + copyEnd) := by
  rw [field, chunkAt, slice, drop_take, drop_take, take_take, drop_drop,
    min_eq_left (by omega), Nat.add_sub_add_left]

section Ranges

variable {aead : Aead} {world : Encrypted aead → Prop}

/-- A file that begins with the header of an envelope, once it is open. -/
def Encrypted.opened (s : Encrypted aead) (body : Bytes) : PersistentFile :=
  ⟨s.plaintext.length, s.withBody body, s.layout⟩

variable {s : Encrypted aead} {body : Bytes}

/-- **One chunk of a range.** -/
theorem Encrypted.copyChunk_eq
    (hchunk : (s.opened body).encryptedChunk aead index = .ok (s.chunk index))
    (hlow : index * s.chunkSize < stop) (hhigh : start < (index + 1) * s.chunkSize)
    (hlt : start < stop) (hstop : stop ≤ s.plaintext.length) :
    (s.opened body).copyChunk aead start stop
        (slice s.plaintext start (min stop (index * s.chunkSize))) index =
      .ok (slice s.plaintext start (min stop ((index + 1) * s.chunkSize))) := by
  have hlength := s.chunk_length index
  rw [Nat.succ_mul] at hhigh ⊢
  have hend : min stop (index * s.chunkSize + (s.chunk index).length) =
      min stop (index * s.chunkSize + s.chunkSize) := by omega
  simp only [PersistentFile.copyChunk, eq_ok]
  refine ⟨s.chunk index, hchunk, ?_, ?_⟩
  · change start - index * s.chunkSize ≤
        min stop (index * s.chunkSize + (s.chunk index).length) - index * s.chunkSize ∧ _ ≤ _
    omega
  · change _ ++ field (s.chunk index) (start - index * s.chunkSize)
      (min stop (index * s.chunkSize + (s.chunk index).length) - index * s.chunkSize -
        (start - index * s.chunkSize)) = _
    rw [hend, field_chunkAt _ (by omega), ← slice_append s.plaintext
      (show min stop (index * s.chunkSize) ≤ min stop (index * s.chunkSize + s.chunkSize) by omega)]
    congr 2 <;> omega

theorem Encrypted.bounds_of_range (hlt : start < stop)
    (hfirst : start / s.chunkSize ≤ index) (hlast : index ≤ (stop - 1) / s.chunkSize) :
    index * s.chunkSize < stop ∧ start < (index + 1) * s.chunkSize := by
  have hpos : 0 < s.chunkSize := s.fits.chunk_pos
  rw [Nat.le_div_iff_mul_le hpos] at hlast
  refine ⟨by omega, ?_⟩
  rw [← Nat.div_lt_iff_lt_mul hpos]
  omega

theorem Encrypted.stop_le_last (hpos : 0 < stop) :
    stop ≤ ((stop - 1) / s.chunkSize + 1) * s.chunkSize := by
  have hsize : 0 < s.chunkSize := s.fits.chunk_pos
  have := Nat.lt_mul_of_div_lt (Nat.lt_succ_self ((stop - 1) / s.chunkSize)) hsize
  rw [Nat.succ_eq_add_one] at this
  omega

/-- What a range has up to a chunk. -/
def Encrypted.sliceTo (s : Encrypted aead) (start stop index : ℕ) : Bytes :=
  slice s.plaintext start (min stop (index * s.chunkSize))

theorem Encrypted.sliceTo_first (s : Encrypted aead) (start stop : ℕ) :
    s.sliceTo start stop (start / s.chunkSize) = [] :=
  slice_of_le _ ((min_le_right _ _).trans (Nat.div_mul_le_self _ _))

theorem Encrypted.sliceTo_last (s : Encrypted aead) (hlt : start < stop) :
    s.sliceTo start stop (start / s.chunkSize +
      ((stop - 1) / s.chunkSize + 1 - start / s.chunkSize)) = slice s.plaintext start stop := by
  have hdiv : start / s.chunkSize ≤ (stop - 1) / s.chunkSize :=
    Nat.div_le_div_right (by omega)
  rw [Encrypted.sliceTo, Nat.add_sub_cancel' (by omega), min_eq_left (s.stop_le_last (by omega))]

theorem Encrypted.lt_chunkCount
    (h : index * s.chunkSize < s.plaintext.length) : index < s.chunkCount :=
  Nat.lt_of_mul_lt_mul_right (h.trans_le s.length_le_mul)

/-- **A range whose chunks open** has the bytes of the plaintext. -/
theorem Encrypted.readRange_eq (hchunks : ∀ index < s.chunkCount,
      (s.opened body).encryptedChunk aead index = .ok (s.chunk index))
    (hle : start ≤ stop) (hstop : stop ≤ s.plaintext.length) :
    (s.opened body).readRange aead start stop = .ok (slice s.plaintext start stop) := by
  simp only [PersistentFile.readRange, eq_ok]
  refine ⟨⟨hle, hstop⟩, ?_⟩
  split
  · next heq => rw [slice_of_le _ (le_of_eq heq.symm)]; rfl
  next hne =>
  have hlt : start < stop := lt_of_le_of_ne hle hne
  have hstep : ∀ index, start / s.chunkSize ≤ index → index < start / s.chunkSize +
      ((stop - 1) / s.chunkSize + 1 - start / s.chunkSize) →
      (s.opened body).copyChunk aead start stop (s.sliceTo start stop index) index =
        .ok (s.sliceTo start stop (index + 1)) := by
    intro index hfirst hlast
    obtain ⟨hlow, hhigh⟩ := s.bounds_of_range hlt hfirst (by omega)
    exact s.copyChunk_eq (hchunks index (s.lt_chunkCount (hlow.trans_le hstop))) hlow hhigh hlt
      hstop
  have hcopies := foldlM_range' _ hstep
  rw [s.sliceTo_first, s.sliceTo_last hlt] at hcopies
  simp only [eq_ok]
  exact ⟨_, hcopies, slice_length _ hstop, rfl⟩

variable {keyring : Keyring}

section Ideal

variable (ideal : aead.Ideal (Sealed world))

include ideal

theorem Encrypted.framesFrom_length (h : 0 < s.chunkCount) :
    (s.framesFrom 0).length = (s.chunkCount - 1) * (s.chunkSize + (tagLen + 4)) +
      (4 + (s.cipher (s.chunkCount - 1)).length) := by
  have hlast : s.chunkCount - 1 < s.chunkCount := by omega
  have hnone := s.framesFrom_of_le (show s.chunkCount ≤ s.chunkCount - 1 + 1 by omega)
  rw [← s.framesTo_append hlast.le, s.framesFrom_of_lt hlast, hnone, append_nil,
    length_append, length_append, leBytes_length, s.framesTo_length ideal hlast]

theorem Encrypted.encodedLen_eq (hsize : s.chunkSize ≤ maxEncryptionChunkSize) :
    PersistentFile.encodedLen s.layout =
      .ok (s.parsed.bodyOffset + (s.framesFrom 0).length) := by
  have hcount : s.layout.chunkCount = s.chunkCount := rfl
  rw [PersistentFile.encodedLen, hcount]
  split
  · next hzero =>
    rw [s.framesFrom_of_le (by omega)]
    rfl
  · next hsome =>
    rw [s.encryptedChunkRange_eq ideal hsize (by omega), s.framesFrom_length ideal (by omega)]
    exact congrArg Except.ok (Nat.add_assoc _ _ _)

/-- A file that opens has the length of an envelope that was produced, and its header. -/
theorem openFile_authentic {file : Bytes} {opened : PersistentFile}
    (h : PersistentFile.openFile aead keyring file = .ok opened) :
    ∃ s body, Encrypted.Served world s ∧ file = s.withBody body ∧
      body.length = (s.framesFrom 0).length ∧ opened = s.opened body := by
  simp only [PersistentFile.openFile, eq_ok] at h
  obtain ⟨header, hheader, layout, hlayout, expected, hexpected, hlength, rfl⟩ := h
  obtain ⟨s, body, hs, rfl, rfl⟩ := layout_authentic ideal hheader hlayout
  rw [s.encodedLen_eq ideal hs.size, Except.ok.injEq] at hexpected
  rw [← hexpected, s.length_withBody ideal] at hlength
  exact ⟨s, body, hs, rfl, (Nat.add_left_cancel hlength).symm, rfl⟩

theorem Encrypted.openFile_eq (hs : s.Served world)
    (hkey : keyring.keys s.info.keyId = some s.kek) :
    PersistentFile.openFile aead keyring s.envelope = .ok (s.opened (s.framesFrom 0)) := by
  simp only [PersistentFile.openFile, eq_ok]
  rw [s.envelope_eq]
  exact ⟨_, s.readEncryptedHeader_eq ideal _, _, s.fromHeader_eq ideal hs hkey, _,
    s.encodedLen_eq ideal hs.size, (s.length_withBody ideal _).symm, rfl⟩

theorem Encrypted.encryptedChunk_eq (hs : s.Served world) (h : index < s.chunkCount) :
    (s.opened (s.framesFrom 0)).encryptedChunk aead index = .ok (s.chunk index) := by
  have hbound := s.frame_bound h
  simp only [PersistentFile.encryptedChunk, eq_ok]
  refine ⟨_, s.encryptedChunkRange_eq ideal hs.size h, ?_, ?_⟩
  · rw [Encrypted.opened, s.length_withBody ideal, s.frameStart_eq ideal h]
    omega
  · rw [Encrypted.opened, Nat.add_sub_cancel_left, s.field_frameStart ideal h, s.field_framesFrom h]
    exact s.decryptChunkFrame_eq ideal hs h

/-- A chunk that is read is the chunk of the envelope, and is stored as there. -/
theorem Encrypted.encryptedChunk_authentic (fresh : FreshKeys world) (hs : s.Served world)
    {chunk : Bytes} (h : (s.opened body).encryptedChunk aead index = .ok chunk) :
    chunk = s.chunk index ∧ field body (s.framesTo index).length (4 + (s.cipher index).length) =
      chunkFrame aead s.info s.dek s.plaintext index := by
  simp only [PersistentFile.encryptedChunk, Encrypted.opened, eq_ok] at h
  obtain ⟨⟨start, stop⟩, hrange, -, hchunk⟩ := h
  have hlt := s.lt_of_encryptedChunkRange hrange
  rw [s.encryptedChunkRange_eq ideal hs.size hlt] at hrange
  cases hrange
  obtain ⟨rfl, hframe⟩ := s.decryptChunkFrame_authentic ideal fresh hs.mem hchunk
  rw [Nat.add_sub_cancel_left, s.field_frameStart ideal hlt] at hframe
  exact ⟨rfl, hframe⟩

variable {output : Bytes}

/-- **A range that is read** has the bytes of the plaintext, and the chunks it touches are stored
as in the envelope. -/
theorem Encrypted.readRange_authentic (fresh : FreshKeys world) (hs : s.Served world)
    (h : (s.opened body).readRange aead start stop = .ok output) :
    start ≤ stop ∧ stop ≤ s.plaintext.length ∧ output = slice s.plaintext start stop ∧
      (start < stop → ∀ index, start / s.chunkSize ≤ index → index ≤ (stop - 1) / s.chunkSize →
        field body (s.framesTo index).length (4 + (s.cipher index).length) =
          chunkFrame aead s.info s.dek s.plaintext index) := by
  simp only [PersistentFile.readRange, eq_ok] at h
  obtain ⟨⟨hle, hstop⟩, h⟩ := h
  refine ⟨hle, hstop, ?_⟩
  split at h
  · next heq =>
    cases h
    exact ⟨(slice_of_le _ (le_of_eq heq.symm)).symm, fun hlt => absurd heq hlt.ne⟩
  next hne =>
  have hlt : start < stop := lt_of_le_of_ne hle hne
  simp only [eq_ok] at h
  obtain ⟨copied, hcopied, -, rfl⟩ := h
  have hstep : ∀ index next, start / s.chunkSize ≤ index → index < start / s.chunkSize +
      ((stop - 1) / s.chunkSize + 1 - start / s.chunkSize) →
      (s.opened body).copyChunk aead start stop (s.sliceTo start stop index) index = .ok next →
      next = s.sliceTo start stop (index + 1) ∧
        field body (s.framesTo index).length (4 + (s.cipher index).length) =
          chunkFrame aead s.info s.dek s.plaintext index := by
    intro index next hfirst hlast hcopy
    obtain ⟨hlow, hhigh⟩ := s.bounds_of_range hlt hfirst (by omega)
    have hopened := hcopy
    rw [PersistentFile.copyChunk, bind_eq_ok] at hopened
    obtain ⟨chunk, hchunk, -⟩ := hopened
    obtain ⟨rfl, hframe⟩ := s.encryptedChunk_authentic ideal fresh hs hchunk
    have hcopied := s.copyChunk_eq hchunk hlow hhigh hlt hstop
    exact ⟨Except.ok.inj (hcopy.symm.trans hcopied), hframe⟩
  rw [← s.sliceTo_first start stop] at hcopied
  obtain ⟨hcopied, hframes⟩ := foldlM_range'_ok _ hstep hcopied
  rw [s.sliceTo_last hlt] at hcopied
  exact ⟨hcopied, fun _ index hfirst hlast => hframes index hfirst (by omega)⟩

omit ideal in
/-- A body whose chunks are all stored as in the envelope, and that is as long, is its body. -/
theorem Encrypted.body_eq (hlength : body.length = (s.framesFrom 0).length)
    (hframes : ∀ index < s.chunkCount,
      field body (s.framesTo index).length (4 + (s.cipher index).length) =
        chunkFrame aead s.info s.dek s.plaintext index) :
    body = s.framesFrom 0 := by
  have hprefix : ∀ index ≤ s.chunkCount, s.framesTo index <+: body := by
    intro index
    induction index with
    | zero => exact fun _ => nil_prefix
    | succ index ih =>
      intro hle
      obtain ⟨rest, hrest⟩ := ih (by omega)
      have hframe := hframes index (by omega)
      rw [← hrest, field, drop_left] at hframe
      rw [s.framesTo_succ, ← hrest, prefix_append_right_inj, ← hframe]
      exact take_prefix _ _
  have hall := s.framesTo_append le_rfl
  rw [s.framesFrom_of_le le_rfl, append_nil] at hall
  have hbody := hprefix _ le_rfl
  rw [hall] at hbody
  exact (hbody.eq_of_length hlength.symm).symm

/-- The range of everything is only read from the envelope. -/
theorem Encrypted.readRange_all (fresh : FreshKeys world) (hs : s.Served world)
    (hlength : body.length = (s.framesFrom 0).length)
    (h : (s.opened body).readRange aead 0 s.plaintext.length = .ok output) :
    body = s.framesFrom 0 := by
  obtain ⟨-, -, -, hframes⟩ := s.readRange_authentic ideal fresh hs h
  refine s.body_eq hlength fun index hlt => ?_
  have hlow := s.mul_lt_length hlt
  refine hframes (by omega) index (by simp) ?_
  have hpos : 0 < s.chunkSize := s.fits.chunk_pos
  rw [Nat.le_div_iff_mul_le hpos]
  omega

/-! ## The three readers -/

omit ideal in
/-- A header whose chunk size is above the bound of the readers is refused. -/
theorem Encrypted.parseHeader_oversized
    (hsize : maxEncryptionChunkSize < s.chunkSize) (body : Bytes) :
    parseHeader (s.withBody body) =
      .error (corruption "encryption chunk size exceeds supported bounds") := by
  obtain ⟨h0, h8, h9, h10, -, -, h36, -⟩ :=
    field_header s.fits s.wrapNonce_length (rfl : s.withBody body = _)
  have hkey := ofLeBytes_leBytes 2 _ (s.fits.key.trans_lt (by decide))
  have hchunk : ofLeBytes (leBytes 4 s.info.chunkSize) = s.chunkSize :=
    ofLeBytes_leBytes 4 _ s.fits.chunk
  have hlength : fixedHeaderLen ≤ (s.withBody body).length := by
    rw [Encrypted.withBody, length_append, aadHeader_length s.fits s.wrapNonce_length]
    omega
  have hpos := s.fits.key_pos
  have hshort := s.fits.key
  rw [parseHeader, h0, h8, h9, h10, h36, hkey, hchunk]
  simp [ensure, hlength, FileType.tryFrom_toByte, hpos.ne', hshort, bind, Except.bind,
    not_le.mpr hsize]

end Ideal

/-- **The readers of an envelope return its plaintext**, as a whole, as a stream, and in ranges. -/
structure ReadsBack (keyring : Keyring) (s : Encrypted aead) : Prop where
  whole : decryptBytes aead keyring s.envelope = .ok (s.info, s.plaintext)
  /-- Reads of any sizes return a beginning of the plaintext, and enough of them all of it. -/
  stream : ∀ maxChunkSize, s.chunkSize ≤ maxChunkSize → ∃ reader,
    EncryptedChunkReader.openFile aead keyring s.envelope maxChunkSize = .ok reader ∧
      ∀ sizes, ∃ output after, EncryptedChunkReader.reads aead sizes reader = .ok (output, after) ∧
          output <+: s.plaintext ∧ ((∀ size ∈ sizes, size ≠ 0) →
            s.plaintext.length ≤ sizes.length → output = s.plaintext)
  ranges : ∃ file, PersistentFile.openFile aead keyring s.envelope = .ok file ∧
    ∀ start stop, start ≤ stop → stop ≤ s.plaintext.length →
      file.readRange aead start stop = .ok (slice s.plaintext start stop)

/-- **Nothing but an envelope is read to its end**, and nothing but bytes of a plaintext at their
place is returned. -/
structure Detects (world : Encrypted aead → Prop) (keyring : Keyring) (file : Bytes) : Prop where
  whole : ∀ info plaintext, decryptBytes aead keyring file = .ok (info, plaintext) →
    ∃ s, world s ∧ file = s.envelope ∧ info = s.info ∧ plaintext = s.plaintext
  stream : ∀ maxChunkSize reader,
    EncryptedChunkReader.openFile aead keyring file maxChunkSize = .ok reader →
      ∃ s body, world s ∧ file = s.withBody body ∧ ∀ sizes output after,
        EncryptedChunkReader.reads aead sizes reader = .ok (output, after) →
          output <+: s.plaintext ∧ ∀ size last, size ≠ 0 →
            after.read aead size = .ok ([], last) → file = s.envelope ∧ output = s.plaintext
  ranges : ∀ opened, PersistentFile.openFile aead keyring file = .ok opened →
    ∃ s body, world s ∧ file = s.withBody body ∧ (∀ start stop output,
      opened.readRange aead start stop = .ok output →
        stop ≤ s.plaintext.length ∧ output = slice s.plaintext start stop) ∧
      ∀ output, opened.readRange aead 0 opened.len = .ok output → file = s.envelope

section Ideal

variable (ideal : aead.Ideal (Sealed world)) (fresh : FreshKeys world)

include ideal fresh

theorem Encrypted.readsBack (hs : s.Served world)
    (hkey : keyring.keys s.info.keyId = some s.kek) : ReadsBack keyring s where
  whole := s.decryptBytes_eq ideal.seals hs hkey
  stream maxChunkSize hmax := by
    obtain ⟨reader, hopen, hreading, hzero⟩ := s.openReader_eq ideal hs hkey hmax
    refine ⟨reader, hopen, fun sizes => ?_⟩
    obtain ⟨⟨output, after⟩, hreads⟩ := hreading.reads_ok ideal fresh hs sizes
    obtain ⟨hafter, houtput⟩ := hreading.reads ideal fresh hs hreads
    rw [hzero, take_zero, nil_append] at houtput
    refine ⟨output, after, hreads, houtput ▸ take_prefix _ _, fun hsizes hlong => ?_⟩
    have hprogress := hreading.reads_progress ideal fresh hs hsizes hreads
    rw [← houtput, take_of_length_le (by omega)]
  ranges := ⟨_, s.openFile_eq ideal hs hkey, fun _ _ hle hstop =>
    s.readRange_eq (fun _ hindex => s.encryptedChunk_eq ideal hs hindex) hle hstop⟩

theorem detects (keyring : Keyring) (file : Bytes) : Detects world keyring file where
  whole _ _ h := decryptBytes_authentic ideal fresh h
  stream maxChunkSize reader hopen := by
    obtain ⟨s, body, hs, rfl, hreading, hzero⟩ := openReader_authentic ideal hopen
    refine ⟨s, body, hs.mem, rfl, fun sizes output after hreads => ?_⟩
    obtain ⟨hafter, houtput⟩ := hreading.reads ideal fresh hs hreads
    rw [hzero, take_zero, nil_append] at houtput
    refine ⟨houtput ▸ take_prefix _ _, fun size last hsome hread => ?_⟩
    obtain ⟨-, hlast, hend⟩ := hafter.read ideal fresh hs hread
    obtain ⟨rfl, hall⟩ := hend hsome rfl
    rw [hall, take_length, houtput, append_nil] at hlast
    exact ⟨s.envelope_eq.symm, hlast.symm⟩
  ranges opened hopen := by
    obtain ⟨s, body, hs, rfl, hlength, rfl⟩ := openFile_authentic ideal hopen
    refine ⟨s, body, hs.mem, rfl, fun start stop output hread => ?_, fun output hread => ?_⟩
    · obtain ⟨-, hstop, houtput, -⟩ := s.readRange_authentic ideal fresh hs hread
      exact ⟨hstop, houtput⟩
    · rw [s.envelope_eq, s.readRange_all ideal fresh hs hlength hread]

end Ideal

end Ranges

def exampleKeyring : Keyring :=
  ⟨"a", fun id => if id = "a" then some (List.replicate 32 7) else none⟩

theorem exampleKeyring_loaded : exampleKeyring.Loaded := by
  have honly : ∀ id key, exampleKeyring.keys id = some key → id = "a" := by
    intro id key h
    by_contra hne
    simp [exampleKeyring, hne] at h
  refine ⟨rfl, fun id key h => ?_, fun id key h => ?_, fun id key h => ?_⟩
  all_goals
    obtain rfl := honly id key h
    decide +kernel

theorem exampleEncrypt_ok (aead : Aead) (h : chunkSize ≠ 0 ∧ chunkSize < 2 ^ 32) :
    ∃ envelope, encryptBytesWithChunkSize aead exampleKeyring exampleDraws .segment [4, 5, 6]
      chunkSize = .ok envelope := by
  simp only [encryptBytesWithChunkSize, eq_ok]
  have hcount : divCeil 3 chunkSize ≤ 3 := Nat.div_le_of_le_mul (by omega)
  exact ⟨_, h, _, rfl, hcount.trans_lt (by decide), rfl⟩

/-- Three bytes that are encrypted. -/
def exampleEncrypted (aead : Aead) (chunkSize : ℕ) (h : chunkSize ≠ 0 ∧ chunkSize < 2 ^ 32) :
    Encrypted aead where
  keyring := exampleKeyring
  loaded := exampleKeyring_loaded
  draws := exampleDraws
  fileType := .segment
  plaintext := [4, 5, 6]
  chunkSize := chunkSize
  envelope := (encryptBytesWithChunkSize aead exampleKeyring exampleDraws .segment [4, 5, 6]
    chunkSize).toOption.getD []
  done := by
    obtain ⟨envelope, hdone⟩ := exampleEncrypt_ok aead h
    rw [hdone]
    rfl

/-- What is sealed for them. -/
def exampleLog (chunkSize : ℕ) : List Query :=
  let info : EnvelopeInfo := ⟨.segment, "a", List.replicate 16 2, 3, chunkSize⟩
  ⟨List.replicate 32 7, List.replicate 12 3, aadHeader info (List.replicate 12 3),
      List.replicate 32 1⟩ ::
    (List.range (divCeil 3 chunkSize)).map fun index =>
      ⟨List.replicate 32 1, chunkNonce info.fileUuid index, chunkAad info index,
        chunkAt [4, 5, 6] chunkSize index⟩

def exampleAead (chunkSize : ℕ) : Aead := .logged (exampleLog chunkSize)

theorem exampleAead_ideal (h : chunkSize ≠ 0 ∧ chunkSize < 2 ^ 32) :
    (exampleAead chunkSize).Ideal
      (Sealed (· = exampleEncrypted (exampleAead chunkSize) chunkSize h)) := by
  have hlog : (Sealed (· = exampleEncrypted (exampleAead chunkSize) chunkSize h)) =
      (· ∈ exampleLog chunkSize) := by
    funext q
    apply propext
    constructor
    · rintro ⟨s, rfl, hasks⟩
      cases hasks with
      | wrap => exact mem_cons_self
      | chunk index hindex =>
        exact mem_cons_of_mem _ (mem_map.mpr ⟨index, mem_range.mpr hindex, rfl⟩)
    · intro hq
      refine ⟨_, rfl, ?_⟩
      rcases mem_cons.mp hq with rfl | hq
      · exact .wrap
      · obtain ⟨index, hindex, rfl⟩ := mem_map.mp hq
        exact .chunk index (mem_range.mp hindex)
  rw [hlog]
  exact Aead.logged_ideal _

end ChironDB.Encryption
