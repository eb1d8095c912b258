/-
# Streams of envelopes

`EncryptedChunkReader` reads an envelope chunk by chunk.  A stream keeps to the plaintext it began
with (`Reading`): what has been read is a beginning of it, and the end is only reported when every
chunk was there and nothing follows.
-/

import ChironDB.Encryption.Readers

namespace ChironDB.Encryption

open Codec Crypto Fault List

section Streams

variable {aead : Aead} {world : Encrypted aead → Prop}

/-- The header of an envelope, with any body. -/
def Encrypted.withBody (s : Encrypted aead) (body : Bytes) : Bytes :=
  aadHeader s.info s.wrapNonce ++ (s.wrappedDek ++ body)

theorem Encrypted.envelope_eq (s : Encrypted aead) : s.envelope = s.withBody (s.framesFrom 0) :=
  s.done_spec.2.2.2.2

section Ideal

variable (ideal : aead.Ideal (Sealed world))

include ideal

theorem Encrypted.length_withBody (s : Encrypted aead) (body : Bytes) :
    (s.withBody body).length = s.parsed.bodyOffset + body.length := by
  rw [withBody, length_append, length_append,
    aadHeader_length s.fits s.wrapNonce_length, s.wrappedDek_length ideal.seals]
  simp only [parsed, parsedHeader]
  omega

theorem Encrypted.field_withBody (s : Encrypted aead) (body : Bytes) (offset width : ℕ) :
    field (s.withBody body) (s.parsed.bodyOffset + offset) width = field body offset width := by
  rw [field, ← drop_drop, withBody, s.drop_header ideal.seals, field]

variable {s : Encrypted aead} {index : ℕ} {keyring : Keyring} {body : Bytes}
  {reader : EncryptedChunkReader}

theorem Encrypted.frameStart_eq (h : index < s.chunkCount) :
    s.frameStart index = s.parsed.bodyOffset + (s.framesTo index).length := by
  rw [Encrypted.frameStart, s.framesTo_length ideal h]

theorem Encrypted.field_frameStart (h : index < s.chunkCount) (body : Bytes) (width : ℕ) :
    field (s.withBody body) (s.frameStart index) width =
      field body (s.framesTo index).length width := by
  rw [s.frameStart_eq ideal h, s.field_withBody ideal]

omit ideal in
theorem Encrypted.chunkSize_withBody (s : Encrypted aead) (body : Bytes) :
    ofLeBytes (field (s.withBody body) 36 4) = s.chunkSize := by
  rw [(field_header s.fits s.wrapNonce_length (rfl : s.withBody body = _)).2.2.2.2.2.2.1]
  exact ofLeBytes_leBytes 4 _ s.fits.chunk

omit ideal in
theorem Encrypted.framesFrom_split (h : index < s.chunkCount) :
    s.framesFrom 0 = s.framesTo index ++
      (chunkFrame aead s.info s.dek s.plaintext index ++ s.framesFrom (index + 1)) := by
  rw [← s.framesTo_append h.le, s.framesFrom_of_lt h, ← append_assoc (leBytes _ _),
    ← s.chunkFrame_eq]

omit ideal in
theorem Encrypted.field_framesFrom (h : index < s.chunkCount) :
    field (s.framesFrom 0) (s.framesTo index).length (4 + (s.cipher index).length) =
      chunkFrame aead s.info s.dek s.plaintext index := by
  rw [s.framesFrom_split h, field, drop_left, ← s.chunkFrame_length, take_left]

omit ideal in
theorem Encrypted.frame_bound (h : index < s.chunkCount) :
    (s.framesTo index).length + (4 + (s.cipher index).length) ≤ (s.framesFrom 0).length := by
  rw [s.framesFrom_split h, length_append, length_append, s.chunkFrame_length]
  omega

theorem Encrypted.readEncryptedHeader_eq (s : Encrypted aead) (body : Bytes) :
    readEncryptedHeader (s.withBody body) = .ok (s.withBody []) := by
  obtain ⟨h0, -, -, h10, -, -, -, -, h52, -⟩ :=
    field_header s.fits s.wrapNonce_length (rfl : s.withBody body = _)
  have hkey := ofLeBytes_leBytes 2 _ (s.fits.key.trans_lt (by decide))
  have hwrapped : ofLeBytes (leBytes 2 (32 + tagLen)) = 32 + tagLen := rfl
  have hlength := s.length_withBody ideal body
  have hoffset : s.parsed.bodyOffset =
      fixedHeaderLen + (keyIdBytes s.info.keyId).length + (32 + tagLen) := rfl
  have htake : (s.withBody body).take s.parsed.bodyOffset = s.withBody [] := by
    have hempty := s.length_withBody ideal []
    rw [length_nil, Nat.add_zero] at hempty
    have happend : s.withBody body = s.withBody [] ++ body := by simp [withBody]
    rw [happend, take_left' hempty]
  simp only [readEncryptedHeader, eq_ok]
  rw [h0, h10, h52, hkey, hwrapped, hlength, ← hoffset]
  exact ⟨by rw [hoffset]; omega, rfl, ⟨s.fits.key_pos.ne', s.fits.key⟩, rfl, by omega, htake⟩

theorem Encrypted.fromHeader_eq (hs : s.Served world)
    (hkey : keyring.keys s.info.keyId = some s.kek) :
    EncryptedLayout.fromHeader aead keyring (s.withBody []) = .ok s.layout := by
  simp only [EncryptedLayout.fromHeader, eq_ok]
  exact ⟨s.parsed, s.parseHeader_envelope ideal.seals hs.size [], s.dek,
    s.unwrapDek_eq ideal.seals hs.mem hkey _,
    rfl⟩

variable {file : Bytes}

/-- **A file whose header opens** begins with the header of an envelope that was produced. -/
theorem layout_authentic {header : Bytes} {layout : EncryptedLayout}
    (hheader : readEncryptedHeader file = .ok header)
    (hlayout : EncryptedLayout.fromHeader aead keyring header = .ok layout) :
    ∃ s body, Encrypted.Served world s ∧ layout = s.layout ∧
      file = s.withBody body := by
  simp only [readEncryptedHeader, eq_ok] at hheader
  obtain ⟨-, -, -, -, -, rfl⟩ := hheader
  simp only [EncryptedLayout.fromHeader, eq_ok] at hlayout
  obtain ⟨parsed, hparse, dek, hunwrap, rfl⟩ := hlayout
  obtain ⟨s, hs, rfl, rfl, hsplit⟩ := header_authentic ideal hparse hunwrap
  generalize fixedHeaderLen + _ + _ = length at *
  refine ⟨s, (file.take length).drop s.parsed.bodyOffset ++ file.drop length, hs, rfl, ?_⟩
  calc file = file.take length ++ file.drop length := (take_append_drop _ _).symm
    _ = s.withBody ((file.take length).drop s.parsed.bodyOffset) ++ file.drop length := by
        rw [Encrypted.withBody, ← hsplit]
    _ = _ := by simp [Encrypted.withBody]

/-! ### Streams -/

/-- **A stream under way** over a file that begins with the header of an envelope. -/
structure Reading (s : Encrypted aead) (body : Bytes) (reader : EncryptedChunkReader) : Prop where
  file : reader.file = s.withBody body
  layout : reader.layout = s.layout
  next : reader.nextChunk ≤ s.chunkCount
  /-- The chunks read so far are those of the envelope. -/
  loaded : s.framesTo reader.nextChunk <+: body
  encoded : reader.encodedEnd = s.parsed.bodyOffset + (s.framesTo reader.nextChunk).length
  offset : reader.chunkOffset ≤ reader.chunk.length
  read_le : reader.plaintextRead ≤ s.plaintext.length
  /-- What was read and what is left of the chunk are all the chunks so far. -/
  pending : s.plaintext.take reader.plaintextRead ++ reader.chunk.drop reader.chunkOffset =
    s.plaintext.take (reader.nextChunk * s.chunkSize)

omit ideal in
theorem Reading.exhausted
    (h : Reading s body reader) (hoffset : reader.chunkOffset = reader.chunk.length) :
    s.plaintext.take reader.plaintextRead = s.plaintext.take (reader.nextChunk * s.chunkSize) := by
  have hpending := h.pending
  rwa [hoffset, drop_length, append_nil] at hpending

variable {size : ℕ}

omit ideal in
theorem take_ne_nil (h : reader.chunkOffset < reader.chunk.length) (hsize : size ≠ 0) :
    (reader.take size).1 ≠ [] := by
  apply ne_nil_of_length_pos
  simp only [EncryptedChunkReader.take, field, length_take, length_drop]
  omega

omit ideal in
theorem Reading.take (h : Reading s body reader) (size : ℕ) :
    Reading s body (reader.take size).2 ∧ s.plaintext.take (reader.take size).2.plaintextRead =
        s.plaintext.take reader.plaintextRead ++ (reader.take size).1 := by
  have hlength : (reader.take size).1.length =
      min size (reader.chunk.length - reader.chunkOffset) := by
    simp [EncryptedChunkReader.take, field]
  have hoffset := h.offset
  have hread : (s.plaintext.take reader.plaintextRead).length = reader.plaintextRead := by
    rw [length_take, min_eq_left h.read_le]
  -- what is taken and what is left are what was left before
  have hsplit : (reader.take size).1 ++ reader.chunk.drop (reader.take size).2.chunkOffset =
      reader.chunk.drop reader.chunkOffset := by
    have hdrop : reader.chunk.drop (reader.take size).2.chunkOffset =
        (reader.chunk.drop reader.chunkOffset).drop size := by
      rw [show (reader.take size).2.chunkOffset =
        reader.chunkOffset + (reader.take size).1.length from rfl, hlength, drop_drop]
      rcases le_total size (reader.chunk.length - reader.chunkOffset) with hle | hle
      · rw [min_eq_left hle]
      · rw [min_eq_right hle, drop_eq_nil_of_le (by omega), drop_eq_nil_of_le (by omega)]
    rw [hdrop]
    exact take_append_drop size _
  have hpending : s.plaintext.take reader.plaintextRead ++ ((reader.take size).1 ++
      reader.chunk.drop (reader.take size).2.chunkOffset) =
        s.plaintext.take (reader.nextChunk * s.chunkSize) := by
    rw [hsplit, h.pending]
  have hprefix : s.plaintext.take reader.plaintextRead ++ (reader.take size).1 <+: s.plaintext := by
    refine .trans ?_ ( take_prefix (reader.nextChunk * s.chunkSize) s.plaintext)
    rw [← hpending, ← append_assoc]
    exact prefix_append _ _
  have htaken : s.plaintext.take (reader.take size).2.plaintextRead =
      s.plaintext.take reader.plaintextRead ++ (reader.take size).1 := by
    rw [prefix_iff_eq_take.mp hprefix, length_append, hread]
    rfl
  refine ⟨⟨h.file, h.layout, h.next, h.loaded, h.encoded, ?_, ?_, ?_⟩, htaken⟩
  · rw [show (reader.take size).2.chunkOffset =
      reader.chunkOffset + (reader.take size).1.length from rfl, hlength]
    change _ ≤ reader.chunk.length
    omega
  · have hle := hprefix.length_le
    rw [length_append, hread] at hle
    exact hle
  · rw [htaken, append_assoc]
    exact hpending

theorem Reading.load (fresh : FreshKeys world) (hs : s.Served world)
    (h : Reading s body reader) (hoffset : reader.chunkOffset = reader.chunk.length)
    {next : EncryptedChunkReader} (hload : reader.loadChunk aead = .ok (some next)) :
    Reading s body next ∧ next.plaintextRead = reader.plaintextRead ∧
      next.chunkOffset < next.chunk.length := by
  rw [EncryptedChunkReader.loadChunk] at hload
  split at hload
  · simp only [eq_ok, reduceCtorEq, and_false] at hload
  simp only [eq_ok, Option.some.injEq] at hload
  obtain ⟨⟨start, stop⟩, hrange, hstop, chunk, hchunk, rfl⟩ := hload
  rw [h.layout] at hrange hchunk
  have hlt := s.lt_of_encryptedChunkRange hrange
  rw [s.encryptedChunkRange_eq ideal hs.size hlt] at hrange
  cases hrange
  obtain ⟨rfl, hframe⟩ := s.decryptChunkFrame_authentic ideal fresh hs.mem hchunk
  obtain ⟨rest, hrest⟩ := h.loaded
  have hnext : chunkFrame aead s.info s.dek s.plaintext reader.nextChunk <+: rest := by
    rw [Nat.add_sub_cancel_left, h.file, s.field_frameStart ideal hlt, ← hrest, field,
      drop_left] at hframe
    exact hframe ▸ take_prefix _ _
  have hpos : 0 < (s.chunk reader.nextChunk).length := by
    have := s.mul_lt_length hlt
    have : 0 < s.chunkSize := s.fits.chunk_pos
    rw [s.chunk_length]
    omega
  refine ⟨⟨h.file, h.layout, hlt, ?_, ?_, Nat.zero_le _, h.read_le, ?_⟩, rfl, hpos⟩
  · rw [← hrest, Encrypted.framesTo_succ]
    exact (prefix_append_right_inj _).mpr hnext
  · rw [Encrypted.framesTo_succ, length_append, s.chunkFrame_length,
      s.frameStart_eq ideal hlt, Nat.add_assoc]
  · rw [drop_zero, h.exhausted hoffset, s.take_append_chunk]

/-- The end is reported only when all of the envelope was there. -/
theorem Reading.finish (h : Reading s body reader) (hload : reader.loadChunk aead = .ok none) :
    body = s.framesFrom 0 ∧ reader.plaintextRead = s.plaintext.length := by
  rw [EncryptedChunkReader.loadChunk] at hload
  split at hload
  · next hcount =>
    simp only [eq_ok, pure, Except.pure, and_true] at hload
    rw [h.layout] at hcount hload
    have hnext : reader.nextChunk = s.chunkCount := hcount
    obtain ⟨hread, hend⟩ := hload
    refine ⟨?_, hread⟩
    rw [h.file, s.length_withBody ideal, h.encoded, hnext] at hend
    have hloaded := h.loaded
    rw [hnext] at hloaded
    have hall := hloaded.eq_of_length (Nat.add_left_cancel hend)
    rw [← hall, ← s.framesTo_append le_rfl, s.framesFrom_of_le le_rfl, append_nil]
  · simp only [eq_ok, reduceCtorEq, and_false, exists_false] at hload

theorem Reading.load_ok (hs : s.Served world)
    (h : Reading s (s.framesFrom 0) reader) (hoffset : reader.chunkOffset = reader.chunk.length) :
    ∃ next, reader.loadChunk aead = .ok next := by
  rw [EncryptedChunkReader.loadChunk]
  split
  · next hcount =>
    rw [h.layout] at hcount
    have hnext : reader.nextChunk = s.chunkCount := hcount
    have hread : reader.plaintextRead = s.plaintext.length := by
      have hall := congrArg List.length (h.exhausted hoffset)
      rw [hnext, take_of_length_le s.length_le_mul, length_take] at hall
      have := h.read_le
      omega
    refine ⟨none, ?_⟩
    simp only [eq_ok, pure, Except.pure, and_true]
    refine ⟨by rw [h.layout]; exact hread, ?_⟩
    rw [h.file, s.length_withBody ideal, h.encoded, hnext, ← s.framesTo_append le_rfl,
      s.framesFrom_of_le le_rfl, append_nil]
  · next hcount =>
    rw [h.layout] at hcount
    have hlt : reader.nextChunk < s.chunkCount := lt_of_le_of_ne h.next hcount
    have hbound := s.frame_bound hlt
    simp only [eq_ok]
    rw [h.layout]
    refine ⟨_, _, s.encryptedChunkRange_eq ideal hs.size hlt, ?_, s.chunk reader.nextChunk, ?_,
      rfl⟩
    · dsimp only
      rw [h.file, s.length_withBody ideal, s.frameStart_eq ideal hlt]
      omega
    · dsimp only
      rw [Nat.add_sub_cancel_left, h.file, s.field_frameStart ideal hlt, s.field_framesFrom hlt]
      exact s.decryptChunkFrame_eq ideal hs hlt

variable {output : Bytes} {after : EncryptedChunkReader}

/-- **One read.**  What it returns continues what was read before, and only the end of the envelope
returns nothing. -/
theorem Reading.read (fresh : FreshKeys world) (hs : s.Served world) (h : Reading s body reader)
    (hread : reader.read aead size = .ok (output, after)) :
    Reading s body after ∧ s.plaintext.take after.plaintextRead =
        s.plaintext.take reader.plaintextRead ++ output ∧
      (size ≠ 0 → output = [] →
        body = s.framesFrom 0 ∧ after.plaintextRead = s.plaintext.length) := by
  rw [EncryptedChunkReader.read] at hread
  split at hread
  · next hzero =>
    cases hread
    exact ⟨h, by simp, fun hsome => absurd hzero hsome⟩
  next hsome =>
  split at hread
  · next hoffset =>
    simp only [eq_ok] at hread
    obtain ⟨next, hload, hread⟩ := hread
    cases next with
    | none =>
      cases hread
      obtain ⟨hbody, hall⟩ := h.finish ideal hload
      have hpending := h.exhausted hoffset
      exact ⟨⟨h.file, h.layout, h.next, h.loaded, h.encoded, le_rfl, h.read_le, by
        simpa using hpending⟩, by simp, fun _ _ => ⟨hbody, hall⟩⟩
    | some next =>
      cases hread
      obtain ⟨hnext, hsame, hlt⟩ := h.load ideal fresh hs hoffset hload
      obtain ⟨htaken, houtput⟩ := hnext.take size
      rw [hsame] at houtput
      exact ⟨htaken, houtput, fun _ hnil => absurd hnil (take_ne_nil hlt hsome)⟩
  · next hoffset =>
    cases hread
    obtain ⟨htaken, houtput⟩ := h.take size
    have hlt := lt_of_le_of_ne h.offset hoffset
    exact ⟨htaken, houtput, fun _ hnil => absurd hnil (take_ne_nil hlt hsome)⟩

theorem Reading.read_ok (hs : s.Served world) (h : Reading s (s.framesFrom 0) reader) (size : ℕ) :
    ∃ result, reader.read aead size = .ok result := by
  rw [EncryptedChunkReader.read]
  split
  · exact ⟨_, rfl⟩
  split
  · next hoffset =>
    obtain ⟨next, hload⟩ := h.load_ok ideal hs hoffset
    rw [hload]
    cases next with
    | none | some => exact ⟨_, rfl⟩
  · exact ⟨_, rfl⟩

variable {sizes : List ℕ}

/-- **A run of reads.** -/
theorem Reading.reads (fresh : FreshKeys world) (hs : s.Served world) (h : Reading s body reader)
    (hreads : EncryptedChunkReader.reads aead sizes reader = .ok (output, after)) :
    Reading s body after ∧ s.plaintext.take after.plaintextRead =
      s.plaintext.take reader.plaintextRead ++ output := by
  induction sizes generalizing reader output with
  | nil =>
    cases hreads
    exact ⟨h, by simp⟩
  | cons size sizes ih =>
    simp only [EncryptedChunkReader.reads, eq_ok, Prod.mk.injEq] at hreads
    obtain ⟨⟨first, next⟩, hread, ⟨rest, last⟩, hrest, rfl, rfl⟩ := hreads
    obtain ⟨hnext, hfirst, -⟩ := h.read ideal fresh hs hread
    obtain ⟨hafter, hall⟩ := ih hnext hrest
    refine ⟨hafter, ?_⟩
    rw [hall, hfirst, append_assoc]

theorem Reading.reads_ok (fresh : FreshKeys world) (hs : s.Served world) (sizes : List ℕ)
    (h : Reading s (s.framesFrom 0) reader) :
    ∃ result, EncryptedChunkReader.reads aead sizes reader = .ok result := by
  induction sizes generalizing reader with
  | nil => exact ⟨_, rfl⟩
  | cons size sizes ih =>
    obtain ⟨⟨first, next⟩, hread⟩ := h.read_ok ideal hs size
    obtain ⟨⟨rest, last⟩, hrest⟩ := ih (h.read ideal fresh hs hread).1
    refine ⟨(first ++ rest, last), ?_⟩
    rw [EncryptedChunkReader.reads, hread]
    change (EncryptedChunkReader.reads aead sizes next >>= _) = _
    rw [hrest]
    rfl

omit ideal in
theorem reading_start (body : Bytes) :
    Reading s body ⟨s.withBody body, s.layout, 0, s.layout.bodyOffset, 0, [], 0⟩ where
  file := rfl
  layout := rfl
  next := Nat.zero_le _
  loaded := nil_prefix
  encoded := rfl
  offset := le_rfl
  read_le := Nat.zero_le _
  pending := by simp

variable {maxChunkSize : ℕ}

/-- A stream of an envelope opens where its chunks are small enough. -/
theorem Encrypted.openReader_eq (hs : s.Served world)
    (hkey : keyring.keys s.info.keyId = some s.kek) (hmax : s.chunkSize ≤ maxChunkSize) :
    ∃ reader, EncryptedChunkReader.openFile aead keyring s.envelope maxChunkSize = .ok reader ∧
      Reading s (s.framesFrom 0) reader ∧ reader.plaintextRead = 0 := by
  refine ⟨_, ?_, reading_start _, rfl⟩
  simp only [EncryptedChunkReader.openFile, eq_ok]
  rw [s.envelope_eq]
  refine ⟨_, s.readEncryptedHeader_eq ideal _, ?_, _, s.fromHeader_eq ideal hs hkey, rfl⟩
  rw [s.chunkSize_withBody]
  simp [hmax]

/-- A stream that opens has the header of an envelope that was produced. -/
theorem openReader_authentic
    (h : EncryptedChunkReader.openFile aead keyring file maxChunkSize = .ok reader) :
    ∃ s body, Encrypted.Served world s ∧ file = s.withBody body ∧
      Reading s body reader ∧ reader.plaintextRead = 0 := by
  simp only [EncryptedChunkReader.openFile, eq_ok] at h
  obtain ⟨header, hheader, -, layout, hlayout, rfl⟩ := h
  obtain ⟨s, body, hs, rfl, rfl⟩ := layout_authentic ideal hheader hlayout
  exact ⟨s, body, hs, rfl, reading_start body, rfl⟩

/-- Reads into buffers that are not empty get on, up to the end. -/
theorem Reading.reads_progress (fresh : FreshKeys world) (hs : s.Served world)
    (hsizes : ∀ size ∈ sizes, size ≠ 0) (h : Reading s body reader)
    (hreads : EncryptedChunkReader.reads aead sizes reader = .ok (output, after)) :
    min s.plaintext.length (reader.plaintextRead + sizes.length) ≤ after.plaintextRead := by
  induction sizes generalizing reader output with
  | nil =>
    cases hreads
    simp
  | cons size sizes ih =>
    simp only [EncryptedChunkReader.reads, eq_ok, Prod.mk.injEq] at hreads
    obtain ⟨⟨first, next⟩, hread, ⟨rest, last⟩, hrest, rfl, rfl⟩ := hreads
    rw [forall_mem_cons] at hsizes
    obtain ⟨hnext, hfirst, hend⟩ := h.read ideal fresh hs hread
    have hlater := ih hsizes.2 hnext hrest
    have hstep : min s.plaintext.length (reader.plaintextRead + 1) ≤ next.plaintextRead := by
      rcases eq_or_ne first [] with hnil | hsome
      · rw [(hend hsizes.1 hnil).2]
        exact min_le_left _ _
      · have hlength := congrArg List.length hfirst
        have := length_pos_of_ne_nil hsome
        have := h.read_le
        have := hnext.read_le
        rw [length_append, length_take, length_take] at hlength
        omega
    rw [length_cons]
    omega

end Ideal

end Streams

end ChironDB.Encryption
