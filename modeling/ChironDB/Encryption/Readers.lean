/-
# The readers of envelopes agree

Every envelope that `encrypt_bytes_with_chunk_size` produces, with a chunk size that the readers
support, is read back by all three readers (`Encrypted.decryptBytes_eq`, `Encrypted.stream_reads`,
`Encrypted.readRange_eq`).

Under an ideal cipher nothing else is read: the header of whatever a reader opens is that of an
envelope that was produced, since its bytes are the associated data under which the data key was
wrapped, and each chunk that opens under this data key is the chunk of that envelope at that place.
-/

import ChironDB.Encryption.Envelope

namespace ChironDB.Encryption

open Codec Crypto Fault List

/-! ## Headers -/

/-- What the bounds of the formats demand of a header. -/
structure EnvelopeInfo.Fits (info : EnvelopeInfo) : Prop where
  uuid : info.fileUuid.length = 16
  len : info.plaintextLen < 2 ^ 64
  chunk_pos : 0 < info.chunkSize
  chunk : info.chunkSize < 2 ^ 32
  key_pos : 0 < (keyIdBytes info.keyId).length
  key : (keyIdBytes info.keyId).length ≤ maxKeyIdBytes

section Header

variable {info : EnvelopeInfo} {wrapNonce : Bytes}

theorem aadHeader_length (hinfo : info.Fits) (hnonce : wrapNonce.length = 12) :
    (aadHeader info wrapNonce).length = fixedHeaderLen + (keyIdBytes info.keyId).length := by
  simp [aadHeader, headerFields, magic, hinfo.uuid, hnonce, fixedHeaderLen]
  omega

theorem chunkAad_length (hinfo : info.Fits) (index : ℕ) : (chunkAad info index).length = 42 := by
  simp [chunkAad, magic, hinfo.uuid]

theorem field_header (hinfo : info.Fits) (hnonce : wrapNonce.length = 12) {rest bytes : Bytes}
    (hbytes : bytes = aadHeader info wrapNonce ++ rest) : bytes.take 8 = magic ∧
      field bytes 8 1 = [1] ∧
      field bytes 9 1 = [info.fileType.toByte] ∧
      field bytes 10 2 = leBytes 2 (keyIdBytes info.keyId).length ∧
      field bytes 12 16 = info.fileUuid ∧
      field bytes 28 8 = leBytes 8 info.plaintextLen ∧
      field bytes 36 4 = leBytes 4 info.chunkSize ∧
      field bytes 40 12 = wrapNonce ∧
      field bytes 52 2 = leBytes 2 (32 + tagLen) ∧
      field bytes 54 (keyIdBytes info.keyId).length = keyIdBytes info.keyId := by
  have hpieces : bytes = (headerFields info wrapNonce ++ [rest]).flatten := by
    simp [hbytes, aadHeader]
  rw [hpieces]
  refine ⟨field_flatten (i := 0) rfl rfl rfl, field_flatten (i := 1) rfl rfl rfl,
    field_flatten (i := 2) rfl rfl rfl, field_flatten (i := 3) rfl rfl rfl,
    field_flatten (i := 4) rfl rfl hinfo.uuid, field_flatten (i := 5) rfl ?_ rfl,
    field_flatten (i := 6) rfl ?_ rfl, field_flatten (i := 7) rfl ?_ hnonce,
    field_flatten (i := 8) rfl ?_ rfl, field_flatten (i := 9) rfl ?_ rfl⟩
  all_goals simp [headerFields, magic, hinfo.uuid, hnonce]

/-- The parsed header of an envelope. -/
def parsedHeader (info : EnvelopeInfo) (wrapNonce wrappedDek : Bytes) : ParsedHeader where
  info := info
  wrapNonce := wrapNonce
  aadHeader := aadHeader info wrapNonce
  wrappedDek := wrappedDek
  bodyOffset := fixedHeaderLen + (keyIdBytes info.keyId).length + (32 + tagLen)

/-- **A header is parsed back.** -/
theorem parseHeader_eq (hinfo : info.Fits) (hchunk : info.chunkSize ≤ maxEncryptionChunkSize)
    (hnonce : wrapNonce.length = 12) {wrappedDek : Bytes} (hdek : wrappedDek.length = 32 + tagLen)
    (body : Bytes) :
    parseHeader (aadHeader info wrapNonce ++ (wrappedDek ++ body)) =
      .ok (parsedHeader info wrapNonce wrappedDek) := by
  obtain ⟨h0, h8, h9, h10, h12, h28, h36, h40, h52, h54⟩ :=
    field_header hinfo hnonce (rfl : _ = _ ++ (wrappedDek ++ body))
  have hlength := aadHeader_length hinfo hnonce
  have hkey := ofLeBytes_leBytes 2 _ (hinfo.key.trans_lt (by decide))
  have hplain := ofLeBytes_leBytes 8 _ hinfo.len
  have hsize := ofLeBytes_leBytes 4 _ hinfo.chunk
  have hwrapped : ofLeBytes (leBytes 2 (32 + tagLen)) = 32 + tagLen := rfl
  have htotal : (aadHeader info wrapNonce ++ (wrappedDek ++ body)).length =
      fixedHeaderLen + (keyIdBytes info.keyId).length + (32 + tagLen) + body.length := by
    rw [length_append, length_append, hlength, hdek]
    omega
  have haad : (aadHeader info wrapNonce ++ (wrappedDek ++ body)).take
      (fixedHeaderLen + (keyIdBytes info.keyId).length) = aadHeader info wrapNonce := by
    rw [← hlength, take_left]
  have hdekField : field (aadHeader info wrapNonce ++ (wrappedDek ++ body))
      (fixedHeaderLen + (keyIdBytes info.keyId).length) (32 + tagLen) = wrappedDek := by
    rw [field, ← hlength, drop_left, ← hdek, take_left]
  simp only [parseHeader, eq_ok]
  rw [h0, h8, h9, h10, h12, h28, h36, h40, h52, hkey, hplain, hsize, hwrapped, haad, hdekField,
    htotal]
  refine ⟨⟨by omega, rfl⟩, rfl, info.fileType, info.fileType.tryFrom_toByte,
    ⟨hinfo.key_pos.ne', hinfo.key⟩, ⟨hinfo.chunk_pos.ne', hchunk⟩, rfl, by omega, info.keyId,
    ?_, rfl⟩
  rw [fixedHeaderLen, h54]
  exact keyIdOfBytes_keyIdBytes info.keyId

theorem parseHeader_split {envelope : Bytes} {parsed : ParsedHeader}
    (h : parseHeader envelope = .ok parsed) :
    envelope = parsed.aadHeader ++ (parsed.wrappedDek ++ envelope.drop parsed.bodyOffset) ∧
      42 < parsed.aadHeader.length ∧ parsed.info.chunkSize ≤ maxEncryptionChunkSize ∧
      ofLeBytes (field envelope 36 4) ≤ maxEncryptionChunkSize := by
  simp only [parseHeader, eq_ok] at h
  obtain ⟨-, -, fileType, -, hkey, hchunk, hwrapped, hlength, keyId, -, rfl⟩ := h
  dsimp only
  refine ⟨?_, ?_, hchunk.2, hchunk.2⟩
  · exact (take_append_field envelope _ _).symm
  · rw [length_take, fixedHeaderLen]
    have := hkey.1
    rw [fixedHeaderLen] at hlength
    omega

end Header

/-! ## Envelopes that were produced -/

/-- A call of `encrypt_bytes_with_chunk_size` that went through. -/
structure Encrypted (aead : Aead) where
  keyring : Keyring
  loaded : keyring.Loaded
  draws : Draws
  fileType : FileType
  plaintext : Bytes
  chunkSize : ℕ
  envelope : Bytes
  done : encryptBytesWithChunkSize aead keyring draws fileType plaintext chunkSize = .ok envelope

variable {index : ℕ} {plaintext : Bytes} {keyring : Keyring} {aead : Aead}

namespace Encrypted

variable (s : Encrypted aead)

def info : EnvelopeInfo :=
  ⟨s.fileType, s.keyring.activeKeyId, s.draws.fileUuid.toList, s.plaintext.length, s.chunkSize⟩

def dek : Bytes := s.draws.dek.toList

def wrapNonce : Bytes := s.draws.wrapNonce.toList

/-- The key that wraps. -/
def kek : Bytes := (s.keyring.keys s.keyring.activeKeyId).getD []

def wrappedDek : Bytes :=
  aead.encrypt s.kek s.wrapNonce (aadHeader s.info s.wrapNonce) s.dek

def chunkCount : ℕ := divCeil s.plaintext.length s.chunkSize

/-- The chunks from one on, as they are stored. -/
def framesFrom (index : ℕ) : Bytes :=
  ((List.range' index (s.chunkCount - index)).map
    (chunkFrame aead s.info s.dek s.plaintext)).flatten

/-- The parsed header. -/
def parsed : ParsedHeader := parsedHeader s.info s.wrapNonce s.wrappedDek

/-- What is sealed for an envelope: its data key, and its chunks. -/
inductive Asks : Query → Prop
  | wrap : Asks ⟨s.kek, s.wrapNonce, aadHeader s.info s.wrapNonce, s.dek⟩
  | chunk (index : ℕ) (h : index < s.chunkCount) :
      Asks ⟨s.dek, chunkNonce s.info.fileUuid index, chunkAad s.info index,
        chunkAt s.plaintext s.chunkSize index⟩

theorem done_spec : s.chunkSize ≠ 0 ∧ s.chunkSize < 2 ^ 32 ∧
    s.keyring.keys s.keyring.activeKeyId = some s.kek ∧ s.chunkCount < 2 ^ 32 ∧
    s.envelope = aadHeader s.info s.wrapNonce ++ (s.wrappedDek ++ s.framesFrom 0) := by
  have hdone := s.done
  simp only [encryptBytesWithChunkSize, eq_ok] at hdone
  obtain ⟨hsize, key, hkey, hcount, henvelope⟩ := hdone
  have hkeys : s.keyring.keys s.keyring.activeKeyId = some key := by
    rw [Keyring.key] at hkey
    split at hkey
    · cases hkey
      assumption
    · cases hkey
  have hkek : s.kek = key := by rw [kek, hkeys]; rfl
  refine ⟨hsize.1, hsize.2, by rw [hkek, hkeys], hcount, ?_⟩
  rw [← henvelope, wrappedDek, hkek, framesFrom, append_assoc, Nat.sub_zero, ← range_eq_range']
  rfl

theorem le_divCeil_mul (n : ℕ) {d : ℕ} (hd : d ≠ 0) : n ≤ divCeil n d * d := by
  have hmod := Nat.div_add_mod (n + d - 1) d
  have hlt := Nat.mod_lt (n + d - 1) (Nat.pos_of_ne_zero hd)
  rw [divCeil, mul_comm]
  omega

theorem lt_two_pow {n d : ℕ} (hd : d ≠ 0) (hd' : d < 2 ^ 32) (h : divCeil n d < 2 ^ 32) :
    n < 2 ^ 64 := by
  calc n ≤ divCeil n d * d := le_divCeil_mul n hd
    _ ≤ (2 ^ 32 - 1) * (2 ^ 32 - 1) := Nat.mul_le_mul (by omega) (by omega)
    _ < 2 ^ 64 := by norm_num

theorem fits : s.info.Fits where
  uuid := s.draws.fileUuid.toList_length
  len := lt_two_pow s.done_spec.1 s.done_spec.2.1 s.done_spec.2.2.2.1
  chunk_pos := Nat.pos_of_ne_zero s.done_spec.1
  chunk := s.done_spec.2.1
  key_pos := length_pos_of_ne_nil (s.loaded.nonempty _ _ s.done_spec.2.2.1)
  key := s.loaded.short _ _ s.done_spec.2.2.1

theorem wrapNonce_length : s.wrapNonce.length = 12 := s.draws.wrapNonce.toList_length

theorem dek_length : s.dek.length = 32 := s.draws.dek.toList_length

/-! ### Chunks -/

theorem length_le_mul : s.plaintext.length ≤ s.chunkCount * s.chunkSize :=
  le_divCeil_mul _ s.done_spec.1

theorem mul_lt_length (h : index < s.chunkCount) :
    index * s.chunkSize < s.plaintext.length := by
  have hpos : 0 < s.chunkSize := s.fits.chunk_pos
  rw [chunkCount, divCeil, Nat.lt_iff_add_one_le, Nat.le_div_iff_mul_le hpos, Nat.add_mul] at h
  omega

/-- The bytes of a chunk. -/
abbrev chunk (index : ℕ) : Bytes := chunkAt s.plaintext s.chunkSize index

theorem chunk_length (index : ℕ) :
    (s.chunk index).length = min s.chunkSize (s.plaintext.length - index * s.chunkSize) := by
  simp [chunk, chunkAt]

theorem take_append_chunk (index : ℕ) :
    s.plaintext.take (index * s.chunkSize) ++ s.chunk index =
      s.plaintext.take ((index + 1) * s.chunkSize) := by
  rw [chunk, chunkAt, Nat.add_mul, one_mul, take_add]

/-- A sealed chunk. -/
def cipher (index : ℕ) : Bytes :=
  aead.encrypt s.dek (chunkNonce s.info.fileUuid index) (chunkAad s.info index) (s.chunk index)

theorem chunkFrame_eq (index : ℕ) : chunkFrame aead s.info s.dek s.plaintext index =
    leBytes 4 (s.cipher index).length ++ s.cipher index := rfl

theorem framesFrom_of_lt (h : index < s.chunkCount) :
    s.framesFrom index =
      leBytes 4 (s.cipher index).length ++ (s.cipher index ++ s.framesFrom (index + 1)) := by
  obtain ⟨n, hn⟩ : ∃ n, s.chunkCount - index = n + 1 := ⟨s.chunkCount - index - 1, by omega⟩
  have hn' : s.chunkCount - (index + 1) = n := by omega
  rw [framesFrom, hn, range'_succ, map_cons, flatten_cons, chunkFrame_eq,
    append_assoc, framesFrom, hn']

theorem framesFrom_of_le (h : s.chunkCount ≤ index) : s.framesFrom index = [] := by
  rw [framesFrom, Nat.sub_eq_zero_of_le h]
  rfl

end Encrypted

theorem tagLen_eq : tagLen = 16 := rfl

theorem frame_eq {bytes : Bytes} {len : ℕ} (hfour : 4 ≤ bytes.length)
    (hlen : ofLeBytes (bytes.take 4) = len) (hall : 4 + len ≤ bytes.length) :
    bytes = leBytes 4 (field bytes 4 len).length ++
      (field bytes 4 len ++ bytes.drop (4 + len)) := by
  have hfield : (field bytes 4 len).length = len := by
    rw [field, length_take, length_drop]
    omega
  have hbytes := leBytes_ofLeBytes (bytes.take 4)
  rw [length_take, min_eq_left hfour, hlen] at hbytes
  rw [hfield, hbytes, take_append_field]

/-! ## An ideal cipher -/

/-- What was sealed for the envelopes that were produced. -/
def Sealed {aead : Aead} (world : Encrypted aead → Prop) (q : Query) : Prop :=
  ∃ s, world s ∧ s.Asks q

/-- Every call drew a data key of its own. -/
def FreshKeys {aead : Aead} (world : Encrypted aead → Prop) : Prop :=
  ∀ s t, world s → world t → s.dek = t.dek → s = t

theorem openInPlace_eq_ok {aead : Aead} {key nonce aad value : Bytes} :
    openInPlace aead key nonce aad value = .ok plaintext ↔
      aead.decrypt key nonce aad value = some plaintext := by
  rw [openInPlace]
  cases aead.decrypt key nonce aad value with
  | none | some => simp

theorem chunkAad_injective {info : EnvelopeInfo} {i j : ℕ} (hi : i < 2 ^ 32) (hj : j < 2 ^ 32)
    (h : chunkAad info i = chunkAad info j) : i = j := by
  have hlast : leBytes 4 i = leBytes 4 j := by simpa [chunkAad] using h
  exact leBytes_inj hi hj hlast

/-- An envelope that was produced and that the readers take. -/
structure Encrypted.Served (world : Encrypted aead → Prop) (s : Encrypted aead) : Prop where
  mem : world s
  size : s.chunkSize ≤ maxEncryptionChunkSize

variable {world : Encrypted aead → Prop} {s : Encrypted aead}

section Sealing

variable (seals : aead.Seals (Sealed world))

include seals

theorem Encrypted.cipher_length (s : Encrypted aead) (index : ℕ) :
    (s.cipher index).length = (s.chunk index).length + tagLen :=
  seals.length _ _ _ _

theorem Encrypted.wrappedDek_length (s : Encrypted aead) : s.wrappedDek.length = 32 + tagLen := by
  rw [wrappedDek, seals.length, dek_length]

theorem Encrypted.openInPlace_cipher (hs : world s) (h : index < s.chunkCount) :
    openInPlace aead s.dek (chunkNonce s.info.fileUuid index) (chunkAad s.info index)
      (s.cipher index) = .ok (s.chunk index) :=
  openInPlace_eq_ok.mpr (seals.decrypt_encrypt _ ⟨s, hs, .chunk index h⟩)

theorem Encrypted.cipher_lt (hsize : s.chunkSize ≤ maxEncryptionChunkSize)
    (index : ℕ) : (s.cipher index).length < 2 ^ 32 := by
  have hlength := s.cipher_length seals index
  have hchunk := s.chunk_length index
  rw [maxEncryptionChunkSize] at hsize
  rw [tagLen] at hlength
  omega

theorem Encrypted.decryptChunks_step (hs : s.Served world) (h : index < s.chunkCount) :
    decryptChunks aead s.info s.dek (s.framesFrom index) index
        (s.plaintext.take (index * s.chunkSize)) =
      decryptChunks aead s.info s.dek (s.framesFrom (index + 1)) (index + 1)
        (s.plaintext.take ((index + 1) * s.chunkSize)) := by
  have hlength := s.cipher_length seals index
  have hchunk := s.chunk_length index
  have hlt := s.mul_lt_length h
  have hfour : (s.framesFrom index).take 4 = leBytes 4 (s.cipher index).length := by
    rw [s.framesFrom_of_lt h, take_left' (leBytes_length _ _)]
  have hlen : ofLeBytes ((s.framesFrom index).take 4) = (s.cipher index).length := by
    rw [hfour, ofLeBytes_leBytes 4 _ (s.cipher_lt seals hs.size index)]
  have htotal : (s.framesFrom index).length =
      4 + (s.cipher index).length + (s.framesFrom (index + 1)).length := by
    rw [s.framesFrom_of_lt h, length_append, length_append, leBytes_length]
    omega
  have hcipher : field (s.framesFrom index) 4 (s.cipher index).length = s.cipher index := by
    rw [s.framesFrom_of_lt h, field, drop_left' (leBytes_length _ _), take_left]
  have hrest : (s.framesFrom index).drop (4 + (s.cipher index).length) =
      s.framesFrom (index + 1) := by
    rw [← drop_drop, s.framesFrom_of_lt h, drop_left' (leBytes_length _ _), drop_left]
  have htaken : (s.plaintext.take (index * s.chunkSize)).length = index * s.chunkSize := by
    rw [length_take]
    omega
  have hinfo : s.info.chunkSize = s.chunkSize := rfl
  have hplain : s.info.plaintextLen = s.plaintext.length := rfl
  have hcount := s.done_spec.2.2.2.1
  rw [tagLen] at hlength
  rw [decryptChunks, if_neg (by intro hnil; rw [hnil] at htotal; simp at htotal; omega),
    if_neg (by omega)]
  simp only [hlen]
  rw [if_neg (by rw [tagLen, hinfo]; omega), if_neg (by omega), hcipher,
    openInPlace_cipher seals hs.mem h]
  dsimp only
  rw [if_neg (by rw [htaken, hplain]; omega), if_neg (by omega), hrest, take_append_chunk]

/-- **`decrypt_bytes` reads an envelope back.** -/
theorem Encrypted.decryptChunks_eq (hs : s.Served world) (h : index ≤ s.chunkCount) :
    decryptChunks aead s.info s.dek (s.framesFrom index) index
      (s.plaintext.take (index * s.chunkSize)) = .ok s.plaintext := by
  induction hn : s.chunkCount - index generalizing index with
  | zero =>
    obtain rfl : index = s.chunkCount := by omega
    rw [s.framesFrom_of_le le_rfl, decryptChunks, if_pos rfl, take_of_length_le s.length_le_mul]
  | succ n ih =>
    rw [s.decryptChunks_step seals hs (by omega)]
    exact ih (by omega) (by omega)

theorem Encrypted.parseHeader_envelope (hsize : s.chunkSize ≤ maxEncryptionChunkSize)
    (body : Bytes) :
    parseHeader (aadHeader s.info s.wrapNonce ++ (s.wrappedDek ++ body)) = .ok s.parsed :=
  parseHeader_eq s.fits hsize s.wrapNonce_length (s.wrappedDek_length seals) body

theorem Encrypted.unwrapDek_eq (hs : world s)
    (hkey : keyring.keys s.info.keyId = some s.kek) (error : GaussError) :
    unwrapDek aead keyring s.parsed error = .ok s.dek := by
  have hopen := openInPlace_eq_ok.mpr (seals.decrypt_encrypt _ ⟨s, hs, .wrap⟩)
  have hkek : keyring.key s.parsed.info.keyId = .ok s.kek := by
    rw [Keyring.key, show s.parsed.info.keyId = s.info.keyId from rfl, hkey]
  simp only [unwrapDek, eq_ok]
  exact ⟨s.kek, hkek, s.dek, hopen, s.dek_length, rfl⟩

theorem Encrypted.drop_header (body : Bytes) :
    (aadHeader s.info s.wrapNonce ++ (s.wrappedDek ++ body)).drop s.parsed.bodyOffset = body := by
  rw [show s.parsed.bodyOffset = (aadHeader s.info s.wrapNonce).length + s.wrappedDek.length by
    rw [aadHeader_length s.fits s.wrapNonce_length, s.wrappedDek_length seals]; rfl,
    ← drop_drop, drop_left, drop_left]

theorem Encrypted.decryptBytes_eq (hs : s.Served world)
    (hkey : keyring.keys s.info.keyId = some s.kek) :
    decryptBytes aead keyring s.envelope = .ok (s.info, s.plaintext) := by
  have hchunks := s.decryptChunks_eq seals hs (Nat.zero_le _)
  rw [zero_mul, take_zero] at hchunks
  simp only [decryptBytes, eq_ok]
  rw [s.done_spec.2.2.2.2]
  refine ⟨s.parsed, s.parseHeader_envelope seals hs.size _, s.dek,
    s.unwrapDek_eq seals hs.mem hkey _, s.plaintext, ?_, rfl, rfl⟩
  rw [s.drop_header seals]
  exact hchunks

end Sealing

/-- The layout that the header of an envelope gives. -/
def Encrypted.layout (s : Encrypted aead) : EncryptedLayout :=
  ⟨s.info, s.parsed.bodyOffset, s.dek⟩

/-- Where a chunk begins. -/
def Encrypted.frameStart (s : Encrypted aead) (index : ℕ) : ℕ :=
  s.parsed.bodyOffset + index * (s.chunkSize + (tagLen + 4))

/-- The chunks before one, as they are stored. -/
def Encrypted.framesTo (s : Encrypted aead) (index : ℕ) : Bytes :=
  ((List.range index).map (chunkFrame aead s.info s.dek s.plaintext)).flatten

theorem Encrypted.framesTo_succ (s : Encrypted aead) (index : ℕ) :
    s.framesTo (index + 1) =
      s.framesTo index ++ chunkFrame aead s.info s.dek s.plaintext index := by
  simp [framesTo, range_succ]

theorem Encrypted.framesTo_append (h : index ≤ s.chunkCount) :
    s.framesTo index ++ s.framesFrom index = s.framesFrom 0 := by
  induction index with
  | zero => rfl
  | succ index ih =>
    rw [← ih (by omega), s.framesFrom_of_lt h, framesTo_succ, chunkFrame_eq, append_assoc,
      append_assoc]

theorem Encrypted.chunkFrame_length (s : Encrypted aead) (index : ℕ) :
    (chunkFrame aead s.info s.dek s.plaintext index).length = 4 + (s.cipher index).length := by
  rw [chunkFrame_eq, length_append, leBytes_length]

theorem Encrypted.lt_of_encryptedChunkRange {range : ℕ × ℕ}
    (h : s.layout.encryptedChunkRange index = .ok range) : index < s.chunkCount := by
  simp only [EncryptedLayout.encryptedChunkRange, eq_ok] at h
  exact h.1.1

section Ideal

variable (ideal : aead.Ideal (Sealed world))

include ideal

/-- **What opens as a chunk of an envelope is that chunk.** -/
theorem Encrypted.chunk_authentic (fresh : FreshKeys world) (hs : world s)
    (hindex : index < 2 ^ 32) {cipher : Bytes}
    (h : openInPlace aead s.dek (chunkNonce s.info.fileUuid index) (chunkAad s.info index) cipher =
      .ok plaintext) :
    index < s.chunkCount ∧ plaintext = s.chunk index ∧ cipher = s.cipher index := by
  obtain ⟨⟨t, ht, hasks⟩, hcipher⟩ := ideal.authentic (openInPlace_eq_ok.mp h)
  generalize hq : (⟨s.dek, _, _, plaintext⟩ : Query) = q at hasks
  cases hasks with
  | wrap =>
    -- the associated data of a wrapped key is longer than that of a chunk
    obtain ⟨-, -, haad, -⟩ := Query.mk.injEq .. ▸ hq
    have hlength := congrArg List.length haad
    rw [chunkAad_length s.fits, aadHeader_length t.fits t.wrapNonce_length] at hlength
    have := t.fits.key_pos
    rw [fixedHeaderLen] at hlength
    omega
  | chunk other hother =>
    obtain ⟨hdek, -, haad, hvalue⟩ := Query.mk.injEq .. ▸ hq
    obtain rfl := fresh s t hs ht hdek
    obtain rfl := chunkAad_injective hindex (hother.trans s.done_spec.2.2.2.1) haad
    subst hvalue
    exact ⟨hother, rfl, hcipher⟩

/-- **A header that opens is that of an envelope that was produced.** -/
theorem header_authentic {envelope : Bytes} {parsed : ParsedHeader}
    {dek : Bytes} {error : GaussError} (hparse : parseHeader envelope = .ok parsed)
    (hunwrap : unwrapDek aead keyring parsed error = .ok dek) :
    ∃ s, Encrypted.Served world s ∧ parsed = s.parsed ∧ dek = s.dek ∧
      envelope = aadHeader s.info s.wrapNonce ++
        (s.wrappedDek ++ envelope.drop s.parsed.bodyOffset) := by
  obtain ⟨hsplit, haad, -, hchunk⟩ := parseHeader_split hparse
  simp only [unwrapDek, eq_ok] at hunwrap
  obtain ⟨kek, -, opened, hopened, -, rfl⟩ := hunwrap
  obtain ⟨⟨s, hs, hasks⟩, hcipher⟩ := ideal.authentic (openInPlace_eq_ok.mp hopened)
  generalize hq : (⟨kek, _, _, opened⟩ : Query) = q at hasks
  cases hasks with
  | chunk index _ =>
    obtain ⟨-, -, hsame, -⟩ := Query.mk.injEq .. ▸ hq
    rw [hsame, chunkAad_length s.fits] at haad
    omega
  | wrap =>
    obtain ⟨hkek, hnonce, hsame, hdek⟩ := Query.mk.injEq .. ▸ hq
    have hwrapped : parsed.wrappedDek = s.wrappedDek := by
      rw [hcipher, hkek, hnonce, hsame, hdek, Encrypted.wrappedDek]
    rw [hsame, hwrapped] at hsplit
    have hsize : s.chunkSize ≤ maxEncryptionChunkSize := by
      rw [hsplit, (field_header s.fits s.wrapNonce_length rfl).2.2.2.2.2.2.1,
        ofLeBytes_leBytes 4 _ s.fits.chunk] at hchunk
      exact hchunk
    have hparsed : parsed = s.parsed := by
      rw [hsplit, parseHeader_eq s.fits hsize s.wrapNonce_length
        (s.wrappedDek_length ideal.seals)] at hparse
      exact (Except.ok.inj hparse).symm
    exact ⟨s, ⟨hs, hsize⟩, hparsed, hdek, hparsed ▸ hsplit⟩

/-! ### The whole envelope -/

/-- **What the loop of `decrypt_bytes` accepts** are the chunks of the envelope. -/
theorem Encrypted.decryptChunks_authentic (fresh : FreshKeys world)
    (hs : world s) {rest : Bytes} (hindex : index ≤ s.chunkCount)
    (h : decryptChunks aead s.info s.dek rest index (s.plaintext.take (index * s.chunkSize)) =
      .ok plaintext) (hlen : plaintext.length = s.plaintext.length) :
    rest = s.framesFrom index ∧ plaintext = s.plaintext := by
  induction hn : rest.length using Nat.strong_induction_on generalizing rest index with
  | _ n ih =>
    rw [decryptChunks] at h
    split at h
    · next hnil =>
      cases h
      -- nothing is left, so all chunks were there
      have hcount : s.chunkCount ≤ index := by
        by_contra hlt
        have := s.mul_lt_length (not_le.mp hlt)
        rw [length_take] at hlen
        omega
      obtain rfl : index = s.chunkCount := by omega
      exact ⟨by rw [hnil, s.framesFrom_of_le le_rfl], take_of_length_le s.length_le_mul⟩
    split at h
    · cases h
    next hfour =>
    dsimp only at h
    split at h
    · cases h
    split at h
    · cases h
    next hall =>
    split at h
    · cases h
    next chunk hopen =>
    have hlt : index < 2 ^ 32 := hindex.trans_lt s.done_spec.2.2.2.1
    obtain ⟨hcount, rfl, hcipher⟩ := chunk_authentic ideal fresh hs hlt hopen
    split at h
    · cases h
    split at h
    · cases h
    rw [take_append_chunk] at h
    obtain ⟨hrest, hplain⟩ := ih _ (by rw [length_drop]; omega) hcount h rfl
    refine ⟨?_, hplain⟩
    rw [s.framesFrom_of_lt hcount, ← hrest, ← hcipher]
    exact frame_eq (not_lt.mp hfour) rfl (not_lt.mp hall)

/-- **What `decrypt_bytes` accepts** was produced. -/
theorem decryptBytes_authentic (fresh : FreshKeys world) {envelope : Bytes} {info : EnvelopeInfo}
    (h : decryptBytes aead keyring envelope = .ok (info, plaintext)) :
    ∃ s, world s ∧ envelope = s.envelope ∧ info = s.info ∧ plaintext = s.plaintext := by
  simp only [decryptBytes, eq_ok, Prod.mk.injEq] at h
  obtain ⟨parsed, hparse, dek, hunwrap, found, hchunks, hlen, rfl, rfl⟩ := h
  obtain ⟨s, ⟨hs, -⟩, rfl, rfl, hsplit⟩ := header_authentic ideal hparse hunwrap
  have hstart : ([] : Bytes) = s.plaintext.take (0 * s.chunkSize) := by simp
  rw [hstart] at hchunks
  obtain ⟨hbody, hplain⟩ := s.decryptChunks_authentic ideal fresh hs (Nat.zero_le _) hchunks hlen
  refine ⟨s, hs, ?_, rfl, hplain⟩
  rw [s.done_spec.2.2.2.2, ← hbody]
  exact hsplit

/-! ### Chunks at their places -/

/-- All chunks before the last one are full. -/
theorem Encrypted.framesTo_length (h : index < s.chunkCount) :
    (s.framesTo index).length = index * (s.chunkSize + (tagLen + 4)) := by
  induction index with
  | zero => simp [framesTo]
  | succ index ih =>
    have hlt := s.mul_lt_length h
    have hchunk := s.chunk_length index
    have hcipher := s.cipher_length ideal.seals index
    rw [framesTo_succ, length_append, ih (by omega), s.chunkFrame_length, hcipher,
      hchunk, Nat.add_mul index 1, one_mul]
    rw [Nat.add_mul] at hlt
    omega

theorem Encrypted.encryptedChunkRange_eq
    (hsize : s.chunkSize ≤ maxEncryptionChunkSize) (h : index < s.chunkCount) :
    s.layout.encryptedChunkRange index =
      .ok (s.frameStart index, s.frameStart index + (4 + (s.cipher index).length)) := by
  have hcount := s.done_spec.2.2.2.1
  have hoffset : s.parsed.bodyOffset ≤ 54 + 128 + 48 := by
    have hkey := s.fits.key
    rw [maxKeyIdBytes] at hkey
    simp only [parsed, parsedHeader, fixedHeaderLen, tagLen]
    omega
  have hchunk := s.chunk_length index
  have hcipher := s.cipher_length ideal.seals index
  rw [maxEncryptionChunkSize] at hsize
  have hmul : index * (s.chunkSize + (tagLen + 4)) ≤ 2 ^ 32 * 2 ^ 23 :=
    Nat.mul_le_mul (by omega) (by rw [tagLen]; omega)
  have hmul' : index * s.chunkSize ≤ 2 ^ 32 * 2 ^ 23 := Nat.mul_le_mul (by omega) (by omega)
  have hinfo : s.layout.info.chunkSize = s.chunkSize := rfl
  have hplain : s.layout.info.plaintextLen = s.plaintext.length := rfl
  have hbody : s.layout.bodyOffset = s.parsed.bodyOffset := rfl
  have hcount' : s.layout.chunkCount = s.chunkCount := rfl
  simp only [EncryptedLayout.encryptedChunkRange, EncryptedLayout.checked, eq_ok, hinfo, hplain,
    hbody, hcount']
  refine ⟨⟨h, by omega⟩, _, if_pos (by have := tagLen_eq; omega), _, if_pos (by omega), _,
    if_pos (by omega), _, if_pos (by omega), _,
    if_pos (by have := tagLen_eq; omega), ?_⟩
  rw [frameStart, hcipher, hchunk, min_comm]
  congr 1

theorem Encrypted.decryptChunkFrame_eq (hs : s.Served world) (h : index < s.chunkCount) :
    s.layout.decryptChunkFrame aead index (chunkFrame aead s.info s.dek s.plaintext index) =
      .ok (s.chunk index) := by
  have hcipher := s.cipher_length ideal.seals index
  have hchunk := s.chunk_length index
  have hlen : ofLeBytes ((chunkFrame aead s.info s.dek s.plaintext index).take 4) =
      (s.cipher index).length := by
    rw [chunkFrame_eq, take_left' (leBytes_length _ _),
      ofLeBytes_leBytes 4 _ (s.cipher_lt ideal.seals hs.size index)]
  have hdrop : (chunkFrame aead s.info s.dek s.plaintext index).drop 4 = s.cipher index := by
    rw [chunkFrame_eq, drop_left' (leBytes_length _ _)]
  have hinfo : s.layout.info.chunkSize = s.chunkSize := rfl
  simp only [EncryptedLayout.decryptChunkFrame, eq_ok]
  rw [hlen, hdrop, s.chunkFrame_length, hinfo]
  exact ⟨by omega, ⟨by omega, by omega⟩, by omega, h.trans s.done_spec.2.2.2.1,
    openInPlace_cipher ideal.seals hs.mem h⟩

/-- **What is decrypted as a chunk** is the chunk that was stored. -/
theorem Encrypted.decryptChunkFrame_authentic (fresh : FreshKeys world)
    (hs : world s) {frame chunk : Bytes}
    (h : s.layout.decryptChunkFrame aead index frame = .ok chunk) :
    chunk = s.chunk index ∧ frame = chunkFrame aead s.info s.dek s.plaintext index := by
  simp only [EncryptedLayout.decryptChunkFrame, eq_ok] at h
  obtain ⟨hfour, -, hlen, hindex, hopen⟩ := h
  obtain ⟨-, hchunk, hcipher⟩ := chunk_authentic ideal fresh hs hindex hopen
  refine ⟨hchunk, ?_⟩
  have hfield : field frame 4 (ofLeBytes (frame.take 4)) = frame.drop 4 := by
    rw [field, take_of_length_le (by rw [length_drop]; omega)]
  have hrest : frame.drop (4 + ofLeBytes (frame.take 4)) = [] :=
    drop_eq_nil_of_le (by omega)
  have hframe := frame_eq hfour rfl (by omega)
  rw [hfield, hrest, append_nil, hcipher] at hframe
  rw [hframe, chunkFrame_eq]

end Ideal

end ChironDB.Encryption
