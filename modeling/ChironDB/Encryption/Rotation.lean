/-
# Rotating the key of an envelope

`chirondb-core/src/encryption.rs`: `rewrap_envelope`.

Rotation wraps the data key of an envelope with the active key and leaves the encrypted chunks
alone.  A rotated envelope decrypts to what it decrypted to before, has the same length and names
the active key (`rewrapEnvelope_spec`, `rotateEnvelope_spec`).
-/

import ChironDB.Codec.Lines
import ChironDB.Encryption.Readers

namespace ChironDB.Encryption

open Codec Crypto Fault List

/-! ## Envelopes -/

def isEncrypted (bytes : Bytes) : Bool := bytes.take 8 = magic

section Envelope

variable (aead : Aead)

def rewrapEnvelope (keyring : Keyring) (wrapNonce : List.Vector UInt8 12) (envelope : Bytes) :
    Result (EnvelopeInfo × Bytes) := do
  let parsed ← parseHeader envelope
  let kek ← keyring.key parsed.info.keyId
  let dek ← openInPlace aead kek parsed.wrapNonce parsed.aadHeader parsed.wrappedDek
  let keyId := keyIdBytes keyring.activeKeyId
  let aad := [magic, [1], [parsed.info.fileType.toByte], leBytes 2 keyId.length,
    parsed.info.fileUuid, leBytes 8 parsed.info.plaintextLen, leBytes 4 parsed.info.chunkSize,
    wrapNonce.toList, leBytes 2 (dek.length + tagLen), keyId].flatten
  let active ← keyring.key keyring.activeKeyId
  let rotated := aad ++ (aead.encrypt active wrapNonce.toList aad dek ++
    envelope.drop parsed.bodyOffset)
  let reparsed ← parseHeader rotated
  pure (reparsed.info, rotated)

/-- What the loops over frames make of an envelope. -/
def rotateEnvelope (keyring : Keyring) (wrapNonce : List.Vector UInt8 12) (envelope : Bytes) :
    Result Bytes := do
  let parsed ← parseHeader envelope
  if parsed.info.keyId = keyring.activeKeyId then pure envelope
  else
    let rotated ← rewrapEnvelope aead keyring wrapNonce envelope
    pure rotated.2

end Envelope

theorem Keyring.key_eq_ok {keyring : Keyring} {id : String} {key : Bytes} :
    keyring.key id = .ok key ↔ keyring.keys id = some key := by
  rw [Keyring.key]
  cases keyring.keys id with
  | none | some => simp

theorem keyIdBytes_of_keyIdOfBytes {bytes : Bytes} {id : String}
    (h : keyIdOfBytes bytes = .ok id) : keyIdBytes id = bytes := by
  have hparsed : ofUtf8? bytes = some id := by
    rw [keyIdOfBytes] at h
    rw [ofUtf8?]
    split at h
    · next found hfound => rw [hfound, Except.ok.inj h]
    · cases h
  exact utf8_of_ofUtf8? hparsed

theorem ofLeBytes_lt (bytes : Bytes) : ofLeBytes bytes < 256 ^ bytes.length := by
  induction bytes with
  | nil => simp [ofLeBytes]
  | cons b bytes ih =>
    have hb := b.toNat_lt
    rw [ofLeBytes, length_cons, pow_succ]
    omega

theorem field_length_of_le {bytes : Bytes} {offset width : ℕ} (h : offset + width ≤ bytes.length) :
    (field bytes offset width).length = width := by
  rw [field, length_take, length_drop]
  omega

/-- **The layout of an envelope whose header parses.** -/
structure ParsedHeader.Layout (parsed : ParsedHeader) (envelope : Bytes) : Prop where
  fits : parsed.info.Fits
  chunk : parsed.info.chunkSize ≤ maxEncryptionChunkSize
  offset : parsed.bodyOffset =
    fixedHeaderLen + (keyIdBytes parsed.info.keyId).length + (32 + tagLen)
  wrapped : parsed.wrappedDek.length = 32 + tagLen
  whole : parsed.bodyOffset ≤ envelope.length
  magic : isEncrypted envelope = true

theorem parseHeader_layout {envelope : Bytes} {parsed : ParsedHeader}
    (h : parseHeader envelope = .ok parsed) : parsed.Layout envelope := by
  simp only [parseHeader, eq_ok] at h
  obtain ⟨⟨hfixed, hmagic⟩, -, fileType, -, hkey, hchunk, hwrapped, hlength, keyId, hid, rfl⟩ := h
  have hkeyId := keyIdBytes_of_keyIdOfBytes hid
  have hidLength : (field envelope fixedHeaderLen (ofLeBytes (field envelope 10 2))).length =
      ofLeBytes (field envelope 10 2) := field_length_of_le (by omega)
  rw [fixedHeaderLen] at hfixed hlength
  have hplain : ofLeBytes (field envelope 28 8) < 2 ^ 64 := by
    have hlt := ofLeBytes_lt (field envelope 28 8)
    rw [field_length_of_le (by omega)] at hlt
    exact hlt
  refine ⟨⟨field_length_of_le (by omega), hplain, Nat.pos_of_ne_zero hchunk.1, ?_, ?_, ?_⟩,
    hchunk.2, ?_, ?_, hlength, decide_eq_true hmagic⟩
  · exact hchunk.2.trans_lt (by decide)
  · rw [hkeyId, hidLength]
    exact Nat.pos_of_ne_zero hkey.1
  · rw [hkeyId, hidLength]
    exact hkey.2
  · rw [hkeyId, hidLength, hwrapped]
  · exact (field_length_of_le hlength).trans hwrapped

/-- **What a rotated envelope keeps.** -/
structure Rotated (aead : Aead) (keyring : Keyring) (envelope rotated : Bytes) : Prop where
  length : rotated.length = envelope.length
  header : ∃ parsed parsed', parseHeader envelope = .ok parsed ∧ parseHeader rotated = .ok parsed' ∧
    parsed'.info = { parsed.info with keyId := keyring.activeKeyId }
  decrypts : ∀ info plaintext, decryptBytes aead keyring envelope = .ok (info, plaintext) →
    ∃ info', decryptBytes aead keyring rotated = .ok (info', plaintext)

section Rotated

variable {aead : Aead} {keyring : Keyring} {wrapNonce : List.Vector UInt8 12}
  {envelope rotated : Bytes}

theorem Rotated.isEncrypted (h : Rotated aead keyring envelope rotated) :
    isEncrypted rotated = true := by
  obtain ⟨parsed, parsed', -, hparsed', -⟩ := h.header
  exact (parseHeader_layout hparsed').magic

theorem decryptChunks_keyId (info : EnvelopeInfo) (keyId : String) (dek rest : Bytes) (index : ℕ)
    (plaintext : Bytes) :
    decryptChunks aead { info with keyId } dek rest index plaintext =
      decryptChunks aead info dek rest index plaintext := by
  have haad (i : ℕ) : chunkAad { info with keyId } i = chunkAad info i := rfl
  induction hn : rest.length using Nat.strong_induction_on generalizing rest index plaintext with
  | _ n ih =>
    rw [decryptChunks]
    conv_rhs => rw [decryptChunks]
    refine if_congr Iff.rfl rfl ?_
    split
    · rfl
    · next hrest =>
      refine if_congr Iff.rfl rfl (if_congr Iff.rfl rfl ?_)
      rw [haad]
      dsimp only
      cases openInPlace aead dek (chunkNonce info.fileUuid index) (chunkAad info index)
          (field rest 4 (ofLeBytes (rest.take 4))) with
      | error e => rfl
      | ok chunk =>
        refine if_congr Iff.rfl rfl (if_congr Iff.rfl rfl (ih _ ?_ _ _ _ rfl))
        rw [length_drop]
        omega

/-- **A rewrapped envelope is a rotated one.** -/
theorem rewrapEnvelope_spec (hcipher : aead.Correct) (hkeyring : keyring.Loaded)
    {info : EnvelopeInfo}
    (h : rewrapEnvelope aead keyring wrapNonce envelope = .ok (info, rotated)) :
    Rotated aead keyring envelope rotated := by
  simp only [rewrapEnvelope, eq_ok, Keyring.key_eq_ok, Prod.mk.injEq] at h
  obtain ⟨parsed, hparsed, kek, hkek, dek, hdek, active, hactive, reparsed, hreparsed, -, rfl⟩ := h
  have hlayout := parseHeader_layout hparsed
  have hopened := openInPlace_eq_ok.mp hdek
  have hdekLength : dek.length = 32 := by
    have hlength := hcipher.decrypt_length hopened
    rw [hlayout.wrapped] at hlength
    omega
  -- the header that was put together is that of the envelope, with the active key
  let info' : EnvelopeInfo := { parsed.info with keyId := keyring.activeKeyId }
  have hfits : info'.Fits :=
    ⟨hlayout.fits.uuid, hlayout.fits.len, hlayout.fits.chunk_pos, hlayout.fits.chunk,
      length_pos_of_ne_nil (hkeyring.nonempty _ _ hactive), hkeyring.short _ _ hactive⟩
  have haad : [magic, [1], [parsed.info.fileType.toByte],
      leBytes 2 (keyIdBytes keyring.activeKeyId).length, parsed.info.fileUuid,
      leBytes 8 parsed.info.plaintextLen, leBytes 4 parsed.info.chunkSize, wrapNonce.toList,
      leBytes 2 (dek.length + tagLen), keyIdBytes keyring.activeKeyId].flatten =
        aadHeader info' wrapNonce.toList := by
    rw [hdekLength]
    rfl
  rw [haad] at hreparsed ⊢
  have hnonce := wrapNonce.toList_length
  have hwrapped : (aead.encrypt active wrapNonce.toList (aadHeader info' wrapNonce.toList)
      dek).length = 32 + tagLen := by rw [hcipher.opens.length, hdekLength]
  have hparsed' := parseHeader_eq hfits hlayout.chunk hnonce hwrapped
    (envelope.drop parsed.bodyOffset)
  have haadLength := aadHeader_length hfits hnonce
  have hbody : (aadHeader info' wrapNonce.toList ++ (aead.encrypt active wrapNonce.toList
      (aadHeader info' wrapNonce.toList) dek ++ envelope.drop parsed.bodyOffset)).drop
        (parsedHeader info' wrapNonce.toList (aead.encrypt active wrapNonce.toList
          (aadHeader info' wrapNonce.toList) dek)).bodyOffset =
      envelope.drop parsed.bodyOffset := by
    rw [parsedHeader, ← haadLength, ← hwrapped, ← drop_drop, drop_left, drop_left]
  refine ⟨?_, ⟨parsed, _, hparsed, hparsed', rfl⟩, ?_⟩
  · have hequal := hkeyring.equal _ _ hkek
    have hoffset := hlayout.offset
    have hwhole := hlayout.whole
    rw [length_append, length_append, haadLength, hwrapped, length_drop]
    change fixedHeaderLen + (keyIdBytes keyring.activeKeyId).length + _ = _
    omega
  · intro found plaintext hplaintext
    simp only [decryptBytes, unwrapDek, eq_ok, Keyring.key_eq_ok, Prod.mk.injEq] at hplaintext ⊢
    obtain ⟨parsed₁, hparsed₁, dek₁, ⟨kek₁, hkek₁, dek₂, hdek₂, -, rfl⟩, chunks, hchunks, hlength,
      -, rfl⟩ := hplaintext
    cases hparsed.symm.trans hparsed₁
    cases hkek.symm.trans hkek₁
    cases hdek.symm.trans hdek₂
    refine ⟨info', _, hparsed', dek, ⟨active, hactive, dek, ?_, hdekLength, rfl⟩, chunks, ?_,
      hlength, rfl, rfl⟩
    · exact openInPlace_eq_ok.mpr (hcipher.opens.decrypt_encrypt ⟨_, _, _, _⟩ trivial)
    · rw [hbody]
      exact (decryptChunks_keyId ..).trans hchunks

/-- **What the loops over frames make of an envelope is a rotated one.** -/
theorem rotateEnvelope_spec (hcipher : aead.Correct) (hkeyring : keyring.Loaded)
    (h : rotateEnvelope aead keyring wrapNonce envelope = .ok rotated) :
    Rotated aead keyring envelope rotated := by
  simp only [rotateEnvelope, eq_ok] at h
  obtain ⟨parsed, hparsed, h⟩ := h
  split at h
  · next hactive =>
    cases h
    refine ⟨rfl, ⟨parsed, parsed, hparsed, hparsed, ?_⟩, fun info plaintext hp => ⟨info, hp⟩⟩
    rw [← hactive]
  · simp only [eq_ok] at h
    obtain ⟨⟨info, _⟩, hrewrap, rfl⟩ := h
    exact rewrapEnvelope_spec hcipher hkeyring hrewrap

end Rotated

end ChironDB.Encryption
