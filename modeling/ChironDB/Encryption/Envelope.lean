/-
# Encrypted envelopes

`encryption.rs`.  A persisted file is encrypted under a random data key of its own, chunk by
chunk, and the data key is wrapped under a key of the keyring:

| bytes | field |
| --- | --- |
| 8 | `MAGIC` |
| 1, 1 | version, file type |
| 2 | length of the key id |
| 16 | UUID of the file |
| 8, 4 | length of the plaintext, chunk size |
| 12 | nonce of the wrapping |
| 2 | length of the wrapped data key |
| | key id |
| 48 | wrapped data key |
| | per chunk its length and the sealed chunk |

Everything before the wrapped key is associated data of the wrapping; a chunk is bound by its
associated data to the file, its length, the chunk size and its index.

An envelope is read by `decrypt_bytes` as a whole, by `EncryptedChunkReader` as a stream, and by
`PersistentFile` in ranges.  Reservations of memory, which only make a read fail, and the cache of
decrypted chunks are left out.
-/

import ChironDB.Codec.Framing
import ChironDB.Codec.Lines
import ChironDB.Crypto.Aead
import ChironDB.Fault.Result

namespace ChironDB.Encryption

open Codec Crypto Fault

inductive GaussError
  | invalidRequest (message : String)
  | invalidData (message : String)
  | resourceExhausted (message : String)
  | unexpectedEof
  deriving DecidableEq, Repr

abbrev Result := Except GaussError

def corruption (message : String) : GaussError :=
  .invalidRequest ("encrypted envelope corruption: " ++ message)

/-- `MAGIC`. -/
def magic : Bytes := [67, 72, 73, 82, 69, 78, 67, 49]

def defaultChunkSize : ℕ := 64 * 1024

def maxEncryptionChunkSize : ℕ := 4 * 1024 * 1024

def maxKeyIdBytes : ℕ := 128

def fixedHeaderLen : ℕ := 54

inductive FileType
  | metadata
  | segment
  | wal
  | audit
  | snapshot
  | raft
  deriving DecidableEq, Repr

namespace FileType

def toByte : FileType → UInt8
  | .metadata => 1
  | .segment => 2
  | .wal => 3
  | .audit => 4
  | .snapshot => 5
  | .raft => 6

/-- `FileType::try_from`. -/
def tryFrom (value : UInt8) : Result FileType :=
  if value = 1 then .ok .metadata
  else if value = 2 then .ok .segment
  else if value = 3 then .ok .wal
  else if value = 4 then .ok .audit
  else if value = 5 then .ok .snapshot
  else if value = 6 then .ok .raft
  else .error (.invalidRequest ("unknown encrypted file type " ++ toString value.toNat))

theorem tryFrom_toByte (fileType : FileType) : tryFrom fileType.toByte = .ok fileType := by
  cases fileType <;> rfl

end FileType

/-- The bytes of a key id. -/
def keyIdBytes (id : String) : Bytes := id.toUTF8.data.toList

/-- `str::from_utf8`. -/
def keyIdOfBytes (bytes : Bytes) : Result String :=
  match String.fromUTF8? ⟨bytes.toArray⟩ with
  | some id => .ok id
  | none => .error (corruption "key id is not UTF-8")

theorem keyIdOfBytes_keyIdBytes (id : String) : keyIdOfBytes (keyIdBytes id) = .ok id := by
  have hid : String.fromUTF8? ⟨(keyIdBytes id).toArray⟩ = _ := ofUtf8?_utf8 id
  rw [keyIdOfBytes, hid]

structure Keyring where
  activeKeyId : String
  keys : String → Option Bytes

def Keyring.key (keyring : Keyring) (id : String) : Result Bytes :=
  match keyring.keys id with
  | some key => .ok key
  | none => .error (.invalidRequest ("encryption key id " ++ id ++ " is not available"))

/-- What `Keyring::load` guarantees: the active key is there, and key ids are short and of equal
length. -/
structure Keyring.Loaded (keyring : Keyring) : Prop where
  active : (keyring.keys keyring.activeKeyId).isSome
  nonempty : ∀ id key, keyring.keys id = some key → keyIdBytes id ≠ []
  short : ∀ id key, keyring.keys id = some key → (keyIdBytes id).length ≤ maxKeyIdBytes
  equal : ∀ id key, keyring.keys id = some key →
    (keyIdBytes id).length = (keyIdBytes keyring.activeKeyId).length

structure EnvelopeInfo where
  fileType : FileType
  keyId : String
  fileUuid : Bytes
  plaintextLen : ℕ
  chunkSize : ℕ
  deriving DecidableEq

/-! ## Layout -/

/-- The fields before the wrapped data key. -/
def headerFields (info : EnvelopeInfo) (wrapNonce : Bytes) : List Bytes :=
  [magic, [1], [info.fileType.toByte], leBytes 2 (keyIdBytes info.keyId).length, info.fileUuid,
    leBytes 8 info.plaintextLen, leBytes 4 info.chunkSize, wrapNonce, leBytes 2 (32 + tagLen),
    keyIdBytes info.keyId]

def aadHeader (info : EnvelopeInfo) (wrapNonce : Bytes) : Bytes :=
  (headerFields info wrapNonce).flatten

def chunkNonce (uuid : Bytes) (index : ℕ) : Bytes := uuid.take 8 ++ beBytes 4 index

def chunkAad (info : EnvelopeInfo) (index : ℕ) : Bytes :=
  [magic, [1], [info.fileType.toByte], info.fileUuid, leBytes 8 info.plaintextLen,
    leBytes 4 info.chunkSize, leBytes 4 index].flatten

/-- How many chunks a plaintext has. -/
def divCeil (n d : ℕ) : ℕ := (n + d - 1) / d

/-- A chunk of a plaintext. -/
def chunkAt (plaintext : Bytes) (chunkSize index : ℕ) : Bytes :=
  (plaintext.drop (index * chunkSize)).take chunkSize

section Cipher

variable (aead : Aead)

/-- `open_in_place`. -/
def openInPlace (key nonce aad value : Bytes) : Result Bytes :=
  match aead.decrypt key nonce aad value with
  | some plaintext => .ok plaintext
  | none => .error (corruption "AES-GCM authentication failed")

/-- A chunk as it is stored. -/
def chunkFrame (info : EnvelopeInfo) (dek plaintext : Bytes) (index : ℕ) : Bytes :=
  let cipher := aead.encrypt dek (chunkNonce info.fileUuid index) (chunkAad info index)
    (chunkAt plaintext info.chunkSize index)
  leBytes 4 cipher.length ++ cipher

/-- What `encrypt_bytes` draws. -/
structure Draws where
  dek : List.Vector UInt8 32
  fileUuid : List.Vector UInt8 16
  wrapNonce : List.Vector UInt8 12

def exampleDraws : Draws :=
  ⟨⟨List.replicate 32 1, rfl⟩, ⟨List.replicate 16 2, rfl⟩, ⟨List.replicate 12 3, rfl⟩⟩

def encryptBytesWithChunkSize (keyring : Keyring) (draws : Draws) (fileType : FileType)
    (plaintext : Bytes) (chunkSize : ℕ) : Result Bytes := do
  ensure (chunkSize ≠ 0 && chunkSize < 2 ^ 32) (.invalidRequest "invalid encryption chunk size")
  let info : EnvelopeInfo :=
    ⟨fileType, keyring.activeKeyId, draws.fileUuid.toList, plaintext.length, chunkSize⟩
  let aad := aadHeader info draws.wrapNonce.toList
  let kek ← keyring.key keyring.activeKeyId
  let header := aad ++ aead.encrypt kek draws.wrapNonce.toList aad draws.dek.toList
  let chunkCount := divCeil plaintext.length chunkSize
  ensure (chunkCount < 2 ^ 32) (.invalidRequest "encrypted file has too many chunks")
  pure (header ++ ((List.range chunkCount).map
    (chunkFrame aead info draws.dek.toList plaintext)).flatten)

structure ParsedHeader where
  info : EnvelopeInfo
  wrapNonce : Bytes
  aadHeader : Bytes
  wrappedDek : Bytes
  bodyOffset : ℕ

def parseHeader (envelope : Bytes) : Result ParsedHeader := do
  ensure (fixedHeaderLen ≤ envelope.length && envelope.take 8 = magic)
    (corruption "missing CHIRENC1 header")
  ensure (field envelope 8 1 = [1]) (corruption "unsupported encrypted envelope version")
  let fileType ← FileType.tryFrom ((field envelope 9 1).headD 0)
  let keyLen := ofLeBytes (field envelope 10 2)
  ensure (keyLen ≠ 0 && keyLen ≤ maxKeyIdBytes) (corruption "invalid encrypted key ID length")
  let fileUuid := field envelope 12 16
  let plaintextLen := ofLeBytes (field envelope 28 8)
  let chunkSize := ofLeBytes (field envelope 36 4)
  ensure (chunkSize ≠ 0 && chunkSize ≤ maxEncryptionChunkSize)
    (corruption "encryption chunk size exceeds supported bounds")
  let wrapNonce := field envelope 40 12
  let wrappedLen := ofLeBytes (field envelope 52 2)
  ensure (wrappedLen = 32 + tagLen) (corruption "invalid wrapped DEK length")
  let keyEnd := fixedHeaderLen + keyLen
  let headerEnd := keyEnd + wrappedLen
  ensure (headerEnd ≤ envelope.length) (corruption "truncated encrypted header")
  let keyId ← keyIdOfBytes (field envelope fixedHeaderLen keyLen)
  pure
    { info := ⟨fileType, keyId, fileUuid, plaintextLen, chunkSize⟩
      wrapNonce
      aadHeader := envelope.take keyEnd
      wrappedDek := field envelope keyEnd wrappedLen
      bodyOffset := headerEnd }

/-- The data key of a parsed header. -/
def unwrapDek (keyring : Keyring) (parsed : ParsedHeader) (error : GaussError) : Result Bytes := do
  let kek ← keyring.key parsed.info.keyId
  let dek ← openInPlace aead kek parsed.wrapNonce parsed.aadHeader parsed.wrappedDek
  ensure (dek.length = 32) error
  pure dek

/-! ## The whole envelope -/

/-- The loop of `decrypt_bytes`, from one chunk on. -/
def decryptChunks (info : EnvelopeInfo) (dek rest : Bytes) (index : ℕ) (plaintext : Bytes) :
    Result Bytes :=
  if rest = [] then .ok plaintext
  else if rest.length < 4 then .error (corruption "truncated encrypted chunk length")
  else
    let len := ofLeBytes (rest.take 4)
    if len < tagLen ∨ len > info.chunkSize + tagLen then
      .error (corruption "invalid encrypted chunk length")
    else if 4 + len > rest.length then .error (corruption "truncated encrypted chunk")
    else
      match openInPlace aead dek (chunkNonce info.fileUuid index) (chunkAad info index)
          (field rest 4 len) with
      | .error e => .error e
      | .ok chunk =>
        if chunk.length > info.plaintextLen - plaintext.length then
          .error (corruption "encrypted plaintext exceeds declared length")
        else if 2 ^ 32 ≤ index + 1 then .error (corruption "chunk index overflow")
        else decryptChunks info dek (rest.drop (4 + len)) (index + 1) (plaintext ++ chunk)
  termination_by rest.length
  decreasing_by
    have hrest : rest ≠ [] := by assumption
    have := List.length_pos_of_ne_nil hrest
    simp only [List.length_drop]
    omega

def decryptBytes (keyring : Keyring) (envelope : Bytes) : Result (EnvelopeInfo × Bytes) := do
  let parsed ← parseHeader envelope
  let dek ← unwrapDek aead keyring parsed (.invalidRequest "invalid unwrapped DEK length")
  let plaintext ← decryptChunks aead parsed.info dek (envelope.drop parsed.bodyOffset) 0 []
  ensure (plaintext.length = parsed.info.plaintextLen) (corruption "plaintext length mismatch")
  pure (parsed.info, plaintext)

/-! ## Chunks at their places -/

structure EncryptedLayout where
  info : EnvelopeInfo
  bodyOffset : ℕ
  dek : Bytes

/-- `read_encrypted_header`. -/
def readEncryptedHeader (file : Bytes) : Result Bytes := do
  ensure (fixedHeaderLen ≤ file.length) .unexpectedEof
  ensure (file.take 8 = magic) (corruption "missing CHIRENC1 header")
  let keyLen := ofLeBytes (field file 10 2)
  ensure (keyLen ≠ 0 && keyLen ≤ maxKeyIdBytes) (corruption "invalid encrypted key ID length")
  let wrappedLen := ofLeBytes (field file 52 2)
  ensure (wrappedLen = 32 + tagLen) (corruption "invalid wrapped DEK length")
  let length := fixedHeaderLen + keyLen + wrappedLen
  ensure (length ≤ file.length) (corruption "truncated encrypted header")
  pure (file.take length)

namespace EncryptedLayout

/-- `from_header`. -/
def fromHeader (keyring : Keyring) (header : Bytes) : Result EncryptedLayout := do
  let parsed ← parseHeader header
  let dek ← unwrapDek aead keyring parsed (corruption "invalid unwrapped DEK length")
  pure ⟨parsed.info, parsed.bodyOffset, dek⟩

variable (layout : EncryptedLayout)

def chunkCount : ℕ := divCeil layout.info.plaintextLen layout.info.chunkSize

/-- A number that has to fit a `usize`. -/
def checked (n : ℕ) (message : String) : Result ℕ :=
  if n < 2 ^ 64 then .ok n else .error (corruption message)

/-- `encrypted_chunk_range`: where a chunk begins and ends. -/
def encryptedChunkRange (index : ℕ) : Result (ℕ × ℕ) := do
  ensure (index < layout.chunkCount && index < 2 ^ 32)
    (corruption "encrypted chunk index out of bounds")
  let stride ← checked (layout.info.chunkSize + (tagLen + 4)) "encrypted chunk stride overflow"
  let offset ← checked (index * stride) "encrypted chunk offset overflow"
  let start ← checked (layout.bodyOffset + offset) "encrypted chunk offset overflow"
  let plaintextStart ← checked (index * layout.info.chunkSize) "plaintext chunk offset overflow"
  let plaintextLen := min (layout.info.plaintextLen - plaintextStart) layout.info.chunkSize
  let stop ← checked (start + (4 + plaintextLen + tagLen)) "encrypted chunk end overflow"
  pure (start, stop)

def decryptChunkFrame (index : ℕ) (frame : Bytes) : Result Bytes := do
  ensure (4 ≤ frame.length) (corruption "truncated encrypted chunk length")
  let encodedLen := ofLeBytes (frame.take 4)
  ensure (tagLen ≤ encodedLen && encodedLen ≤ layout.info.chunkSize + tagLen)
    (corruption "invalid encrypted chunk length")
  ensure (frame.length = encodedLen + 4) (corruption "encrypted chunk frame length mismatch")
  ensure (index < 2 ^ 32) (corruption "chunk index exceeds u32")
  openInPlace aead layout.dek (chunkNonce layout.info.fileUuid index)
    (chunkAad layout.info index) (frame.drop 4)

end EncryptedLayout

/-! ## Streams -/

structure EncryptedChunkReader where
  file : Bytes
  layout : EncryptedLayout
  nextChunk : ℕ
  encodedEnd : ℕ
  plaintextRead : ℕ
  chunk : Bytes
  chunkOffset : ℕ

namespace EncryptedChunkReader

def openFile (keyring : Keyring) (file : Bytes) (maxChunkSize : ℕ) :
    Result EncryptedChunkReader := do
  let header ← readEncryptedHeader file
  let chunkSize := ofLeBytes (field header 36 4)
  ensure (!(chunkSize > maxChunkSize && chunkSize ≤ maxEncryptionChunkSize))
    (.resourceExhausted "encrypted reader chunk exceeds admitted memory")
  let layout ← EncryptedLayout.fromHeader aead keyring header
  pure ⟨file, layout, 0, layout.bodyOffset, 0, [], 0⟩

variable (reader : EncryptedChunkReader)

/-- `load_chunk`: the next chunk, or the end of the file. -/
def loadChunk : Result (Option EncryptedChunkReader) :=
  if reader.nextChunk = reader.layout.chunkCount then do
    ensure (reader.plaintextRead = reader.layout.info.plaintextLen &&
      reader.encodedEnd = reader.file.length) (.invalidData "encrypted file length mismatch")
    pure none
  else do
    let (start, stop) ← reader.layout.encryptedChunkRange reader.nextChunk
    ensure (stop ≤ reader.file.length) (.invalidData "truncated encrypted chunk frame")
    let chunk ← reader.layout.decryptChunkFrame aead reader.nextChunk
      (field reader.file start (stop - start))
    pure (some { reader with
      chunk, chunkOffset := 0, encodedEnd := stop, nextChunk := reader.nextChunk + 1 })

/-- Bytes of the chunk that is there. -/
def take (size : ℕ) : Bytes × EncryptedChunkReader :=
  let output := field reader.chunk reader.chunkOffset size
  (output, { reader with
    chunkOffset := reader.chunkOffset + output.length
    plaintextRead := reader.plaintextRead + output.length })

/-- `read`, into a buffer of the given size. -/
def read (size : ℕ) : Result (Bytes × EncryptedChunkReader) :=
  if size = 0 then .ok ([], reader)
  else if reader.chunkOffset = reader.chunk.length then do
    match ← reader.loadChunk aead with
    | none => pure ([], { reader with chunk := [], chunkOffset := 0 })
    | some reader => pure (reader.take size)
  else .ok (reader.take size)

/-- Reads of the given sizes, one after another. -/
def reads : List ℕ → EncryptedChunkReader → Result (Bytes × EncryptedChunkReader)
  | [], reader => .ok ([], reader)
  | size :: sizes, reader => do
    let (output, reader) ← reader.read aead size
    let (outputs, reader) ← reads sizes reader
    pure (output ++ outputs, reader)

end EncryptedChunkReader

/-! ## Ranges -/

/-- A `PersistentFile` that is encrypted. -/
structure PersistentFile where
  len : ℕ
  ciphertext : Bytes
  layout : EncryptedLayout

namespace PersistentFile

/-- Where the last chunk ends. -/
def encodedLen (layout : EncryptedLayout) : Result ℕ :=
  if layout.chunkCount = 0 then .ok layout.bodyOffset
  else do
    let (_, stop) ← layout.encryptedChunkRange (layout.chunkCount - 1)
    pure stop

def openFile (keyring : Keyring) (file : Bytes) : Result PersistentFile := do
  let header ← readEncryptedHeader file
  let layout ← EncryptedLayout.fromHeader aead keyring header
  let expected ← encodedLen layout
  ensure (expected = file.length) (corruption "encrypted file length mismatch")
  pure ⟨layout.info.plaintextLen, file, layout⟩

variable (file : PersistentFile)

/-- `encrypted_chunk`. -/
def encryptedChunk (index : ℕ) : Result Bytes := do
  let (start, stop) ← file.layout.encryptedChunkRange index
  ensure (stop ≤ file.ciphertext.length) (corruption "encrypted chunk frame is out of bounds")
  file.layout.decryptChunkFrame aead index (field file.ciphertext start (stop - start))

/-- The part of a range that lies in one chunk. -/
def copyChunk (start stop : ℕ) (output : Bytes) (index : ℕ) : Result Bytes := do
  let chunk ← file.encryptedChunk aead index
  let chunkStart := index * file.layout.info.chunkSize
  let copyStart := start - chunkStart
  let copyEnd := min stop (chunkStart + chunk.length) - chunkStart
  ensure (copyStart ≤ copyEnd && copyEnd ≤ chunk.length)
    (corruption "plaintext chunk slice is out of bounds")
  pure (output ++ field chunk copyStart (copyEnd - copyStart))

def readRange (start stop : ℕ) : Result Bytes := do
  ensure (start ≤ stop && stop ≤ file.len) (.invalidRequest "persisted range is outside")
  if start = stop then pure []
  else do
    let chunkSize := file.layout.info.chunkSize
    let first := start / chunkSize
    let last := (stop - 1) / chunkSize
    let output ← (List.range' first (last + 1 - first)).foldlM (file.copyChunk aead start stop) []
    ensure (output.length = stop - start) (corruption "plaintext range length mismatch")
    pure output

end PersistentFile

end Cipher

end ChironDB.Encryption
