/-
# Runs of a key rotation

Whatever the runs of `rewrap_tree_resumable` so far did, and wherever they stopped, every file of
the tree is still there and readable with the keyring, its content is what it was unless it is an
index of raw bytes, and the envelopes of WAL segments have the lengths they had (`Kept`).  Every
write of a run keeps this, so every step of a run does, and so do the runs one after the other.  A
run that succeeds leaves envelopes of the active key only (`OnlyActive`).
-/

import ChironDB.Encryption.Rewrite

namespace ChironDB.Encryption

open Codec Crypto Fault Fault.Program Tables List

/-- The indexes that list the raw bytes of other files. -/
def isRawIndex (path : Path) : Bool :=
  (fileName path).any (· ∈ ["wal.manifest.json", "cold_index.gdx"])

section Kept

variable (services : Services) (keyring : Keyring) (root : String)

/-- A file that the keyring decodes. -/
def Readable (path : Path) (bytes : Bytes) : Prop :=
  ∃ content, canonicalPlaintext services.aead services.crc32 services.base64 keyring path bytes =
    .ok content

/-- **What rotation keeps of a file.** -/
structure KeptFile (path : Path) (before after : Bytes) : Prop where
  preserved : isRawIndex path = false →
    Preserved services.aead services.crc32 services.base64 keyring path before after
  readable : Readable services keyring path before → Readable services keyring path after

/-- **What the runs of a rotation keep of a tree**, its journal apart. -/
def Kept (start tree : Tree) : Prop :=
  ∀ path before, start.files.lookup path = some before → path ≠ journalPath root →
    ∃ after, tree.files.lookup path = some after ∧ KeptFile services keyring path before after

/-- Every envelope of a tree names the active key. -/
def OnlyActive (tree : Tree) : Prop :=
  ∀ path bytes, tree.files.lookup path = some bytes →
    ∃ kind, classifyPersistedFile services.crc32 services.base64 path bytes = .ok kind ∧
      ∀ infos, kind = .encrypted infos → ∀ info ∈ infos, info.keyId = keyring.activeKeyId

end Kept

variable {services : Services} {keyring : Keyring} {root : String} {start tree : Tree}

theorem KeptFile.refl (path : Path) (bytes : Bytes) :
    KeptFile services keyring path bytes bytes :=
  ⟨fun _ => .refl bytes, fun h => h⟩

variable {path : Path}

theorem KeptFile.trans {before between after : Bytes}
    (h : KeptFile services keyring path before between)
    (h' : KeptFile services keyring path between after) :
    KeptFile services keyring path before after :=
  ⟨fun hraw => (h.preserved hraw).trans (h'.preserved hraw),
    fun hread => h'.readable (h.readable hread)⟩

theorem KeptFile.of_preserved {before after : Bytes}
    (h : Preserved services.aead services.crc32 services.base64 keyring path before after) :
    KeptFile services keyring path before after :=
  ⟨fun _ => h, fun ⟨content, hcontent⟩ => ⟨content, h.content content hcontent⟩⟩

theorem KeptFile.of_rawIndex {before after : Bytes} (hraw : isRawIndex path = true)
    (h : Readable services keyring path after) : KeptFile services keyring path before after :=
  ⟨fun hnot => absurd (hnot.symm.trans hraw) (by decide), fun _ => h⟩

theorem Kept.refl (tree : Tree) : Kept services keyring root tree tree :=
  fun _ before hbefore _ => ⟨before, hbefore, .refl _ before⟩

/-- A run that stops anywhere keeps the tree. -/
def keeping (services : Services) (keyring : Keyring) (root : String) (start : Tree) :
    Exits Tree TreeError where
  allowed _ := True
  fault _ tree := Kept services keyring root start tree
  down tree := Kept services keyring root start tree

/-- A step that keeps the tree, whatever it was given. -/
def Keeps (services : Services) (keyring : Keyring) (root : String) (start : Tree) {α : Type}
    (c : Rotation α) : Prop :=
  ∀ tree, Kept services keyring root start tree → c.Ensures (keeping services keyring root start)
      (fun _ tree => Kept services keyring root start tree) tree

/-! ## Writes -/

section

variable (h : Kept services keyring root start tree)
include h

section

variable {bytes : Bytes}
  (hfile : ∀ before, start.files.lookup path = some before → path ≠ journalPath root →
    KeptFile services keyring path before bytes)
include hfile

/-- A write keeps the tree if it keeps the file. -/
theorem Kept.put : Kept services keyring root start (tree.put path bytes) := by
  intro other before hbefore hother
  have hlookup := lookup_insert_eq tree.files path other bytes
  by_cases hpath : other = path
  · subst hpath
    rw [if_pos rfl] at hlookup
    exact ⟨bytes, hlookup, hfile before hbefore hother⟩
  · obtain ⟨after, hafter, hkept⟩ := h other before hbefore hother
    rw [if_neg hpath] at hlookup
    exact ⟨after, hlookup.trans hafter, hkept⟩

theorem Kept.writePart (part : ℕ) :
    Kept services keyring root start (writePart services path bytes part tree) := by
  match part with
  | 0 => exact h
  | 1 => exact h.put hfile
  | n + 2 =>
    rw [Encryption.writePart]
    split
    · exact h
    · next hfresh =>
      -- a temporary sibling is a new name
      refine h.put fun before hbefore hpath => ?_
      obtain ⟨after, hafter, -⟩ := h _ before hbefore hpath
      exact absurd (mem_table.mpr ⟨after, hafter⟩) hfresh

theorem atomicWrite_ensures :
    (atomicWrite services path bytes).Ensures (keeping services keyring root start)
      (fun _ tree => Kept services keyring root start tree) tree := by
  refine .effect (fun n => ?_) (h.put hfile)
  have hpart := h.writePart hfile n
  exact ⟨fun _ _ _ => hpart, fun _ _ => hpart⟩

end

theorem ofExcept_ensures {α : Type} {r : Except TreeError α} {post : α → Tree → Prop}
    (hpost : ∀ a, r = .ok a → post a tree) :
    (Program.ofExcept r : Rotation α).Ensures (keeping services keyring root start) post tree :=
  .ofExcept hpost fun _ _ => h

theorem readFile_ensures {post : Bytes → Tree → Prop}
    (hpost : ∀ bytes, tree.files.lookup path = some bytes → post bytes tree) :
    (readFile path).Ensures (keeping services keyring root start) post tree := by
  refine .bind (.get ?_)
  split
  · next bytes hbytes => exact .pure (hpost bytes hbytes)
  · exact .throw h

end

/-! ## Indexes -/

theorem isEncrypted_of_decryptBytes {aead : Aead} {envelope : Bytes}
    {found : EnvelopeInfo × Bytes} (h : decryptBytes aead keyring envelope = .ok found) :
    isEncrypted envelope = true := by
  rw [decryptBytes, bind_eq_ok] at h
  obtain ⟨parsed, hparsed, -⟩ := h
  exact (parseHeader_layout hparsed).magic

/-- **What was just encrypted is readable.** -/
theorem encrypt_readable (hcipher : services.aead.Correct) (hkeyring : keyring.Loaded)
    {draws : Draws} {fileType : FileType} {plaintext envelope : Bytes}
    (hraw : isRawIndex path = true)
    (h : encryptBytesWithChunkSize services.aead keyring draws fileType plaintext
      defaultChunkSize = .ok envelope) : Readable services keyring path envelope := by
  let s : Encrypted services.aead :=
    ⟨keyring, hkeyring, draws, fileType, plaintext, defaultChunkSize, envelope, h⟩
  have hseals : services.aead.Seals (Sealed fun t => t = s) := hcipher.seals _
  have hsize : defaultChunkSize ≤ maxEncryptionChunkSize := by decide
  have hdecrypt := s.decryptBytes_eq hseals ⟨rfl, hsize⟩ s.done_spec.2.2.1
  have haudit : isAuditLog path = false := by
    rw [isRawIndex, Option.any_eq_true] at hraw
    obtain ⟨name, hname, hmem⟩ := hraw
    rw [isAuditLog, hname]
    simp only [decide_eq_true_eq, mem_cons, not_mem_nil, or_false] at hmem
    rcases hmem with rfl | rfl <;> decide
  refine ⟨plaintext, ?_⟩
  rw [canonicalPlaintext, haudit, if_neg (by decide),
    if_pos (isEncrypted_of_decryptBytes hdecrypt), hdecrypt]
  rfl

section Steps

variable (hcipher : services.aead.Correct) (hkeyring : keyring.Loaded)

include hcipher hkeyring

theorem writeEncrypted_ensures (h : Kept services keyring root start tree)
    (hraw : isRawIndex path = true) (fileType : FileType) (plaintext : Bytes) :
    (writeEncrypted services keyring path fileType plaintext).Ensures
      (keeping services keyring root start)
      (fun _ tree => Kept services keyring root start tree) tree := by
  refine .bind (.get (.bind (ofExcept_ensures h fun envelope henvelope => ?_)))
  have hread := encrypt_readable hcipher hkeyring hraw (lift_eq_ok.mp henvelope)
  exact atomicWrite_ensures h fun before _ _ => .of_rawIndex hraw hread

theorem refreshArchiveManifest_keeps (dir : Path) :
    Keeps services keyring root start (refreshArchiveManifest services keyring dir) := by
  intro tree h
  have hraw : isRawIndex (dir ++ ["wal.manifest.json"]) = true := by
    simp [isRawIndex, fileName]
  refine .bind (.get (.bind (ofExcept_ensures h fun expected _ => ?_)))
  refine .bind ((writeEncrypted_ensures hcipher hkeyring h hraw _ _).imp fun _ tree h => ?_)
  refine .bind (readFile_ensures h fun envelope _ => ?_)
  refine .bind (ofExcept_ensures h fun decoded _ => ?_)
  split
  · exact .throw h
  · exact .require (fun _ => h) (fun _ => h)

theorem refreshArchiveManifests_keeps :
    Keeps services keyring root start (refreshArchiveManifests services keyring) := by
  intro tree h
  refine .bind (.get ?_)
  exact .forM (fun _ tree => Kept services keyring root start tree)
    (fun dir _ tree h => refreshArchiveManifest_keeps hcipher hkeyring dir tree h) _ tree h

theorem refreshColdIndex_ensures (hname : fileName path = some "cold_index.gdx") :
    Keeps services keyring root start (refreshColdIndex services keyring path) := by
  intro tree h
  have hraw : isRawIndex path = true := by
    rw [isRawIndex, hname]
    decide
  refine .bind (.get (.bind (ofExcept_ensures h fun index _ => ?_)))
  refine .bind ((writeEncrypted_ensures hcipher hkeyring h hraw _ _).imp fun _ tree h => ?_)
  refine .bind (.get (.bind (ofExcept_ensures h fun checked _ => ?_)))
  exact .require (fun _ => h) (fun _ => h)

theorem refreshColdIndexes_keeps :
    Keeps services keyring root start (refreshColdIndexes services keyring) := by
  intro tree h
  refine .bind (.get ?_)
  have hnames : ∀ path ∈ filesNamed tree "cold_index.gdx",
      fileName path = some "cold_index.gdx" := by
    intro path hpath
    rw [filesNamed, mem_insertionSort, mem_filter, decide_eq_true_eq] at hpath
    exact hpath.2
  refine (Ensures.forM (fun paths tree => (∀ path ∈ paths,
    fileName path = some "cold_index.gdx") ∧ Kept services keyring root start tree)
    (fun path rest tree h => ?_) _ tree ⟨hnames, h⟩).imp fun _ _ h => h.2
  obtain ⟨hpath, hrest⟩ := forall_mem_cons.mp h.1
  exact (refreshColdIndex_ensures hcipher hkeyring hpath tree h.2).imp fun _ _ h => ⟨hrest, h⟩

/-! ## The rotation -/

variable (hbase64 : services.base64.Lawful)

include hbase64

/-- **The visit of a file keeps the tree.** -/
theorem rewrapPath_keeps (count : ℕ) (path : Path) :
    Keeps services keyring root start (rewrapPath services keyring count path) := by
  intro tree h
  refine .bind (readFile_ensures h fun bytes hbytes => .bind (.get (.bind
    (ofExcept_ensures h fun kind _ => ?_))))
  cases kind with
  | bootstrap => exact .pure h
  | plaintext => exact .throw h
  | encrypted infos =>
    refine .ite (fun _ => ?_) fun _ => .pure h
    refine .bind (ofExcept_ensures h fun rotated hrotated => .bind (.modify ?_))
    cases rotated with
    | none => exact .pure h
    | some rotated =>
      have hpreserved := rotateFile_preserved hcipher hbase64 hkeyring (lift_eq_ok.mp hrotated)
      have hdrawn : Kept services keyring root start
          { tree with drawn := tree.drawn + (bytes.length + 1) } := h
      refine .bind ((atomicWrite_ensures hdrawn fun before hbefore hpath => ?_).imp
        fun _ _ h => .pure h)
      obtain ⟨found, hfound, hkept⟩ := h path before hbefore hpath
      cases hbytes.symm.trans hfound
      exact hkept.trans (.of_preserved hpreserved)

theorem rewrapTree_keeps :
    Keeps services keyring root start (rewrapTree services keyring root) := by
  intro tree h
  refine .bind (.get (.bind (ofExcept_ensures h fun _ _ => ?_)))
  exact .foldlM _ (fun count path tree h =>
    rewrapPath_keeps hcipher hkeyring hbase64 count path tree h) _ _ tree h

omit hcipher hkeyring hbase64 in
theorem openJournal_keeps (logicalDigest : String) :
    Keeps services keyring root start (openJournal services keyring root logicalDigest) := by
  intro tree h
  refine .bind (.get ?_)
  split
  · split
    · exact .throw h
    · exact .require (fun _ => h) (fun _ => h)
  · exact atomicWrite_ensures h fun _ _ hpath => absurd rfl hpath

omit hcipher hkeyring hbase64 in
/-- **What the checks behind the rewriting establish.** -/
theorem checkRotated_ensures (h : Kept services keyring root start tree) (logicalDigest : String) :
    (checkRotated services keyring logicalDigest).Ensures (keeping services keyring root start)
      (fun _ tree => Kept services keyring root start tree ∧ OnlyActive services keyring tree)
      tree := by
  refine .bind (.get (.bind (ofExcept_ensures h fun _ _ => .bind (ofExcept_ensures h
    fun verified _ => .bind (.require (fun _ => ?_) fun _ => h)))))
  refine .bind (ofExcept_ensures h fun referenced hreferenced => .require (fun hactive => ?_)
    fun _ => h)
  refine ⟨h, fun path bytes hbytes => ?_⟩
  simp only [referencedKeyIds, eq_ok] at hreferenced
  obtain ⟨ids, hids, rfl⟩ := hreferenced
  have hmem := AList.mem_lookup_iff.mp hbytes
  obtain ⟨found, hfound, hkeys⟩ := forall₂_exists (mapM_eq_ok_iff_forall₂.mp hids) _ hmem
  simp only [fileKeyIds, eq_ok, lift_eq_ok] at hkeys
  obtain ⟨kind, hkind, hkeys⟩ := hkeys
  refine ⟨kind, hkind, ?_⟩
  rintro infos rfl info hinfo
  cases hkeys
  exact hactive.2 _ (mem_flatten.mpr ⟨_, hfound, mem_map_of_mem hinfo⟩)

/-- **A run keeps the tree**, and one that succeeds leaves the active key only. -/
theorem rewrapTreeResumable_ensures (h : Kept services keyring root start tree) :
    (rewrapTreeResumable services keyring root).Ensures (keeping services keyring root start)
      (fun _ tree => Kept services keyring root start tree ∧ OnlyActive services keyring tree)
      tree := by
  refine .bind (.get (.bind (ofExcept_ensures h fun _ _ => .bind (ofExcept_ensures h
    fun logicalDigest _ => ?_))))
  refine .bind ((openJournal_keeps logicalDigest tree h).imp fun _ tree h => ?_)
  refine .bind ((rewrapTree_keeps hcipher hkeyring hbase64 tree h).imp fun rotated tree h => ?_)
  refine .bind ((refreshArchiveManifests_keeps hcipher hkeyring tree h).imp fun _ tree h => ?_)
  refine .bind ((refreshColdIndexes_keeps hcipher hkeyring tree h).imp fun _ tree h => ?_)
  refine .bind ((checkRotated_ensures h logicalDigest).imp fun _ tree h => ?_)
  obtain ⟨h, hactive⟩ := h
  have herase : Kept services keyring root start
      { tree with files := tree.files.erase (journalPath root) } := by
    intro path before hbefore hpath
    obtain ⟨after, hafter, hkept⟩ := h path before hbefore hpath
    refine ⟨after, ?_, hkept⟩
    rw [lookup_erase_eq, if_neg hpath, hafter]
  refine .bind (.effect (fun n => ?_) (.pure ⟨herase, fun path bytes hbytes => ?_⟩))
  · split
    · exact ⟨fun _ _ _ => h, fun _ _ => h⟩
    · exact ⟨fun _ _ _ => herase, fun _ _ => herase⟩
  · rw [lookup_erase_eq] at hbytes
    split at hbytes
    · cases hbytes
    · exact hactive path bytes hbytes

/-- **All runs keep the tree.** -/
theorem attempts_kept (scripts : List (List Event)) :
    Kept services keyring root start (attempts services keyring root start scripts) := by
  have hstep (tree : Tree) (script : List Event) (h : Kept services keyring root start tree) :
      Kept services keyring root start
        (rewrapTreeResumable services keyring root tree script).final := by
    exact (rewrapTreeResumable_ensures hcipher hkeyring hbase64 h).outcome (fun _ _ => trivial)
      (fun _ _ _ hd => hd.1) (fun _ _ _ hd => hd) fun _ hd => hd
  suffices ∀ tree, Kept services keyring root start tree →
      Kept services keyring root start (attempts services keyring root tree scripts) from
    this start (.refl start)
  induction scripts with
  | nil => exact fun _ h => h
  | cons script scripts ih => exact fun tree h => ih _ (hstep tree script h)

end Steps

/-- **Rotation preserves a tree.**  After any number of runs that were stopped anywhere, every file
is readable if it was, and apart from the indexes of raw bytes has the content it had, with all WAL
envelopes of their lengths; and so it is after a run that succeeds, when every envelope names the
active key. -/
theorem rotation_preserves_tree (hcipher : services.aead.Correct)
    (hbase64 : services.base64.Lawful) (hkeyring : keyring.Loaded) (start : Tree)
    (scripts : List (List Event)) :
    Kept services keyring root start (attempts services keyring root start scripts) ∧
      ∀ script rotated tree rest, rewrapTreeResumable services keyring root
            (attempts services keyring root start scripts) script = .done rotated tree rest →
          Kept services keyring root start tree ∧ OnlyActive services keyring tree := by
  have hkept : Kept services keyring root start (attempts services keyring root start scripts) :=
    attempts_kept hcipher hkeyring hbase64 scripts
  refine ⟨hkept, fun script rotated tree rest hdone => ?_⟩
  have hrun := rewrapTreeResumable_ensures hcipher hkeyring hbase64 hkept script fun _ _ => trivial
  rw [hdone] at hrun
  exact hrun.1

/-! ### An archive of one file -/

def exampleManifest (sha256 : String) : WalArchiveManifest :=
  ⟨2, [⟨"wal.base", 126, sha256, "chirenc1"⟩]⟩

def manifestText (manifest : WalArchiveManifest) : Bytes :=
  utf8 (toString manifest.version ++ String.join (manifest.files.map fun file =>
    ";" ++ file.name ++ ":" ++ toString file.bytes ++ ":" ++ file.sha256 ++ ":" ++ file.encoding))

/-- A digest that sums the bytes, and a reader that knows two manifests. -/
def sumServices : Services where
  aead := .marking
  crc32 _ := 0
  base64 := ⟨fun bytes => bytes.map fun b => Char.ofNat (b.toNat + 256),
    fun text => some (text.map fun c => UInt8.ofNat (c.toNat - 256))⟩
  sha256 bytes := toString (bytes.map UInt8.toNat).sum
  journalBytes journal := utf8 journal.logicalDigest
  readJournal _ := .error "unknown journal"
  manifestBytes := manifestText
  readManifest bytes :=
    if bytes = manifestText (exampleManifest "836") ++ [10] then .ok (exampleManifest "836")
    else if bytes = manifestText (exampleManifest "837") ++ [10] then .ok (exampleManifest "837")
    else .error "unknown manifest"
  coldIndexBytes _ := []
  readColdIndex _ := .error "unknown cold index"
  draws _ := exampleDraws
  uuid n := toString n

def twoKeys (active : String) : Keyring :=
  ⟨active, fun id => if id = "a" ∨ id = "b" then some (List.replicate 32 7) else none⟩

/-- A file that was encrypted under the key `a`. -/
def oldEnvelope (fileType : FileType) (plaintext : Bytes) : Bytes :=
  (encryptBytesWithChunkSize .marking (twoKeys "a") exampleDraws fileType plaintext
    defaultChunkSize).toOption.getD []

def exampleTree : Tree :=
  ⟨((∅ : Table Path Bytes).insert ["db", "archive", "wal.manifest.json"]
      (oldEnvelope .metadata (manifestText (exampleManifest "836") ++ [10]))).insert
    ["db", "archive", "wal.base"] (oldEnvelope .wal [1, 2, 3]), [], 0⟩

theorem toNat_ofNat_byte (b : UInt8) : (Char.ofNat (b.toNat + 256)).toNat = b.toNat + 256 := by
  have hb := b.toNat_lt
  rw [Char.ofNat, dif_pos (Or.inl (by omega))]
  rfl

theorem sumServices_lawful : sumServices.base64.Lawful where
  decode_encode bytes := by
    have hbytes : (fun c : Char => UInt8.ofNat (c.toNat - 256)) ∘
        (fun b : UInt8 => Char.ofNat (b.toNat + 256)) = id := by
      funext b
      rw [Function.comp, toNat_ofNat_byte, Nat.add_sub_cancel, UInt8.ofNat_toNat, id]
    change some ((bytes.map _).map _) = some bytes
    rw [map_map, hbytes, map_id]
  isLine bytes := by
    have hmem (c : Char) (hc : c.toNat < 256) : c ∉ sumServices.base64.encode bytes := by
      intro hmem
      obtain ⟨b, -, rfl⟩ := mem_map.mp hmem
      rw [toNat_ofNat_byte] at hc
      omega
    exact ⟨hmem _ (by decide), hmem _ (by decide)⟩

theorem twoKeys_loaded : (twoKeys "b").Loaded := by
  have honly : ∀ id key, (twoKeys "b").keys id = some key → id = "a" ∨ id = "b" := by
    intro id key h
    by_contra hne
    simp [twoKeys, hne] at h
  refine ⟨rfl, fun id key h => ?_, fun id key h => ?_, fun id key h => ?_⟩
  all_goals
    obtain rfl | rfl := honly id key h
    all_goals decide +kernel

/-- What a file of the tree says. -/
def contentOf (tree : Tree) (path : Path) : Option Bytes :=
  (tree.files.lookup path).bind fun bytes => (canonicalPlaintext sumServices.aead sumServices.crc32
    sumServices.base64 (twoKeys "b") path bytes).toOption

theorem rotation_preserves_archive :
    Kept sumServices (twoKeys "b") "db" exampleTree
      (attempts sumServices (twoKeys "b") "db" exampleTree [[.pass, .crash 2]]) :=
  (rotation_preserves_tree Aead.marking_correct sumServices_lawful twoKeys_loaded exampleTree
    [[.pass, .crash 2]]).1

/-- **An index of raw bytes does not keep its content**: the manifest of an archive lists the
digests of its files as they are stored. -/
theorem rotation_rewrites_manifest :
    ∃ tree, rewrapTreeResumable sumServices (twoKeys "b") "db" exampleTree [] = .done 2 tree [] ∧
      contentOf exampleTree ["db", "archive", "wal.manifest.json"] =
        some (manifestText (exampleManifest "836") ++ [10]) ∧
      contentOf tree ["db", "archive", "wal.manifest.json"] =
        some (manifestText (exampleManifest "837") ++ [10]) ∧
      manifestText (exampleManifest "836") ++ [10] ≠
        manifestText (exampleManifest "837") ++ [10] := by
  exact ⟨_, Outcome.eq_done (by decide +kernel), by decide +kernel, by decide +kernel,
    by decide +kernel⟩

end ChironDB.Encryption
