/-
# The WAL directory

The files of one WAL directory and what the WAL code does to them
(`chirondb-core/src/wal.rs`, `wal/layout.rs`, `fs_util.rs`).  A `File` knows how
many of its bytes are synced; a crash keeps those and any part of the rest
(`File.cut`).  Creating, renaming and removing are atomic, and a write that fails
or is cut off leaves a part of its bytes.  Every call the code makes on the file
system is one step of a `Fault.Program` over the directory, a read being a step
that changes nothing (`probe`).

`wal.base` holds the retained base LSN, the first retained segment and the segment
frontier.  It is published by writing a temporary file and renaming it, so it is a
value here that one atomic step replaces (`writeWalBase`); its encoding is left
out.  `Disk.walSegments` lists the retained segments and checks that they are
consecutive, reach the frontier and hold nothing beyond it; `Disk.Stores` says
which files a directory retains, and `Stores.walSegments` is the listing then.
-/

import Mathlib
import ChironDB.Fault.Program
import ChironDB.Wal.Frame

namespace ChironDB.Wal

open Codec Fault List

/-- A file and how much of it is known to be on the medium. -/
structure File where
  bytes : Bytes
  synced : ℕ
  synced_le : synced ≤ bytes.length
  deriving DecidableEq

namespace File

/-- A file just created. -/
def empty : File := ⟨[], 0, le_rfl⟩

/-- Bytes appended, not yet synced. -/
def write (file : File) (more : Bytes) : File :=
  ⟨file.bytes ++ more, file.synced, by
    rw [length_append]
    exact file.synced_le.trans (Nat.le_add_right _ _)⟩

/-- `sync_all` or `sync_data`. -/
def sync (file : File) : File := ⟨file.bytes, file.bytes.length, le_rfl⟩

/-- `set_len` to a length the file has. -/
def setLen (file : File) (len : ℕ) : File :=
  ⟨file.bytes.take len, min file.synced len, by
    rw [length_take]
    exact le_min (min_le_right _ _) ((min_le_left _ _).trans file.synced_le)⟩

/-- What a crash leaves of a file: the synced bytes and `survivors` of all bytes,
whichever is more. -/
def cut (file : File) (survivors : ℕ) : File :=
  sync (file.setLen (max file.synced survivors))

end File

/-- `WalBase`. -/
structure WalBase where
  lsn : ℕ := 0
  firstSegment : ℕ := 0
  lastSegment : Option ℕ := none
  deriving DecidableEq, Repr

/-- A WAL directory: its segment files by index, and `wal.base` once published. -/
structure Disk where
  segments : Std.ExtTreeMap ℕ File := ∅
  base : Option WalBase := none

namespace Disk

/-- The published `wal.base`, or the default of a directory without one. -/
def walBase (disk : Disk) : WalBase := disk.base.getD {}

/-- `read_wal_base`. -/
def readWalBase (disk : Disk) : Except GaussError WalBase :=
  if disk.walBase.lastSegment.any (· < disk.walBase.firstSegment) then
    .error (.walCorruption .base "wal.base segment frontier precedes its retained prefix")
  else .ok disk.walBase

/-- `all_wal_segments`: every segment file, by index. -/
def allWalSegments (disk : Disk) : List (ℕ × File) := disk.segments.toList

end Disk

/-- The first loop of `wal_segments`: the indices are consecutive. -/
def checkContiguous : ℕ → List (ℕ × File) → Except GaussError Unit
  | _, [] => .ok ()
  | expected, (index, _) :: later =>
    if index ≠ expected then
      .error (.walCorruption (.segment index)
        ("wal segment gap: expected index " ++ toString expected ++ ", found " ++ toString index))
    else checkContiguous (expected + 1) later

/-- The check of `wal_segments` against the published frontier. -/
def checkFrontier (base : WalBase) (segments : List (ℕ × File)) :
    Except GaussError (List (ℕ × File)) :=
  match base.lastSegment with
  | none => .ok segments
  | some last =>
    let required := max last base.firstSegment
    if segments.getLast?.all (fun segment => segment.1 < required) then
      .error (.walCorruption .directory
        ("missing required WAL suffix segment " ++ toString required))
    else
      match segments.find? fun segment => required < segment.1 ∧ segment.2.bytes ≠ [] with
      | some segment =>
        .error (.walCorruption (.segment segment.1)
          "WAL data is ahead of its durable segment frontier")
      | none => .ok segments

/-- `wal_segments`: the retained segments. -/
def Disk.walSegments (disk : Disk) : Except GaussError (List (ℕ × File)) := do
  let base ← disk.readWalBase
  let segments := disk.allWalSegments.filter fun segment => base.firstSegment ≤ segment.1
  checkContiguous base.firstSegment segments
  checkFrontier base segments

/-- Change a file that exists. -/
def Disk.modify (disk : Disk) (index : ℕ) (f : File → File) : Disk :=
  match disk.segments[index]? with
  | some file => { disk with segments := disk.segments.insert index (f file) }
  | none => disk

/-- An empty file at an index. -/
def Disk.create (disk : Disk) (index : ℕ) : Disk :=
  { disk with segments := disk.segments.insert index .empty }

def Disk.remove (disk : Disk) (index : ℕ) : Disk :=
  { disk with segments := disk.segments.erase index }

def Disk.publish (disk : Disk) (base : WalBase) : Disk := { disk with base := some base }

/-- What a crash leaves of a directory, given how much survives of each file. -/
def Disk.crash (disk : Disk) (survivors : ℕ → ℕ) : Disk :=
  { disk with segments := disk.segments.map fun index file => file.cut (survivors index) }

/-- A computation on the WAL directory. -/
abbrev Io := Program Disk GaussError

/-- A call that changes nothing: a read, or the sync of a directory or of a
temporary file. -/
def probe : Io Unit := Program.atomic .io id

def readBase : Io WalBase := do
  probe
  let disk ← get
  Program.ofExcept disk.readWalBase

def listSegments : Io (List (ℕ × File)) := do
  probe
  let disk ← get
  Program.ofExcept disk.walSegments

/-- The length of a file, as `metadata` gives it. -/
def fileLen (index : ℕ) : Io ℕ := do
  probe
  let disk ← get
  match disk.segments[index]? with
  | some file => pure file.bytes.length
  | none => throw .io

/-- Open with `create_new`. -/
def createNew (index : ℕ) : Io Unit := do
  let disk ← get
  if disk.segments[index]?.isSome then throw .io
  else Program.atomic .io fun d => d.create index

def syncFile (index : ℕ) : Io Unit := Program.atomic .io fun disk => disk.modify index .sync

/-- `write_all` at the end of a file. -/
def writeFile (index : ℕ) (bytes : Bytes) : Io Unit :=
  Program.effect .io (fun n disk => disk.modify index (·.write (bytes.take n)))
    fun disk => disk.modify index (·.write bytes)

def setFileLen (index len : ℕ) : Io Unit :=
  Program.atomic .io fun disk => disk.modify index (·.setLen len)

/-- `durable_remove_file`. -/
def removeFile (index : ℕ) : Io Unit := do
  Program.atomic .io fun disk => disk.remove index
  probe

/-- `write_wal_base`: a temporary file is created, written and synced, then renamed,
and the directory is synced. -/
def writeWalBase (base : WalBase) : Io Unit := do
  probe
  probe
  probe
  Program.atomic .io fun disk => disk.publish base
  probe

variable {file : File} {index : ℕ} {disk : Disk} {α : Type}

section Stores

@[simp] theorem base_modify (disk : Disk) (index : ℕ) (f : File → File) :
    (disk.modify index f).base = disk.base := by
  rw [Disk.modify]
  split
  · rfl
  · rfl

@[simp] theorem walBase_modify (disk : Disk) (index : ℕ) (f : File → File) :
    (disk.modify index f).walBase = disk.walBase := by
  rw [Disk.walBase, base_modify, Disk.walBase]

theorem getElem?_modify (disk : Disk) (index : ℕ) (f : File → File) (i : ℕ) :
    (disk.modify index f).segments[i]? =
      if index = i then disk.segments[index]?.map f else disk.segments[i]? := by
  rw [Disk.modify]
  split
  · next file hfile =>
    rw [Std.ExtTreeMap.getElem?_insert, hfile, Option.map_some]
    simp only [compare_eq_iff_eq]
  · next hnone =>
    split_ifs with h
    · rw [← h, hnone, Option.map_none]
    · rfl

theorem Disk.ext_getElem? {d e : Disk} (hbase : d.base = e.base)
    (h : ∀ i : ℕ, d.segments[i]? = e.segments[i]?) : d = e := by
  cases d with
  | mk segments base =>
    cases e with
    | mk segments' base' =>
      cases hbase
      congr
      exact Std.ExtTreeMap.ext_getElem? fun i => h i

theorem modify_modify (disk : Disk) (index : ℕ) (f g : File → File) :
    (disk.modify index f).modify index g = disk.modify index fun file => g (f file) := by
  apply Disk.ext_getElem?
  · rw [base_modify, base_modify, base_modify]
  · intro i
    simp only [getElem?_modify, if_true]
    split_ifs
    · rw [Option.map_map]
      rfl
    · rfl

theorem File.write_write (file : File) (a b : Bytes) :
    (file.write a).write b = file.write (a ++ b) := by
  simp only [File.write, append_assoc]

theorem File.cut_of_synced (h : file.synced = file.bytes.length) (survivors : ℕ) :
    file.cut survivors = file := by
  have hbytes : (file.setLen (max file.synced survivors)).bytes = file.bytes :=
    take_of_length_le (by rw [h]; exact le_max_left _ _)
  rw [File.cut, File.sync]
  simp only [hbytes, ← h]

/-- What is left of a file holds what was synced, and all of it is synced then. -/
theorem File.synced_le_cut (file : File) (survivors : ℕ) :
    file.synced ≤ (file.cut survivors).synced := by
  change file.synced ≤ (file.bytes.take (max file.synced survivors)).length
  rw [length_take]
  exact le_min (le_max_left _ _) file.synced_le

theorem File.cut_bytes (file : File) (survivors : ℕ) : (file.cut survivors).bytes <+: file.bytes :=
  take_prefix _ _

/-- The directory retains these files, with consecutive indices from the first
retained segment on. -/
def Disk.Stores (disk : Disk) (files : List File) : Prop :=
  ∀ i, disk.segments[disk.walBase.firstSegment + i]? = files[i]?

variable {files : List File}

theorem mem_numbered {n : ℕ} {as : List α} {i : ℕ} {a : α} :
    (i, a) ∈ numbered n as ↔ ∃ k, i = n + k ∧ as[k]? = some a := by
  induction as generalizing n with
  | nil => simp [numbered]
  | cons b as ih =>
    rw [numbered, mem_cons, ih, Prod.mk.injEq]
    constructor
    · rintro (⟨rfl, rfl⟩ | ⟨k, rfl, hk⟩)
      · exact ⟨0, rfl, rfl⟩
      · exact ⟨k + 1, by omega, by simpa using hk⟩
    · rintro ⟨k, rfl, hk⟩
      cases k with
      | zero => exact .inl ⟨rfl, by simpa using hk.symm⟩
      | succ k => exact .inr ⟨k, by omega, by simpa using hk⟩

theorem getElem?_numbered (n : ℕ) (as : List α) (k : ℕ) :
    (numbered n as)[k]? = as[k]?.map fun a => (n + k, a) := by
  induction as generalizing n k with
  | nil => rfl
  | cons a as ih =>
    cases k with
    | zero => rfl
    | succ k =>
      rw [numbered, getElem?_cons_succ, ih, getElem?_cons_succ, Nat.add_right_comm, Nat.add_assoc]

theorem numbered_concat (n : ℕ) (as : List α) (a : α) :
    numbered n (as ++ [a]) = numbered n as ++ [(n + as.length, a)] := by
  induction as generalizing n with
  | nil => rfl
  | cons b as ih =>
    rw [cons_append, numbered, ih, numbered, cons_append, length_cons,
      show n + 1 + as.length = n + (as.length + 1) by omega]

theorem lt_of_mem_take_numbered {n : ℕ} {as : List α} {k : ℕ} {p : ℕ × α}
    (h : p ∈ (numbered n as).take k) : p.1 < n + k := by
  obtain ⟨j, hj⟩ := List.mem_iff_getElem?.mp h
  have hlt : j < k := by
    have := (List.getElem?_eq_some_iff.mp hj).1
    rw [List.length_take] at this
    omega
  rw [List.getElem?_take_of_lt hlt, getElem?_numbered, Option.map_eq_some_iff] at hj
  obtain ⟨a, -, rfl⟩ := hj
  change n + j < n + k
  omega

theorem pairwise_numbered (n : ℕ) (as : List α) :
    (numbered n as).Pairwise fun a b => a.1 < b.1 := by
  induction as generalizing n with
  | nil => exact .nil
  | cons a as ih =>
    refine .cons ?_ (ih (n + 1))
    rintro ⟨i, b⟩ hb
    obtain ⟨k, rfl, -⟩ := mem_numbered.mp hb
    change n < n + 1 + k
    omega

/-- Two lists of pairs in the order of their keys are equal when they have the same
members. -/
theorem eq_of_pairwise_lt {as bs : List (ℕ × α)}
    (ha : as.Pairwise fun a b => a.1 < b.1) (hb : bs.Pairwise fun a b => a.1 < b.1)
    (h : ∀ p, p ∈ as ↔ p ∈ bs) : as = bs := by
  have hne : ∀ {l : List (ℕ × α)}, l.Pairwise (fun a b => a.1 < b.1) → l.Nodup := by
    intro l hl
    refine hl.imp ?_
    rintro a b hlt rfl
    exact lt_irrefl _ hlt
  have hperm := (perm_ext_iff_of_nodup (hne ha) (hne hb)).mpr h
  exact hperm.eq_of_pairwise (fun a b _ _ hab hba => absurd hab hba.asymm) ha hb

/-- The retained segments are listed with consecutive indices. -/
theorem Disk.Stores.filter (h : disk.Stores files) :
    disk.allWalSegments.filter (fun segment => disk.walBase.firstSegment ≤ segment.1) =
      numbered disk.walBase.firstSegment files := by
  refine eq_of_pairwise_lt ?_ (pairwise_numbered _ _) ?_
  · refine List.Pairwise.filter _ (Std.ExtTreeMap.ordered_keys_toList.imp ?_)
    exact fun hlt => compare_lt_iff_lt.mp hlt
  · rintro ⟨i, file⟩
    rw [mem_filter, mem_numbered, Disk.allWalSegments,
      Std.ExtTreeMap.mem_toList_iff_getElem?_eq_some, decide_eq_true_iff]
    constructor
    · rintro ⟨hfile, hle⟩
      obtain ⟨k, rfl⟩ := Nat.exists_eq_add_of_le hle
      exact ⟨k, rfl, (h k).symm.trans hfile⟩
    · rintro ⟨k, rfl, hk⟩
      exact ⟨(h k).trans hk, Nat.le_add_right _ _⟩

theorem getElem?_concat (as : List α) (a : α) (i : ℕ) :
    (as ++ [a])[i]? = if i = as.length then some a else as[i]? := by
  rcases lt_trichotomy i as.length with h | rfl | h
  · rw [getElem?_append_left h, if_neg (by omega)]
  · rw [getElem?_append_right le_rfl, Nat.sub_self, if_pos rfl]
    rfl
  · rw [if_neg (by omega), getElem?_eq_none (by simp; omega), getElem?_eq_none h.le]

theorem Disk.Stores.modify {rest : List File}
    (h : disk.Stores (files ++ file :: rest)) (f : File → File) :
    (disk.modify (disk.walBase.firstSegment + files.length) f).Stores (files ++ f file :: rest) := by
  intro i
  have hi := h i
  have hfile : disk.segments[disk.walBase.firstSegment + files.length]? = some file := by
    rw [h, getElem?_append_right le_rfl, Nat.sub_self]
    rfl
  rw [walBase_modify, getElem?_modify, hfile, Option.map_some]
  by_cases heq : i = files.length
  · rw [if_pos (by rw [heq]), heq, getElem?_append_right le_rfl, Nat.sub_self]
    rfl
  · rw [if_neg (by omega), hi]
    rcases lt_or_gt_of_ne heq with hlt | hgt
    · rw [getElem?_append_left hlt, getElem?_append_left hlt]
    · rw [getElem?_append_right hgt.le, getElem?_append_right hgt.le,
        show i - files.length = (i - files.length - 1) + 1 by omega, getElem?_cons_succ,
        getElem?_cons_succ]

theorem Disk.Stores.modify_last (h : disk.Stores (files ++ [file])) (f : File → File) :
    (disk.modify (disk.walBase.firstSegment + files.length) f).Stores (files ++ [f file]) :=
  h.modify f

section

variable (h : disk.Stores files)
include h

theorem Disk.Stores.absent : disk.segments[disk.walBase.firstSegment + files.length]? = none := by
  rw [h, getElem?_eq_none le_rfl]

theorem Disk.Stores.create :
    (disk.create (disk.walBase.firstSegment + files.length)).Stores (files ++ [.empty]) := by
  intro i
  change (disk.segments.insert (disk.walBase.firstSegment + files.length) .empty)[
    disk.walBase.firstSegment + i]? = _
  rw [Std.ExtTreeMap.getElem?_insert, getElem?_concat, h i]
  simp only [compare_eq_iff_eq]
  by_cases heq : i = files.length
  · rw [if_pos heq, if_pos (by rw [heq])]
  · rw [if_neg heq, if_neg (by omega)]

/-- A base with a later first segment retains the files from there on. -/
theorem Disk.Stores.publish (base : WalBase) (dropped : ℕ)
    (hfirst : base.firstSegment = disk.walBase.firstSegment + dropped) :
    (disk.publish base).Stores (files.drop dropped) := by
  intro i
  change disk.segments[base.firstSegment + i]? = _
  rw [hfirst, Nat.add_assoc, h, getElem?_drop]

theorem Disk.Stores.remove_below (hlt : index < disk.walBase.firstSegment) :
    (disk.remove index).Stores files := by
  intro i
  change (disk.segments.erase index)[disk.walBase.firstSegment + i]? = _
  rw [Std.ExtTreeMap.getElem?_erase, h i]
  simp only [compare_eq_iff_eq]
  rw [if_neg (by omega)]

end

/-- A crash cuts the last file, when the others are synced. -/
theorem Disk.Stores.crash (h : disk.Stores (files ++ [file])) (survivors : ℕ → ℕ)
    (hsynced : ∀ f ∈ files, f.synced = f.bytes.length) :
    (disk.crash survivors).Stores
      (files ++ [file.cut (survivors (disk.walBase.firstSegment + files.length))]) := by
  intro i
  change (disk.segments.map fun index f => f.cut (survivors index))[
    disk.walBase.firstSegment + i]? = _
  rw [Std.ExtTreeMap.getElem?_map, h i, getElem?_concat, getElem?_concat]
  by_cases heq : i = files.length
  · rw [if_pos heq, if_pos heq, heq, Option.map_some]
  · rw [if_neg heq, if_neg heq]
    cases hfile : files[i]? with
    | none => rfl
    | some f =>
      have hf := hsynced f (mem_of_getElem? hfile)
      rw [Option.map_some, File.cut_of_synced hf]

theorem Disk.Stores.lt_of_mem (h : disk.Stores files)
    {segment : ℕ × File} (hmem : segment ∈ disk.allWalSegments) :
    segment.1 < disk.walBase.firstSegment + files.length := by
  by_contra hnot
  obtain ⟨k, hk⟩ := Nat.exists_eq_add_of_le (not_lt.mp hnot)
  have hstored := Std.ExtTreeMap.mem_toList_iff_getElem?_eq_some.mp hmem
  rw [hk, Nat.add_assoc, h, getElem?_eq_none (Nat.le_add_right _ _)] at hstored
  cases hstored

theorem Disk.Stores.getLast?_allWalSegments (h : disk.Stores (files ++ [file])) :
    disk.allWalSegments.getLast? = some (disk.walBase.firstSegment + files.length, file) := by
  have hfile : disk.segments[disk.walBase.firstSegment + files.length]? = some file := by
    rw [h, getElem?_concat, if_pos rfl]
  have hmem : (disk.walBase.firstSegment + files.length, file) ∈ disk.allWalSegments :=
    Std.ExtTreeMap.mem_toList_iff_getElem?_eq_some.mpr hfile
  have hsorted : disk.allWalSegments.Pairwise fun a b => a.1 < b.1 :=
    Std.ExtTreeMap.ordered_keys_toList.imp fun hlt => compare_lt_iff_lt.mp hlt
  obtain ⟨before, last, hlast⟩ :=
    (eq_nil_or_concat disk.allWalSegments).resolve_left (ne_nil_of_mem hmem)
  rw [concat_eq_append] at hlast
  have hle : disk.walBase.firstSegment + files.length ≤ last.1 := by
    rw [hlast, mem_append, mem_singleton] at hmem
    rcases hmem with hmem | rfl
    · rw [hlast, pairwise_append] at hsorted
      exact (hsorted.2.2 _ hmem last (mem_singleton.mpr rfl)).le
    · exact le_rfl
  have hstored : disk.segments[last.1]? = some last.2 :=
    Std.ExtTreeMap.mem_toList_iff_getElem?_eq_some.mp
      (show last ∈ disk.allWalSegments by rw [hlast]; simp)
  obtain ⟨k, hk⟩ := Nat.exists_eq_add_of_le hle
  rw [hk, Nat.add_assoc, h, getElem?_concat] at hstored
  have hkey : last = (disk.walBase.firstSegment + files.length, file) := by
    split_ifs at hstored with heq
    · obtain ⟨i, f⟩ := last
      cases hstored
      simp only [Prod.mk.injEq, and_true]
      change i = _ at hk
      omega
    · rw [getElem?_eq_none (by omega)] at hstored
      cases hstored
  rw [hlast, getLast?_concat, hkey]

theorem checkContiguous_numbered (n : ℕ) (files : List File) :
    checkContiguous n (numbered n files) = .ok () := by
  induction files generalizing n with
  | nil => rfl
  | cons file files ih =>
    rw [numbered, checkContiguous, if_neg (fun h => h rfl)]
    exact ih (n + 1)

/-- The frontier of a base against `n` sealed segments and an active file: it is the
active segment, or the one before it while the active segment is empty. -/
structure WalBase.Reaches (base : WalBase) (n : ℕ) (active : File) : Prop where
  le : ∀ last ∈ base.lastSegment, base.firstSegment ≤ last
  reaches : ∀ last ∈ base.lastSegment,
    last = base.firstSegment + n ∨ last + 1 = base.firstSegment + n ∧ active.bytes = []

theorem readWalBase_eq_ok {n : ℕ} {active : File}
    (h : disk.walBase.Reaches n active) : disk.readWalBase = .ok disk.walBase := by
  have hnot : ¬ disk.walBase.lastSegment.any (· < disk.walBase.firstSegment) = true := by
    cases hlast : disk.walBase.lastSegment with
    | none => simp
    | some last =>
      have := h.le last hlast
      simp only [Option.any_some, decide_eq_true_eq]
      omega
  rw [Disk.readWalBase, if_neg hnot]

/-- **The listing of a directory that stores sealed segments and an active one.** -/
theorem Disk.Stores.walSegments {sealed : List File} {active : File}
    (h : disk.Stores (sealed ++ [active])) (hbase : disk.walBase.Reaches sealed.length active) :
    disk.walSegments = .ok (numbered disk.walBase.firstSegment (sealed ++ [active])) := by
  have hlast : (numbered disk.walBase.firstSegment (sealed ++ [active])).getLast? =
      some (disk.walBase.firstSegment + sealed.length, active) := by
    rw [numbered_concat, getLast?_concat]
  have hfrontier : checkFrontier disk.walBase
      (numbered disk.walBase.firstSegment (sealed ++ [active])) =
        .ok (numbered disk.walBase.firstSegment (sealed ++ [active])) := by
    rw [checkFrontier]
    cases hb : disk.walBase.lastSegment with
    | none => rfl
    | some last =>
      have hle := hbase.le last hb
      have hreach := hbase.reaches last hb
      have hmax := max_eq_left hle
      simp only [hmax, hlast, Option.all_some]
      rw [if_neg (by rw [decide_eq_true_eq]; omega)]
      have hfind : (numbered disk.walBase.firstSegment (sealed ++ [active])).find?
          (fun segment => decide (last < segment.1 ∧ segment.2.bytes ≠ [])) = none := by
        rw [find?_eq_none]
        rintro ⟨i, file⟩ hmem
        obtain ⟨k, rfl, hk⟩ := mem_numbered.mp hmem
        rw [decide_eq_true_eq]
        rintro ⟨hlt, hne⟩
        have hbound : k < (sealed ++ [active]).length := (List.getElem?_eq_some_iff.mp hk).1
        rw [List.length_append, List.length_singleton] at hbound
        -- Only the active segment can lie beyond the frontier, and it is empty then.
        rcases hreach with hreach | ⟨hreach, hempty⟩
        · change last < disk.walBase.firstSegment + k at hlt
          omega
        · change last < disk.walBase.firstSegment + k at hlt
          have hk' : k = sealed.length := by omega
          rw [hk', getElem?_append_right le_rfl, Nat.sub_self] at hk
          cases hk
          exact hne hempty
      rw [hfind]
  rw [Disk.walSegments, readWalBase_eq_ok hbase]
  simp only [bind, Except.bind]
  rw [h.filter, checkContiguous_numbered]
  exact hfrontier

end Stores

section Rules

variable {x : Program.Exits Disk GaussError}

variable {post : Unit → Disk → Prop}

section

variable (hsafe : x.Safe disk)
include hsafe

theorem probe_ensures (hpost : post () disk) : probe.Ensures x post disk :=
  .atomic hsafe hpost

theorem readBase_ensures {post : WalBase → Disk → Prop}
    (hread : disk.readWalBase = .ok disk.walBase) (hpost : post disk.walBase disk) :
    readBase.Ensures x post disk := by
  refine .bind (probe_ensures hsafe (.bind (.get ?_)))
  rw [hread]
  exact .pure hpost

theorem listSegments_ensures {post : List (ℕ × File) → Disk → Prop} {segments : List (ℕ × File)}
    (hlist : disk.walSegments = .ok segments) (hpost : post segments disk) :
    listSegments.Ensures x post disk := by
  refine .bind (probe_ensures hsafe (.bind (.get ?_)))
  rw [hlist]
  exact .pure hpost

theorem fileLen_ensures {post : ℕ → Disk → Prop} (hfile : disk.segments[index]? = some file)
    (hpost : post file.bytes.length disk) : (fileLen index).Ensures x post disk := by
  refine .bind (probe_ensures hsafe (.bind (.get ?_)))
  rw [hfile]
  exact .pure hpost

theorem createNew_ensures (habsent : disk.segments[index]? = none)
    (hpost : post () (disk.create index)) : (createNew index).Ensures x post disk := by
  refine .bind (.get ?_)
  rw [habsent]
  exact .atomic hsafe hpost

theorem syncFile_ensures (hpost : post () (disk.modify index .sync)) :
    (syncFile index).Ensures x post disk :=
  .atomic hsafe hpost

end

theorem writeFile_ensures {bytes : Bytes}
    (hpart : ∀ n, x.Safe (disk.modify index (·.write (bytes.take n))))
    (hpost : post () (disk.modify index (·.write bytes))) :
    (writeFile index bytes).Ensures x post disk :=
  .effect hpart hpost

theorem setFileLen_ensures (hsafe : x.Safe disk) {len : ℕ}
    (hpost : post () (disk.modify index (·.setLen len))) :
    (setFileLen index len).Ensures x post disk :=
  .atomic hsafe hpost

theorem removeFile_ensures (hsafe : x.Safe disk)
    (hafter : x.Safe (disk.remove index)) (hpost : post () (disk.remove index)) :
    (removeFile index).Ensures x post disk :=
  .bind (.atomic hsafe (probe_ensures hafter hpost))

theorem writeWalBase_ensures {base : WalBase} (hsafe : x.Safe disk)
    (hafter : x.Safe (disk.publish base)) (hpost : post () (disk.publish base)) :
    (writeWalBase base).Ensures x post disk :=
  .bind (probe_ensures hsafe (.bind (probe_ensures hsafe (.bind (probe_ensures hsafe
    (.bind (.atomic hsafe (probe_ensures hafter hpost))))))))

end Rules

end ChironDB.Wal
