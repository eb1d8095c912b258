/-
# Intact logs

What the WAL methods keep of a log.  `Intact` relates a directory to the frames
written to it: `gone` below the retained base, whole frames in the sealed segments,
and an active segment that holds a beginning of the frames in its `tail`.  A crash
only shortens that beginning (`Intact.crash`), so an intact directory can always be
recovered; `Persists` adds the LSN below which every byte is synced.  `Live` is an
intact directory with a handle that agrees with it.

The first section has what one change of the directory does to an intact log; the
specifications of the methods (`Wal/Recovery.lean`, `Wal/Methods.lean`) are chains of
these changes.
-/

import ChironDB.Wal.Log

namespace ChironDB.Wal

open Codec Fault List

variable {Entry : Type} (codec : RecordCodec Entry)

/-- A file that holds whole frames, all of them synced. -/
def sealedFile (frames : List (Frame Entry)) : File :=
  ⟨image codec frames, (image codec frames).length, le_rfl⟩

@[simp] theorem sealedFile_bytes (frames : List (Frame Entry)) :
    (sealedFile codec frames).bytes = image codec frames := rfl

@[simp] theorem sealedFile_synced (frames : List (Frame Entry)) :
    (sealedFile codec frames).synced = extent frames := image_length codec frames

/-- The directory holds the log: `gone` is below its base, and the rest is in sealed
segments and in an active segment that may lack the end of `tail`. -/
structure Intact (disk : Disk) (log gone : List (Frame Entry)) (sealed : List (List (Frame Entry)))
    (active : File) (tail : List (Frame Entry)) : Prop where
  log_eq : log = gone ++ (sealed.flatten ++ tail)
  chained : Chained codec 0 log
  base : disk.walBase.lsn = extent gone
  stores : disk.Stores (sealed.map (sealedFile codec) ++ [active])
  full : ∀ frames ∈ sealed, frames ≠ []
  cut : active.bytes <+: image codec tail
  reaches : disk.walBase.Reaches sealed.length active

/-- The directory holds the log, with every byte below the LSN `durable` synced. -/
def Persists (disk : Disk) (log : List (Frame Entry)) (durable : ℕ) : Prop :=
  ∃ gone sealed active tail, Intact codec disk log gone sealed active tail ∧
    durable ≤ disk.walBase.lsn + extent sealed.flatten + active.synced

/-- The directory holds the log without a torn tail. -/
def Whole (disk : Disk) (log : List (Frame Entry)) (durable : ℕ) : Prop :=
  ∃ gone sealed active tail, Intact codec disk log gone sealed active tail ∧
    active.bytes = image codec tail ∧
      durable ≤ disk.walBase.lsn + extent sealed.flatten + active.synced

/-- The directory holds the whole log and the handle agrees with it. -/
structure Attached (world : World) (log gone : List (Frame Entry))
    (sealed : List (List (Frame Entry))) (active : File) (tail : List (Frame Entry)) : Prop
    extends Intact codec world.disk log gone sealed active tail where
  whole : active.bytes = image codec tail
  fileIndex : world.wal.fileIndex = world.disk.walBase.firstSegment + sealed.length
  activeIndex : world.wal.activeIndex = world.disk.walBase.firstSegment + sealed.length
  baseLsn : world.wal.baseLsn = world.disk.walBase.lsn + extent sealed.flatten
  frontier : world.disk.walBase.lastSegment =
    some (world.disk.walBase.firstSegment + sealed.length)

/-- A handle that can be used, on a directory that holds the log. -/
def Live (world : World) (log : List (Frame Entry)) (durable : ℕ) : Prop :=
  world.wal.poisoned = false ∧ ∃ gone sealed active tail,
    Attached codec world log gone sealed active tail ∧
      durable ≤ world.disk.walBase.lsn + extent sealed.flatten + active.synced

variable {codec}
variable {disk : Disk} {log gone tail : List (Frame Entry)} {sealed : List (List (Frame Entry))}
  {active : File} {durable : ℕ}

section Transitions

variable {base : WalBase}

theorem Reaches.of_last {n : ℕ} (h : base.lastSegment = some (base.firstSegment + n))
    (active : File) : base.Reaches n active where
  le := by
    intro last hlast
    rw [h, Option.mem_some_iff] at hlast
    omega
  reaches := by
    intro last hlast
    rw [h, Option.mem_some_iff] at hlast
    exact .inl hlast.symm

theorem Reaches.of_none (h : base.lastSegment = none) (n : ℕ) (active : File) :
    base.Reaches n active where
  le := by
    intro last hlast
    rw [h] at hlast
    cases hlast
  reaches := by
    intro last hlast
    rw [h] at hlast
    cases hlast

variable {kept : List (Frame Entry)}

section

variable (h : Intact codec disk log gone sealed active tail)
include h

theorem Intact.active_lookup :
    disk.segments[disk.walBase.firstSegment + sealed.length]? = some active := by
  rw [h.stores, getElem?_concat, length_map, if_pos rfl]

theorem Intact.walSegments :
    disk.walSegments =
      .ok (numbered disk.walBase.firstSegment (sealed.map (sealedFile codec) ++ [active])) :=
  h.stores.walSegments (by rw [length_map]; exact h.reaches)

theorem Intact.readWalBase : disk.readWalBase = .ok disk.walBase :=
  readWalBase_eq_ok h.reaches

theorem Intact.chained_upTo (hkept : kept <+: tail) :
    Chained codec 0 (gone ++ (sealed.flatten ++ kept)) := by
  obtain ⟨lost, rfl⟩ := hkept
  have hchained := h.chained
  rw [h.log_eq, ← append_assoc sealed.flatten, ← append_assoc gone, Chained.append_iff] at hchained
  exact hchained.1

theorem Intact.chained_above (hkept : kept <+: tail) :
    Chained codec disk.walBase.lsn (sealed.flatten ++ kept) := by
  have hchained := (Chained.append_iff.mp (h.chained_upTo hkept)).2
  rw [Nat.zero_add, ← h.base] at hchained
  exact hchained

theorem Intact.shorten (hkept : kept <+: tail) (hbytes : active.bytes = image codec kept) :
    Intact codec disk (gone ++ (sealed.flatten ++ kept)) gone sealed active kept where
  log_eq := rfl
  chained := h.chained_upTo hkept
  base := h.base
  stores := h.stores
  full := h.full
  cut := by rw [hbytes]
  reaches := h.reaches

/-- The active file changes, and with it what the log may hold at its end. -/
theorem Intact.modify (f : File → File) {log' tail' : List (Frame Entry)}
    (hlog : log' = gone ++ (sealed.flatten ++ tail')) (hchained : Chained codec 0 log')
    (hcut : (f active).bytes <+: image codec tail')
    (hreach : disk.walBase.Reaches sealed.length (f active)) :
    Intact codec (disk.modify (disk.walBase.firstSegment + sealed.length) f) log' gone sealed
      (f active) tail' where
  log_eq := hlog
  chained := hchained
  base := by rw [walBase_modify, h.base]
  stores := by
    have hstores := h.stores.modify_last f
    rw [length_map] at hstores
    exact hstores
  full := h.full
  cut := hcut
  reaches := by rw [walBase_modify]; exact hreach

theorem Intact.sync :
    Intact codec (disk.modify (disk.walBase.firstSegment + sealed.length) File.sync) log gone sealed
      active.sync tail :=
  h.modify File.sync h.log_eq h.chained h.cut ⟨h.reaches.le, h.reaches.reaches⟩

end

/-- An empty successor seals the active segment, when that is whole and synced. -/
theorem Intact.create (h : Intact codec disk log gone sealed (sealedFile codec tail) tail)
    (hne : tail ≠ [])
    (hlast : ∀ last ∈ disk.walBase.lastSegment, last = disk.walBase.firstSegment + sealed.length) :
    Intact codec (disk.create (disk.walBase.firstSegment + (sealed ++ [tail]).length)) log gone
      (sealed ++ [tail]) .empty [] where
  log_eq := by
    rw [flatten_append, append_nil, flatten_singleton]
    exact h.log_eq
  chained := h.chained
  base := h.base
  stores := by
    have hstores := h.stores.create
    rw [← map_singleton, ← map_append, length_map] at hstores
    exact hstores
  full := by
    intro frames hmem
    rcases mem_append.mp hmem with hmem | hmem
    · exact h.full frames hmem
    · rw [mem_singleton.mp hmem]
      exact hne
  cut := prefix_rfl
  reaches := {
    le := h.reaches.le
    reaches := by
      intro last hmem
      have hlast := hlast last hmem
      rw [length_append, length_singleton]
      exact .inr ⟨by rw [hlast]; exact Nat.add_assoc .., rfl⟩ }

section

variable (h : Intact codec disk log gone sealed active tail)
include h

/-- The frontier moves to the active segment. -/
theorem Intact.publish_last :
    Intact codec (disk.publish { disk.walBase with
      lastSegment := some (disk.walBase.firstSegment + sealed.length) }) log gone sealed active
      tail where
  log_eq := h.log_eq
  chained := h.chained
  base := h.base
  stores := by
    have hstores := h.stores.publish { disk.walBase with
      lastSegment := some (disk.walBase.firstSegment + sealed.length) } 0 rfl
    rw [drop_zero] at hstores
    exact hstores
  full := h.full
  cut := h.cut
  reaches := Reaches.of_last rfl active

/-- The base moves behind the first sealed segments. -/
theorem Intact.drop {dropped : ℕ} (hle : dropped ≤ sealed.length) :
    Intact codec (disk.publish {
      lsn := disk.walBase.lsn + extent (sealed.take dropped).flatten
      firstSegment := disk.walBase.firstSegment + dropped
      lastSegment := some (disk.walBase.firstSegment + sealed.length) }) log
      (gone ++ (sealed.take dropped).flatten) (sealed.drop dropped) active tail where
  log_eq := by
    rw [h.log_eq, append_assoc, ← append_assoc (sealed.take dropped).flatten,
      ← flatten_append, take_append_drop]
  chained := h.chained
  base := by
    rw [extent_append, ← h.base]
    rfl
  stores := by
    have hstores := h.stores.publish {
      lsn := disk.walBase.lsn + extent (sealed.take dropped).flatten
      firstSegment := disk.walBase.firstSegment + dropped
      lastSegment := some (disk.walBase.firstSegment + sealed.length) } dropped rfl
    rw [drop_append_of_le_length (by rw [length_map]; exact hle), ← map_drop] at hstores
    exact hstores
  full := fun frames hmem => h.full frames (mem_of_mem_drop hmem)
  cut := h.cut
  reaches := by
    refine Reaches.of_last ?_ active
    rw [length_drop]
    change some (disk.walBase.firstSegment + sealed.length) =
      some (disk.walBase.firstSegment + dropped + (sealed.length - dropped))
    congr 1
    omega

/-- Files below the retained prefix do not count. -/
theorem Intact.remove_below {index : ℕ} (hlt : index < disk.walBase.firstSegment) :
    Intact codec (disk.remove index) log gone sealed active tail where
  log_eq := h.log_eq
  chained := h.chained
  base := h.base
  stores := h.stores.remove_below hlt
  full := h.full
  cut := h.cut
  reaches := h.reaches

/-- A log may be expected to have one frame more than has reached the medium. -/
theorem Intact.expect {frame : Frame Entry} (hchained : Chained codec 0 (log ++ [frame])) :
    Intact codec disk (log ++ [frame]) gone sealed active (tail ++ [frame]) where
  log_eq := by
    rw [h.log_eq, append_assoc, append_assoc]
  chained := hchained
  base := h.base
  stores := h.stores
  full := h.full
  cut := by
    rw [image_append]
    exact h.cut.trans (prefix_append _ _)
  reaches := h.reaches

/-- **A crash keeps the log intact**: only the end of the active segment is cut. -/
theorem Intact.crash (survivors : ℕ → ℕ) :
    Intact codec (disk.crash survivors) log gone sealed
      (active.cut (survivors (disk.walBase.firstSegment + sealed.length))) tail where
  log_eq := h.log_eq
  chained := h.chained
  base := h.base
  stores := by
    have hsynced : ∀ f ∈ sealed.map (sealedFile codec), f.synced = f.bytes.length := by
      intro f hf
      obtain ⟨frames, -, rfl⟩ := mem_map.mp hf
      rfl
    have hstores := h.stores.crash survivors hsynced
    rw [length_map] at hstores
    exact hstores
  full := h.full
  cut := (File.cut_bytes _ _).trans h.cut
  reaches := {
    le := h.reaches.le
    reaches := by
      intro last hlast
      refine (h.reaches.reaches last hlast).imp id fun hahead => ⟨hahead.1, ?_⟩
      exact prefix_nil.mp (hahead.2 ▸ File.cut_bytes active _) }

theorem Intact.extent_log :
    extent log = disk.walBase.lsn + extent sealed.flatten + extent tail := by
  rw [h.log_eq, extent_append, extent_append, h.base, Nat.add_assoc]

end

/-- A file that holds whole frames and is synced is the sealed file of these frames. -/
theorem File.sync_eq_sealedFile {file : File} {frames : List (Frame Entry)}
    (h : file.bytes = image codec frames) : file.sync = sealedFile codec frames := by
  rw [File.sync, sealedFile]
  simp only [h]

end Transitions

section Persistence

variable {world : World}

theorem Intact.persists (h : Intact codec disk log gone sealed active tail)
    (hdurable : durable ≤ disk.walBase.lsn + extent sealed.flatten + active.synced) :
    Persists codec disk log durable :=
  ⟨_, _, _, _, h, hdurable⟩

variable {durable' : ℕ}

section

variable (h : Persists codec disk log durable)
include h

theorem Persists.weaken (hle : durable' ≤ durable) : Persists codec disk log durable' := by
  obtain ⟨_, _, _, _, hintact, hdurable⟩ := h
  exact hintact.persists (hle.trans hdurable)

theorem Persists.expect {frame : Frame Entry} (hchained : Chained codec 0 (log ++ [frame])) :
    Persists codec disk (log ++ [frame]) durable := by
  obtain ⟨_, _, _, _, hintact, hdurable⟩ := h
  exact (hintact.expect hchained).persists hdurable

theorem Persists.crash (survivors : ℕ → ℕ) : Persists codec (disk.crash survivors) log durable := by
  obtain ⟨gone, sealed, active, tail, hintact, hdurable⟩ := h
  have hsynced := active.synced_le_cut (survivors (disk.walBase.firstSegment + sealed.length))
  exact (hintact.crash survivors).persists (hdurable.trans (Nat.add_le_add_left hsynced _))

end

theorem Whole.persists (h : Whole codec disk log durable) : Persists codec disk log durable := by
  obtain ⟨_, _, _, _, hintact, -, hdurable⟩ := h
  exact hintact.persists hdurable

theorem Whole.weaken (h : Whole codec disk log durable) (hle : durable' ≤ durable) :
    Whole codec disk log durable' := by
  obtain ⟨_, _, _, _, hintact, hwhole, hdurable⟩ := h
  exact ⟨_, _, _, _, hintact, hwhole, hle.trans hdurable⟩

section

variable (h : Live codec world log durable)
include h

theorem Live.whole : Whole codec world.disk log durable := by
  obtain ⟨-, _, _, _, _, hattached, hdurable⟩ := h
  exact ⟨_, _, _, _, hattached.toIntact, hattached.whole, hdurable⟩

/-- A directory with a live handle holds its log. -/
theorem Live.persists : Persists codec world.disk log durable := by
  obtain ⟨-, _, _, _, _, hattached, hdurable⟩ := h
  exact hattached.toIntact.persists hdurable

theorem Live.durable_le : durable ≤ extent log := by
  obtain ⟨-, gone, sealed, active, tail, hattached, hdurable⟩ := h
  have := active.synced_le
  rw [hattached.whole, image_length] at this
  rw [hattached.extent_log]
  omega

theorem Live.weaken (hle : durable' ≤ durable) : Live codec world log durable' := by
  obtain ⟨havailable, _, _, _, _, hattached, hdurable⟩ := h
  exact ⟨havailable, _, _, _, _, hattached, hle.trans hdurable⟩

/-- Only some fields of the handle count. -/
theorem Live.transfer {w : World} (hdisk : w.disk = world.disk)
    (hfile : w.wal.fileIndex = world.wal.fileIndex)
    (hactive : w.wal.activeIndex = world.wal.activeIndex)
    (hbase : w.wal.baseLsn = world.wal.baseLsn) (hpoisoned : w.wal.poisoned = world.wal.poisoned) :
    Live codec w log durable := by
  obtain ⟨havailable, gone, sealed, active, tail, hattached, hdurable⟩ := h
  refine ⟨hpoisoned.trans havailable, gone, sealed, active, tail, ?_, hdisk ▸ hdurable⟩
  exact {
    toIntact := hdisk ▸ hattached.toIntact
    whole := hattached.whole
    fileIndex := by rw [hfile, hdisk, hattached.fileIndex]
    activeIndex := by rw [hactive, hdisk, hattached.activeIndex]
    baseLsn := by rw [hbase, hdisk, hattached.baseLsn]
    frontier := by rw [hdisk, hattached.frontier] }

end

end Persistence

end ChironDB.Wal
