/-
# The methods of the handle

The specifications of `len`, `sync`, `rotate`, `append_inner`, `reset`, `drop_prefix`
and `freeze_archive_cut` on a live handle.  Each says what a call that returns leaves,
what a refused call leaves, and what a crash inside it leaves of the log; an error of
the file system poisons the handle, except inside the rotations of `drop_prefix` and
`freeze_archive_cut` (`DropRotates`, `FreezeRotates`), which these two do not guard.
-/

import ChironDB.Wal.Recovery

namespace ChironDB.Wal

open Codec Fault List

variable {Entry : Type} {codec : RecordCodec Entry}
variable {log gone tail : List (Frame Entry)} {sealed : List (List (Frame Entry))}
  {active : File} {durable : ℕ} {world : World}

variable {x : Program.Exits World GaussError} {post : Unit → World → Prop}

section Rotation

section

variable (h : Attached codec world log gone sealed active tail)
include h

theorem Attached.fileLen_ensures {post : ℕ → World → Prop} (hsafe : x.Safe world)
    (hpost : post (extent tail) world) :
    (onDisk (fileLen world.wal.fileIndex)).Ensures x post world := by
  have hfile : world.disk.segments[world.wal.fileIndex]? = some active := by
    rw [h.fileIndex, h.active_lookup]
  refine onDisk_ensures (Wal.fileLen_ensures hsafe hfile ?_)
  rw [h.whole, image_length]
  exact hpost

theorem Attached.len_ensures {post : ℕ → World → Prop} (hsafe : x.Safe world)
    (hpost : post (extent log) world) : len.Ensures x post world := by
  refine .bind (.get (.bind (h.fileLen_ensures hsafe (.pure ?_))))
  rw [h.baseLsn, ← h.extent_log]
  exact hpost

/-- The handle is on whatever is at its place behind the same base. -/
theorem Attached.onto {disk : Disk} {log' tail' : List (Frame Entry)} {active' : File}
    (hbase : disk.walBase = world.disk.walBase)
    (hintact : Intact codec disk log' gone sealed active' tail')
    (hwhole : active'.bytes = image codec tail') :
    Attached codec ⟨disk, world.wal⟩ log' gone sealed active' tail' := by
  refine ⟨hintact, hwhole, ?_, ?_, ?_, ?_⟩ <;> rw [hbase]
  exacts [h.fileIndex, h.activeIndex, h.baseLsn, h.frontier]

theorem Attached.sync :
    Attached codec { world with disk := world.disk.modify world.wal.fileIndex File.sync } log gone
      sealed active.sync tail := by
  refine h.onto (walBase_modify _ _ _) ?_ h.whole
  rw [h.fileIndex]
  exact h.toIntact.sync

theorem Attached.extent_le_sync :
    extent log ≤ (world.disk.modify world.wal.fileIndex File.sync).walBase.lsn +
      extent sealed.flatten + active.sync.synced := by
  rw [h.sync.extent_log]
  change _ ≤ _ + active.bytes.length
  rw [h.whole, image_length]

theorem Attached.live_sync (havailable : world.wal.poisoned = false) :
    Live codec ⟨world.disk.modify world.wal.fileIndex File.sync, world.wal⟩ log (extent log) :=
  ⟨havailable, gone, sealed, active.sync, tail, h.sync, h.extent_le_sync⟩

/-- **Rotation.**  Wherever it stops, the directory persists; when it returns, the
tail is sealed and the handle is on an empty successor. -/
theorem Attached.rotate_ensures (hne : tail ≠ [])
    (hdurable : durable ≤ world.disk.walBase.lsn + extent sealed.flatten + active.synced)
    (hsafe : ∀ w, Persists codec w.disk log durable → w.wal.poisoned = world.wal.poisoned →
      x.Safe w)
    (hpost : ∀ w active', Attached codec w log gone (sealed ++ [tail]) active' [] →
      w.disk.walBase.lsn = world.disk.walBase.lsn →
        w.wal.poisoned = world.wal.poisoned → post () w) :
    (rotate (extent tail)).Ensures x post world := by
  refine .bind (.get (.bind (onDisk_ensures (syncFile_ensures
    (hsafe world (h.toIntact.persists hdurable) rfl) (.bind (assign_ensures ?_))))))
  have hsync := h.sync
  generalize hdisk₁ : world.disk.modify world.wal.fileIndex File.sync = disk₁ at hsync ⊢
  have hbase₁ : disk₁.walBase = world.disk.walBase := by rw [← hdisk₁, walBase_modify]
  have hintact₁ := hsync.toIntact
  rw [File.sync_eq_sealedFile h.whole] at hintact₁
  have hdurable₁ : durable ≤ disk₁.walBase.lsn + extent sealed.flatten + extent tail := by
    have := active.synced_le
    rw [h.whole, image_length] at this
    rw [hbase₁]
    omega
  have hindex : world.wal.activeIndex + 1 =
      disk₁.walBase.firstSegment + (sealed ++ [tail]).length := by
    rw [h.activeIndex, hbase₁, length_append, length_singleton, Nat.add_assoc]
  have habsent : disk₁.segments[world.wal.activeIndex + 1]? = none := by
    rw [hindex]
    have := hintact₁.stores.absent
    rw [length_append, length_map] at this
    rw [length_append]
    exact this
  have hlast₁ : ∀ last ∈ disk₁.walBase.lastSegment,
      last = disk₁.walBase.firstSegment + sealed.length := by
    intro last hmem
    rw [hbase₁, h.frontier, Option.mem_some_iff] at hmem
    rw [hbase₁, hmem]
  -- The successor exists, empty, and the frontier is one segment behind it.
  have hintact₂ := hintact₁.create hne hlast₁
  rw [← hindex] at hintact₂
  have hsealed : durable ≤ disk₁.walBase.lsn + extent (sealed ++ [tail]).flatten := by
    rw [flatten_append, extent_append, flatten_singleton, ← Nat.add_assoc]
    exact hdurable₁
  refine .bind (onDisk_ensures (createNew_ensures ?_ habsent ?_))
  · exact hsafe _ (hintact₁.persists (by rw [sealedFile_synced]; exact hdurable₁)) rfl
  refine .bind (assign_ensures (.bind (onDisk_ensures (syncFile_ensures ?_ ?_))))
  · exact hsafe _ (hintact₂.persists (hsealed.trans (Nat.le_add_right _ _))) rfl
  have hintact₃ := hintact₂.sync
  change Intact codec ((disk₁.create (world.wal.activeIndex + 1)).modify
    (disk₁.walBase.firstSegment + (sealed ++ [tail]).length) File.sync) _ _ _ _ _ at hintact₃
  rw [← hindex] at hintact₃
  generalize hdisk₃ : (disk₁.create (world.wal.activeIndex + 1)).modify
    (world.wal.activeIndex + 1) File.sync = disk₃ at hintact₃ ⊢
  have hbase₃ : disk₃.walBase = disk₁.walBase := by
    rw [← hdisk₃, walBase_modify]
    rfl
  have hpersists₃ := hintact₃.persists ((hbase₃ ▸ hsealed).trans (Nat.le_add_right _ _))
  have hintact₄ := hintact₃.publish_last
  rw [hbase₃, ← hindex] at hintact₄
  have hsafe₃ : ∀ w : World, w.disk = disk₃ → w.wal.poisoned = world.wal.poisoned → x.Safe w :=
    fun w hdisk hpoisoned => hsafe w (hdisk ▸ hpersists₃) hpoisoned
  refine .bind (onDisk_ensures (probe_ensures ?_ ?_))
  · exact hsafe₃ _ rfl rfl
  refine .bind (onDisk_ensures (readBase_ensures ?_ hintact₃.readWalBase ?_))
  · exact hsafe₃ _ rfl rfl
  refine onDisk_ensures (writeWalBase_ensures ?_ ?_ ?_)
  · exact hsafe₃ _ rfl rfl
  · rw [hbase₃]
    exact hsafe _ (hintact₄.persists (hsealed.trans (Nat.le_add_right _ _))) rfl
  · rw [hbase₃]
    refine hpost _ _ ⟨hintact₄, rfl, hindex, hindex, ?_, ?_⟩ ?_ rfl
    · change world.wal.baseLsn + extent tail = disk₁.walBase.lsn + extent (sealed ++ [tail]).flatten
      rw [h.baseLsn, hbase₁, flatten_append, extent_append, flatten_singleton, Nat.add_assoc]
    · change some (world.wal.activeIndex + 1) = _
      rw [hindex]
      rfl
    · change disk₁.walBase.lsn = world.disk.walBase.lsn
      rw [hbase₁]

end

end Rotation

section Appending

variable (codec) in
/-- A failed step may poison the handle, and a crash may leave what persists. -/
structure Bears (x : Program.Exits World GaussError) (log : List (Frame Entry)) (durable : ℕ) :
    Prop where
  poisoned : ∀ e n w, x.allowed (.fail n) → w.wal.poisoned = true → x.fault e w
  down : ∀ n w, x.allowed (.crash n) → Persists codec w.disk log durable → x.down w

theorem Bears.safe (hx : Bears codec x log durable) {w : World} {message : String}
    (h : Persists codec w.disk log durable) : (exitsPoisoning message x).Safe w :=
  ⟨fun _ n hn => hx.poisoned _ n _ hn rfl, fun n hn => hx.down n w hn h⟩

/-- **Sync.**  All of the log is durable afterwards; an error poisons the handle. -/
theorem sync_ensures (h : Live codec world log durable) (hx : Bears codec x log durable)
    (hpost : ∀ w, Live codec w log (extent log) →
      w.disk.walBase.lsn = world.disk.walBase.lsn → post () w) : sync.Ensures x post world := by
  have hpersists := h.persists
  obtain ⟨havailable, _, _, _, _, hattached, hdurable⟩ := h
  refine .bind (ensureAvailable_ensures havailable (.bind (.get (.bind (poisoning_ensures ?_)))))
  refine onDisk_ensures (syncFile_ensures ?_ (assign_ensures (hpost _ ?_ ?_)))
  · exact hx.safe hpersists
  · exact (hattached.live_sync havailable).transfer rfl rfl rfl rfl rfl
  · exact congrArg WalBase.lsn (walBase_modify _ _ _)

variable {frame : Frame Entry}

section

variable (hchained : Chained codec 0 (log ++ [frame]))
include hchained

/-- A beginning of the next frame has been written. -/
theorem Attached.writing (h : Attached codec world log gone sealed active tail) {bytes : Bytes}
    (hbytes : bytes <+: frameBytes codec frame.payload) :
    Intact codec (world.disk.modify world.wal.fileIndex (·.write bytes)) (log ++ [frame]) gone
      sealed (active.write bytes) (tail ++ [frame]) := by
  rw [h.fileIndex]
  refine h.toIntact.modify (·.write bytes) ?_ hchained ?_ (Reaches.of_last h.frontier _)
  · rw [h.log_eq, append_assoc, append_assoc]
  · change active.bytes ++ bytes <+: _
    rw [h.whole, image_append, prefix_append_right_inj, image_cons, image_nil, append_nil]
    exact hbytes

/-- The whole next frame has been written. -/
theorem Attached.written (h : Attached codec world log gone sealed active tail) :
    Attached codec ⟨world.disk.modify world.wal.fileIndex
      (·.write (frameBytes codec frame.payload)), world.wal⟩ (log ++ [frame]) gone sealed
      (active.write (frameBytes codec frame.payload)) (tail ++ [frame]) := by
  refine h.onto (walBase_modify _ _ _) (h.writing hchained prefix_rfl) ?_
  change active.bytes ++ frameBytes codec frame.payload = _
  rw [h.whole, image_append, image_cons, image_nil, append_nil]

/-- The writes of a frame.  A crash or an error leaves a part of it. -/
theorem writeFrame_ensures (h : Live codec world log durable)
    (hx : Bears codec x (log ++ [frame]) durable)
    (hpost : ∀ w, Live codec w (log ++ [frame]) durable →
      w.disk.walBase.lsn = world.disk.walBase.lsn → post () w) :
    (writeFrame codec frame.payload).Ensures x post world := by
  obtain ⟨havailable, gone, sealed, active, tail, hattached, hdurable⟩ := h
  have hpart : ∀ bytes, bytes <+: frameBytes codec frame.payload →
      Persists codec (world.disk.modify world.wal.fileIndex (·.write bytes)) (log ++ [frame])
        durable := by
    intro bytes hbytes
    refine (hattached.writing hchained hbytes).persists ?_
    rw [walBase_modify]
    exact hdurable
  have hsafe : ∀ (w : World) bytes, bytes <+: frameBytes codec frame.payload →
      w.disk = world.disk.modify world.wal.fileIndex (·.write bytes) →
      (exitsPoisoning "WAL write failed: " x).Safe w :=
    fun w bytes hbytes hdisk => hx.safe (hdisk ▸ hpart bytes hbytes)
  refine .bind (.get (.bind (poisoning_ensures ?_)))
  -- The three writes leave beginnings of the frame: in its length, its checksum, its payload.
  refine .bind (onDisk_ensures (writeFile_ensures (fun n => ?_) ?_))
  · refine hsafe _ ((leBytes 4 frame.payload.length).take n) ?_ rfl
    exact (List.take_prefix _ _).trans (prefix_append _ _)
  refine .bind (onDisk_ensures (writeFile_ensures (fun n => ?_) ?_))
  · refine hsafe _ (leBytes 4 frame.payload.length ++
      (leBytes 4 (codec.checksum frame.payload).toNat).take n) ?_ ?_
    · rw [frameBytes, prefix_append_right_inj]
      exact (List.take_prefix _ _).trans (prefix_append _ _)
    · exact (modify_modify _ _ _ _).trans (by simp only [File.write_write])
  refine onDisk_ensures (writeFile_ensures (fun n => ?_) ?_)
  · refine hsafe _ (leBytes 4 frame.payload.length ++
      (leBytes 4 (codec.checksum frame.payload).toNat ++ frame.payload.take n)) ?_ ?_
    · rw [frameBytes, prefix_append_right_inj, prefix_append_right_inj]
      exact take_prefix _ _
    · simp only [modify_modify, File.write_write, append_assoc]
  · refine assign_ensures (hpost _ ?_ (by simp only [walBase_modify]))
    have hwritten := hattached.written hchained
    have hdisk : ((world.disk.modify world.wal.fileIndex
        (·.write (leBytes 4 frame.payload.length))).modify world.wal.fileIndex
        (·.write (leBytes 4 (codec.checksum frame.payload).toNat))).modify world.wal.fileIndex
        (·.write frame.payload) =
          world.disk.modify world.wal.fileIndex (·.write (frameBytes codec frame.payload)) := by
      simp only [modify_modify, File.write_write, frameBytes, append_assoc]
    have hlive : Live codec ⟨world.disk.modify world.wal.fileIndex
        (·.write (frameBytes codec frame.payload)), world.wal⟩ (log ++ [frame]) durable := by
      refine ⟨havailable, gone, sealed, _, tail ++ [frame], hwritten, ?_⟩
      rw [walBase_modify]
      exact hdurable
    exact hlive.transfer hdisk rfl rfl rfl rfl

/-- **Append of an encoded record.**  A crash leaves the log with at most a part of
the new frame; an error poisons the handle. -/
theorem appendPayload_ensures {post : ℕ → World → Prop} (h : Live codec world log durable)
    (andSync : Bool) (hx : Bears codec x (log ++ [frame]) durable)
    (hpost : ∀ w, Live codec w (log ++ [frame])
      (if andSync then extent (log ++ [frame]) else durable) →
      w.disk.walBase.lsn = world.disk.walBase.lsn →
        post (extent log + headerLen + frame.payload.length) w) :
    (appendPayload codec (extent log) frame.payload andSync).Ensures x post world := by
  have hpersists := h.persists.expect hchained
  obtain ⟨havailable, gone, sealed, active, tail, hattached, hdurable⟩ := id h
  have hfits : frame.payload.length ≤ maxWalRecordBytes := by
    cases (Chained.append_iff.mp hchained).2 with
    | cons decodes fits rest => exact fits
  -- What follows the rotation, which may or may not be needed.
  have hwrite : ∀ w, Live codec w log durable → w.disk.walBase.lsn = world.disk.walBase.lsn → (do
      writeFrame codec frame.payload
      Program.when (andSync = true) sync
      pure (extent log + headerLen + frame.payload.length) : Op ℕ).Ensures x post w := by
    intro w hw hlsn
    refine .bind (writeFrame_ensures hchained hw hx ?_)
    intro w' hw' hlsn'
    refine .bind (.when (fun hsync => ?_) fun hsync => .pure (hpost w' ?_ (hlsn'.trans hlsn)))
    · refine sync_ensures hw' hx fun w'' hw'' hlsn'' =>
        .pure (hpost w'' ?_ (hlsn''.trans (hlsn'.trans hlsn)))
      rw [if_pos hsync]
      exact hw''
    · rw [if_neg hsync]
      exact hw'
  refine .bind (ensureAvailable_ensures havailable (.bind (.get (.bind (poisoning_ensures
    (hattached.fileLen_ensures ?_ ?_))))))
  · exact hx.safe hpersists
  refine .bind (Program.Ensures.require ?_ fun hnot => absurd ?_ hnot)
  · intro _
    refine .bind (Program.Ensures.require ?_ fun hnot => absurd hfits hnot)
    intro _
    refine .bind (.when (fun hfull => ?_) fun _ => hwrite world h rfl)
    have hne : tail ≠ [] := fun hnil => by
      rw [hnil, extent_nil] at hfull
      exact absurd hfull.1 (lt_irrefl 0)
    refine poisoning_ensures (hattached.rotate_ensures hne hdurable ?_ ?_)
    · intro w hw hpois
      exact hx.safe (hw.expect hchained)
    · intro w active' hw hlsn hpois
      refine hwrite w ⟨hpois.trans havailable, gone, sealed ++ [tail], active', [], hw, ?_⟩ hlsn
      have := active.synced_le
      rw [hattached.whole, image_length] at this
      rw [hlsn, flatten_append, extent_append, flatten_singleton]
      omega
  · rw [hattached.baseLsn, ← hattached.extent_log]

end

variable (codec) in
/-- A record that can be appended: it is admitted, encoded and not too long. -/
def Accepts (lsn unixMs nonce : ℕ) (entry : Entry) : Prop :=
  codec.admission entry = .ok () ∧ ∃ payload,
    encodeRecord codec lsn unixMs nonce entry = .ok payload ∧ payload.length ≤ maxWalRecordBytes

/-- **Append.**  The record gets the LSN of the end of the log and the end behind it
is reported.  A crash leaves the log with at most a part of its frame; an error
leaves everything as it was or poisons the handle. -/
theorem appendInner_ensures {post : ℕ → World → Prop} (h : Live codec world log durable)
    (entry : Entry) (unixMs nonce : ℕ) (andSync : Bool)
    (hrefused : ¬Accepts codec (extent log) unixMs nonce entry → ∀ e, x.fault e world)
    (hx : Bears codec x log durable)
    (hdown' : ∀ n w frame, x.allowed (.crash n) → frame.record = ⟨extent log, unixMs, entry⟩ →
      Persists codec w.disk (log ++ [frame]) durable → x.down w)
    (hpost : ∀ w frame, frame.record = ⟨extent log, unixMs, entry⟩ →
      Live codec w (log ++ [frame]) (if andSync then extent (log ++ [frame]) else durable) →
        post (extent (log ++ [frame])) w) :
    (appendInner codec entry unixMs nonce andSync).Ensures x post world := by
  obtain ⟨havailable, _, _, _, _, hattached, hdurable⟩ := id h
  refine .bind (ensureAvailable_ensures havailable (.bind (.ofExcept ?_ fun e he =>
    hrefused (fun haccepts => by rw [haccepts.1] at he; cases he) e)))
  intro _ _
  refine .bind (.get (.bind (poisoning_ensures (hattached.fileLen_ensures ?_ ?_))))
  · exact hx.safe h.persists
  rw [hattached.baseLsn, ← hattached.extent_log]
  refine .bind (.ofExcept ?_ fun e he => hrefused (fun haccepts => by
    obtain ⟨-, payload, hpayload, -⟩ := haccepts
    rw [hpayload] at he
    cases he) e)
  intro payload hpayload
  by_cases hfits : payload.length ≤ maxWalRecordBytes
  · have hchained : Chained codec 0 (log ++ [⟨⟨extent log, unixMs, entry⟩, payload⟩]) := by
      refine Chained.append_iff.mpr ⟨hattached.chained, ?_⟩
      rw [Nat.zero_add]
      exact .cons (decodeRecord_encodeRecord codec hpayload) hfits (.nil _)
    refine appendPayload_ensures hchained h andSync
      ⟨hx.poisoned, fun n w hn hw => hdown' n w _ hn rfl hw⟩ ?_
    intro w hw _
    have hend := hpost w _ rfl hw
    rw [extent_concat, Frame.size, ← Nat.add_assoc] at hend
    exact hend
  · -- The record is refused before anything is written.
    have hrefused := hrefused fun haccepts => by
      obtain ⟨-, _, hpayload', hfits'⟩ := haccepts
      cases hpayload.symm.trans hpayload'
      exact hfits hfits'
    refine .bind (ensureAvailable_ensures havailable (.bind (.get (.bind (poisoning_ensures
      (hattached.fileLen_ensures ?_ ?_))))))
    · exact hx.safe h.persists
    refine .bind (.require (fun _ => ?_) fun _ => hrefused _)
    exact .bind (.require (fun hle => absurd hle hfits) fun _ => hrefused _)

end Appending

section Reclaiming

theorem Attached.remove_below (h : Attached codec world log gone sealed active tail) {index : ℕ}
    (hlt : index < world.disk.walBase.firstSegment) :
    Attached codec ⟨world.disk.remove index, world.wal⟩ log gone sealed active tail :=
  h.onto rfl (h.toIntact.remove_below hlt) h.whole

theorem Attached.removeFiles_ensures {segments : List (ℕ × File)}
    (h : Attached codec world log gone sealed active tail)
    (hbelow : ∀ segment ∈ segments, segment.1 < world.disk.walBase.firstSegment)
    (hsafe : ∀ w, Attached codec w log gone sealed active tail → w.wal = world.wal →
      w.disk.walBase = world.disk.walBase → x.Safe w)
    (hpost : ∀ w, Attached codec w log gone sealed active tail → w.wal = world.wal →
      w.disk.walBase = world.disk.walBase → post () w) :
    (segments.forM fun segment => onDisk (removeFile segment.1)).Ensures x post world := by
  refine (Program.Ensures.forM (fun left w =>
    Attached codec w log gone sealed active tail ∧ w.wal = world.wal ∧
      w.disk.walBase = world.disk.walBase ∧
        ∀ segment ∈ left, segment.1 < world.disk.walBase.firstSegment) ?_ segments world
    ⟨h, rfl, rfl, hbelow⟩).imp ?_
  · rintro segment left w ⟨hw, hwal, hbase, hleft⟩
    have hlt : segment.1 < w.disk.walBase.firstSegment := by
      rw [hbase]
      exact hleft segment mem_cons_self
    have hw' := hw.remove_below hlt
    refine onDisk_ensures (removeFile_ensures ?_ ?_ ?_)
    · exact hsafe w hw hwal hbase
    · exact hsafe _ hw' hwal hbase
    · exact ⟨hw', hwal, hbase, fun s hs => hleft s (mem_cons_of_mem _ hs)⟩
  · rintro _ w ⟨hw, hwal, hbase, -⟩
    exact hpost w hw hwal hbase

/-- A directory whose base has moved to an empty segment at the end of the log. -/
theorem intact_of_stores_nil {disk : Disk} {file : File} (hchained : Chained codec 0 log)
    (hstores : disk.Stores [file]) (hbytes : file.bytes = []) (hlsn : disk.walBase.lsn = extent log)
    (hlast : disk.walBase.lastSegment = some disk.walBase.firstSegment) :
    Intact codec disk log log [] file [] where
  log_eq := (append_nil log).symm
  chained := hchained
  base := hlsn
  stores := hstores
  full := forall_mem_nil _
  cut := by rw [hbytes]; exact prefix_rfl
  reaches := Reaches.of_last hlast file

/-- **Reset.**  The log is empty behind its old end afterwards.  A crash leaves the old
log or the reset one, provided the active segment is not empty when one can happen:
the successor would make it an empty sealed segment.  Errors poison the handle. -/
theorem reset_ensures (h : Live codec world log durable)
    (hactive : ∀ n, x.allowed (.crash n) → ∀ file,
      world.disk.segments[world.wal.fileIndex]? = some file → file.bytes ≠ [])
    (hrefused : ∀ e, x.fault e world)
    (hx : Bears codec x log durable)
    (hpost : ∀ w, Live codec w log (extent log) → post () w) : reset.Ensures x post world := by
  obtain ⟨havailable, gone, sealed, active, tail, hattached, hdurable⟩ := id h
  have htail : ∀ n, x.allowed (.crash n) → tail ≠ [] := by
    intro n hn hnil
    have hfile : world.disk.segments[world.wal.fileIndex]? = some active := by
      rw [hattached.fileIndex, hattached.active_lookup]
    exact hactive n hn active hfile (by rw [hattached.whole, hnil, image_nil])
  have hsafe : ∀ w, (∀ n, x.allowed (.crash n) → Persists codec w.disk log durable) →
      (exitsPoisoning "WAL reset failed: " x).Safe w := fun w hw =>
    ⟨fun e n hn => hx.poisoned _ n _ hn rfl, fun n hn => hx.down n w hn (hw n hn)⟩
  refine .bind (ensureAvailable_ensures havailable (.bind (onDisk_ensures (probe_ensures
    ⟨fun e n _ => hrefused e, fun n hn => hx.down n _ hn h.persists⟩ (.bind (.get
      (poisoning_ensures (.bind (.get ?_)))))))))
  refine .bind (onDisk_ensures (syncFile_ensures ?_ ?_))
  · exact hsafe _ fun _ _ => h.persists
  have hattached₁ := hattached.sync
  have hpersists₁ := ((hattached.live_sync havailable).persists).weaken
    (h.durable_le : durable ≤ extent log)
  rw [File.sync_eq_sealedFile hattached.whole] at hattached₁
  have hbase₁ : (world.disk.modify world.wal.fileIndex File.sync).walBase = world.disk.walBase :=
    walBase_modify _ _ _
  generalize world.disk.modify world.wal.fileIndex File.sync = disk₁
    at hattached₁ hpersists₁ hbase₁ ⊢
  refine .bind (hattached₁.len_ensures ?_ ?_)
  · exact hsafe _ fun _ _ => hpersists₁
  have hsuccessor : (world.disk.allWalSegments.getLast?.elim 0 fun segment => segment.1 + 1) =
      disk₁.walBase.firstSegment + (sealed ++ [tail]).length := by
    rw [hattached.stores.getLast?_allWalSegments, hbase₁, length_append, length_map]
    rfl
  rw [hsuccessor]
  have hlen : (sealed.map (sealedFile codec) ++ [sealedFile codec tail]).length =
      (sealed ++ [tail]).length := by
    rw [length_append, length_append, length_map]
    rfl
  have habsent := hattached₁.stores.absent
  have hstores₂ := hattached₁.stores.create
  rw [hlen] at habsent hstores₂
  -- The successor makes the active segment a sealed one.
  have hpersists₂ : ∀ n, x.allowed (.crash n) → ∃ file, file.bytes = [] ∧ Intact codec
      (disk₁.create (disk₁.walBase.firstSegment + (sealed ++ [tail]).length)) log gone
        (sealed ++ [tail]) file [] := by
    intro n hn
    refine ⟨.empty, rfl, hattached₁.toIntact.create (htail n hn) ?_⟩
    intro last hmem
    rw [hattached₁.frontier, Option.mem_some_iff] at hmem
    exact hmem.symm
  have hsealed : durable ≤ disk₁.walBase.lsn + extent (sealed ++ [tail]).flatten := by
    have hend := h.durable_le
    rw [hattached₁.extent_log] at hend
    rw [flatten_append, extent_append, flatten_singleton, ← Nat.add_assoc]
    exact hend
  generalize hsucc : disk₁.walBase.firstSegment + (sealed ++ [tail]).length = successor
    at habsent hstores₂ hpersists₂ ⊢
  refine .bind (poisoning_ensures (onDisk_ensures (createNew_ensures ?_ habsent ?_)))
  · exact ⟨fun e n hn => hx.poisoned _ n _ hn rfl, fun n hn => hx.down n _ hn hpersists₁⟩
  have hbase₂ : (disk₁.create successor).walBase = disk₁.walBase := rfl
  generalize disk₁.create successor = disk₂ at hstores₂ hpersists₂ hbase₂ ⊢
  refine .bind (poisoning_ensures (onDisk_ensures (syncFile_ensures ?_ ?_)))
  · refine ⟨fun e n hn => hx.poisoned _ n _ hn rfl, fun n hn => hx.down n _ hn ?_⟩
    obtain ⟨file, -, hintact⟩ := hpersists₂ n hn
    exact hintact.persists ((hbase₂ ▸ hsealed).trans (Nat.le_add_right _ _))
  have hstores₃ := hstores₂.modify_last File.sync
  rw [hlen, hbase₂, hsucc] at hstores₃
  have hpersists₃ : ∀ n, x.allowed (.crash n) →
      Persists codec (disk₂.modify successor File.sync) log durable := by
    intro n hn
    obtain ⟨file, -, hintact⟩ := hpersists₂ n hn
    have hsync := hintact.sync
    rw [hbase₂, hsucc] at hsync
    refine hsync.persists ?_
    rw [walBase_modify, hbase₂]
    exact hsealed.trans (Nat.le_add_right _ _)
  have hbase₃ : (disk₂.modify successor File.sync).walBase = disk₁.walBase := by
    rw [walBase_modify, hbase₂]
  generalize disk₂.modify successor File.sync = disk₃ at hstores₃ hpersists₃ hbase₃ ⊢
  refine .bind (onDisk_ensures (probe_ensures ?_ ?_))
  · exact hsafe _ hpersists₃
  have hstores₄ := hstores₃.publish
    { lsn := extent log, firstSegment := successor, lastSegment := some successor }
    (sealed ++ [tail]).length (by rw [hbase₃, hsucc])
  rw [← hlen, drop_left] at hstores₄
  have hintact₄ := intact_of_stores_nil hattached.chained hstores₄ rfl rfl rfl
  have hattached₅ : Attached codec ⟨disk₃.publish
      { lsn := extent log, firstSegment := successor, lastSegment := some successor },
      { world.wal with
        fileIndex := successor, activeIndex := successor, baseLsn := extent log,
        unsyncedBytes := 0 }⟩ log log [] File.empty.sync [] :=
    ⟨hintact₄, rfl, rfl, rfl, rfl, rfl⟩
  have hdurable₅ : durable ≤ extent log := h.durable_le
  refine .bind (onDisk_ensures (writeWalBase_ensures ?_ ?_ ?_))
  · exact hsafe _ hpersists₃
  · exact hsafe _ fun _ _ => hintact₄.persists (hdurable₅.trans (Nat.le_add_right _ _))
  refine .bind (assign_ensures ?_)
  refine hattached₅.removeFiles_ensures ?_ ?_ ?_
  · intro segment hmem
    have hlt := hattached.stores.lt_of_mem hmem
    rw [length_append, length_map, length_singleton] at hlt
    change segment.1 < successor
    rw [← hsucc, hbase₁, length_append, length_singleton]
    exact hlt
  · intro w hw hwal hbase
    refine hsafe _ fun _ _ => hw.toIntact.persists ?_
    rw [hbase]
    exact hdurable₅.trans (Nat.le_add_right _ _)
  · intro w hw hwal hbase
    refine hpost w ⟨by rw [hwal]; exact havailable, log, [], _, [], hw, ?_⟩
    rw [hbase]
    exact Nat.le_add_right _ _

theorem Attached.drop (h : Attached codec world log gone sealed active tail) {dropped : ℕ}
    (hle : dropped ≤ sealed.length) :
    Attached codec ⟨world.disk.publish {
      lsn := world.disk.walBase.lsn + extent (sealed.take dropped).flatten
      firstSegment := world.disk.walBase.firstSegment + dropped
      lastSegment := some world.wal.activeIndex }, world.wal⟩ log
      (gone ++ (sealed.take dropped).flatten) (sealed.drop dropped) active tail := by
  have hlength : world.disk.walBase.firstSegment + sealed.length =
      world.disk.walBase.firstSegment + dropped + (sealed.drop dropped).length := by
    rw [length_drop]
    omega
  rw [h.activeIndex]
  refine ⟨h.toIntact.drop hle, h.whole, ?_, ?_, ?_, ?_⟩
  · exact h.fileIndex.trans hlength
  · exact h.activeIndex.trans hlength
  · change world.wal.baseLsn = world.disk.walBase.lsn + extent (sealed.take dropped).flatten +
      extent (sealed.drop dropped).flatten
    rw [h.baseLsn, Nat.add_assoc, ← extent_append, ← flatten_append, take_append_drop]
  · exact congrArg some hlength

/-- The segments that `drop_prefix` counts are sealed ones. -/
theorem coveredSegments_numbered (codec : RecordCodec Entry) (upToLsn : ℕ)
    (sealed : List (List (Frame Entry))) (active : File) (first lsn : ℕ) :
    ∃ dropped ≤ sealed.length, coveredSegments (first + sealed.length) upToLsn
      (numbered first (sealed.map (sealedFile codec) ++ [active])) lsn =
        (dropped, lsn + extent (sealed.take dropped).flatten) := by
  induction sealed generalizing first lsn with
  | nil => exact ⟨0, le_rfl, if_pos (.inl rfl)⟩
  | cons frames sealed ih =>
    rw [map_cons, cons_append, numbered, coveredSegments]
    split
    · exact ⟨0, Nat.zero_le _, rfl⟩
    · obtain ⟨dropped, hle, hcovered⟩ :=
        ih (first + 1) (lsn + (sealedFile codec frames).bytes.length)
      refine ⟨dropped + 1, by rw [length_cons]; omega, ?_⟩
      rw [length_cons, show first + (sealed.length + 1) = first + 1 + sealed.length by omega,
        hcovered, take_succ_cons, flatten_cons, extent_append, sealedFile_bytes,
        image_length, Nat.add_assoc]

/-- The part of `drop_prefix` behind a rotation. -/
theorem Attached.dropSegments_ensures (h : Attached codec world log gone sealed active tail)
    (havailable : world.wal.poisoned = false)
    (hdurable : durable ≤ world.disk.walBase.lsn + extent sealed.flatten + active.synced)
    {base : WalBase} (hbase : base.lsn = world.disk.walBase.lsn) (upToLsn : ℕ)
    (hsafe : ∀ w, Live codec w log durable → x.Safe w)
    (hpost : ∀ w, Live codec w log durable → post () w) :
    (dropSegments base upToLsn).Ensures x post world := by
  have hlive : Live codec world log durable :=
    ⟨havailable, _, _, _, _, h, hdurable⟩
  obtain ⟨dropped, hle, hcovered⟩ := coveredSegments_numbered codec upToLsn sealed active
    world.disk.walBase.firstSegment world.disk.walBase.lsn
  rw [← h.activeIndex] at hcovered
  rw [dropSegments, hbase]
  refine .bind (onDisk_ensures (listSegments_ensures (hsafe world hlive) h.toIntact.walSegments
    (.bind (.get ?_))))
  simp only [hcovered]
  refine .bind (onDisk_ensures (probe_ensures (hsafe world hlive) ?_))
  refine .ite (fun _ => .pure (hpost world hlive)) fun _ => ?_
  obtain ⟨file, hfile⟩ : ∃ file,
      (sealed.map (sealedFile codec) ++ [active])[dropped]? = some file := by
    refine ⟨_, getElem?_eq_getElem ?_⟩
    rw [length_append, length_map, length_singleton]
    omega
  rw [getElem?_numbered, hfile, Option.map_some]
  have hdropped := h.drop hle
  have hkept : ∀ w, Attached codec w log (gone ++ (sealed.take dropped).flatten)
      (sealed.drop dropped) active tail → w.wal = world.wal →
      w.disk.walBase.lsn = world.disk.walBase.lsn + extent (sealed.take dropped).flatten →
        Live codec w log durable := by
    intro w hw hwal hlsn
    refine ⟨by rw [hwal]; exact havailable, _, _, _, _, hw, ?_⟩
    rw [hlsn, Nat.add_assoc _ (extent (sealed.take dropped).flatten), ← extent_append,
      ← flatten_append, take_append_drop]
    exact hdurable
  refine .bind (onDisk_ensures (writeWalBase_ensures (hsafe world hlive) ?_ ?_))
  · exact hsafe _ (hkept _ hdropped rfl rfl)
  refine .bind (hdropped.removeFiles_ensures ?_ ?_ ?_)
  · intro segment hmem
    exact lt_of_mem_take_numbered hmem
  · intro w hw hwal hbase'
    exact hsafe w (hkept w hw hwal (by rw [hbase']; rfl))
  · intro w hw hwal hbase'
    have hw' := hkept w hw hwal (by rw [hbase']; rfl)
    exact onDisk_ensures (probe_ensures (hsafe w hw') (hpost w hw'))

theorem Attached.active_file (h : Attached codec world log gone sealed active tail)
    (hne : tail ≠ []) :
    ∃ file, world.disk.segments[world.wal.fileIndex]? = some file ∧ file.bytes ≠ [] ∧
      world.wal.baseLsn + file.bytes.length = extent log := by
  refine ⟨active, by rw [h.fileIndex, h.active_lookup], ?_, ?_⟩
  · rw [h.whole]
    exact fun hnil => hne ((image_eq_nil_iff codec).mp hnil)
  · rw [h.whole, image_length, h.baseLsn, ← h.extent_log]

/-- `drop_prefix` has to rotate: it is asked to drop a non-empty active segment. -/
def DropRotates (world : World) (upToLsn : ℕ) : Prop :=
  ∃ file, world.disk.segments[world.wal.fileIndex]? = some file ∧ file.bytes ≠ [] ∧
    world.wal.baseLsn + file.bytes.length ≤ upToLsn

/-- **Dropping a prefix.**  The log stays what it is, with a higher base.  An error
leaves the handle live or poisons it, provided no rotation is involved when a step can
fail: the rotation of `drop_prefix` does not poison. -/
theorem dropPrefix_ensures (h : Live codec world log durable)
    (upToLsn : ℕ) (hcalm : ∀ n, x.allowed (.fail n) → ¬ DropRotates world upToLsn)
    (hrefused : ∀ e w, Live codec w log durable → x.fault e w) (hx : Bears codec x log durable)
    (hpost : ∀ w, Live codec w log (extent log) → post () w) :
    (dropPrefix codec upToLsn).Ensures x post world := by
  have hsafe : ∀ w, Live codec w log durable → x.Safe w := fun w hw =>
    ⟨fun e n _ => hrefused e w hw, fun n hn => hx.down n w hn hw.persists⟩
  have hle := h.durable_le
  obtain ⟨havailable, gone, sealed, active, tail, hattached, hdurable⟩ := id h
  refine .bind (ensureAvailable_ensures havailable (.bind (onDisk_ensures (readBase_ensures
    (hsafe world h) hattached.toIntact.readWalBase (.bind (hattached.len_ensures (hsafe world h)
      (.bind (Program.Ensures.require ?_ fun _ => hrefused _ world h))))))))
  intro hrange
  refine .bind (onDisk_ensures (hattached.toIntact.validateRecordBoundary_ensures upToLsn
    (hsafe world h) (fun _ e => hrefused e world h) fun _ => ?_))
  refine .bind (.get (.bind (poisoning_ensures (onDisk_ensures (syncFile_ensures ?_ ?_)))))
  · exact hx.safe h.persists
  have hsync := hattached.sync
  have hlive₁ := (hattached.live_sync havailable).weaken hle
  have hall := hattached.extent_le_sync
  have hsafe' : ∀ w, Live codec w log (extent log) → x.Safe w := fun w hw => hsafe w (hw.weaken hle)
  refine .bind (hsync.fileLen_ensures (hsafe _ hlive₁) (.bind (.when ?_ ?_)))
  · rintro ⟨hpos, hend⟩
    have hne : tail ≠ [] := fun hnil => by
      rw [hnil, extent_nil] at hpos
      exact absurd hpos (lt_irrefl 0)
    have hrotates : DropRotates world upToLsn :=
      (hattached.active_file hne).imp fun _ hfile => ⟨hfile.1, hfile.2.1, hfile.2.2.trans_le hend⟩
    refine hsync.rotate_ensures hne (hle.trans hall) ?_ ?_
    · intro w hw _
      exact ⟨fun e n hn => absurd hrotates (hcalm n hn), fun n hn => hx.down n w hn hw⟩
    · intro w active' hw hlsn hpois
      refine hw.dropSegments_ensures (hpois.trans havailable) ?_ ?_ upToLsn hsafe' hpost
      · rw [hw.extent_log, extent_nil]
        omega
      · rw [hlsn, walBase_modify]
  · intro _
    exact hsync.dropSegments_ensures havailable hall (by rw [walBase_modify]) upToLsn hsafe' hpost

/-- `freeze_archive_cut` has to rotate: the active segment is not empty. -/
def FreezeRotates (world : World) (endLsn : ℕ) : Prop :=
  ∃ file, world.disk.segments[world.wal.fileIndex]? = some file ∧ file.bytes ≠ [] ∧
    world.wal.baseLsn + file.bytes.length = endLsn

/-- **Freezing an archive cut** changes nothing of the log, with the same proviso as
`dropPrefix_ensures`. -/
theorem freezeArchiveCut_ensures {post : Option FrozenWalArchive → World → Prop}
    (h : Live codec world log durable) (endLsn : ℕ)
    (hcalm : ∀ n, x.allowed (.fail n) → ¬ FreezeRotates world endLsn)
    (hrefused : ∀ e w, Live codec w log durable → x.fault e w) (hx : Bears codec x log durable)
    (hpost : ∀ archive w, Live codec w log durable → post archive w) :
    (freezeArchiveCut endLsn).Ensures x post world := by
  have hsafe : ∀ w, Live codec w log durable → x.Safe w := fun w hw =>
    ⟨fun e n _ => hrefused e w hw, fun n hn => hx.down n w hn hw.persists⟩
  -- What follows the rotation or the sync.
  have hcapture : ∀ w, Live codec w log durable → (do
      let base ← onDisk readBase
      let segments ← onDisk listSegments
      let world ← get
      onDisk (capture base
        (segments.filter fun segment => segment.1 < world.wal.activeIndex) endLsn) :
        Op (Option FrozenWalArchive)).Ensures x post w := by
    intro w hw
    obtain ⟨-, gone, sealed, active, tail, hattached, -⟩ := id hw
    refine .bind (onDisk_ensures (readBase_ensures (hsafe w hw) hattached.toIntact.readWalBase ?_))
    refine .bind (onDisk_ensures (listSegments_ensures (hsafe w hw)
      hattached.toIntact.walSegments (.bind (.get (onDisk_ensures ?_)))))
    refine .bind (probe_ensures (hsafe w hw) (.bind
      (Program.Ensures.require ?_ fun _ => hrefused _ w hw)))
    intro _
    refine .ite (fun _ => .pure (hpost _ w hw)) fun _ => ?_
    exact .bind (probe_ensures (hsafe w hw) (.pure (hpost _ w hw)))
  obtain ⟨havailable, gone, sealed, active, tail, hattached, hdurable⟩ := id h
  refine .bind (ensureAvailable_ensures havailable (.bind (hattached.len_ensures (hsafe world h)
    (.bind (Program.Ensures.require ?_ fun _ => hrefused _ world h)))))
  rintro rfl
  refine .bind (.get (.bind (hattached.fileLen_ensures (hsafe world h) (.bind (.when ?_ ?_)))))
  · intro hempty
    refine poisoning_ensures (onDisk_ensures (syncFile_ensures ?_ (.bind (.when
      (fun hne => absurd hempty hne) fun _ => hcapture _ ?_))))
    · exact hx.safe h.persists
    · exact (hattached.live_sync havailable).weaken h.durable_le
  · intro hpos
    refine .bind (.when (fun _ => ?_) fun hzero => absurd hpos hzero)
    have hne : tail ≠ [] := fun hnil => hpos (by rw [hnil, extent_nil])
    have hrotates : FreezeRotates world (extent log) := hattached.active_file hne
    refine hattached.rotate_ensures hne hdurable ?_ ?_
    · intro w hw _
      exact ⟨fun e n hn => absurd hrotates (hcalm n hn), fun n hn => hx.down n w hn hw⟩
    · intro w active' hw hlsn hpois
      refine hcapture w ⟨hpois.trans havailable, _, _, _, _, hw, ?_⟩
      have := h.durable_le
      rw [hw.extent_log, extent_nil] at this
      omega

end Reclaiming

section Sample

/-- A WAL opened on a new directory. -/
def World.new (segmentBytes : ℕ) : World :=
  match openWithSegmentBytes segmentBytes {} [] with
  | .done wal disk _ => ⟨disk, wal⟩
  | .error _ disk _ => ⟨disk, ⟨0, 0, 0, segmentBytes, true, 0⟩⟩
  | .crashed disk => ⟨disk, ⟨0, 0, 0, segmentBytes, true, 0⟩⟩

/-- The WAL with one more synced record, of the time 1. -/
def World.append (world : World) (entry : ℕ) : World :=
  (appendInner byteCodec entry 1 0 true world []).final

theorem live_new (segmentBytes : ℕ) : Live codec (World.new segmentBytes) [] 0 := by
  have hopen : (openWithSegmentBytes segmentBytes).Ensures Program.quiet
      (fun wal d => Live codec ⟨d, wal⟩ [] 0) {} :=
    Settled.open_ensures (.inr ⟨rfl, rfl, rfl⟩) segmentBytes (fun d _ => Program.safe_quiet d)
      fun _ _ hlive => hlive
  obtain ⟨wal, disk, rest, hrun, hlive⟩ := hopen.returns
  rw [World.new, hrun]
  exact hlive

theorem Live.append {world : World} {log : List (Frame ℕ)} {durable entry endLsn : ℕ} {w : World}
    {rest : List Event} (h : Live byteCodec world log durable)
    (hrun : appendInner byteCodec entry 1 0 true world [] = .done endLsn w rest) :
    ∃ frame, Live byteCodec (world.append entry) (log ++ [frame]) (extent (log ++ [frame])) := by
  have happend : (appendInner byteCodec entry 1 0 true).Ensures
      ⟨fun _ => False, fun _ _ => True, fun _ => False⟩
      (fun _ w => ∃ frame, Live byteCodec w (log ++ [frame]) (extent (log ++ [frame]))) world :=
    appendInner_ensures h entry 1 0 true (fun _ _ => trivial)
      ⟨fun _ _ _ hn => hn.elim, fun _ _ hn => hn.elim⟩ (fun _ _ _ hn => hn.elim)
      fun w frame _ hw => ⟨frame, hw⟩
  have hmeets := happend [] (forall_mem_nil _)
  rw [hrun] at hmeets
  rw [World.append, hrun]
  exact hmeets.1

end Sample

end ChironDB.Wal
