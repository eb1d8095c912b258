/-
# What can be done without a handle

The specifications of the calls that take a directory: the scan, `recover_from`,
`validate_record_boundary`, `Wal::open` and `truncate_to_lsn`.  The scan of an intact
directory walks over the frames that are there as a whole and stops at what is left
of the next one (`Intact.scan`).  Recovery cuts that rest off and visits the retained
frames before it (`Persists.recoverFrom_ensures`), so the directory is whole
afterwards, and a whole directory can be opened (`Settled.open_ensures`).  A truncation
cuts at a frame boundary (`Intact.truncateToLsn_ensures`); it can be interrupted
anywhere when the segment it cuts is the last one.
-/

import ChironDB.Wal.Intact

namespace ChironDB.Wal

open Codec Fault List

variable {Entry : Type} {codec : RecordCodec Entry}
variable {disk : Disk} {log gone tail : List (Frame Entry)} {sealed : List (List (Frame Entry))}
  {active : File} {durable : ℕ}

theorem map_numbered {α β : Type} (f : α → β) (n : ℕ) (as : List α) :
    (numbered n as).map (fun a => (a.1, f a.2)) = numbered n (as.map f) := by
  induction as generalizing n with
  | nil => rfl
  | cons a as ih =>
    rw [numbered, map_cons, ih]
    rfl

variable {kept : List (Frame Entry)} {x : Program.Exits Disk GaussError}
  {post : Unit → Disk → Prop}

variable {frames : List (Frame Entry)}

section Scanning

/-- **The scan of an intact directory** walks over the frames that are there as a
whole, and meets what is left of the next one as a torn tail of the active segment. -/
theorem Intact.scan (h : Intact codec disk log gone sealed active tail) :
    ∃ kept torn, kept <+: tail ∧ active.bytes = image codec kept ++ torn ∧
      (∀ frame more, tail = kept ++ frame :: more → torn.length < frame.size) ∧
      ∀ watermark,
        let frames := sealed.flatten ++ kept
        let found := scanFrames codec watermark disk.walBase.lsn
          ((numbered disk.walBase.firstSegment (sealed.map (sealedFile codec) ++ [active])).map
            fun segment => (segment.1, segment.2.bytes))
        let walked := walk watermark disk.walBase.lsn frames (.start watermark disk.walBase.lsn)
        (∀ stop scan, walked = .error (stop, scan) → found = (scan, some stop)) ∧
        (∀ scan, walked = .ok scan → torn ≠ [] → ∃ message, found =
          (scan, some (.torn (disk.walBase.firstSegment + sealed.length) true (extent kept)
            torn.length message))) ∧
        (∀ scan, walked = .ok scan → torn = [] → scan.offset < watermark →
          ∃ e, found = (scan, some (.failed e))) ∧
        (∀ scan, walked = .ok scan → torn = [] → watermark ≤ scan.offset →
          found = (scan, none)) := by
  obtain ⟨kept, torn, hkept, hbytes, hmax, hscan⟩ := scanSegment_cut h.cut
  refine ⟨kept, torn, hkept, hbytes, hmax, fun watermark => ?_⟩
  obtain ⟨hsealed, htail⟩ := Chained.append_iff.mp (h.chained_above prefix_rfl)
  have hbytes' : (sealed.map (sealedFile codec) ++ [active]).map File.bytes =
      sealed.map (image codec) ++ [active.bytes] := by
    rw [map_append, map_map]
    rfl
  have hsegments := scanSegments_sealed watermark disk.walBase.lsn disk.walBase.firstSegment
    active.bytes (.start watermark disk.walBase.lsn) h.full hsealed
  simp only [map_numbered File.bytes, hbytes', scanFrames, hsegments, walk_append]
  cases hwalk : walk watermark disk.walBase.lsn sealed.flatten
      (.start watermark disk.walBase.lsn) with
  | error stopped =>
    obtain ⟨stop, scan⟩ := stopped
    refine ⟨?_, ?_, ?_, ?_⟩
    · intro stop' scan' heq
      cases heq
      rfl
    all_goals
      rintro _ ⟨⟩
  | ok scan =>
    have hoffset := walk_offset hwalk
    obtain ⟨hwhole, hcut⟩ := hscan (disk.walBase.firstSegment + sealed.length) watermark
      disk.walBase.lsn scan (hoffset ▸ htail)
    have hbind : ∀ f : Scan Entry → Except (Stop × Scan Entry) (Scan Entry),
        (Except.ok scan >>= f) = f scan := fun _ => rfl
    simp only [hbind]
    by_cases htorn : torn = []
    · rw [hwhole htorn]
      refine ⟨?_, fun _ _ hne => absurd htorn hne, ?_, ?_⟩
      · intro stop scan' heq
        rw [heq]
      · intro scan' heq _ hlt
        rw [heq]
        exact ⟨_, if_pos hlt⟩
      · intro scan' heq _ hle
        rw [heq]
        exact if_neg (not_lt.mpr hle)
    · obtain ⟨message, hmessage⟩ := hcut htorn
      rw [hmessage]
      refine ⟨?_, ?_, fun _ _ h => absurd h htorn, fun _ _ h => absurd h htorn⟩
      · intro stop scan' heq
        rw [heq]
        rfl
      · intro scan' heq _
        rw [heq]
        exact ⟨message, rfl⟩

variable {torn : Bytes}

/-- A file that holds all of its tail has no torn part. -/
theorem eq_of_image_eq (hkept : kept <+: tail)
    (hmax : ∀ frame more, tail = kept ++ frame :: more → torn.length < frame.size)
    (hbytes : image codec tail = image codec kept ++ torn) : kept = tail ∧ torn = [] := by
  obtain ⟨lost, rfl⟩ := hkept
  rw [image_append, append_cancel_left_eq] at hbytes
  cases lost with
  | nil => exact ⟨(append_nil kept).symm, hbytes.symm⟩
  | cons frame more =>
    have hlen := hmax frame more rfl
    rw [← hbytes, image_length, extent_cons] at hlen
    omega

section

variable (h : Intact codec disk log gone sealed active tail)
include h

/-- **The scan of a directory without a torn tail** ends well exactly when the
watermark is a record boundary, and visits the frames from there on. -/
theorem Intact.scan_whole (hwhole : active.bytes = image codec tail) (watermark : ℕ) :
    let found := scanFrames codec watermark disk.walBase.lsn
      ((numbered disk.walBase.firstSegment (sealed.map (sealedFile codec) ++ [active])).map
        fun segment => (segment.1, segment.2.bytes))
    let frames := sealed.flatten ++ tail
    (watermark ≤ disk.walBase.lsn ∨ Boundary disk.walBase.lsn frames watermark →
      ∃ scan, found = (scan, none) ∧ scan.offset = disk.walBase.lsn + extent frames ∧
        scan.visited = frames.filter fun frame => watermark ≤ frame.record.lsn) ∧
    (¬ (watermark ≤ disk.walBase.lsn ∨ Boundary disk.walBase.lsn frames watermark) →
      ∃ scan stop, found = (scan, some stop)) := by
  intro found frames
  obtain ⟨kept, torn, hkept, hbytes, hmax, hscan⟩ := h.scan
  rw [hwhole] at hbytes
  obtain ⟨rfl, rfl⟩ := eq_of_image_eq hkept hmax hbytes
  obtain ⟨hstop, -, hshort, hdone⟩ := hscan watermark
  have hchained : Chained codec disk.walBase.lsn frames := h.chained_above prefix_rfl
  have hiff : (∃ scan, walk watermark disk.walBase.lsn frames
      (.start watermark disk.walBase.lsn) = .ok scan) ↔ _ := walk_start_eq_ok_iff hchained
  cases hwalk : walk watermark disk.walBase.lsn frames (.start watermark disk.walBase.lsn) with
  | error stopped =>
    obtain ⟨stop, scan⟩ := stopped
    refine ⟨fun hok => ?_, fun _ => ⟨scan, stop, hstop stop scan hwalk⟩⟩
    obtain ⟨scan', hscan'⟩ := hiff.mpr (hok.imp id .inl)
    rw [hwalk] at hscan'
    cases hscan'
  | ok scan =>
    have hcovers : scan.Covers watermark disk.walBase.lsn frames :=
      (Scan.covers_start watermark disk.walBase.lsn).walk hchained hwalk
    rcases lt_or_ge scan.offset watermark with hlt | hle
    · obtain ⟨e, he⟩ := hshort scan hwalk rfl hlt
      refine ⟨fun hok => ?_, fun _ => ⟨scan, .failed e, he⟩⟩
      rw [hcovers.offset] at hlt
      obtain hlow | ⟨before, after, hsplit, rfl⟩ := hok
      · omega
      · rw [hsplit, extent_append] at hlt
        omega
    · refine ⟨fun _ => ⟨scan, hdone scan hwalk rfl hle, hcovers.offset, hcovers.visited⟩, ?_⟩
      intro hnot
      rcases hiff.mp ⟨scan, hwalk⟩ with hlow | hboundary | hend
      · exact absurd (.inl hlow) hnot
      · exact absurd (.inr hboundary) hnot
      · rw [hcovers.offset] at hle
        exact absurd (.inr ⟨frames, [], (append_nil _).symm, by omega⟩) hnot

theorem Intact.filter_lsn (hframes : frames <+: sealed.flatten ++ tail) :
    (gone ++ frames).filter (fun frame => disk.walBase.lsn ≤ frame.record.lsn) = frames := by
  obtain ⟨lost, hlost⟩ := hframes
  have hchained := h.chained
  rw [h.log_eq, ← hlost, ← append_assoc, Chained.append_iff] at hchained
  rw [h.base, ← Nat.zero_add (extent gone)]
  exact (hchained.1.filter_at rfl).2

theorem Intact.chained_retained :
    Chained codec disk.walBase.lsn
      (log.filter fun frame => disk.walBase.lsn ≤ frame.record.lsn) := by
  rw [h.log_eq, h.filter_lsn prefix_rfl]
  exact h.chained_above prefix_rfl

/-- A frame is retained as a whole or not at all. -/
theorem Intact.retained_iff {frame : Frame Entry} (hmem : frame ∈ log) :
    disk.walBase.lsn ≤ frame.record.lsn ↔ disk.walBase.lsn < frame.record.lsn + frame.size := by
  have hsize := frame.size_pos
  rw [h.log_eq, mem_append] at hmem
  rcases hmem with hmem | hmem
  · have := (Chained.append_iff.mp (h.chained_upTo prefix_rfl)).1.end_le frame hmem
    rw [Nat.zero_add, ← h.base] at this
    omega
  · have := (h.chained_above prefix_rfl).le_lsn frame hmem
    omega

end

variable {lsn : ℕ}

/-- A boundary of the log at or beyond the base is one of the retained frames. -/
theorem Intact.boundary_iff (h : Intact codec disk log gone sealed active tail)
    (hle : disk.walBase.lsn ≤ lsn) :
    Boundary 0 log lsn ↔ Boundary disk.walBase.lsn (sealed.flatten ++ tail) lsn := by
  constructor
  · rintro ⟨before, after, hsplit, rfl⟩
    rw [h.log_eq] at hsplit
    obtain ⟨more, rfl⟩ : gone <+: before := by
      refine prefix_of_extent_le (prefix_append gone _) ⟨after, hsplit.symm⟩ ?_
      rw [← h.base]
      omega
    rw [append_assoc, append_cancel_left_eq] at hsplit
    exact ⟨more, after, hsplit, by rw [extent_append, h.base, Nat.zero_add]⟩
  · rintro ⟨before, after, hsplit, rfl⟩
    exact ⟨gone ++ before, after, by rw [h.log_eq, hsplit, append_assoc],
      by rw [extent_append, h.base, Nat.zero_add]⟩

/-- A boundary of the log below the end of the active segment is not beyond the
frames that are there as a whole. -/
theorem Intact.boundary_le (h : Intact codec disk log gone sealed active tail)
    (hkept : kept <+: tail)
    (hmax : ∀ frame more, tail = kept ++ frame :: more → torn.length < frame.size)
    (hboundary : Boundary 0 log lsn)
    (hle : lsn ≤ disk.walBase.lsn + extent sealed.flatten + (extent kept + torn.length)) :
    lsn ≤ disk.walBase.lsn + extent sealed.flatten + extent kept := by
  obtain ⟨before, after, hsplit, rfl⟩ := hboundary
  obtain ⟨lost, rfl⟩ := hkept
  rw [h.log_eq, ← append_assoc sealed.flatten, ← append_assoc gone] at hsplit
  rw [Nat.zero_add] at hle ⊢
  have hall : extent (gone ++ (sealed.flatten ++ kept)) =
      disk.walBase.lsn + extent sealed.flatten + extent kept := by
    rw [extent_append, extent_append, h.base, Nat.add_assoc]
  rcases append_eq_append_iff.mp hsplit with ⟨more, rfl, hlost⟩ | ⟨more, hmore, -⟩
  · rw [extent_append, hall] at hle ⊢
    cases more with
    | nil => rw [extent_nil]; exact le_rfl
    | cons frame more =>
      -- The boundary would be behind a frame that is torn.
      have := hmax frame (more ++ after) (by rw [hlost, cons_append])
      rw [extent_cons] at hle
      omega
  · rw [← hall, hmore, extent_append]
    exact Nat.le_add_right _ _

section

variable (h : Intact codec disk log gone sealed active tail)
include h

/-- **The active file cut to whole frames.**  The log may lack its end on the way and lacks it
afterwards. -/
theorem Intact.setLen (hkept : kept <+: tail) (himage : image codec kept <+: active.bytes)
    (hlt : extent kept < active.bytes.length) :
    let index := disk.walBase.firstSegment + sealed.length
    let file := active.setLen (extent kept)
    file.bytes = image codec kept ∧
      Intact codec (disk.modify index (·.setLen (extent kept))) log gone sealed file tail ∧
      Intact codec (disk.modify index fun file => (file.setLen (extent kept)).sync) log gone sealed
        file.sync tail ∧
      Intact codec (disk.modify index fun file => (file.setLen (extent kept)).sync)
        (gone ++ (sealed.flatten ++ kept)) gone sealed file.sync kept := by
  intro index file
  have hcut : file.bytes = image codec kept := by
    change active.bytes.take (extent kept) = _
    obtain ⟨torn, htorn⟩ := himage
    rw [← htorn, take_left' (image_length codec kept)]
  -- An active segment with bytes in it is at the frontier.
  have hreach : ∀ file, disk.walBase.Reaches sealed.length file := by
    intro file
    refine ⟨h.reaches.le, fun last hlast => (h.reaches.reaches last hlast).imp id ?_⟩
    rintro ⟨-, hempty⟩
    rw [hempty, length_nil] at hlt
    omega
  have hpre : file.bytes <+: image codec tail := by
    obtain ⟨lost, rfl⟩ := hkept
    rw [hcut, image_append]
    exact prefix_append _ _
  refine ⟨hcut, h.modify _ h.log_eq h.chained hpre (hreach _),
    h.modify _ h.log_eq h.chained hpre (hreach _),
    h.modify _ rfl (h.chained_upTo hkept) ?_ (hreach _)⟩
  change file.bytes <+: _
  rw [hcut]

variable (hdurable : durable ≤ disk.walBase.lsn + extent sealed.flatten + active.synced)
  (hsafe : ∀ d, Persists codec d log durable → d.walBase = disk.walBase → x.Safe d)
include hdurable hsafe

/-- **The repair of a torn tail** cuts the active file to its whole frames and syncs it. -/
theorem Intact.repair_ensures {post : WalScanStats → Disk → Prop} (hkept : kept <+: tail)
    (hbytes : active.bytes = image codec kept ++ torn) (hnil : torn ≠ [])
    (hend : durable ≤ disk.walBase.lsn + extent sealed.flatten + extent kept) (message : String)
    (stats : WalScanStats) (hstats : disk.walBase.lsn ≤ stats.endLsn)
    (hpost : ∀ d stats', stats'.endLsn = stats.endLsn →
      Whole codec d (gone ++ (sealed.flatten ++ kept)) durable → d.walBase = disk.walBase →
        post stats' d) :
    (repairOrRejectTornTail .repairFinalActive disk.walBase.lsn
      (disk.walBase.firstSegment + sealed.length) true (extent kept) torn.length message
      stats).Ensures x post disk := by
  obtain ⟨hcut, hset, hsync, hdone⟩ := h.setLen hkept ⟨torn, hbytes.symm⟩ (by
    have := length_pos_iff.mpr hnil
    rw [hbytes, length_append, image_length]
    omega)
  have hsynced : durable ≤ disk.walBase.lsn + extent sealed.flatten +
      (active.setLen (extent kept)).synced := by
    change _ ≤ _ + min active.synced (extent kept)
    omega
  have hall : durable ≤ (disk.modify (disk.walBase.firstSegment + sealed.length)
      fun file => (file.setLen (extent kept)).sync).walBase.lsn + extent sealed.flatten +
        ((active.setLen (extent kept)).sync).synced := by
    rw [walBase_modify]
    change _ ≤ _ + (active.setLen (extent kept)).bytes.length
    rw [hcut, image_length]
    exact hend
  have hhere := hsafe disk (h.persists hdurable) rfl
  have hsetSafe := hsafe _ (hset.persists (by rw [walBase_modify]; exact hsynced))
    (walBase_modify _ _ _)
  have hsyncSafe := hsafe _ (hsync.persists hall) (walBase_modify _ _ _)
  rw [repairOrRejectTornTail, if_neg (by simp), if_neg (by omega), if_neg (by simp)]
  refine .bind (probe_ensures hhere (.bind (setFileLen_ensures hhere
    (.bind (syncFile_ensures hsetSafe ?_)))))
  rw [modify_modify]
  exact .bind (probe_ensures hsyncSafe (.pure (hpost _ _ rfl ⟨_, _, _, _, hdone, hcut, hall⟩
    (walBase_modify _ _ _))))

/-- **Recovery.**  All whole frames that are there are visited, the torn tail is cut
off, and nothing below a durable boundary is lost. -/
theorem Intact.recoverFrom_ensures {post : List (Frame Entry) × WalScanStats → Disk → Prop}
    (hboundary : Boundary 0 log durable)
    (hpost : ∀ d log' stats, log' <+: log → stats.endLsn = extent log' →
      (active.bytes = image codec tail → log' = log) → Whole codec d log' durable →
        d.walBase = disk.walBase →
        post (log'.filter fun frame => disk.walBase.lsn ≤ frame.record.lsn, stats) d) :
    (recoverFrom codec disk.walBase.lsn).Ensures x post disk := by
  have hhere := hsafe disk (h.persists hdurable) rfl
  obtain ⟨kept, torn, hkept, hbytes, hmax, hscan⟩ := h.scan
  obtain ⟨-, htorn, -, hwhole⟩ := hscan disk.walBase.lsn
  have hframes : sealed.flatten ++ kept <+: sealed.flatten ++ tail :=
    (prefix_append_right_inj _).mpr hkept
  have hlog : gone ++ (sealed.flatten ++ kept) <+: log := by
    rw [h.log_eq, prefix_append_right_inj]
    exact hframes
  have hchained := h.chained_above hkept
  obtain ⟨scan, hwalk⟩ := (walk_start_eq_ok_iff hchained).mpr (.inl (le_refl disk.walBase.lsn))
  have hcovers : scan.Covers disk.walBase.lsn disk.walBase.lsn (sealed.flatten ++ kept) :=
    (Scan.covers_start disk.walBase.lsn disk.walBase.lsn).walk hchained hwalk
  have hvisited : scan.visited = (gone ++ (sealed.flatten ++ kept)).filter
      fun frame => disk.walBase.lsn ≤ frame.record.lsn := by
    rw [hcovers.visited]
    conv_lhs => rw [← h.filter_lsn hframes]
    rw [filter_filter]
    simp only [Bool.and_self]
  have hall : active.bytes = image codec tail → gone ++ (sealed.flatten ++ kept) = log := by
    intro hfull
    rw [hfull] at hbytes
    rw [h.log_eq, (eq_of_image_eq hkept hmax hbytes).1]
  have hend : durable ≤ disk.walBase.lsn + extent sealed.flatten + extent kept := by
    refine h.boundary_le hkept hmax hboundary (hdurable.trans ?_)
    have := active.synced_le
    rw [hbytes, length_append, image_length] at this
    omega
  have hoffset : scan.offset = extent (gone ++ (sealed.flatten ++ kept)) := by
    rw [hcovers.offset, extent_append gone, h.base]
  rw [recoverFrom, scanRecords]
  refine .bind (readBase_ensures hhere h.readWalBase (.bind (listSegments_ensures hhere
    h.walSegments ?_)))
  by_cases hnil : torn = []
  · have hfound := hwhole scan hwalk hnil (by rw [hcovers.offset]; exact Nat.le_add_right _ _)
    simp only [hfound, hvisited]
    rw [hnil, append_nil] at hbytes
    exact .pure (hpost disk _ _ hlog hoffset hall
      ⟨gone, sealed, active, kept, h.shorten hkept hbytes, hbytes, hdurable⟩ rfl)
  · obtain ⟨message, hfound⟩ := htorn scan hwalk hnil
    simp only [hfound, hvisited]
    refine .bind (h.repair_ensures hdurable hsafe hkept hbytes hnil hend message _ ?_ ?_)
    · rw [hcovers.offset]
      exact Nat.le_add_right _ _
    · intro d stats hstats hd hbase
      exact .pure (hpost d _ stats hlog (hstats.trans hoffset) hall hd hbase)

end

theorem Persists.recoverFrom_ensures {post : List (Frame Entry) × WalScanStats → Disk → Prop}
    (h : Persists codec disk log durable) (hboundary : Boundary 0 log durable)
    (hsafe : ∀ d, Persists codec d log durable → d.walBase = disk.walBase → x.Safe d)
    (hpost : ∀ d log' stats, log' <+: log → stats.endLsn = extent log' →
      Whole codec d log' durable → d.walBase = disk.walBase →
        post (log'.filter fun frame => disk.walBase.lsn ≤ frame.record.lsn, stats) d) :
    (recoverFrom codec disk.walBase.lsn).Ensures x post disk := by
  obtain ⟨_, _, _, _, hintact, hdurable⟩ := h
  exact hintact.recoverFrom_ensures hdurable hsafe hboundary
    fun d log' stats hlog' hend _ hd hbase => hpost d log' stats hlog' hend hd hbase

/-- **Recovery of a directory without a torn tail** visits all of its log. -/
theorem Whole.recoverFrom_returns (h : Whole codec disk log durable) :
    ∃ stats d rest, recoverFrom codec disk.walBase.lsn disk [] =
      .done (log.filter fun frame => disk.walBase.lsn ≤ frame.record.lsn, stats) d rest := by
  obtain ⟨_, _, _, _, hintact, hwhole, hdurable⟩ := h
  have hensures : (recoverFrom codec disk.walBase.lsn).Ensures Program.quiet
      (fun r _ => r.1 = log.filter fun frame => disk.walBase.lsn ≤ frame.record.lsn) disk := by
    refine hintact.recoverFrom_ensures (Nat.zero_le _) ?_ ⟨[], log, rfl, rfl⟩ ?_
    · exact fun d _ _ => Program.safe_quiet d
    · intro d log' stats _ _ hlog' _ _
      rw [hlog' hwhole]
  obtain ⟨r, d, rest, hrun, hr⟩ := hensures.returns
  exact ⟨r.2, d, rest, by rw [hrun, ← hr]⟩

/-- **A record boundary that is validated is one**, and the directory has no torn tail
unless the boundary is the base.  Nothing else is refused. -/
theorem Intact.validateRecordBoundary_ensures
    (h : Intact codec disk log gone sealed active tail) (targetLsn : ℕ) (hsafe : x.Safe disk)
    (hrefused : ¬(active.bytes = image codec tail ∧
      Boundary disk.walBase.lsn (sealed.flatten ++ tail) targetLsn) → ∀ e, x.fault e disk)
    (hpost : targetLsn = disk.walBase.lsn ∨ (∃ kept, kept <+: tail ∧
      active.bytes = image codec kept ∧
        Boundary disk.walBase.lsn (sealed.flatten ++ kept) targetLsn) → post () disk) :
    (validateRecordBoundary codec targetLsn).Ensures x post disk := by
  refine .bind (readBase_ensures hsafe h.readWalBase ?_)
  refine .ite (fun heq => .pure (hpost (.inl heq))) fun hne => ?_
  refine .ite (fun hlow => .throw (hrefused ?_ _)) fun hge => .bind ?_
  · rintro ⟨-, before, after, -, rfl⟩
    omega
  obtain ⟨kept, torn, hkept, hbytes, hmax, hscan⟩ := h.scan
  obtain ⟨hstop, htorn, hshort, hwhole⟩ := hscan targetLsn
  have hchained := h.chained_above hkept
  have hrefused : ¬(torn = [] ∧ Boundary disk.walBase.lsn (sealed.flatten ++ kept) targetLsn) →
      ∀ e, x.fault e disk := by
    refine fun hnot => hrefused fun hboundary => hnot ?_
    rw [hboundary.1] at hbytes
    obtain ⟨rfl, hnil⟩ := eq_of_image_eq hkept hmax hbytes
    exact ⟨hnil, hboundary.2⟩
  rw [scanRecords]
  refine .bind (readBase_ensures hsafe h.readWalBase (.bind (listSegments_ensures hsafe
    h.walSegments ?_)))
  cases hwalk : walk targetLsn disk.walBase.lsn (sealed.flatten ++ kept)
      (.start targetLsn disk.walBase.lsn) with
  | error stopped =>
    obtain ⟨stop, scan⟩ := stopped
    simp only [hstop stop scan hwalk]
    have hfault : ∀ e, x.fault e disk := hrefused fun hboundary => by
      obtain ⟨scan', hscan'⟩ := (walk_start_eq_ok_iff hchained).mpr (.inr (.inl hboundary.2))
      rw [hwalk] at hscan'
      cases hscan'
    cases stop with
    | failed e => exact .throw (hfault _)
    | torn index finalActive segmentOffset tornBytes message =>
      refine .bind ?_
      rw [repairOrRejectTornTail, if_pos (.inr rfl)]
      exact .throw (hfault _)
  | ok scan =>
    have hoffset : scan.offset = disk.walBase.lsn + extent (sealed.flatten ++ kept) :=
      walk_offset hwalk
    by_cases hnil : torn = []
    · rcases lt_or_ge scan.offset targetLsn with hlt | hle
      · obtain ⟨e, hfound⟩ := hshort scan hwalk hnil hlt
        simp only [hfound]
        refine .throw (hrefused ?_ _)
        rintro ⟨-, before, after, hsplit, rfl⟩
        rw [hsplit, extent_append] at hoffset
        omega
      · simp only [hwhole scan hwalk hnil hle]
        refine .pure (.pure (hpost (.inr ⟨kept, hkept, by rw [hbytes, hnil, append_nil], ?_⟩)))
        rcases (walk_start_eq_ok_iff hchained).mp ⟨scan, hwalk⟩ with hlow | hboundary | hend
        · omega
        · exact hboundary
        · exact ⟨_, [], (append_nil _).symm, by omega⟩
    · obtain ⟨message, hfound⟩ := htorn scan hwalk hnil
      simp only [hfound]
      refine .bind ?_
      rw [repairOrRejectTornTail, if_pos (.inr rfl)]
      exact .throw (hrefused (fun hboundary => hnil hboundary.1) _)

end Scanning

variable {d : Disk} {file : File}

section Opening

variable (codec) in
/-- A directory without a torn tail, or one that was never opened. -/
def Settled (disk : Disk) (log : List (Frame Entry)) (durable : ℕ) : Prop :=
  Whole codec disk log durable ∨ disk = {} ∧ log = [] ∧ durable = 0

theorem Settled.chained_retained (h : Settled codec disk log durable) :
    Chained codec disk.walBase.lsn
      (log.filter fun frame => disk.walBase.lsn ≤ frame.record.lsn) := by
  obtain ⟨_, _, _, _, hintact, -⟩ | ⟨-, rfl, -⟩ := h
  · exact hintact.chained_retained
  · exact .nil _

theorem Settled.scan (h : Settled codec disk log durable) {watermark : ℕ}
    (hlow : watermark ≤ disk.walBase.lsn) :
    ∃ segments scan, disk.readWalBase = .ok disk.walBase ∧ disk.walSegments = .ok segments ∧
      scanFrames codec watermark disk.walBase.lsn
        (segments.map fun segment => (segment.1, segment.2.bytes)) = (scan, none) ∧
      scan.offset = disk.walBase.lsn + extent scan.visited ∧
      scan.visited = log.filter fun frame => disk.walBase.lsn ≤ frame.record.lsn := by
  obtain ⟨gone, sealed, active, tail, hintact, hwhole, -⟩ | ⟨rfl, rfl, -⟩ := h
  · obtain ⟨scan, hfound, hoffset, hvisited⟩ := (hintact.scan_whole hwhole watermark).1 (.inl hlow)
    have hall : scan.visited = sealed.flatten ++ tail := by
      rw [hvisited, filter_eq_self]
      intro frame hmem
      exact decide_eq_true (hlow.trans ((hintact.chained_above prefix_rfl).le_lsn frame hmem))
    refine ⟨_, scan, hintact.readWalBase, hintact.walSegments, hfound, by rw [hoffset, hall], ?_⟩
    rw [hall, hintact.log_eq, hintact.filter_lsn prefix_rfl]
  · obtain rfl : watermark = 0 := Nat.le_zero.mp hlow
    exact ⟨[], _, rfl, rfl, rfl, rfl, rfl⟩

theorem sum_sealed_lengths (first : ℕ) (sealed : List (List (Frame Entry))) (active : File) :
    (((numbered first (sealed.map (sealedFile codec) ++ [active])).dropLast).map
      fun segment => segment.2.bytes.length).sum = extent sealed.flatten := by
  rw [numbered_concat, dropLast_concat]
  induction sealed generalizing first with
  | nil => rfl
  | cons frames sealed ih =>
    rw [map_cons, numbered, map_cons, sum_cons, ih, flatten_cons,
      extent_append, sealedFile_bytes, image_length]

/-- The loop that removes segments below the retained prefix, without a handle. -/
theorem Whole.removeFiles_ensures {segments : List (ℕ × File)} (h : Whole codec disk log durable)
    (hbelow : ∀ segment ∈ segments, segment.1 < disk.walBase.firstSegment)
    (hsafe : ∀ d, Whole codec d log durable → x.Safe d)
    (hpost : ∀ d, Whole codec d log durable → d.walBase = disk.walBase → post () d) :
    (segments.forM fun segment => removeFile segment.1).Ensures x post disk := by
  refine (Program.Ensures.forM (fun left d => Whole codec d log durable ∧
    d.walBase = disk.walBase ∧ ∀ segment ∈ left, segment.1 < disk.walBase.firstSegment) ?_
    segments disk ⟨h, rfl, hbelow⟩).imp ?_
  · rintro segment left d ⟨hd, hbase, hleft⟩
    have hremoved : Whole codec (d.remove segment.1) log durable := by
      obtain ⟨_, _, _, _, hintact, hwhole, hdurable⟩ := hd
      refine ⟨_, _, _, _, hintact.remove_below ?_, hwhole, hdurable⟩
      rw [hbase]
      exact hleft segment mem_cons_self
    refine removeFile_ensures (hsafe d hd) (hsafe _ hremoved) ⟨hremoved, hbase, ?_⟩
    exact fun s hs => hleft s (mem_cons_of_mem _ hs)
  · rintro _ d ⟨hd, hbase, -⟩
    exact hpost d hd hbase

/-- **Opening a directory without a torn tail** gives a live handle. -/
theorem Whole.open_ensures {post : WalHandle → Disk → Prop} (h : Whole codec disk log durable)
    (segmentBytes : ℕ) (hsafe : ∀ d, Whole codec d log durable → x.Safe d)
    (hpost : ∀ wal d, Live codec ⟨d, wal⟩ log durable → post wal d) :
    (openWithSegmentBytes segmentBytes).Ensures x post disk := by
  have hread : disk.readWalBase = .ok disk.walBase := by
    obtain ⟨gone, sealed, active, tail, hintact, -, -⟩ := id h
    exact hintact.readWalBase
  refine .bind (probe_ensures (hsafe disk h) (.bind (readBase_ensures (hsafe disk h) hread
    (.bind (probe_ensures (hsafe disk h) (.bind (.get (.bind ?_))))))))
  refine h.removeFiles_ensures ?_ hsafe ?_
  · intro segment hmem
    exact of_decide_eq_true (mem_filter.mp hmem).2
  intro d hd hbase
  rw [← hbase]
  have hhere := hsafe d hd
  obtain ⟨gone, sealed, active, tail, hintact, hwhole, hdurable⟩ := hd
  refine .bind (listSegments_ensures hhere hintact.walSegments (.bind (probe_ensures hhere ?_)))
  have hactive : (numbered d.walBase.firstSegment
      (sealed.map (sealedFile codec) ++ [active])).getLast?.elim d.walBase.firstSegment Prod.fst =
        d.walBase.firstSegment + sealed.length := by
    rw [numbered_concat, getLast?_concat, length_map]
    rfl
  rw [hactive, sum_sealed_lengths]
  refine .bind (.get (.bind (probe_ensures hhere (.bind (.when ?_ ?_)))))
  · intro habsent
    rw [hintact.active_lookup] at habsent
    cases habsent
  intro _
  have hpublished := hintact.publish_last
  have hafter : Whole codec (d.publish { d.walBase with
      lastSegment := some (d.walBase.firstSegment + sealed.length) }) log durable :=
    ⟨_, _, _, _, hpublished, hwhole, hdurable⟩
  refine .bind (.when ?_ ?_)
  · intro _
    refine writeWalBase_ensures hhere (hsafe _ hafter) (.pure (hpost _ _ ⟨rfl, gone, sealed, active,
      tail, ⟨hpublished, hwhole, rfl, rfl, rfl, rfl⟩, hdurable⟩))
  · intro hlast
    rw [not_not] at hlast
    exact .pure (hpost _ _ ⟨rfl, _, _, _, _,
      ⟨hintact, hwhole, rfl, rfl, rfl, hlast⟩, hdurable⟩)

theorem stores_empty : ({} : Disk).Stores [] := fun _ => rfl

theorem walSegments_empty : ({} : Disk).walSegments = .ok [] := rfl

theorem intact_create (hbase : d.base = none) (hstores : d.Stores [file])
    (hbytes : file.bytes = []) : Intact codec d [] [] [] file [] where
  log_eq := rfl
  chained := .nil 0
  base := by
    rw [Disk.walBase, hbase]
    rfl
  stores := hstores
  full := forall_mem_nil _
  cut := by
    rw [hbytes]
    exact prefix_rfl
  reaches := by
    rw [Disk.walBase, hbase]
    exact Reaches.of_none rfl 0 file

/-- **Opening a directory** that has no torn tail or is new gives a live handle. -/
theorem Settled.open_ensures {post : WalHandle → Disk → Prop} (h : Settled codec disk log durable)
    (segmentBytes : ℕ) (hsafe : ∀ d, Settled codec d log durable → x.Safe d)
    (hpost : ∀ wal d, Live codec ⟨d, wal⟩ log durable → post wal d) :
    (openWithSegmentBytes segmentBytes).Ensures x post disk := by
  obtain hwhole | ⟨rfl, rfl, rfl⟩ := h
  · exact hwhole.open_ensures segmentBytes (fun d hd => hsafe d (.inl hd)) hpost
  have hhere : x.Safe {} := hsafe {} (.inr ⟨rfl, rfl, rfl⟩)
  refine .bind (probe_ensures hhere (.bind (readBase_ensures hhere rfl (.bind (probe_ensures hhere
    (.bind (.get (.bind (.pure ?_)))))))))
  refine .bind (listSegments_ensures hhere walSegments_empty (.bind (probe_ensures hhere
    (.bind (.get (.bind (probe_ensures hhere (.bind (.when ?_ ?_)))))))))
  · intro _
    -- The active segment is created, synced and published as the frontier.
    have hstores := stores_empty.create
    have hcreated : Intact codec (({} : Disk).create 0) [] [] [] File.empty [] :=
      intact_create rfl hstores rfl
    have hsynced : Intact codec ((({} : Disk).create 0).modify 0 File.sync) [] [] []
        File.empty.sync [] :=
      intact_create (base_modify _ _ _) (hstores.modify_last File.sync) rfl
    have hsafeIntact : ∀ d file, Intact codec d [] [] [] file [] → file.bytes = [] → x.Safe d :=
      fun d file hd hbytes => hsafe d (.inl ⟨[], [], file, [], hd, hbytes, Nat.zero_le _⟩)
    have hpublished := hsynced.publish_last
    rw [walBase_modify] at hpublished
    refine .bind (createNew_ensures hhere rfl (.bind (syncFile_ensures
      (hsafeIntact _ _ hcreated rfl) (probe_ensures (hsafeIntact _ _ hsynced rfl) ?_))))
    refine .bind (.when (fun _ => ?_) fun hlast => absurd (fun h => by cases h) hlast)
    refine writeWalBase_ensures (hsafeIntact _ _ hsynced rfl) (hsafeIntact _ _ hpublished rfl) ?_
    exact .pure (hpost _ _ ⟨rfl, [], [], File.empty.sync, [],
      ⟨hpublished, rfl, rfl, rfl, rfl, rfl⟩, Nat.zero_le _⟩)
  · intro hsome
    exact absurd rfl hsome

end Opening

section Truncation

/-- Removing the last segments in ascending order, when nothing can interrupt it. -/
theorem removeLater_ensures {files rest : List File} (hsafe : ∀ d, x.Safe d)
    (hstores : disk.Stores (files ++ rest)) :
    ((numbered (disk.walBase.firstSegment + files.length) rest).forM fun segment =>
      removeFile segment.1).Ensures x (fun _ d => d.Stores files ∧ d.base = disk.base) disk := by
  -- Before round `m` the segments from `files.length` to `m` are gone.
  refine (Program.Ensures.forM (fun left d => d.base = disk.base ∧ ∃ m, files.length ≤ m ∧
    ∃ rest', left = numbered (disk.walBase.firstSegment + m) rest' ∧
      ∀ i, d.segments[disk.walBase.firstSegment + i]? =
        if i < files.length then files[i]? else if i < m then none else rest'[i - m]?)
    ?_ _ disk ⟨rfl, files.length, le_rfl, rest, rfl, ?_⟩).imp ?_
  · rintro segment left d ⟨hbase, m, hm, rest', hleft, hlookup⟩
    cases rest' with
    | nil => cases hleft
    | cons file rest' =>
      rw [numbered, List.cons.injEq] at hleft
      obtain ⟨rfl, rfl⟩ := hleft
      refine removeFile_ensures (hsafe _) (hsafe _) ⟨hbase, m + 1, by omega, rest', rfl, ?_⟩
      intro i
      change (d.segments.erase (disk.walBase.firstSegment + m))[ disk.walBase.firstSegment + i]? = _
      rw [Std.ExtTreeMap.getElem?_erase, hlookup i]
      simp only [compare_eq_iff_eq]
      rcases lt_trichotomy i m with h | rfl | h
      · rw [if_neg (by omega), if_pos h, if_pos (by omega : i < m + 1)]
      · rw [if_pos rfl, if_neg (by omega), if_pos (by omega : i < i + 1)]
      · rw [if_neg (by omega), if_neg (by omega), if_neg (by omega), if_neg (by omega),
          if_neg (by omega), show i - m = (i - (m + 1)) + 1 by omega, getElem?_cons_succ]
  · intro i
    rw [hstores i]
    by_cases h : i < files.length
    · rw [if_pos h, getElem?_append_left h]
    · rw [if_neg h, if_neg h, getElem?_append_right (not_lt.mp h)]
  · rintro _ d ⟨hbase, m, hm, rest', hleft, hlookup⟩
    have hnil : rest' = [] := by
      cases rest' with
      | nil => rfl
      | cons file rest' => cases hleft
    refine ⟨fun i => ?_, hbase⟩
    rw [Disk.walBase, hbase, ← Disk.walBase, hlookup i, hnil]
    by_cases h : i < files.length
    · rw [if_pos h]
    · rw [if_neg h, getElem?_eq_none (by omega : files.length ≤ i)]
      split
      · rfl
      · rfl

variable {targetLsn : ℕ}

/-- The cut of a segment: the frames of the segment below the target. -/
theorem exists_cut {base : ℕ} {passed rest : List (Frame Entry)}
    (hboundary : Boundary base (passed ++ (frames ++ rest)) targetLsn)
    (hle : base + extent passed ≤ targetLsn)
    (hlt : targetLsn ≤ base + extent passed + extent frames) :
    ∃ below above, frames = below ++ above ∧ targetLsn = base + extent passed + extent below := by
  obtain ⟨before, after, hsplit, rfl⟩ := hboundary
  obtain ⟨below, rfl⟩ : passed <+: before :=
    prefix_of_extent_le (prefix_append _ _) ⟨after, hsplit.symm⟩ (by omega)
  rw [append_assoc, append_cancel_left_eq] at hsplit
  rw [extent_append] at hlt ⊢
  obtain ⟨above, rfl⟩ : below <+: frames :=
    prefix_of_extent_le ⟨after, hsplit.symm⟩ (prefix_append _ _) (by omega)
  exact ⟨below, above, rfl, by omega⟩

variable {below above : List (Frame Entry)} {passed rest : List (List (Frame Entry))}

/-- A segment is cut to the frames below the target and is the last one then. -/
theorem Intact.truncated (h : Intact codec disk log gone sealed active tail)
    (hsealed : sealed = passed ++ rest) (hframes : frames = below ++ above)
    (hlog : ∃ after, log = gone ++ (passed.flatten ++ frames) ++ after)
    (hlsn : d.walBase.lsn = disk.walBase.lsn)
    (hstores : d.Stores (passed.map (sealedFile codec) ++ [file]))
    (hbytes : file.bytes = image codec below) (hreaches : d.walBase.Reaches passed.length file) :
    Intact codec d (gone ++ (passed.flatten ++ below)) gone passed file below where
  log_eq := rfl
  chained := by
    obtain ⟨after, hafter⟩ := hlog
    have hchained := h.chained
    rw [hafter, hframes, ← append_assoc passed.flatten, ← append_assoc gone,
      append_assoc _ above, Chained.append_iff] at hchained
    exact hchained.1
  base := hlsn.trans h.base
  stores := hstores
  full := fun g hg => h.full g (by rw [hsealed]; exact mem_append_left _ hg)
  cut := by rw [hbytes]
  reaches := hreaches

/-- The end of `truncate_to_lsn`: the frontier is published if there was one. -/
theorem publishCut_ensures {base : WalBase} {index : ℕ} (hsafe : x.Safe d)
    (hafter : x.Safe (d.publish { base with lastSegment := some index }))
    (hpost : base.lastSegment = none → post () d)
    (hpost' : post () (d.publish { base with lastSegment := some index })) :
    (Program.when (base.lastSegment.isSome = true)
      (writeWalBase { base with lastSegment := some index })).Ensures x post d := by
  refine .when (fun _ => writeWalBase_ensures hsafe hafter hpost') fun hnone => hpost ?_
  rw [Bool.not_eq_true, Option.isSome_eq_false_iff, Option.isNone_iff_eq_none] at hnone
  exact hnone

section

variable (h : Intact codec disk log gone sealed active tail)
include h

/-- **The cut of the active segment.**  It can be interrupted anywhere. -/
theorem Intact.cutActive_ensures
    (hdurable : durable ≤ disk.walBase.lsn + extent sealed.flatten + active.synced)
    (hbelow : below ++ above <+: tail) (himage : image codec (below ++ above) <+: active.bytes)
    (hlt : extent below < active.bytes.length)
    (htarget : targetLsn = disk.walBase.lsn + extent sealed.flatten + extent below)
    (hsafe : ∀ d, Persists codec d log (min durable targetLsn) → x.Safe d)
    (hpost : ∀ d, Whole codec d (gone ++ (sealed.flatten ++ below)) (min durable targetLsn) →
      d.walBase.lsn = disk.walBase.lsn → post () d) :
    (cutSegment disk.walBase (disk.walBase.firstSegment + sealed.length) (extent below)
      []).Ensures x post disk := by
  obtain ⟨hcut, hset, hsync, hdone⟩ := h.setLen ((prefix_append _ _).trans hbelow)
    (by rw [image_append] at himage; exact (prefix_append _ _).trans himage) hlt
  have hsynced : min durable targetLsn ≤ disk.walBase.lsn + extent sealed.flatten +
      (active.setLen (extent below)).synced := by
    change _ ≤ _ + min active.synced (extent below)
    omega
  have hall : min durable targetLsn ≤ disk.walBase.lsn + extent sealed.flatten +
      (active.setLen (extent below)).sync.synced := by
    change _ ≤ _ + (active.setLen (extent below)).bytes.length
    rw [hcut, image_length]
    omega
  have hhere : x.Safe disk := hsafe disk (h.persists ((min_le_left _ _).trans hdurable))
  have hsetSafe := hsafe _ (hset.persists (by rw [walBase_modify]; exact hsynced))
  have hsyncSafe := hsafe _ (hsync.persists (by rw [walBase_modify]; exact hall))
  have hpublished := hdone.publish_last
  have hpublishedSafe := hsync.publish_last
  rw [walBase_modify] at hpublished hpublishedSafe
  refine .bind (probe_ensures hhere (.bind (setFileLen_ensures hhere (.bind (syncFile_ensures
    hsetSafe (.bind (.pure ?_)))))))
  rw [modify_modify]
  refine .bind (probe_ensures hsyncSafe (publishCut_ensures hsyncSafe ?_ ?_ ?_))
  · exact hsafe _ (hpublishedSafe.persists hall)
  · intro _
    exact hpost _ ⟨_, _, _, _, hdone, hcut, by rw [walBase_modify]; exact hall⟩
      (by rw [walBase_modify])
  · exact hpost _ ⟨_, _, _, _, hpublished, hcut, hall⟩ rfl

/-- **The cut of a sealed segment**, when nothing can interrupt it. -/
theorem Intact.cutSealed_ensures (hsealed : sealed = passed ++ (below ++ above) :: rest)
    (htarget : targetLsn = disk.walBase.lsn + extent passed.flatten + extent below)
    (hsafe : ∀ d, x.Safe d)
    (hpost : ∀ d, Whole codec d (gone ++ (passed.flatten ++ below)) targetLsn →
      d.walBase.lsn = disk.walBase.lsn → post () d) :
    (cutSegment disk.walBase (disk.walBase.firstSegment + passed.length) (extent below)
      (numbered (disk.walBase.firstSegment + passed.length + 1)
        (rest.map (sealedFile codec) ++ [active]))).Ensures x post disk := by
  have hcut : ((sealedFile codec (below ++ above)).setLen (extent below)).bytes =
      image codec below := by
    change (image codec (below ++ above)).take (extent below) = _
    rw [image_append, take_left' (image_length codec below)]
  generalize hfile : ((sealedFile codec (below ++ above)).setLen (extent below)).sync = file
  have hbytes : file.bytes = image codec below := by
    rw [← hfile]
    exact hcut
  have hstores : (disk.modify (disk.walBase.firstSegment + passed.length)
      fun file => (file.setLen (extent below)).sync).Stores
        ((passed.map (sealedFile codec) ++ [file]) ++
          (rest.map (sealedFile codec) ++ [active])) := by
    have hbefore := h.stores
    rw [hsealed, map_append, map_cons, append_assoc, cons_append] at hbefore
    have hafter := hbefore.modify fun file => (file.setLen (extent below)).sync
    rw [length_map, hfile] at hafter
    rw [append_assoc]
    exact hafter
  have hlog : ∃ after, log = gone ++ (passed.flatten ++ (below ++ above)) ++ after := by
    refine ⟨rest.flatten ++ tail, ?_⟩
    rw [h.log_eq, hsealed]
    simp only [flatten_append, flatten_cons, append_assoc]
  have hwhole : ∀ d, d.walBase.lsn = disk.walBase.lsn →
      d.Stores (passed.map (sealedFile codec) ++ [file]) → d.walBase.Reaches passed.length file →
        Whole codec d (gone ++ (passed.flatten ++ below)) targetLsn := by
    intro d hlsn hd hreaches
    refine ⟨gone, passed, file, below,
      h.truncated hsealed rfl hlog hlsn hd hbytes hreaches, hbytes, ?_⟩
    have hsynced : file.synced = extent below := by
      rw [← hfile]
      change ((sealedFile codec (below ++ above)).setLen (extent below)).bytes.length = _
      rw [hcut, image_length]
    rw [hlsn, hsynced]
    omega
  refine .bind (probe_ensures (hsafe _) (.bind (setFileLen_ensures (hsafe _) (.bind
    (syncFile_ensures (hsafe _) (.bind ?_))))))
  rw [modify_modify]
  have hremoved := removeLater_ensures hsafe hstores
  rw [walBase_modify, length_append, length_map, length_singleton,
    ← Nat.add_assoc, base_modify] at hremoved
  refine hremoved.imp ?_
  rintro _ d ⟨hd, hbase⟩
  have hwalBase : d.walBase = disk.walBase := by rw [Disk.walBase, hbase, ← Disk.walBase]
  refine .bind (probe_ensures (hsafe _) (publishCut_ensures (hsafe _) (hsafe _) ?_ ?_))
  · intro hnone
    refine hpost d (hwhole d (by rw [hwalBase]) hd ?_) (by rw [hwalBase])
    rw [hwalBase]
    exact Reaches.of_none hnone _ file
  · refine hpost _ (hwhole _ rfl ?_ (Reaches.of_last rfl file)) rfl
    have hpublished := hd.publish { disk.walBase with
      lastSegment := some (disk.walBase.firstSegment + passed.length) } 0 (by rw [hwalBase]; rfl)
    rw [drop_zero] at hpublished
    exact hpublished

/-- **The loop of `truncate_to_lsn`**, behind the segments it has `passed`. -/
theorem Intact.truncateSegments_ensures
    (hdurable : durable ≤ disk.walBase.lsn + extent sealed.flatten + active.synced)
    (hkept : kept <+: tail) (himage : image codec kept <+: active.bytes)
    (hboundary : Boundary disk.walBase.lsn (sealed.flatten ++ kept) targetLsn)
    (hfail : ∀ n, ¬ x.allowed (.fail n))
    (hdown : ∀ n d, x.allowed (.crash n) → Persists codec d log (min durable targetLsn) → x.down d)
    (hpost : ∀ d before after, log = before ++ after → extent before = targetLsn →
      Whole codec d before (min durable targetLsn) → d.walBase.lsn = disk.walBase.lsn → post () d)
    (passed rest : List (List (Frame Entry))) (hsealed : sealed = passed ++ rest)
    (hle : disk.walBase.lsn + extent passed.flatten ≤ targetLsn)
    (hlast : ∀ n, x.allowed (.crash n) → laterSegments
      (numbered (disk.walBase.firstSegment + passed.length)
        (rest.map (sealedFile codec) ++ [active]))
        (targetLsn - (disk.walBase.lsn + extent passed.flatten)) = []) :
    (truncateSegments disk.walBase targetLsn (numbered (disk.walBase.firstSegment + passed.length)
        (rest.map (sealedFile codec) ++ [active]))
      (targetLsn - (disk.walBase.lsn + extent passed.flatten))).Ensures x post disk := by
  have hsafe : ∀ d, Persists codec d log (min durable targetLsn) → x.Safe d := fun d hd =>
    ⟨fun e n hn => absurd hn (hfail n), fun n hn => hdown n d hn hd⟩
  have hhere : x.Safe disk := hsafe disk (h.persists ((min_le_left _ _).trans hdurable))
  induction rest generalizing passed with
  | nil =>
    rw [append_nil] at hsealed
    subst hsealed
    have hend : targetLsn ≤ disk.walBase.lsn + extent sealed.flatten + extent kept := by
      obtain ⟨before, after, hsplit, rfl⟩ := hboundary
      have hsum := congrArg extent hsplit
      rw [extent_append, extent_append] at hsum
      omega
    have hlen := himage.length_le
    rw [image_length] at hlen
    refine .bind (fileLen_ensures hhere h.active_lookup ?_)
    refine .ite (fun hpassed => .ite (fun hzero => ?_) fun hleft => absurd ?_ hleft) fun hcut => ?_
    · -- Nothing is cut: the target is the end of the log.
      have hbytes : active.bytes = image codec kept := by
        refine (himage.eq_of_length ?_).symm
        rw [image_length]
        omega
      have hshort := h.shorten hkept hbytes
      obtain ⟨lost, rfl⟩ := hkept
      refine .pure (hpost disk _ lost ?_ ?_ ⟨gone, sealed, active, kept, hshort, hbytes,
        (min_le_left _ _).trans hdurable⟩ rfl)
      · rw [h.log_eq]
        simp only [append_assoc]
      rw [extent_append, extent_append, ← h.base]
      omega
    · omega
    · obtain ⟨below, above, rfl, htarget⟩ := exists_cut
        (by rw [append_nil]; exact hboundary : Boundary disk.walBase.lsn
          (sealed.flatten ++ (kept ++ [])) targetLsn) hle hend
      rw [show targetLsn - (disk.walBase.lsn + extent sealed.flatten) = extent below by omega]
      refine h.cutActive_ensures hdurable hkept himage (by omega) htarget hsafe ?_
      intro d hd hlsn
      obtain ⟨lost, rfl⟩ := hkept
      refine hpost d _ (above ++ lost) ?_ ?_ hd hlsn
      · rw [h.log_eq]
        simp only [append_assoc]
      · rw [extent_append, extent_append, ← h.base]
        omega
  | cons frames rest ih =>
    have hlookup : disk.segments[disk.walBase.firstSegment + passed.length]? =
        some (sealedFile codec frames) := by
      rw [h.stores, hsealed, map_append, append_assoc, getElem?_append_right
        (by rw [length_map]), length_map, Nat.sub_self]
      rfl
    have hnext : targetLsn - (disk.walBase.lsn + extent passed.flatten) - extent frames =
        targetLsn - (disk.walBase.lsn + extent (passed ++ [frames]).flatten) := by
      rw [flatten_append, extent_append, flatten_singleton]
      omega
    have hindex : disk.walBase.firstSegment + passed.length + 1 =
        disk.walBase.firstSegment + (passed ++ [frames]).length := by
      rw [length_append, length_singleton, Nat.add_assoc]
    rw [map_cons, cons_append, numbered, truncateSegments]
    simp only [map_cons, cons_append, numbered, laterSegments, sealedFile_bytes,
      image_length] at hlast
    refine .bind (fileLen_ensures hhere hlookup ?_)
    rw [sealedFile_bytes, image_length]
    refine .ite (fun hpassed => ?_) fun hcut => ?_
    · rw [hnext, hindex]
      refine ih (passed ++ [frames]) (by rw [hsealed]; simp) ?_ ?_
      · rw [flatten_append, extent_append, flatten_singleton]
        omega
      · intro n hn
        have := hlast n hn
        rw [if_pos hpassed, hnext, hindex] at this
        exact this
    · have hcrash : ∀ n, ¬ x.allowed (.crash n) := by
        intro n hn
        have := hlast n hn
        rw [if_neg hcut] at this
        cases rest with
        | nil | cons => cases this
      obtain ⟨below, above, rfl, htarget⟩ := exists_cut (by
          rw [hsealed, flatten_append, flatten_cons, append_assoc, append_assoc] at hboundary
          exact hboundary : Boundary disk.walBase.lsn
            (passed.flatten ++ (frames ++ (rest.flatten ++ kept))) targetLsn) hle (by omega)
      rw [show targetLsn - (disk.walBase.lsn + extent passed.flatten) = extent below by omega]
      refine h.cutSealed_ensures hsealed htarget
        (fun d => ⟨fun e n hn => absurd hn (hfail n), fun n hn => absurd hn (hcrash n)⟩) ?_
      intro d hd hlsn
      refine hpost d _ (above ++ (rest.flatten ++ tail)) ?_ ?_ (hd.weaken (min_le_right _ _)) hlsn
      · rw [h.log_eq, hsealed]
        simp only [flatten_append, flatten_cons, append_assoc]
      · rw [extent_append, extent_append, ← h.base]
        omega

end

/-- The segments behind the one that a truncation cuts. -/
def Disk.laterSegments (disk : Disk) (targetLsn : ℕ) : List (ℕ × File) :=
  match disk.walSegments with
  | .ok segments => Wal.laterSegments segments (targetLsn - disk.walBase.lsn)
  | .error _ => []

/-- **Truncation.**  The log ends at the target afterwards.  A crash leaves the log
with everything durable below the target, provided that the segment to be cut is the
last one when a crash can happen. -/
theorem Intact.truncateToLsn_ensures (h : Intact codec disk log gone sealed active tail)
    (hdurable : durable ≤ disk.walBase.lsn + extent sealed.flatten + active.synced)
    (hfail : ∀ n, ¬ x.allowed (.fail n))
    (hlast : ∀ n, x.allowed (.crash n) → disk.laterSegments targetLsn = [])
    (hrefused : ¬(active.bytes = image codec tail ∧
      Boundary disk.walBase.lsn (sealed.flatten ++ tail) targetLsn) → ∀ e, x.fault e disk)
    (hdown : ∀ n d, x.allowed (.crash n) → Persists codec d log durable → x.down d)
    (hdown' : ∀ n d, x.allowed (.crash n) → Boundary 0 log targetLsn →
      Persists codec d log (min durable targetLsn) → x.down d)
    (hpost : ∀ d before after, log = before ++ after → extent before = targetLsn →
      Whole codec d before (min durable targetLsn) → d.walBase.lsn = disk.walBase.lsn → post () d) :
    (truncateToLsn codec targetLsn).Ensures x post disk := by
  have hhere : x.Safe disk :=
    ⟨fun e n hn => absurd hn (hfail n), fun n hn => hdown n disk hn (h.persists hdurable)⟩
  refine .bind (readBase_ensures hhere h.readWalBase (.bind (listSegments_ensures hhere
    h.walSegments (.ite (fun hnil => ?_) fun _ => .bind ?_))))
  · rw [numbered_concat] at hnil
    exact absurd hnil (append_ne_nil_of_right_ne_nil _ (cons_ne_nil _ _))
  refine h.validateRecordBoundary_ensures targetLsn hhere hrefused ?_
  intro hvalid
  obtain ⟨kept, hkept, himage, hboundary⟩ : ∃ kept, kept <+: tail ∧
      image codec kept <+: active.bytes ∧
        Boundary disk.walBase.lsn (sealed.flatten ++ kept) targetLsn := by
    rcases hvalid with rfl | ⟨kept, hkept, hbytes, hboundary⟩
    · exact ⟨[], nil_prefix, nil_prefix, [], _, rfl, rfl⟩
    · exact ⟨kept, hkept, by rw [hbytes], hboundary⟩
  have hle : disk.walBase.lsn ≤ targetLsn := by
    obtain ⟨before, after, -, rfl⟩ := hboundary
    exact Nat.le_add_right _ _
  have hboundary' : Boundary 0 log targetLsn := by
    obtain ⟨lost, rfl⟩ := id hkept
    rw [h.boundary_iff hle, ← append_assoc]
    exact hboundary.append lost
  refine h.truncateSegments_ensures hdurable hkept himage hboundary hfail
    (fun n d hn hd => hdown' n d hn hboundary' hd) hpost [] sealed rfl hle ?_
  intro n hn
  have hlater := hlast n hn
  rw [Disk.laterSegments, h.walSegments] at hlater
  exact hlater

end Truncation

end ChironDB.Wal
