/-
# Truncation to a point in the log or in time

`Wal::truncate_to_lsn` with its check of the security checkpoint beside the directory, and
`Wal::truncate_to_unix_ms`, which first looks for the end of the longest prefix that is not younger
than the target.  On a directory without a torn tail, and while the file system works, a truncation
goes through exactly at the record boundaries that the directory retains and the checkpoint allows;
the log is then the records below the target, and the next record that is appended gets the target
as its LSN.
-/

import ChironDB.Wal.Methods

namespace ChironDB.Wal

open Codec Fault List

variable {Entry : Type} (codec : RecordCodec Entry)

/-- `truncate_to_lsn`, with the watermark of the security checkpoint if there is one. -/
def truncateTo (watermark : Option ℕ) (targetLsn : ℕ) : Io Unit := do
  probe
  Program.require (watermark.all (· ≤ targetLsn) = true)
    (.codec "invalid security configuration: PITR cannot rewind a security checkpoint")
  truncateToLsn codec targetLsn

/-- The variables of `target_lsn_for_unix_ms`. -/
structure Seek where
  lastIncludedLsn : ℕ
  previousWasIncluded : Bool := false
  cutoffSeen : Bool := false

/-- Its visitor. -/
def Seek.visit (targetUnixMs : ℕ) (seek : Seek) (frame : Frame Entry) : Seek :=
  let seek := { seek with
    lastIncludedLsn :=
      if seek.previousWasIncluded then frame.record.lsn else seek.lastIncludedLsn }
  if !seek.cutoffSeen && frame.record.unixMs ≤ targetUnixMs then
    { seek with previousWasIncluded := true }
  else { seek with previousWasIncluded := false, cutoffSeen := true }

/-- `target_lsn_for_unix_ms`. -/
def targetLsnForUnixMs (targetUnixMs : ℕ) : Io ℕ := do
  let base ← readBase
  let (frames, stats) ← scanRecords codec base.lsn .strict
  let seek := frames.foldl (Seek.visit targetUnixMs) { lastIncludedLsn := base.lsn }
  pure (if seek.previousWasIncluded then stats.endLsn else seek.lastIncludedLsn)

/-- `truncate_to_unix_ms`. -/
def truncateToUnixMs (watermark : Option ℕ) (targetUnixMs : ℕ) : Io ℕ := do
  let targetLsn ← targetLsnForUnixMs codec targetUnixMs
  truncateTo codec watermark targetLsn
  pure targetLsn

/-- The directory holds this log, and whoever opens it and appends gets the LSN where it ends. -/
structure Ends (disk : Disk) (log : List (Frame Entry)) (lsn : ℕ) : Prop where
  settled : Settled codec disk log 0
  append : ∀ segmentBytes, ∃ wal d rest,
    openWithSegmentBytes segmentBytes disk [] = .done wal d rest ∧
      ∀ entry unixMs nonce andSync, Accepts codec lsn unixMs nonce entry → ∃ endLsn w frame rest,
        appendInner codec entry unixMs nonce andSync ⟨d, wal⟩ [] = .done endLsn w rest ∧
          frame.record = ⟨lsn, unixMs, entry⟩ ∧ Whole codec w.disk (log ++ [frame]) 0

/-- The boundaries to which a directory can be truncated. -/
def Truncatable (watermark : Option ℕ) (disk : Disk) (log : List (Frame Entry)) (lsn : ℕ) : Prop :=
  watermark.all (· ≤ lsn) = true ∧ disk.walBase.lsn ≤ lsn ∧ Boundary 0 log lsn

/-- What a truncation to an LSN comes to: the log ends there, or it was refused for this reason and
nothing has changed. -/
def Truncated {α : Type} (watermark : Option ℕ) (disk : Disk) (log : List (Frame Entry)) (lsn : ℕ)
    (value : α) (reason : Prop) : Outcome Disk GaussError α → Prop
  | .done result d _ => result = value ∧ Truncatable watermark disk log lsn ∧
      d.walBase.lsn = disk.walBase.lsn ∧
      Ends codec d (log.filter fun frame => frame.record.lsn < lsn) lsn
  | .error _ d _ => reason ∧ d = disk
  | .crashed _ => False

variable {codec} {disk : Disk} {log : List (Frame Entry)} {durable : ℕ}

/-- A directory without a torn tail can be opened, and the next record comes at its end. -/
theorem Settled.ends (h : Settled codec disk log durable) : Ends codec disk log (extent log) := by
  have hopen : ∀ segmentBytes, (openWithSegmentBytes segmentBytes).Ensures Program.quiet
      (fun wal d => Live codec ⟨d, wal⟩ log durable) disk := fun segmentBytes =>
    h.open_ensures segmentBytes (fun d _ => Program.safe_quiet d) fun _ _ hlive => hlive
  refine ⟨?_, fun segmentBytes => ?_⟩
  · exact h.imp (Whole.weaken · (Nat.zero_le _)) fun hnew => ⟨hnew.1, hnew.2.1, rfl⟩
  obtain ⟨wal, d, rest, hrun, hlive⟩ := (hopen segmentBytes).returns
  refine ⟨wal, d, rest, hrun, fun entry unixMs nonce andSync haccepts => ?_⟩
  have happend : (appendInner codec entry unixMs nonce andSync).Ensures Program.quiet
      (fun _ w => ∃ frame, frame.record = ⟨extent log, unixMs, entry⟩ ∧
        Whole codec w.disk (log ++ [frame]) 0) ⟨d, wal⟩ := by
    refine appendInner_ensures hlive entry unixMs nonce andSync (absurd haccepts) ?_ ?_ ?_
    · exact ⟨fun _ _ _ hn => (nomatch hn), fun _ _ hn => nomatch hn⟩
    · exact fun _ _ _ hn => nomatch hn
    · exact fun w frame hframe hw => ⟨frame, hframe, hw.whole.weaken (Nat.zero_le _)⟩
  obtain ⟨endLsn, w, rest, hrun, frame, hframe, hwhole⟩ := happend.returns
  exact ⟨endLsn, w, frame, rest, hrun, hframe, hwhole⟩

section Refusing

variable {gone tail : List (Frame Entry)} {sealed : List (List (Frame Entry))} {active : File}
  {α : Type} {watermark : Option ℕ} {lsn : ℕ} {reason : Prop}

/-- Every step passes, and a run that ends in an error has left the directory as it was. -/
def refusing (disk : Disk) (reason : Prop) : Program.Exits Disk GaussError :=
  ⟨fun event => event = .pass, fun _ d => reason ∧ d = disk, fun _ => False⟩

theorem safe_refusing (disk d : Disk) (reason : Prop) : (refusing disk reason).Safe d :=
  ⟨fun _ _ hn => (nomatch hn), fun _ hn => (nomatch hn)⟩

theorem Intact.truncateTo_ensures (h : Intact codec disk log gone sealed active tail)
    (hreason : ¬(active.bytes = image codec tail ∧ Truncatable watermark disk log lsn) → reason) :
    (truncateTo codec watermark lsn).Ensures (refusing disk reason)
      (fun _ d => Truncatable watermark disk log lsn ∧ d.walBase.lsn = disk.walBase.lsn ∧
        Ends codec d (log.filter fun frame => frame.record.lsn < lsn) lsn) disk := by
  refine .bind (probe_ensures (safe_refusing _ _ _) (.bind (.require (fun hmark => ?_) ?_)))
  · refine h.truncateToLsn_ensures (Nat.zero_le _) ?_ ?_ ?_ ?_ ?_ ?_
    · exact fun _ hn => nomatch hn
    · exact fun _ hn => nomatch hn
    · refine fun hnot _ => ⟨hreason fun hok => hnot ⟨hok.1, ?_⟩, rfl⟩
      exact (h.boundary_iff hok.2.2.1).mp hok.2.2.2
    · exact fun _ _ hn => nomatch hn
    · exact fun _ _ hn => nomatch hn
    · intro d before after hsplit hextent hwhole hbase
      refine ⟨⟨hmark, ?_, before, after, hsplit, by rw [hextent, Nat.zero_add]⟩, hbase, ?_⟩
      · obtain ⟨_, _, _, _, hcut, -⟩ := hwhole
        rw [← hextent, ← hbase, hcut.extent_log]
        omega
      · rw [← hextent, ← Nat.zero_add (extent before), (h.chained.filter_at hsplit).1, Nat.zero_add]
        exact Settled.ends (.inl hwhole)
  · exact fun hmark => ⟨hreason fun hok => hmark hok.2.1, rfl⟩

/-- A directory that was never opened can be truncated to its base only. -/
theorem Settled.truncateTo_ensures (h : Settled codec disk log durable) :
    (truncateTo codec watermark lsn).Ensures (refusing disk (¬Truncatable watermark disk log lsn))
      (fun _ d => Truncatable watermark disk log lsn ∧ d.walBase.lsn = disk.walBase.lsn ∧
        Ends codec d (log.filter fun frame => frame.record.lsn < lsn) lsn) disk := by
  obtain ⟨_, _, _, _, hintact, hwhole, -⟩ | ⟨rfl, rfl, rfl⟩ := id h
  · exact hintact.truncateTo_ensures fun hnot hok => hnot ⟨hwhole, hok⟩
  have hsafe := fun d =>
    safe_refusing {} d (¬Truncatable watermark {} ([] : List (Frame Entry)) lsn)
  refine .bind (probe_ensures (hsafe _) (.bind (.require (fun hmark => ?_) ?_)))
  · refine .bind (readBase_ensures (hsafe _) rfl (.bind (listSegments_ensures (hsafe _) rfl ?_)))
    refine .ite (fun _ => .ite ?_ ?_) fun hne => absurd rfl hne
    · rintro rfl
      exact .pure ⟨⟨hmark, le_rfl, [], [], rfl, rfl⟩, rfl, h.ends⟩
    · intro hne
      refine .throw ⟨?_, rfl⟩
      rintro ⟨-, -, before, after, hnil, rfl⟩
      rw [(append_eq_nil_iff.mp hnil.symm).1] at hne
      exact hne rfl
  · exact fun hmark => ⟨fun hok => hmark hok.1, rfl⟩

theorem truncated_of_ensures {c : Io α} {value : α}
    (h : c.Ensures (refusing disk reason) (fun result d => result = value ∧
      Truncatable watermark disk log lsn ∧ d.walBase.lsn = disk.walBase.lsn ∧
        Ends codec d (log.filter fun frame => frame.record.lsn < lsn) lsn) disk) :
    Truncated codec watermark disk log lsn value reason (c disk []) := by
  exact h.outcome (forall_mem_nil _) (fun _ _ _ hd => hd) (fun _ _ _ hd => hd)
    fun _ hd => hd

end Refusing

section Seeking

variable {frames : List (Frame Entry)} {seek : Seek} {targetUnixMs : ℕ}

theorem Seek.foldl_visit_of_cutoffSeen (hseen : seek.cutoffSeen = true)
    (hprevious : seek.previousWasIncluded = false) :
    frames.foldl (Seek.visit targetUnixMs) seek = seek := by
  induction frames with
  | nil => rfl
  | cons frame frames ih =>
    obtain ⟨lastIncludedLsn, _, _⟩ := seek
    obtain rfl := hseen
    obtain rfl := hprevious
    exact ih

/-- **The target in time is where the longest prefix ends that is not younger**, whatever the
timestamps behind it. -/
theorem Seek.foldl_visit {lsn : ℕ} (hchained : Chained codec lsn frames)
    (hseen : seek.cutoffSeen = false)
    (hlast : seek.previousWasIncluded = true ∨ seek.lastIncludedLsn = lsn) :
    let found := frames.foldl (Seek.visit targetUnixMs) seek
    (if found.previousWasIncluded then lsn + extent frames else found.lastIncludedLsn) =
      lsn + extent (frames.takeWhile fun frame => frame.record.unixMs ≤ targetUnixMs) := by
  induction hchained generalizing seek with
  | nil lsn =>
    rcases hlast with hprevious | rfl
    · exact if_pos hprevious
    · exact ite_self _
  | @cons lsn frame frames decodes fits rest ih =>
    have hlsn : frame.record.lsn = lsn := (Chained.cons decodes fits rest).head_lsn
    have hlast' : (if seek.previousWasIncluded then frame.record.lsn else seek.lastIncludedLsn) =
        lsn := by
      rcases hlast with hprevious | rfl
      · rw [if_pos hprevious, hlsn]
      · rw [hlsn, ite_self]
    rw [foldl_cons, Seek.visit]
    by_cases hold : frame.record.unixMs ≤ targetUnixMs
    · have hfound := @ih ⟨lsn, true, false⟩ rfl (.inl rfl)
      simp only [hseen, hold, hlast', Bool.not_false, decide_true, Bool.and_self, if_true,
        takeWhile_cons, extent_cons, ← Nat.add_assoc] at hfound ⊢
      exact hfound
    · simp only [hold, hlast', decide_false, Bool.and_false, Bool.false_eq_true, if_false,
        takeWhile_cons]
      rw [Seek.foldl_visit_of_cutoffSeen rfl rfl]
      rfl

theorem Settled.targetLsnForUnixMs_ensures {post : ℕ → Disk → Prop}
    {x : Program.Exits Disk GaussError} (h : Settled codec disk log durable) (hsafe : x.Safe disk)
    (hpost : post (disk.walBase.lsn + extent
      ((log.filter fun frame => disk.walBase.lsn ≤ frame.record.lsn).takeWhile
        fun frame => frame.record.unixMs ≤ targetUnixMs)) disk) :
    (targetLsnForUnixMs codec targetUnixMs).Ensures x post disk := by
  obtain ⟨segments, scan, hread, hsegments, hfound, hoffset, hvisited⟩ := h.scan le_rfl
  have hchained := h.chained_retained
  rw [← hvisited] at hpost hchained
  refine .bind (readBase_ensures hsafe hread (.bind ?_))
  refine .bind (readBase_ensures hsafe hread (.bind (listSegments_ensures hsafe hsegments ?_)))
  simp only [hfound]
  refine .pure (.pure ?_)
  rw [hoffset, Seek.foldl_visit hchained rfl (.inr rfl)]
  exact hpost

end Seeking

theorem Settled.boundary {before after : List (Frame Entry)} (h : Settled codec disk log durable)
    (hsplit : before ++ after = log.filter fun frame => disk.walBase.lsn ≤ frame.record.lsn) :
    Boundary 0 log (disk.walBase.lsn + extent before) := by
  obtain ⟨_, _, _, _, hintact, -⟩ | ⟨rfl, rfl, -⟩ := h
  · rw [hintact.log_eq, hintact.filter_lsn prefix_rfl] at hsplit
    exact (hintact.boundary_iff (Nat.le_add_right _ _)).mpr ⟨before, after, hsplit.symm, rfl⟩
  · rw [(append_eq_nil_iff.mp hsplit).1]
    exact ⟨[], [], rfl, rfl⟩

/-- **A truncation is exact.**  On any directory that a crash may have left it keeps the records
below the target, and the next record gets the target, or it changes nothing.  Without a torn tail
it is refused only where there is no boundary or below the checkpoint; and a target in time stands
for the end of the longest prefix of the retained records that is not younger. -/
theorem truncation_keeps_records_below (watermark : Option ℕ)
    (h : Persists codec disk log durable ∨ Settled codec disk log durable) :
    let retained := log.filter fun frame => disk.walBase.lsn ≤ frame.record.lsn
    (∀ lsn, Truncated codec watermark disk log lsn () True
      (truncateTo codec watermark lsn disk [])) ∧
    (Settled codec disk log durable →
      (∀ lsn, Truncated codec watermark disk log lsn () (¬Truncatable watermark disk log lsn)
        (truncateTo codec watermark lsn disk [])) ∧
      ∀ unixMs, ∃ lsn, Truncatable none disk log lsn ∧
        retained.filter (fun frame => frame.record.lsn < lsn) =
          retained.takeWhile (fun frame => frame.record.unixMs ≤ unixMs) ∧
        Truncated codec watermark disk log lsn lsn (¬Truncatable watermark disk log lsn)
          (truncateToUnixMs codec watermark unixMs disk [])) := by
  intro retained
  refine ⟨fun lsn => truncated_of_ensures ?_, fun hsettled => ⟨fun lsn => ?_, fun unixMs => ?_⟩⟩
  · obtain ⟨_, _, _, _, hintact, -⟩ | hsettled := h
    · exact (hintact.truncateTo_ensures fun _ => trivial).imp fun _ _ hd => ⟨rfl, hd⟩
    · exact hsettled.truncateTo_ensures.mono rfl (fun _ _ hd => ⟨rfl, hd⟩)
        (fun _ _ hd => ⟨trivial, hd.2⟩) fun _ hd => hd
  · exact truncated_of_ensures (hsettled.truncateTo_ensures.imp fun _ _ hd => ⟨rfl, hd⟩)
  · have hsplit : retained.takeWhile _ ++ retained.dropWhile _ = retained :=
      takeWhile_append_dropWhile (p := fun frame => frame.record.unixMs ≤ unixMs)
    refine ⟨_, ⟨rfl, Nat.le_add_right _ _, hsettled.boundary hsplit⟩, ?_,
      truncated_of_ensures (.bind (hsettled.targetLsnForUnixMs_ensures (safe_refusing _ _ _) ?_))⟩
    · exact (hsettled.chained_retained.filter_at hsplit.symm).1
    · exact .bind (hsettled.truncateTo_ensures.imp fun _ _ hd => .pure ⟨rfl, hd⟩)

/-- A log of two segments, cut where the first one ends. -/
theorem truncation_keeps_records_below_two_segments :
    ∃ d rest, truncateTo byteCodec (some 5) 11 (((World.new 12).append 7).append 8).disk [] =
      .done () d rest ∧ ∃ log, Ends byteCodec d log 11 := by
  obtain ⟨first, hfirst⟩ := (live_new 12).append (rfl : appendInner byteCodec 7 1 0 true _ [] = _)
  obtain ⟨second, hwal⟩ := hfirst.append (rfl : appendInner byteCodec 8 1 0 true _ [] = _)
  have hcut := (truncation_keeps_records_below (some 5) (.inr (.inl hwal.whole))).1 11
  exact ⟨_, _, rfl, _, hcut.2.2.2⟩

/-- **Two guards refuse a boundary.**  A log of two records is not cut between them below the
checkpoint, nor when a third record behind them is torn. -/
theorem boundary_refused :
    let world := ((World.new 64).append 7).append 8
    let torn := (appendInner byteCodec 9 1 0 true world
      (List.replicate 4 .pass ++ [.crash 2])).final.disk
    (∃ first second stats d rest, scanFrom byteCodec 0 world.disk [] =
      .done ([first, second], stats) d rest ∧ second.record.lsn = 11) ∧
    (∃ e d rest, truncateTo byteCodec (some 22) 11 world.disk [] = .error e d rest) ∧
    (∃ first second stats d rest, recoverFrom byteCodec 0 torn [] =
      .done ([first, second], stats) d rest ∧ second.record.lsn = 11) ∧
    ∃ e d rest, truncateTo byteCodec none 11 torn [] = .error e d rest := by
  exact ⟨⟨_, _, _, _, _, rfl, rfl⟩, ⟨_, _, _, rfl⟩, ⟨_, _, _, _, _, rfl, rfl⟩, _, _, _, rfl⟩

end ChironDB.Wal
