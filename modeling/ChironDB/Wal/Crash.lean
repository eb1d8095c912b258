/-
# Crashes and restarts

A WAL directory through opens, calls, crashes and recoveries.  `Machine` is the
directory with the handle open on it, if there is one, and the records the client
has appended: those acknowledged by a synced append or by `sync`, and those written
behind them.  A crash can fall between any two file-system steps of any call; it
keeps what is synced and any part of the rest.  A directory is recovered before it is
opened again, as the database does it.

Wherever the machine stops, `recover_from` at the retained base and then `Wal::open`
should succeed, and the records visited should be the acknowledged ones and, behind
them, some that were written (`Machine.Recovers`).  That is so in every run in which
no crash falls into a `reset` of a log whose active segment is empty, nor into a
truncation that removes segments (`Machine.Calm`).  The first creates an empty segment
behind an empty one before it publishes the base; the second cuts a segment that
others follow before it removes these.
-/

import ChironDB.Wal.Methods

namespace ChironDB.Wal

open Codec Fault List

variable {Entry : Type} (codec : RecordCodec Entry)

/-- What a client or the operator does to a directory, or what happens to it. -/
inductive Action (Entry : Type)
  | crash
  | recover
  | openWal (segmentBytes : ℕ)
  | close
  | append (entry : Entry) (unixMs nonce : ℕ) (andSync : Bool)
  | sync
  | dropPrefix (upToLsn : ℕ)
  | reset
  | truncateToLsn (targetLsn : ℕ)
  deriving DecidableEq, Repr

/-- What the file system does during an action, and what a crash leaves of each file. -/
structure Fate where
  events : List Event
  survivors : ℕ → ℕ

/-- A directory, the handle open on it, whether it has been recovered since the last
crash, and the records appended to it. -/
structure Machine (Entry : Type) where
  disk : Disk
  wal : Option WalHandle
  recovered : Bool
  acked : List (WalRecord Entry)
  unacked : List (WalRecord Entry)

/-- The LSN at which the next record goes. -/
def World.endLsn (world : World) : ℕ :=
  world.wal.baseLsn + (world.disk.segments[world.wal.fileIndex]?.elim 0 (·.bytes.length))

/-- The directory holds the log, or is new. -/
def Kept (disk : Disk) (log : List (Frame Entry)) (durable : ℕ) : Prop :=
  Persists codec disk log durable ∨ disk = {} ∧ log = [] ∧ durable = 0

namespace Machine

/-- A new directory. -/
def new : Machine Entry := ⟨{}, none, true, [], []⟩

/-- The machine stops; these records may be in the log. -/
def fall (disk : Disk) (fate : Fate) (acked unacked : List (WalRecord Entry)) : Machine Entry :=
  ⟨disk.crash fate.survivors, none, false, acked, unacked⟩

/-- The machine after a call of the handle: with `acked` and `unacked` when the call
returns `Ok`, and with `pending` when the machine stops in it. -/
def call {α : Type} (machine : Machine Entry) (fate : Fate) (outcome : Outcome World GaussError α)
    (acked unacked pending : List (WalRecord Entry)) : Machine Entry :=
  match outcome with
  | .done _ world _ => ⟨world.disk, some world.wal, true, acked, unacked⟩
  | .error _ world _ => ⟨world.disk, some world.wal, true, machine.acked, machine.unacked⟩
  | .crashed world => fall world.disk fate machine.acked pending

/-- A call of an open handle. -/
def callHandle (machine : Machine Entry) (wal : WalHandle) (action : Action Entry) (fate : Fate) :
    Machine Entry :=
  let world : World := ⟨machine.disk, wal⟩
  match action with
  | .crash => fall machine.disk fate machine.acked machine.unacked
  | .close => { machine with wal := none, recovered := true }
  | .append entry unixMs nonce andSync =>
    let written := machine.unacked ++ [⟨world.endLsn, unixMs, entry⟩]
    let outcome := appendInner codec entry unixMs nonce andSync world fate.events
    if andSync then machine.call fate outcome (machine.acked ++ written) [] written
    else machine.call fate outcome machine.acked written written
  | .sync =>
    machine.call fate (Wal.sync world fate.events) (machine.acked ++ machine.unacked) []
      machine.unacked
  | .dropPrefix upToLsn =>
    machine.call fate (Wal.dropPrefix codec upToLsn world fate.events) machine.acked
      machine.unacked machine.unacked
  | .reset =>
    machine.call fate (Wal.reset world fate.events) machine.acked machine.unacked machine.unacked
  | _ => machine

/-- An action on a directory without a handle.  Recovery loses the records behind the
end it reports, and a truncation, once started, may lose those behind its target. -/
def callDirectory (machine : Machine Entry) (action : Action Entry) (fate : Fate) :
    Machine Entry :=
  match action with
  | .crash => fall machine.disk fate machine.acked machine.unacked
  | .recover =>
    match recoverFrom codec machine.disk.walBase.lsn machine.disk fate.events with
    | .done (_, stats) disk _ =>
      ⟨disk, none, true, machine.acked, machine.unacked.filter (·.lsn < stats.endLsn)⟩
    | .error _ disk _ => { machine with disk := disk, recovered := false }
    | .crashed disk => fall disk fate machine.acked machine.unacked
  | .openWal segmentBytes =>
    if machine.recovered then
      match openWithSegmentBytes segmentBytes machine.disk fate.events with
      | .done wal disk _ => { machine with disk := disk, wal := some wal }
      | .error _ disk _ => { machine with disk := disk, recovered := false }
      | .crashed disk => fall disk fate machine.acked machine.unacked
    else machine
  | .truncateToLsn targetLsn =>
    let below := machine.acked.filter (·.lsn < targetLsn)
    match truncateToLsn codec targetLsn machine.disk fate.events with
    | .done _ disk _ =>
      ⟨disk, none, false, below, machine.unacked.filter (·.lsn < targetLsn)⟩
    | .error _ disk _ => { machine with disk := disk, recovered := false }
    | .crashed disk =>
      fall disk fate below (machine.acked.filter (targetLsn ≤ ·.lsn) ++ machine.unacked)
  | _ => machine

/-- One action, with what the file system does meanwhile. -/
def step (machine : Machine Entry) (action : Action Entry) (fate : Fate) : Machine Entry :=
  match machine.wal with
  | some wal => machine.callHandle codec wal action fate
  | none => machine.callDirectory codec action fate

/-- A run of actions. -/
def run (machine : Machine Entry) : List (Action Entry × Fate) → Machine Entry
  | [] => machine
  | (action, fate) :: actions => (machine.step codec action fate).run actions

/-- No file-system step returns an error, and no crash falls into a `reset` of a log
with an empty active segment nor into a truncation that removes segments. -/
def Calm (machine : Machine Entry) (action : Action Entry) (fate : Fate) : Prop :=
  (∀ n, .fail n ∉ fate.events) ∧
    match action with
    | .reset => (∃ n, .crash n ∈ fate.events) → ∀ wal ∈ machine.wal, ∀ file ∈
        machine.disk.segments[wal.fileIndex]?, file.bytes ≠ []
    | .truncateToLsn targetLsn =>
      (∃ n, .crash n ∈ fate.events) → machine.disk.laterSegments targetLsn = []
    | _ => True

/-- Every action of a run is calm where it is taken. -/
def CalmRun (machine : Machine Entry) : List (Action Entry × Fate) → Prop
  | [] => True
  | (action, fate) :: actions =>
    machine.Calm action fate ∧ (machine.step codec action fate).CalmRun actions

/-- Recovery at the retained base and then an open succeed, and recovery visits the
retained acknowledged records and behind them a part of the others, with contiguous
LSNs from the base on. -/
def Recovers (machine : Machine Entry) : Prop :=
  let base := machine.disk.walBase.lsn
  ∃ frames stats disk rest,
    recoverFrom codec base machine.disk [] = .done (frames, stats) disk rest ∧
    (∀ segmentBytes, ∃ wal disk' rest',
      openWithSegmentBytes segmentBytes disk [] = .done wal disk' rest') ∧
    Chained codec base frames ∧
    ∃ more, more <+: machine.unacked.filter (base ≤ ·.lsn) ∧
      frames.map Frame.record = machine.acked.filter (base ≤ ·.lsn) ++ more

/-- A usable handle on a directory that holds the appended records. -/
def Open (world : World) (acked unacked : List (WalRecord Entry)) : Prop :=
  ∃ log, acked ++ unacked = log.map Frame.record ∧
    Live codec world log (extent (log.take acked.length))

/-- A recovered directory that holds the appended records. -/
def Closed (disk : Disk) (acked unacked : List (WalRecord Entry)) : Prop :=
  ∃ log, acked ++ unacked = log.map Frame.record ∧
    Settled codec disk log (extent (log.take acked.length))

/-- A directory that holds the acknowledged records and a part of the others. -/
def Stopped (disk : Disk) (acked unacked : List (WalRecord Entry)) : Prop :=
  ∃ log lost, acked ++ unacked = log.map Frame.record ++ lost ∧
    (∀ record ∈ lost, extent log ≤ record.lsn) ∧ acked.length ≤ log.length ∧
      Kept codec disk log (extent (log.take acked.length))

/-- What every action keeps. -/
def Holds (machine : Machine Entry) : Prop :=
  match machine.wal, machine.recovered with
  | some wal, _ => Open codec ⟨machine.disk, wal⟩ machine.acked machine.unacked
  | none, true => Closed codec machine.disk machine.acked machine.unacked
  | none, false => Stopped codec machine.disk machine.acked machine.unacked

end Machine

variable {codec}

variable {log : List (Frame Entry)}

section Records

theorem extent_mono {xs ys : List (Frame Entry)} (h : xs <+: ys) : extent xs ≤ extent ys := by
  obtain ⟨more, rfl⟩ := h
  rw [extent_append]
  exact Nat.le_add_right _ _

variable {lost : List (WalRecord Entry)}

/-- The records below a frame boundary are those of the frames before it. -/
theorem filter_below {before after : List (Frame Entry)}
    (hchained : Chained codec 0 (before ++ after))
    (hlost : ∀ record ∈ lost, extent (before ++ after) ≤ record.lsn) :
    ((before ++ after).map Frame.record ++ lost).filter (·.lsn < extent before) =
      before.map Frame.record := by
  have hdrop : lost.filter (·.lsn < extent before) = [] := by
    refine filter_eq_nil_iff.mpr fun record hmem => ?_
    rw [decide_eq_true_iff, not_lt]
    exact (extent_mono (prefix_append _ _)).trans (hlost record hmem)
  have hkeep := (hchained.filter_at rfl).1
  rw [Nat.zero_add] at hkeep
  rw [filter_append, hdrop, append_nil, filter_map]
  exact congrArg (List.map Frame.record) hkeep

theorem filter_lt_append_filter_le {lsn : ℕ} {frames : List (Frame Entry)}
    (h : Chained codec lsn frames) (targetLsn : ℕ) :
    (frames.map Frame.record).filter (·.lsn < targetLsn) ++
      (frames.map Frame.record).filter (targetLsn ≤ ·.lsn) = frames.map Frame.record := by
  induction h with
  | nil lsn => rfl
  | @cons lsn frame frames decodes fits rest ih =>
    rw [map_cons]
    by_cases hlt : frame.record.lsn < targetLsn
    · rw [filter_cons, if_pos (decide_eq_true hlt), filter_cons,
        if_neg (by rw [decide_eq_true_iff]; omega), cons_append, ih]
    · have hlsn := (Chained.cons decodes fits rest).head_lsn
      have habove : ∀ record ∈ frame.record :: frames.map Frame.record, targetLsn ≤ record.lsn := by
        intro record hmem
        rcases mem_cons.mp hmem with rfl | hmem
        · exact not_lt.mp hlt
        · obtain ⟨later, hlater, rfl⟩ := mem_map.mp hmem
          have := rest.le_lsn later hlater
          omega
      rw [filter_eq_nil_iff.mpr, nil_append, filter_eq_self.mpr]
      · exact fun record hmem => decide_eq_true (habove record hmem)
      · intro record hmem
        rw [decide_eq_true_iff, not_lt]
        exact habove record hmem

/-- The acknowledged records are those of the first frames. -/
theorem acked_eq {acked unacked : List (WalRecord Entry)}
    (h : acked ++ unacked = log.map Frame.record ++ lost) (hle : acked.length ≤ log.length) :
    acked = (log.take acked.length).map Frame.record := by
  have htake := congrArg (List.take acked.length) h
  rw [take_left, take_append_of_le_length (by rw [length_map]; exact hle), ← map_take] at htake
  exact htake

end Records

variable {post : List (Frame Entry) × WalScanStats → Disk → Prop} {disk : Disk}

section Directories

variable {durable : ℕ} {x : Program.Exits Disk GaussError}

theorem Settled.kept (h : Settled codec disk log durable) : Kept codec disk log durable :=
  h.imp Whole.persists id

section

variable (h : Kept codec disk log durable)
include h

theorem Kept.crash (survivors : ℕ → ℕ) : Kept codec (disk.crash survivors) log durable := by
  obtain hpersists | ⟨rfl, hlog, hdurable⟩ := h
  · exact .inl (hpersists.crash survivors)
  · exact .inr ⟨rfl, hlog, hdurable⟩

theorem Kept.weaken {durable' : ℕ} (hle : durable' ≤ durable) : Kept codec disk log durable' := by
  obtain hpersists | ⟨hdisk, hlog, rfl⟩ := h
  · exact .inl (hpersists.weaken hle)
  · exact .inr ⟨hdisk, hlog, Nat.le_zero.mp hle⟩

theorem Kept.chained : Chained codec 0 log := by
  obtain ⟨_, _, _, _, hintact, -⟩ | ⟨-, rfl, -⟩ := h
  · exact hintact.chained
  · exact .nil 0

theorem Kept.recoverFrom_ensures (hboundary : Boundary 0 log durable)
    (hsafe : ∀ d, Kept codec d log durable → x.Safe d)
    (hpost : ∀ d log' stats, log' <+: log → stats.endLsn = extent log' →
      Settled codec d log' durable → d.walBase = disk.walBase →
        post (log'.filter fun frame => disk.walBase.lsn ≤ frame.record.lsn, stats) d) :
    (recoverFrom codec disk.walBase.lsn).Ensures x post disk := by
  obtain hpersists | ⟨rfl, rfl, rfl⟩ := h
  · exact hpersists.recoverFrom_ensures hboundary (fun d hd _ => hsafe d (.inl hd))
      fun d log' stats hlog' hend hd hbase => hpost d log' stats hlog' hend (.inl hd) hbase
  · have hhere : x.Safe {} := hsafe {} (.inr ⟨rfl, rfl, rfl⟩)
    refine .bind (readBase_ensures hhere rfl (.bind (listSegments_ensures hhere
      walSegments_empty ?_)))
    exact .pure (hpost {} [] _ prefix_rfl rfl (.inr ⟨rfl, rfl, rfl⟩) rfl)

theorem Kept.truncateToLsn_ensures {post : Unit → Disk → Prop} {targetLsn : ℕ}
    (hfail : ∀ n, ¬ x.allowed (.fail n))
    (hlast : ∀ n, x.allowed (.crash n) → disk.laterSegments targetLsn = [])
    (hrefused : ∀ e, x.fault e disk)
    (hdown : ∀ n d, x.allowed (.crash n) → Kept codec d log durable → x.down d)
    (hdown' : ∀ n d, x.allowed (.crash n) → Boundary 0 log targetLsn →
      Kept codec d log (min durable targetLsn) → x.down d)
    (hpost : ∀ d before after, log = before ++ after → extent before = targetLsn →
      Kept codec d before (min durable targetLsn) → post () d) :
    (truncateToLsn codec targetLsn).Ensures x post disk := by
  have hhere : x.Safe disk := ⟨fun e n hn => absurd hn (hfail n), fun n hn => hdown n disk hn h⟩
  obtain ⟨_, _, _, _, hintact, hdurable⟩ | ⟨rfl, rfl, rfl⟩ := h
  · exact hintact.truncateToLsn_ensures hdurable hfail hlast (fun _ => hrefused)
      (fun n d hn hd => hdown n d hn (.inl hd)) (fun n d hn hb hd => hdown' n d hn hb (.inl hd))
      fun d before after hsplit hend hd _ => hpost d before after hsplit hend (.inl hd.persists)
  · refine .bind (readBase_ensures hhere rfl (.bind (listSegments_ensures hhere
      walSegments_empty (.ite (fun _ => ?_) fun hne => absurd rfl hne))))
    refine .ite (fun hzero => .pure ?_) fun _ => .throw (hrefused _)
    exact hpost {} [] [] rfl hzero.symm (.inr ⟨rfl, rfl, Nat.zero_min _⟩)

end

end Directories

namespace Machine

section Steps

variable {machine : Machine Entry} {acked unacked : List (WalRecord Entry)} {world : World}
  {wal : WalHandle} {fate : Fate}

theorem Open.closed (h : Open codec world acked unacked) :
    Closed codec world.disk acked unacked := by
  obtain ⟨log, hrecords, hlive⟩ := h
  exact ⟨log, hrecords, .inl hlive.whole⟩

theorem length_acked_le (h : acked ++ unacked = log.map Frame.record) :
    acked.length ≤ log.length := by
  have := congrArg List.length h
  rw [length_append, length_map] at this
  omega

theorem Closed.stopped (h : Closed codec disk acked unacked) : Stopped codec disk acked unacked := by
  obtain ⟨log, hrecords, hsettled⟩ := h
  exact ⟨log, [], by rw [hrecords, append_nil], forall_mem_nil _,
    length_acked_le hrecords, hsettled.kept⟩

theorem Stopped.crash (h : Stopped codec disk acked unacked) (survivors : ℕ → ℕ) :
    Stopped codec (disk.crash survivors) acked unacked := by
  obtain ⟨log, lost, hrecords, hlost, hle, hkept⟩ := h
  exact ⟨log, lost, hrecords, hlost, hle, hkept.crash survivors⟩

/-- Wherever the machine is, its directory holds what was appended. -/
theorem Holds.stopped (h : machine.Holds codec) :
    Stopped codec machine.disk machine.acked machine.unacked := by
  obtain ⟨disk, wal, recovered, acked, unacked⟩ := machine
  cases wal with
  | some wal => exact (Open.closed h).stopped
  | none =>
    cases recovered with
    | true => exact Closed.stopped h
    | false => exact h

/-- **Recovery of a stopped machine**: the acknowledged records and the first of the
others are there, and the directory can be opened. -/
theorem Stopped.recoverFrom_ensures {x : Program.Exits Disk GaussError}
    (h : Stopped codec disk acked unacked) (hsafe : ∀ d, Stopped codec d acked unacked → x.Safe d)
    (hpost : ∀ d (log : List (Frame Entry)) stats more, more <+: unacked →
      acked ++ more = log.map Frame.record →
      Chained codec disk.walBase.lsn (log.filter fun frame => disk.walBase.lsn ≤ frame.record.lsn) →
      Closed codec d acked more → more = unacked.filter (·.lsn < stats.endLsn) →
        post (log.filter fun frame => disk.walBase.lsn ≤ frame.record.lsn, stats) d) :
    (recoverFrom codec disk.walBase.lsn).Ensures x post disk := by
  obtain ⟨log, lost, hrecords, hlost, hle, hkept⟩ := h
  refine hkept.recoverFrom_ensures ⟨log.take acked.length, log.drop acked.length,
    (take_append_drop _ _).symm, (Nat.zero_add _).symm⟩
    (fun d hd => hsafe d ⟨log, lost, hrecords, hlost, hle, hd⟩) ?_
  rintro d log' stats ⟨torn, rfl⟩ hend hd hbase
  have hchained := hkept.chained
  have hacked := acked_eq hrecords hle
  -- What is synced is within the recovered log.
  have hpre : (log' ++ torn).take acked.length <+: log' := by
    refine prefix_of_extent_le (List.take_prefix _ _) (prefix_append _ _) ?_
    obtain ⟨gone, sealed, active, tail, hintact, hwhole, hdurable⟩ | ⟨-, -, hzero⟩ := hd
    · have := active.synced_le
      rw [hwhole, image_length] at this
      rw [hintact.extent_log]
      omega
    · rw [hzero]
      exact Nat.zero_le _
  have htake : (log' ++ torn).take acked.length = log'.take acked.length := by
    have hlen := hpre.length_le
    rw [length_take, min_eq_left hle] at hlen
    exact take_append_of_le_length hlen
  have hfilter := filter_below hchained hlost
  rw [← hrecords, filter_append, ← hend] at hfilter
  have hkeep : acked.filter (·.lsn < stats.endLsn) = acked := by
    refine filter_eq_self.mpr fun record hmem => ?_
    rw [hacked] at hmem
    obtain ⟨frame, hframe, rfl⟩ := mem_map.mp hmem
    have := (Chained.append_iff.mp hchained).1.lsn_lt frame (hpre.subset hframe)
    exact decide_eq_true (by omega)
  rw [hkeep] at hfilter
  refine hpost d log' stats _ ?_ hfilter (hbase ▸ hd.chained_retained)
    ⟨log', hfilter, htake ▸ hd⟩ rfl
  rw [← prefix_append_right_inj acked, hfilter, hrecords, map_append, append_assoc]
  exact prefix_append _ _

/-- **A call of the handle keeps the machine's records**, given what it ensures. -/
theorem Holds.call {α : Type} {c : Op α} {acked' unacked' pending : List (WalRecord Entry)}
    (h : c.Ensures ⟨(· ∈ fate.events), fun _ w => Open codec w machine.acked machine.unacked,
      fun w => Stopped codec w.disk machine.acked pending⟩
      (fun _ w => Open codec w acked' unacked') world) :
    (machine.call fate (c world fate.events) acked' unacked' pending).Holds codec := by
  exact h.outcome (fun _ he => he) (fun _ _ _ hw => hw) (fun _ _ _ hw => hw)
    fun _ hw => hw.crash fate.survivors

theorem endLsn_eq {durable : ℕ} (h : Live codec world log durable) : world.endLsn = extent log := by
  obtain ⟨-, gone, sealed, active, tail, hattached, -⟩ := h
  have hfile : world.disk.segments[world.wal.fileIndex]? = some active := by
    rw [hattached.fileIndex, hattached.active_lookup]
  rw [World.endLsn, hfile, hattached.baseLsn, hattached.extent_log, Option.elim_some,
    hattached.whole, image_length]

/-- **Append**, synced or not, with a crash anywhere in it. -/
theorem Open.appendInner_ensures (h : Open codec world acked unacked) (entry : Entry)
    (unixMs nonce : ℕ) (andSync : Bool) (hfail : ∀ n, .fail n ∉ fate.events) :
    (appendInner codec entry unixMs nonce andSync).Ensures
      ⟨(· ∈ fate.events), fun _ w => Open codec w acked unacked,
        fun w => Stopped codec w.disk acked (unacked ++ [⟨world.endLsn, unixMs, entry⟩])⟩
      (fun _ w => if andSync then
          Open codec w (acked ++ (unacked ++ [⟨world.endLsn, unixMs, entry⟩])) []
        else Open codec w acked (unacked ++ [⟨world.endLsn, unixMs, entry⟩])) world := by
  obtain ⟨log, hrecords, hlive⟩ := h
  have hend := endLsn_eq hlive
  have hle := length_acked_le hrecords
  have htake : ∀ frame, (log ++ [frame]).take acked.length = log.take acked.length :=
    fun frame => take_append_of_le_length hle
  have hnext : ∀ frame : Frame Entry, frame.record = ⟨extent log, unixMs, entry⟩ →
      acked ++ (unacked ++ [⟨world.endLsn, unixMs, entry⟩]) =
        (log ++ [frame]).map Frame.record := by
    intro frame hframe
    rw [← append_assoc, hrecords, map_append, map_singleton, hframe, hend]
  refine Wal.appendInner_ensures hlive entry unixMs nonce andSync
    (fun _ _ => ⟨log, hrecords, hlive⟩) ⟨fun _ n _ hn => absurd hn (hfail n), ?_⟩ ?_ ?_
  · intro n w _ hw
    refine ⟨log, [⟨world.endLsn, unixMs, entry⟩], ?_, ?_, hle, .inl hw⟩
    · rw [← append_assoc, hrecords]
    · intro record hmem
      rw [mem_singleton.mp hmem, hend]
  · intro n w frame _ hframe hw
    refine ⟨log ++ [frame], [], by rw [hnext frame hframe, append_nil],
      forall_mem_nil _, ?_, .inl (by rw [htake]; exact hw)⟩
    rw [length_append]
    omega
  · intro w frame hframe hw
    cases andSync with
    | false => exact ⟨log ++ [frame], hnext frame hframe, by rw [htake]; exact hw⟩
    | true =>
      refine ⟨log ++ [frame], by rw [append_nil, hnext frame hframe], ?_⟩
      rw [hnext frame hframe, length_map, take_length]
      exact hw

/-- **Every calm call of a handle keeps the machine's records.** -/
theorem Open.callHandle (h : Open codec ⟨machine.disk, wal⟩ machine.acked machine.unacked)
    (hwal : machine.wal = some wal) (action : Action Entry) (hcalm : machine.Calm action fate) :
    (machine.callHandle codec wal action fate).Holds codec := by
  obtain ⟨hfail, hcalm⟩ := hcalm
  have hhere : machine.Holds codec := by
    rw [Holds, hwal]
    exact h
  have hstopped := h.closed.stopped
  -- What a refused call and a crash leave when no record is added.
  have hdown : ∀ log durable, machine.acked ++ machine.unacked = log.map Frame.record →
      durable = extent (log.take machine.acked.length) → ∀ (n : ℕ) (w : World),
      .crash n ∈ fate.events → Persists codec w.disk log durable →
        Stopped codec w.disk machine.acked machine.unacked := by
    intro log durable hrecords hdurable n w _ hw
    exact ⟨log, [], by rw [hrecords, append_nil], forall_mem_nil _,
      length_acked_le hrecords, .inl (hdurable ▸ hw)⟩
  cases action with
  | crash => exact hstopped.crash fate.survivors
  | recover | openWal | truncateToLsn => exact hhere
  | close => exact h.closed
  | append entry unixMs nonce andSync =>
    have happend := h.appendInner_ensures entry unixMs nonce andSync hfail
    cases andSync with
    | false | true => exact Holds.call happend
  | sync =>
    obtain ⟨log, hrecords, hlive⟩ := h
    refine Holds.call (sync_ensures hlive ⟨fun _ n _ hn => absurd hn (hfail n),
      hdown log _ hrecords rfl⟩ fun w hw _ => ⟨log, by rw [append_nil, hrecords], ?_⟩)
    rw [hrecords, length_map, take_length]
    exact hw
  | dropPrefix upToLsn =>
    obtain ⟨log, hrecords, hlive⟩ := h
    exact Holds.call (dropPrefix_ensures hlive upToLsn (fun n hn => absurd hn (hfail n))
      (fun _ w hw => ⟨log, hrecords, hw⟩) ⟨fun _ n _ hn => absurd hn (hfail n),
        hdown log _ hrecords rfl⟩
      fun w hw => ⟨log, hrecords, hw.weaken (extent_mono (List.take_prefix _ _))⟩)
  | reset =>
    obtain ⟨log, hrecords, hlive⟩ := h
    refine Holds.call (reset_ensures hlive ?_ (fun _ => ⟨log, hrecords, hlive⟩)
      ⟨fun _ n _ hn => absurd hn (hfail n), hdown log _ hrecords rfl⟩
      fun w hw => ⟨log, hrecords, hw.weaken (extent_mono (List.take_prefix _ _))⟩)
    intro n hn file hfile
    exact hcalm ⟨n, hn⟩ wal hwal file hfile

theorem Stopped.truncateToLsn_ensures (h : Stopped codec disk acked unacked) (targetLsn : ℕ)
    (hfail : ∀ n, .fail n ∉ fate.events)
    (hlast : ∀ n, .crash n ∈ fate.events → disk.laterSegments targetLsn = []) :
    (Wal.truncateToLsn codec targetLsn).Ensures
      ⟨(· ∈ fate.events), fun _ d => Stopped codec d acked unacked,
        fun d => Stopped codec d (acked.filter (·.lsn < targetLsn))
          (acked.filter (targetLsn ≤ ·.lsn) ++ unacked)⟩
      (fun _ d => Stopped codec d (acked.filter (·.lsn < targetLsn))
        (unacked.filter (·.lsn < targetLsn))) disk := by
  obtain ⟨log, lost, hrecords, hlost, hle, hkept⟩ := id h
  have hchained := hkept.chained
  have hshorter : (acked.filter (·.lsn < targetLsn)).length ≤ acked.length :=
    length_filter_le _ _
  -- Once started, the truncation may lose acknowledged records above its target.
  have hsplit : acked.filter (·.lsn < targetLsn) ++
      (acked.filter (targetLsn ≤ ·.lsn) ++ unacked) = log.map Frame.record ++ lost := by
    have hacked := acked_eq hrecords hle
    have hchained' : Chained codec 0 (log.take acked.length) := by
      rw [← take_append_drop acked.length log] at hchained
      exact (Chained.append_iff.mp hchained).1
    have hparts := filter_lt_append_filter_le hchained' targetLsn
    rw [← hacked] at hparts
    rw [← append_assoc, hparts, hrecords]
  have hdurable : extent (log.take (acked.filter (·.lsn < targetLsn)).length) ≤
      extent (log.take acked.length) :=
    extent_mono (List.take_prefix_take_left hshorter)
  -- Below a boundary, at most the frames before it are acknowledged.
  have hbefore : ∀ before after, log = before ++ after → extent before = targetLsn →
      (acked.filter (·.lsn < targetLsn)).length ≤ before.length := by
    rintro before after rfl rfl
    have hfilter := filter_below hchained hlost
    rw [← hrecords, filter_append] at hfilter
    have hlength := congrArg List.length hfilter
    rw [length_append, length_map] at hlength
    omega
  refine hkept.truncateToLsn_ensures hfail hlast (fun _ => h) ?_ ?_ ?_
  · intro n d _ hd
    exact ⟨log, lost, hsplit, hlost, hshorter.trans hle, hd.weaken hdurable⟩
  · intro n d _ hboundary hd
    refine ⟨log, lost, hsplit, hlost, hshorter.trans hle, hd.weaken (le_min hdurable ?_)⟩
    obtain ⟨before, after, hlog, htarget⟩ := hboundary
    rw [Nat.zero_add] at htarget
    have hlength := hbefore before after hlog htarget.symm
    rw [hlog, take_append_of_le_length hlength, htarget]
    exact extent_mono (List.take_prefix _ _)
  · rintro d before after hlog htarget hd
    have hlength := hbefore before after hlog htarget
    subst hlog
    refine ⟨before, [], ?_, forall_mem_nil _, hlength, hd.weaken ?_⟩
    · rw [← filter_append, hrecords, ← htarget, filter_below hchained hlost, append_nil]
    · rw [take_append_of_le_length hlength] at hdurable
      exact le_min hdurable (htarget ▸ extent_mono (List.take_prefix _ _))

/-- **Every calm action on a directory without a handle keeps the machine's records.** -/
theorem Holds.callDirectory (h : machine.Holds codec) (hwal : machine.wal = none)
    (action : Action Entry) (hcalm : machine.Calm action fate) :
    (machine.callDirectory codec action fate).Holds codec := by
  obtain ⟨hfail, hcalm⟩ := hcalm
  have hstopped := h.stopped
  have hleft : ∀ d, Stopped codec d machine.acked machine.unacked →
      Holds codec { machine with disk := d, recovered := false } := by
    intro d hd
    rw [Holds, hwal]
    exact hd
  cases action with
  | crash => exact hstopped.crash fate.survivors
  | recover =>
    have hrecover : (recoverFrom codec machine.disk.walBase.lsn).Ensures
        ⟨(· ∈ fate.events), fun _ d => Stopped codec d machine.acked machine.unacked,
          fun d => Stopped codec d machine.acked machine.unacked⟩
        (fun r d => Closed codec d machine.acked
          (machine.unacked.filter (·.lsn < r.2.endLsn))) machine.disk :=
      hstopped.recoverFrom_ensures (fun d hd => ⟨fun _ n hn => absurd hn (hfail n), fun _ _ => hd⟩)
        fun d log stats more _ _ _ hclosed hmore => hmore ▸ hclosed
    rw [Machine.callDirectory]
    exact hrecover.outcome (fun _ he => he) (fun _ _ _ hd => hd) (fun _ d _ hd => hleft d hd)
      fun _ hd => hd.crash fate.survivors
  | openWal segmentBytes =>
    rw [Machine.callDirectory]
    cases hrecovered : machine.recovered with
    | false => exact h
    | true =>
      rw [Holds, hwal, hrecovered] at h
      obtain ⟨log, hrecords, hsettled⟩ := h
      have hstop : ∀ d, Settled codec d log (extent (log.take machine.acked.length)) →
          Stopped codec d machine.acked machine.unacked := fun d hd =>
        Closed.stopped ⟨log, hrecords, hd⟩
      have hopen : (openWithSegmentBytes segmentBytes).Ensures
          ⟨(· ∈ fate.events), fun _ d => Stopped codec d machine.acked machine.unacked,
            fun d => Stopped codec d machine.acked machine.unacked⟩
          (fun wal d => Open codec ⟨d, wal⟩ machine.acked machine.unacked) machine.disk :=
        hsettled.open_ensures segmentBytes
          (fun d hd => ⟨fun _ n hn => absurd hn (hfail n), fun _ _ => hstop d hd⟩)
          fun wal d hlive => ⟨log, hrecords, hlive⟩
      rw [if_pos rfl]
      exact hopen.outcome (fun _ he => he) (fun _ _ _ hw => hw) (fun _ d _ hd => hleft d hd)
        fun _ hd => hd.crash fate.survivors
  | close | append | sync | dropPrefix | reset => exact h
  | truncateToLsn targetLsn =>
    have htruncate := hstopped.truncateToLsn_ensures targetLsn hfail fun n hn => hcalm ⟨n, hn⟩
    rw [Machine.callDirectory]
    exact htruncate.outcome (fun _ he => he) (fun _ _ _ hd => hd) (fun _ d _ hd => hleft d hd)
      fun _ hd => hd.crash fate.survivors

theorem Holds.step (h : machine.Holds codec) {action : Action Entry}
    (hcalm : machine.Calm action fate) : (machine.step codec action fate).Holds codec := by
  rw [Machine.step]
  cases hwal : machine.wal with
  | none => exact h.callDirectory hwal action hcalm
  | some wal =>
    rw [Holds, hwal] at h
    exact Open.callHandle h hwal action hcalm

theorem Holds.run (h : machine.Holds codec) {actions : List (Action Entry × Fate)}
    (hcalm : machine.CalmRun codec actions) : (machine.run codec actions).Holds codec := by
  induction actions generalizing machine with
  | nil => exact h
  | cons action actions ih => exact ih (h.step hcalm.1) hcalm.2

theorem holds_new : (new : Machine Entry).Holds codec :=
  ⟨[], rfl, .inr ⟨rfl, rfl, rfl⟩⟩

theorem Holds.recovers (h : machine.Holds codec) : machine.Recovers codec := by
  have hrecover : (recoverFrom codec machine.disk.walBase.lsn).Ensures Program.quiet
      (fun r d => ∃ (log : List (Frame Entry)) (more : List (WalRecord Entry)),
          more <+: machine.unacked ∧
        machine.acked ++ more = log.map Frame.record ∧
        Chained codec machine.disk.walBase.lsn r.1 ∧ Closed codec d machine.acked more ∧
          r.1 = log.filter fun frame => machine.disk.walBase.lsn ≤ frame.record.lsn)
      machine.disk :=
    h.stopped.recoverFrom_ensures (fun d _ => Program.safe_quiet d)
      fun d log stats more hmore hrecords hchained hclosed _ =>
        ⟨log, more, hmore, hrecords, hchained, hclosed, rfl⟩
  obtain ⟨⟨frames, stats⟩, d, rest, hrun, log, more, hmore, hrecords, hchained, hclosed, hframes⟩ :=
    hrecover.returns
  refine ⟨frames, stats, d, rest, hrun, ?_, hchained,
    more.filter (machine.disk.walBase.lsn ≤ ·.lsn), hmore.filter _, ?_⟩
  · intro segmentBytes
    obtain ⟨log', -, hsettled⟩ := hclosed
    have hopen :=
      hsettled.open_ensures segmentBytes (fun d _ => Program.safe_quiet d) fun _ _ _ => trivial
    obtain ⟨wal, d', rest', hrun', -⟩ := hopen.returns
    exact ⟨wal, d', rest', hrun'⟩
  · change frames = _ at hframes
    rw [← filter_append, hrecords, hframes, filter_map]
    rfl


end Steps

end Machine

end ChironDB.Wal
