/-
# File-system errors without a crash

A client calls the methods of one `Wal` handle, and any file-system step of any call
may return an error.  `Session` is the handle with what the client was told: the
entry, the time and the end LSN of every append that returned `Ok`.

After every call the handle should be poisoned, so that appends are refused from
then on, or a recovery from the retained base should return exactly the appended
records with the LSNs that were reported (`Session.Sound`).  That is so in every run
in which no step fails inside a rotation made by `drop_prefix` or
`freeze_archive_cut` (`Session.Calm`): those two call `rotate` with `?`, and `rotate`
moves the handle's base LSN and active index before the new segment exists.  When its
creation fails there, the next append is acknowledged and makes the log unreadable.
-/

import ChironDB.Wal.Methods

namespace ChironDB.Wal

open Codec Fault

variable {Entry : Type} (codec : RecordCodec Entry)

/-- An append that returned `Ok`. -/
structure Ack (Entry : Type) where
  entry : Entry
  unixMs : ℕ
  endLsn : ℕ
  deriving DecidableEq, Repr

/-- What is reported for a frame. -/
def Frame.ack (frame : Frame Entry) : Ack Entry :=
  ⟨frame.record.entry, frame.record.unixMs, frame.record.lsn + frame.size⟩

/-- The calls of a client. -/
inductive Call (Entry : Type)
  | append (entry : Entry) (unixMs nonce : ℕ) (andSync : Bool)
  | sync
  | dropPrefix (upToLsn : ℕ)
  | reset
  | freezeArchiveCut (endLsn : ℕ)
  deriving DecidableEq, Repr

/-- An open handle and the appends it has acknowledged. -/
structure Session (Entry : Type) where
  world : World
  acks : List (Ack Entry)

namespace Session

/-- One call, with the events of its file-system steps. -/
def step (session : Session Entry) (call : Call Entry) (events : List Event) : Session Entry :=
  match call with
  | .append entry unixMs nonce andSync =>
    match appendInner codec entry unixMs nonce andSync session.world events with
    | .done endLsn world _ => ⟨world, session.acks ++ [⟨entry, unixMs, endLsn⟩]⟩
    | .error _ world _ => ⟨world, session.acks⟩
    | .crashed world => ⟨world, session.acks⟩
  | .sync => ⟨(Wal.sync session.world events).final, session.acks⟩
  | .dropPrefix upToLsn => ⟨(Wal.dropPrefix codec upToLsn session.world events).final, session.acks⟩
  | .reset => ⟨(Wal.reset session.world events).final, session.acks⟩
  | .freezeArchiveCut endLsn =>
    ⟨(Wal.freezeArchiveCut endLsn session.world events).final, session.acks⟩

/-- A run of calls. -/
def run (session : Session Entry) : List (Call Entry × List Event) → Session Entry
  | [] => session
  | (call, events) :: calls => (session.step codec call events).run calls

/-- No step fails inside a rotation that `drop_prefix` or `freeze_archive_cut` makes,
and the machine does not stop. -/
def Calm (session : Session Entry) (call : Call Entry) (events : List Event) : Prop :=
  (∀ n, .crash n ∉ events) ∧
    match call with
    | .dropPrefix upToLsn => DropRotates session.world upToLsn → ∀ n, .fail n ∉ events
    | .freezeArchiveCut endLsn => FreezeRotates session.world endLsn → ∀ n, .fail n ∉ events
    | _ => True

/-- Every call of a run is calm where it is made. -/
def CalmRun (session : Session Entry) : List (Call Entry × List Event) → Prop
  | [] => True
  | (call, events) :: calls =>
    session.Calm call events ∧ (session.step codec call events).CalmRun calls

/-- The handle is poisoned and refuses every append, or a recovery from the retained
base returns the retained appends as they were acknowledged, with contiguous LSNs. -/
def Sound (session : Session Entry) : Prop :=
  (session.world.wal.poisoned = true ∧ ∀ entry unixMs nonce andSync events, ∃ e,
    appendInner codec entry unixMs nonce andSync session.world events =
      .error e session.world events) ∨
  ∃ frames stats disk rest, recoverFrom codec session.world.disk.walBase.lsn session.world.disk [] =
      .done (frames, stats) disk rest ∧
    frames.map Frame.ack =
      session.acks.filter (fun ack => session.world.disk.walBase.lsn < ack.endLsn) ∧
    Chained codec session.world.disk.walBase.lsn frames

/-- What the calls keep: the handle is poisoned, or live on the log of all appends. -/
def Consistent (session : Session Entry) : Prop :=
  session.world.wal.poisoned = true ∨
    ∃ log durable, Live codec session.world log durable ∧ session.acks = log.map Frame.ack

end Session

variable {codec}

section Steps

theorem ensureAvailable_poisoned {α : Type} {world : World} (h : world.wal.poisoned = true)
    (f : Unit → Op α) (events : List Event) :
    ∃ e, (ensureAvailable >>= f) world events = .error e world events := by
  refine ⟨_, Program.bind_of_error (?_ : ensureAvailable world events =
    .error (.walUnavailable "previous WAL write or sync failure poisoned this handle") world
      events)⟩
  change (Program.require (world.wal.poisoned = false) _) world events = _
  rw [h]
  rfl

variable {session : Session Entry}

theorem Session.step_poisoned (h : session.world.wal.poisoned = true)
    (call : Call Entry) (events : List Event) : session.step codec call events = session := by
  have hstays : ∀ {α : Type} (f : Unit → Op α),
      ((ensureAvailable >>= f) session.world events).final = session.world := by
    intro α f
    obtain ⟨e, he⟩ := ensureAvailable_poisoned h f events
    rw [he, Outcome.final]
  cases call with
  | append entry unixMs nonce andSync =>
    obtain ⟨e, he⟩ : ∃ e, appendInner codec entry unixMs nonce andSync session.world events =
      .error e session.world events := ensureAvailable_poisoned h _ events
    rw [step]
    simp only [he]
  | sync | dropPrefix | reset | freezeArchiveCut =>
    exact congrArg (Session.mk · session.acks) (hstays _)

theorem ack_last {log : List (Frame Entry)} {frame : Frame Entry} {unixMs : ℕ} {entry : Entry}
    (h : frame.record = ⟨extent log, unixMs, entry⟩) :
    frame.ack = ⟨entry, unixMs, extent (log ++ [frame])⟩ := by
  rw [Frame.ack, h, extent_concat]

section

variable (h : session.Consistent codec)
include h

/-- **Every calm call keeps the session consistent.** -/
theorem Session.Consistent.step
    {call : Call Entry} {events : List Event} (hcalm : session.Calm call events) :
    (session.step codec call events).Consistent codec := by
  obtain hpoisoned | ⟨log, durable, hlive, hacks⟩ := h
  · rw [step_poisoned hpoisoned]
    exact .inl hpoisoned
  -- An outcome that is poisoned or live on the same log.
  let x : Program.Exits World GaussError :=
    ⟨(· ∈ events), fun _ w => w.wal.poisoned = true ∨ Live codec w log durable, fun _ => False⟩
  have hrefused : ∀ e w, Live codec w log durable → x.fault e w := fun _ _ hw => .inr hw
  have hbears : Bears codec x log durable :=
    ⟨fun _ _ _ _ hw => .inl hw, fun n _ hn _ => absurd hn (hcalm.1 n)⟩
  have hfinal : ∀ {α : Type} {c : Op α} {post : α → World → Prop}, c.Ensures x post session.world →
      (∀ a w, post a w → ∃ d, Live codec w log d) →
        (⟨(c session.world events).final, session.acks⟩ : Session Entry).Consistent codec := by
    intro α c post hc hpost
    refine hc.outcome (fun _ he => he) (fun a w _ hw => ?_)
      (fun _ _ _ hw => hw.imp id fun hw => ⟨log, durable, hw, hacks⟩) fun _ hw => hw.elim
    obtain ⟨d, hd⟩ := hpost a w hw
    exact .inr ⟨log, d, hd, hacks⟩
  cases call with
  | append entry unixMs nonce andSync =>
    have happend : (appendInner codec entry unixMs nonce andSync).Ensures x
        (fun endLsn w => ∃ log' d, Live codec w log' d ∧
          session.acks ++ [⟨entry, unixMs, endLsn⟩] = log'.map Frame.ack) session.world :=
      appendInner_ensures hlive entry unixMs nonce andSync (fun _ e => hrefused e _ hlive) hbears
        (fun n _ _ hn _ _ => absurd hn (hcalm.1 n)) fun w frame hframe hw => ⟨_, _, hw, by
          rw [hacks, List.map_append, List.map_singleton, ack_last hframe]⟩
    rw [Session.step]
    exact happend.outcome (fun _ he => he) (fun _ _ _ hw => .inr hw)
      (fun _ _ _ hw => hw.imp id fun hw => ⟨log, durable, hw, hacks⟩) fun _ hw => hw.elim
  | sync =>
    exact hfinal (sync_ensures hlive hbears fun w hw _ => hw) fun _ w hw => ⟨_, hw⟩
  | dropPrefix upToLsn =>
    exact hfinal (dropPrefix_ensures hlive upToLsn
      (fun n hn hrot => hcalm.2 hrot n hn) hrefused hbears fun w hw => hw)
      fun _ w hw => ⟨_, hw⟩
  | reset =>
    exact hfinal (reset_ensures hlive (fun n hn => absurd hn (hcalm.1 n))
      (fun e => hrefused e _ hlive) hbears fun w hw => hw) fun _ w hw => ⟨_, hw⟩
  | freezeArchiveCut endLsn =>
    exact hfinal (freezeArchiveCut_ensures hlive endLsn
      (fun n hn hrot => hcalm.2 hrot n hn) hrefused hbears fun _ w hw => hw)
      fun _ w hw => ⟨_, hw⟩

theorem Session.Consistent.run
    {calls : List (Call Entry × List Event)} (hcalm : session.CalmRun codec calls) :
    (session.run codec calls).Consistent codec := by
  induction calls generalizing session with
  | nil => exact h
  | cons call calls ih => exact ih (h.step hcalm.1) hcalm.2

theorem Session.Consistent.sound :
    session.Sound codec := by
  obtain hpoisoned | ⟨log, durable, hlive, hacks⟩ := h
  · exact .inl ⟨hpoisoned, fun entry unixMs nonce andSync events =>
      ensureAvailable_poisoned hpoisoned _ events⟩
  · obtain ⟨stats, d, rest, hrecover⟩ := hlive.whole.recoverFrom_returns
    obtain ⟨-, _, _, _, _, hattached, -⟩ := hlive
    refine .inr ⟨_, stats, d, rest, hrecover, ?_, hattached.toIntact.chained_retained⟩
    rw [hacks, List.filter_map]
    congr 1
    refine List.filter_congr fun frame hmem => ?_
    exact decide_eq_decide.mpr (hattached.toIntact.retained_iff hmem)

end

/-- A handle opened on a new directory. -/
def Session.new (segmentBytes : ℕ) : Session ℕ :=
  match openWithSegmentBytes segmentBytes {} [] with
  | .done wal disk _ => ⟨⟨disk, wal⟩, []⟩
  | .error _ disk _ => ⟨⟨disk, ⟨0, 0, 0, segmentBytes, true, 0⟩⟩, []⟩
  | .crashed disk => ⟨⟨disk, ⟨0, 0, 0, segmentBytes, true, 0⟩⟩, []⟩

end Steps

end ChironDB.Wal
