/-
# Identities of nodes and edges

`graph_identity.rs`: a database allocates the identities of its nodes and edges as pairs of an
epoch and a counter.  One small file keeps the identity of the database, the epoch and how far the
two counters are reserved; opening it burns an epoch, and a range is reserved in blocks before any
of it is handed out.

A restore of the legacy layout (`db.rs`) writes the live identity into the staged root, exchanges
the two roots, and may exchange them back; an interrupted one is completed or undone before the
identity is opened again.  It holds the maintenance barrier throughout, so no other restore burns
an epoch in the meantime.

**No identity is allocated twice**, whatever the writes, stops and power losses do.
-/

import ChironDB.Codec.Framing
import ChironDB.Fault.Result
import ChironDB.Fault.Slot
import Mathlib.Data.List.SplitLengths
import Mathlib.Data.Vector.Basic

namespace ChironDB.Graph

open Codec Fault List

/-- The bytes of a UUID. -/
abbrev Uuid := List.Vector UInt8 16

/-- `Uuid::nil`. -/
def Uuid.nil : Uuid := List.Vector.replicate 16 0

inductive GaussError
  | io
  | allocatorExhausted (message : String)
  | segmentCorruption (message : String)
  deriving DecidableEq, Repr

abbrev Result := Except GaussError

def graphAllocatorMaxEpoch : ℕ := 2 ^ 24 - 1

def graphAllocatorMaxCounter : ℕ := 2 ^ 40 - 1

def maxGraphEdgesPerBatch : ℕ := 4096

structure GraphIdentitySnapshot where
  databaseId : Uuid
  allocatorEpoch : ℕ
  nodeHighWater : ℕ
  edgeHighWater : ℕ
  deriving DecidableEq

variable {uuid : Uuid}

namespace GraphIdentitySnapshot

/-- `fresh`, with the UUID that is drawn. -/
def fresh (uuid : Uuid) : GraphIdentitySnapshot := ⟨uuid, 1, 0, 0⟩

def successorEpoch (self : GraphIdentitySnapshot) : Result GraphIdentitySnapshot :=
  if 2 ^ 32 ≤ self.allocatorEpoch + 1 then
    .error (.allocatorExhausted "graph allocator epoch space is exhausted")
  else if self.allocatorEpoch + 1 > graphAllocatorMaxEpoch then
    .error (.allocatorExhausted "graph allocator epoch space is exhausted")
  else .ok ⟨self.databaseId, self.allocatorEpoch + 1, 0, 0⟩

/-- What `decode` accepts. -/
structure Valid (state : GraphIdentitySnapshot) : Prop where
  named : state.databaseId ≠ Uuid.nil
  epoch_pos : 0 < state.allocatorEpoch
  epoch : state.allocatorEpoch ≤ graphAllocatorMaxEpoch
  node : state.nodeHighWater ≤ graphAllocatorMaxCounter
  edge : state.edgeHighWater ≤ graphAllocatorMaxCounter

variable {self next : GraphIdentitySnapshot}

theorem successorEpoch_eq_ok (h : self.successorEpoch = .ok next) :
    next = ⟨self.databaseId, self.allocatorEpoch + 1, 0, 0⟩ ∧
      self.allocatorEpoch + 1 ≤ graphAllocatorMaxEpoch := by
  rw [successorEpoch] at h
  split at h
  · cases h
  · split at h
    · cases h
    · next hmax =>
      cases h
      exact ⟨rfl, by omega⟩

theorem Valid.successor (h : self.Valid) (hnext : self.successorEpoch = .ok next) : next.Valid := by
  obtain ⟨rfl, hmax⟩ := successorEpoch_eq_ok hnext
  exact ⟨h.named, Nat.succ_pos _, hmax, Nat.zero_le _, Nat.zero_le _⟩

theorem valid_fresh (h : uuid ≠ Uuid.nil) : (fresh uuid).Valid :=
  ⟨h, Nat.one_pos, (by decide : 1 ≤ graphAllocatorMaxEpoch), Nat.zero_le _, Nat.zero_le _⟩

end GraphIdentitySnapshot

/-! ## The file -/

/-- `GRAPH_IDENTITY_MAGIC`. -/
def graphIdentityMagic : Bytes := [71, 65, 85, 83, 71, 73, 48, 49]

def graphIdentityVersion : ℕ := 1

def graphIdentityBytes : ℕ := 64

variable {state : GraphIdentitySnapshot}

section File

-- `crc_fast::crc32_iscsi`
variable (crc : Bytes → UInt32)

/-- The fields of the file up to its checksum. -/
def encodeBody (state : GraphIdentitySnapshot) : List Bytes :=
  [graphIdentityMagic, leBytes 2 graphIdentityVersion, leBytes 2 graphIdentityBytes,
    List.replicate 4 0, state.databaseId.toList, leBytes 4 state.allocatorEpoch,
    List.replicate 4 0, leBytes 8 state.nodeHighWater, leBytes 8 state.edgeHighWater,
    List.replicate 4 0]

def encode (state : GraphIdentitySnapshot) : Bytes :=
  (encodeBody state ++ [leBytes 4 (crc (encodeBody state).flatten).toNat]).flatten

/-- The database of a file. -/
def decodeUuid (bytes : Bytes) : Result Uuid :=
  if h : bytes.length = 16 then .ok ⟨bytes, h⟩
  else .error (.segmentCorruption "invalid graph database UUID")

def decode (bytes : Bytes) : Result GraphIdentitySnapshot := do
  ensure (bytes.length = graphIdentityBytes)
    (.segmentCorruption "identity plaintext length is not 64 bytes")
  ensure (field bytes 0 8 = graphIdentityMagic) (.segmentCorruption "bad graph identity magic")
  ensure (ofLeBytes (field bytes 8 2) = graphIdentityVersion)
    (.segmentCorruption "unsupported graph identity version")
  ensure (ofLeBytes (field bytes 10 2) = graphIdentityBytes)
    (.segmentCorruption "graph identity header length mismatch")
  ensure (field bytes 12 4 = List.replicate 4 0 && field bytes 36 4 = List.replicate 4 0 &&
      field bytes 56 4 = List.replicate 4 0)
    (.segmentCorruption "unknown graph identity flags or reserved fields")
  ensure ((crc (field bytes 0 60)).toNat = ofLeBytes (field bytes 60 4))
    (.segmentCorruption "graph identity CRC32C mismatch")
  let databaseId ← decodeUuid (field bytes 16 16)
  ensure (databaseId ≠ Uuid.nil) (.segmentCorruption "graph database UUID is nil")
  let allocatorEpoch := ofLeBytes (field bytes 32 4)
  let nodeHighWater := ofLeBytes (field bytes 40 8)
  let edgeHighWater := ofLeBytes (field bytes 48 8)
  ensure (allocatorEpoch ≠ 0 && allocatorEpoch ≤ graphAllocatorMaxEpoch)
    (.segmentCorruption "allocator epoch is outside the 24-bit range")
  ensure (nodeHighWater ≤ graphAllocatorMaxCounter && edgeHighWater ≤ graphAllocatorMaxCounter)
    (.segmentCorruption "allocator high water is outside the 40-bit range")
  pure ⟨databaseId, allocatorEpoch, nodeHighWater, edgeHighWater⟩

variable {crc}

theorem valid_of_decode {bytes : Bytes} (h : decode crc bytes = .ok state) : state.Valid := by
  simp only [decode, eq_ok] at h
  obtain ⟨-, -, -, -, -, -, id, -, hid, hepoch, hcounters, rfl⟩ := h
  exact ⟨hid, Nat.pos_of_ne_zero hepoch.1, hepoch.2, hcounters.1, hcounters.2⟩

theorem encodeBody_length (state : GraphIdentitySnapshot) :
    (encodeBody state).flatten.length = 60 := by
  simp [encodeBody, graphIdentityMagic]

theorem decodeUuid_toList (uuid : Uuid) : decodeUuid uuid.toList = .ok uuid := by
  rw [decodeUuid, dif_pos uuid.toList_length]
  rfl

theorem field_encode (crc : Bytes → UInt32) (state : GraphIdentitySnapshot) :
    field (encode crc state) 0 8 = graphIdentityMagic ∧
      field (encode crc state) 8 2 = leBytes 2 graphIdentityVersion ∧
      field (encode crc state) 10 2 = leBytes 2 graphIdentityBytes ∧
      (field (encode crc state) 12 4 = List.replicate 4 0 ∧
        field (encode crc state) 36 4 = List.replicate 4 0 ∧
        field (encode crc state) 56 4 = List.replicate 4 0) ∧
      field (encode crc state) 0 60 = (encodeBody state).flatten ∧
      field (encode crc state) 60 4 = leBytes 4 (crc (encodeBody state).flatten).toNat ∧
      field (encode crc state) 16 16 = state.databaseId.toList ∧
      field (encode crc state) 32 4 = leBytes 4 state.allocatorEpoch ∧
      field (encode crc state) 40 8 = leBytes 8 state.nodeHighWater ∧
      field (encode crc state) 48 8 = leBytes 8 state.edgeHighWater := by
  have hbody : field (encode crc state) 0 60 = (encodeBody state).flatten := by
    rw [encode, flatten_append, field, drop_zero, ← encodeBody_length state, take_left]
  refine ⟨field_flatten (i := 0) rfl rfl rfl, field_flatten (i := 1) rfl rfl rfl,
    field_flatten (i := 2) rfl rfl rfl, ⟨field_flatten (i := 3) rfl rfl rfl,
      field_flatten (i := 6) rfl ?_ rfl, field_flatten (i := 9) rfl ?_ rfl⟩, hbody,
    field_flatten (i := 10) rfl ?_ rfl,
    field_flatten (i := 4) rfl rfl state.databaseId.toList_length,
    field_flatten (i := 5) rfl ?_ rfl, field_flatten (i := 7) rfl ?_ rfl,
    field_flatten (i := 8) rfl ?_ rfl⟩
  all_goals simp [encodeBody, graphIdentityMagic]

/-- **A valid identity reads back.** -/
theorem decode_encode (h : state.Valid) :
    decode crc (encode crc state) = .ok state := by
  have hlength : (encode crc state).length = graphIdentityBytes := by
    rw [encode, flatten_append, length_append, encodeBody_length]
    rfl
  have hepoch : ofLeBytes (leBytes 4 state.allocatorEpoch) = state.allocatorEpoch :=
    ofLeBytes_leBytes _ _ (h.epoch.trans_lt (by decide))
  have hnode : ofLeBytes (leBytes 8 state.nodeHighWater) = state.nodeHighWater :=
    ofLeBytes_leBytes _ _ (h.node.trans_lt (by decide))
  have hedge : ofLeBytes (leBytes 8 state.edgeHighWater) = state.edgeHighWater :=
    ofLeBytes_leBytes _ _ (h.edge.trans_lt (by decide))
  have hcrc := ofLeBytes_leBytes 4 _ (crc (encodeBody state).flatten).toNat_lt
  obtain ⟨h0, h8, h10, ⟨h12, h36, h56⟩, hbody, h60, h16, h32, h40, h48⟩ :=
    field_encode crc state
  simp only [decode, eq_ok]
  rw [h0, h8, h10, h12, h36, h56, hbody, h60, h16, h32, h40, h48, hepoch, hnode, hedge, hcrc]
  exact ⟨hlength, rfl, rfl, rfl, ⟨⟨rfl, rfl⟩, rfl⟩, rfl, state.databaseId,
    decodeUuid_toList state.databaseId, h.named, ⟨h.epoch_pos.ne', h.epoch⟩, ⟨h.node, h.edge⟩, rfl⟩

/-- **An identity file has one form.**  A file is read as an identity exactly when the identity is
valid and the file is, byte for byte, the one written for it. -/
theorem decode_eq_ok_iff {bytes : Bytes} :
    decode crc bytes = .ok state ↔ state.Valid ∧ bytes = encode crc state := by
  refine ⟨fun h => ⟨valid_of_decode h, ?_⟩, fun h => h.2 ▸ decode_encode h.1⟩
  simp only [decode, eq_ok] at h
  obtain ⟨hlength, h0, h8, h10, ⟨⟨h12, h36⟩, h56⟩, hcrc, id, hid, -, -, -, hs⟩ := h
  have hle (offset width : ℕ) (h : offset + width ≤ 64) :
      leBytes width (ofLeBytes (field bytes offset width)) = field bytes offset width := by
    have hwidth : (field bytes offset width).length = width := by
      simp only [field, length_take, length_drop, hlength, graphIdentityBytes]
      omega
    simpa only [hwidth] using leBytes_ofLeBytes (field bytes offset width)
  rw [decodeUuid] at hid
  split at hid <;> cases hid
  -- the fields of a file are the whole file
  have hbytes := flatten_splitLengths bytes [8, 2, 2, 4, 16, 4, 4, 8, 8, 4, 4] hlength.le
  have hbody : (encodeBody state).flatten ++ field bytes 60 4 = bytes := by
    rw [← hs, encodeBody, ← h8, ← h10, hle 8 2 (by decide), hle 10 2 (by decide)]
    simp_all [field]
  have hfield : field bytes 0 60 = (encodeBody state).flatten := by
    rw [← hbody, ← encodeBody_length state]
    exact take_left
  rw [encode, flatten_append, ← hfield, hcrc, flatten_singleton, hle 60 4 le_rfl, hfield, hbody]

end File

/-! ## The allocator -/

inductive CounterKind
  | node
  | edge
  deriving DecidableEq, Repr

namespace GraphIdentitySnapshot

def highWater (self : GraphIdentitySnapshot) : CounterKind → ℕ
  | .node => self.nodeHighWater
  | .edge => self.edgeHighWater

def setHighWater (self : GraphIdentitySnapshot) (value : ℕ) :
    CounterKind → GraphIdentitySnapshot
  | .node => { self with nodeHighWater := value }
  | .edge => { self with edgeHighWater := value }

section

variable (self : GraphIdentitySnapshot) (value : ℕ) (kind : CounterKind)

@[simp] theorem setHighWater_databaseId :
    (self.setHighWater value kind).databaseId = self.databaseId := by
  cases kind <;> rfl

@[simp] theorem setHighWater_allocatorEpoch :
    (self.setHighWater value kind).allocatorEpoch = self.allocatorEpoch := by
  cases kind <;> rfl

theorem highWater_setHighWater (other : CounterKind) :
    (self.setHighWater value kind).highWater other =
      if other = kind then value else self.highWater other := by
  cases kind <;> cases other <;> rfl

end

theorem Valid.setHighWater (h : state.Valid) {value : ℕ}
    (hvalue : value ≤ graphAllocatorMaxCounter) (kind : CounterKind) :
    (state.setHighWater value kind).Valid := by
  cases kind with
  | node => exact ⟨h.named, h.epoch_pos, h.epoch, hvalue, h.edge⟩
  | edge => exact ⟨h.named, h.epoch_pos, h.epoch, h.node, hvalue⟩

end GraphIdentitySnapshot

structure AllocatorState where
  issued : GraphIdentitySnapshot
  nodeReserved : ℕ
  edgeReserved : ℕ
  deriving DecidableEq

namespace AllocatorState

def new (issued : GraphIdentitySnapshot) : AllocatorState :=
  ⟨issued, issued.nodeHighWater, issued.edgeHighWater⟩

def durableSnapshot (self : AllocatorState) : GraphIdentitySnapshot :=
  { self.issued with nodeHighWater := self.nodeReserved, edgeHighWater := self.edgeReserved }

def reserved (self : AllocatorState) : CounterKind → ℕ
  | .node => self.nodeReserved
  | .edge => self.edgeReserved

end AllocatorState

structure AllocatedGraphIdRange where
  epoch : ℕ
  firstCounter : ℕ
  lastCounter : ℕ
  deriving DecidableEq, Repr

/-- Some identity is in both ranges. -/
def AllocatedGraphIdRange.Overlaps (a b : AllocatedGraphIdRange) : Prop :=
  a.epoch = b.epoch ∧ ∃ counter, (a.firstCounter ≤ counter ∧ counter ≤ a.lastCounter) ∧
    b.firstCounter ≤ counter ∧ counter ≤ b.lastCounter

def exhausted : GaussError := .allocatorExhausted "graph allocator counter space is exhausted"

/-- A file that may be missing. -/
abbrev File := Slot (Option Bytes)

section Allocator

variable (crc : Bytes → UInt32)

/-- `write_state`. -/
def writeState (file : File) (state : GraphIdentitySnapshot) (writing : Replacing) : File :=
  file.replace (some (encode crc state)) writing

/-- The state `open` reserves, from what it reads and the UUID it draws. -/
def openState (file : Option Bytes) (uuid : Uuid) : Result GraphIdentitySnapshot :=
  match file with
  | some bytes => decode crc bytes >>= GraphIdentitySnapshot.successorEpoch
  | none => .ok (.fresh uuid)

/-- The lease of a range that ends at `next`, in blocks. -/
def leaseEnd (next : ℕ) : ℕ :=
  min ((next + maxGraphEdgesPerBatch - 1) / maxGraphEdgesPerBatch * maxGraphEdgesPerBatch)
    graphAllocatorMaxCounter

/-- The reservation of `allocate_range`: whether it went through. -/
def reserveRange (state : AllocatorState) (file : File) (kind : CounterKind) (next : ℕ)
    (writing : Replacing) : AllocatorState × File × Bool :=
  if next > state.reserved kind then
    let durable := state.durableSnapshot.setHighWater (leaseEnd next) kind
    let file := writeState crc file durable writing
    if writing = .done then
      ({ state with
          nodeReserved := durable.nodeHighWater
          edgeReserved := durable.edgeHighWater }, file, true)
    else (state, file, false)
  else (state, file, true)

/-- `allocate_range`; `checked` says that the failpoint behind the reservation lets it pass. -/
def allocateRange (state : AllocatorState) (file : File) (kind : CounterKind) (count : ℕ)
    (writing : Replacing) (checked : Bool) :
    AllocatorState × File × Result AllocatedGraphIdRange :=
  let highWater := state.issued.highWater kind
  let next := highWater + count
  if 2 ^ 64 ≤ next then (state, file, .error exhausted)
  else if next > graphAllocatorMaxCounter then (state, file, .error exhausted)
  else
    match reserveRange crc state file kind next writing with
    | (state, file, false) => (state, file, .error .io)
    | (state, file, true) =>
      if checked then
        ({ state with issued := state.issued.setHighWater next kind }, file,
          .ok ⟨state.issued.allocatorEpoch, highWater + 1, next⟩)
      else (state, file, .error .io)

/-- `reserve_new_epoch`. -/
def reserveNewEpoch (state : AllocatorState) (file : File) (writing : Replacing) (checked : Bool) :
    AllocatorState × File × Result ℕ :=
  match state.issued.successorEpoch with
  | .error e => (state, file, .error e)
  | .ok next =>
    let file := writeState crc file next writing
    if writing = .done ∧ checked then (.new next, file, .ok next.allocatorEpoch)
    else (state, file, .error .io)

end Allocator

/-! ## Runs -/

/-- A range that was handed out. -/
structure Issue where
  databaseId : Uuid
  kind : CounterKind
  range : AllocatedGraphIdRange

/-- The file in the root, and in the root that a restore is about to install or has taken away;
the open store; and what has been handed out, the latest first. -/
structure World where
  root : File
  other : Option File
  store : Option AllocatorState
  issues : List Issue

inductive Event
  /-- Recovery installs the other root or drops it, then the identity is opened. -/
  | reopen (install : Bool) (uuid : Uuid) (writing : Replacing) (checked : Bool)
  | allocate (kind : CounterKind) (count : ℕ) (writing : Replacing) (checked : Bool)
  | reserveNewEpoch (writing : Replacing) (checked : Bool)
  | preserveForRootSwap (writing : Replacing)
  /-- The roots change places. -/
  | swap
  /-- The restore ends and the root that is not installed is removed. -/
  | endRestore
  /-- The process ends. -/
  | stop
  | powerLoss (root other : ℕ)

namespace World

def initial (file : Option Bytes) : World := ⟨.settled file, none, none, []⟩

/-- The root that recovery leaves. -/
def recovered (world : World) (install : Bool) : File :=
  if install then world.other.getD world.root else world.root

variable (crc : Bytes → UInt32)

/-- The identity is opened. -/
def openStore (world : World) (file : File) (uuid : Uuid) (writing : Replacing) (checked : Bool) :
    World :=
  match openState crc file.visible uuid with
  | .error _ => { world with root := file, other := none }
  | .ok state =>
    { world with
      root := writeState crc file state writing
      other := none
      store := if writing = .done ∧ checked then some (.new state) else none }

/-- A range is allocated. -/
def allocate (world : World) (state : AllocatorState) (kind : CounterKind) (count : ℕ)
    (writing : Replacing) (checked : Bool) : World :=
  match allocateRange crc state world.root kind count writing checked with
  | (state, root, .error _) => { world with root, store := some state }
  | (state, root, .ok range) =>
    { world with
      root
      store := some state
      issues := ⟨state.issued.databaseId, kind, range⟩ :: world.issues }

/-- One event, where it can happen.  A UUID that is drawn is not nil, and no identity has been
handed out under it. -/
def step (world : World) : Event → Option World
  | .reopen install uuid writing checked =>
    if world.store.isNone ∧ uuid ≠ Uuid.nil ∧ ∀ issue ∈ world.issues, issue.databaseId ≠ uuid then
      some (world.openStore crc (world.recovered install) uuid writing checked)
    else none
  | .allocate kind count writing checked =>
    if 0 < count ∧ count < 2 ^ 64 then
      world.store.map fun state => world.allocate crc state kind count writing checked
    else none
  | .reserveNewEpoch writing checked =>
    if world.other.isNone then
      world.store.map fun state =>
        let (state, root, _) := Graph.reserveNewEpoch crc state world.root writing checked
        { world with root, store := some state }
    else none
  | .preserveForRootSwap writing =>
    if world.other.isNone then
      world.store.map fun state =>
        if writing = .done then
          { world with
            other := some (writeState crc (.settled none) state.durableSnapshot writing) }
        else world
    else none
  | .swap => world.other.map fun other => { world with root := other, other := some world.root }
  | .endRestore => some { world with other := none }
  | .stop => some { world with store := none }
  | .powerLoss root other => do
    let root ← world.root.lose root
    let other := world.other.bind fun file => file.lose other
    pure { world with root, other, store := none }

/-- A run. -/
def run (world : World) : List Event → Option World
  | [] => some world
  | event :: rest => (world.step crc event).bind fun next => next.run rest

end World

/-! ## No identity twice -/

section Unique

variable {crc : Bytes → UInt32}

/-- No identity that was handed out is ahead of what the file holds. -/
def Covered (crc : Bytes → UInt32) (issues : List Issue) (content : Option Bytes) : Prop :=
  ∀ bytes state, content = some bytes → decode crc bytes = .ok state →
    ∀ issue ∈ issues, issue.databaseId = state.databaseId → issue.range.epoch ≤ state.allocatorEpoch

/-- The file is of the same database as the open store, and not behind it. -/
def Ahead (crc : Bytes → UInt32) (state : GraphIdentitySnapshot) (content : Option Bytes) : Prop :=
  ∃ durable : GraphIdentitySnapshot, content = some (encode crc durable) ∧ durable.Valid ∧
    durable.databaseId = state.databaseId ∧ state.allocatorEpoch ≤ durable.allocatorEpoch

/-- The store has counted what was handed out. -/
def Counted (state : GraphIdentitySnapshot) (issue : Issue) : Prop :=
  issue.databaseId = state.databaseId → issue.range.epoch ≤ state.allocatorEpoch ∧
    (issue.range.epoch = state.allocatorEpoch →
      issue.range.lastCounter ≤ state.highWater issue.kind)

/-- Two issues have no identity in common. -/
def Apart (a b : Issue) : Prop :=
  a.kind = b.kind → a.databaseId = b.databaseId → ¬ a.range.Overlaps b.range

/-- The files of a world. -/
def World.files (world : World) : List File := world.root :: world.other.toList

/-- What an open store guarantees. -/
structure Serves (crc : Bytes → UInt32) (world : World) (state : AllocatorState) : Prop where
  valid : state.issued.Valid
  node : state.nodeReserved ≤ graphAllocatorMaxCounter
  edge : state.edgeReserved ≤ graphAllocatorMaxCounter
  counted : ∀ issue ∈ world.issues, Counted state.issued issue
  ahead : ∀ file ∈ world.files, file.All (Ahead crc state.issued)

structure Inv (crc : Bytes → UInt32) (world : World) : Prop where
  apart : world.issues.Pairwise Apart
  closed : ∀ file ∈ world.files, file.All (Covered crc world.issues)
  serves : ∀ state, world.store = some state → Serves crc world state

variable {world : World}

theorem Serves.valid_durable {state : AllocatorState} (h : Serves crc world state) :
    state.durableSnapshot.Valid :=
  ⟨h.valid.named, h.valid.epoch_pos, h.valid.epoch, h.node, h.edge⟩

variable {issues : List Issue} {content : Option Bytes}

theorem covered_of_ahead (hcounted : ∀ issue ∈ issues, Counted state issue)
    (h : Ahead crc state content) : Covered crc issues content := by
  obtain ⟨durable, rfl, hvalid, hid, hepoch⟩ := h
  intro bytes decoded hbytes hdecode issue hissue hsame
  cases hbytes
  rw [decode_encode hvalid] at hdecode
  cases hdecode
  exact ((hcounted issue hissue (hsame.trans hid)).1).trans hepoch

theorem counted_of_below (hbelow : ∀ issue ∈ issues, issue.databaseId = state.databaseId →
    issue.range.epoch < state.allocatorEpoch) : ∀ issue ∈ issues, Counted state issue :=
  fun issue hissue hsame =>
    have hlt := hbelow issue hissue hsame
    ⟨hlt.le, fun heq => absurd heq hlt.ne⟩

theorem World.inv_initial (file : Option Bytes) : Inv crc (World.initial file) where
  apart := List.Pairwise.nil
  closed := by
    intro slot hslot content _ bytes state _ _ issue hissue
    exact absurd hissue not_mem_nil
  serves state h := by cases h

theorem Inv.close (h : Inv crc world) : Inv crc { world with store := none } :=
  ⟨h.apart, h.closed, fun _ hstore => by cases hstore⟩

theorem inv_of_serves {state : AllocatorState}
    (hapart : world.issues.Pairwise Apart) (hstore : world.store = some state)
    (h : Serves crc world state) : Inv crc world where
  apart := hapart
  closed file hfile := (h.ahead file hfile).imp fun _ => covered_of_ahead h.counted
  serves other hother := by
    cases hstore.symm.trans hother
    exact h

/-- What `open` reserves is above all that was handed out. -/
theorem openState_spec (hcovered : Covered crc issues content) (huuid : uuid ≠ Uuid.nil)
    (hfresh : ∀ issue ∈ issues, issue.databaseId ≠ uuid)
    (h : openState crc content uuid = .ok state) :
    state.Valid ∧ ∀ issue ∈ issues, issue.databaseId = state.databaseId →
      issue.range.epoch < state.allocatorEpoch := by
  cases content with
  | none =>
    cases h
    exact ⟨GraphIdentitySnapshot.valid_fresh huuid,
      fun issue hissue hsame => absurd hsame (hfresh issue hissue)⟩
  | some bytes =>
    rw [openState, bind_eq_ok] at h
    obtain ⟨read, hread, hnext⟩ := h
    refine ⟨(valid_of_decode hread).successor hnext, fun issue hissue hsame => ?_⟩
    obtain ⟨rfl, -⟩ := GraphIdentitySnapshot.successorEpoch_eq_ok hnext
    exact Nat.lt_succ_of_le (hcovered bytes read rfl hread issue hissue hsame)

theorem Inv.recovered (h : Inv crc world) (install : Bool) :
    (world.recovered install).All (Covered crc world.issues) := by
  rw [World.recovered]
  cases install with
  | false => exact h.closed _ mem_cons_self
  | true =>
    cases hother : world.other with
    | none => exact h.closed _ mem_cons_self
    | some file => exact h.closed file (by simp [World.files, hother])

theorem serves_new (hvalid : state.Valid)
    (hbelow : ∀ issue ∈ world.issues, issue.databaseId = state.databaseId →
      issue.range.epoch < state.allocatorEpoch)
    (hfiles : ∀ file ∈ world.files, file.All (Ahead crc state)) :
    Serves crc world (.new state) where
  valid := hvalid
  node := hvalid.node
  edge := hvalid.edge
  counted := counted_of_below hbelow
  ahead := hfiles

theorem ahead_encode (h : state.Valid) :
    Ahead crc state (some (encode crc state)) :=
  ⟨state, rfl, h, rfl, le_rfl⟩

variable {file : File}

theorem Inv.openStore (h : Inv crc world) (hfile : file.All (Covered crc world.issues))
    (hstore : world.store = none) (huuid : uuid ≠ Uuid.nil)
    (hfresh : ∀ issue ∈ world.issues, issue.databaseId ≠ uuid) (writing : Replacing)
    (checked : Bool) : Inv crc (world.openStore crc file uuid writing checked) := by
  rw [World.openStore]
  split
  · refine ⟨h.apart, forall_mem_singleton.mpr hfile, fun state hsome => ?_⟩
    rw [hstore] at hsome
    cases hsome
  · next state hstate =>
    obtain ⟨hvalid, hbelow⟩ := openState_spec hfile.visible huuid hfresh hstate
    have hcovered : Covered crc _ _ :=
      covered_of_ahead (counted_of_below hbelow) (ahead_encode hvalid)
    refine ⟨h.apart, forall_mem_singleton.mpr (hfile.replace hcovered writing),
      fun served hserved => ?_⟩
    dsimp only at hserved
    split at hserved
    · next hdone =>
      cases hserved
      refine serves_new hvalid hbelow (forall_mem_singleton.mpr ?_)
      rw [writeState, hdone.1]
      exact Slot.all_settled (ahead_encode hvalid)
    · cases hserved

theorem leaseEnd_le (next : ℕ) : leaseEnd next ≤ graphAllocatorMaxCounter := min_le_right _ _

variable {state state' : AllocatorState} {kind : CounterKind} {writing : Replacing}

/-- A reservation changes how far the counters are reserved, and the file. -/
theorem reserveRange_spec {ok : Bool} {next : ℕ} (h : Serves crc world state)
    (hr : reserveRange crc state world.root kind next writing = (state', file, ok)) :
    state'.issued = state.issued ∧ state'.nodeReserved ≤ graphAllocatorMaxCounter ∧
      state'.edgeReserved ≤ graphAllocatorMaxCounter ∧ file.All (Ahead crc state.issued) := by
  have hroot := h.ahead world.root mem_cons_self
  rw [reserveRange] at hr
  split at hr
  · have hlease := h.valid_durable.setHighWater (leaseEnd_le next) kind
    have hfile := hroot.replace ⟨_, rfl, hlease, by simp [AllocatorState.durableSnapshot],
        by simp [AllocatorState.durableSnapshot]⟩ writing
    dsimp only at hr
    split at hr
    · cases hr
      exact ⟨rfl, hlease.node, hlease.edge, hfile⟩
    · cases hr
      exact ⟨rfl, h.node, h.edge, hfile⟩
  · cases hr
    exact ⟨rfl, h.node, h.edge, hroot⟩

theorem allocateRange_spec {count : ℕ} {checked : Bool}
    {result : Result AllocatedGraphIdRange} (h : Serves crc world state)
    (hr : allocateRange crc state world.root kind count writing checked = (state', file, result)) :
    state'.nodeReserved ≤ graphAllocatorMaxCounter ∧
      state'.edgeReserved ≤ graphAllocatorMaxCounter ∧ file.All (Ahead crc state.issued) ∧
      (state'.issued = state.issued ∧ (∃ e, result = .error e) ∨
        ∃ next ≤ graphAllocatorMaxCounter, state.issued.highWater kind ≤ next ∧
          state'.issued = state.issued.setHighWater next kind ∧
          result = .ok ⟨state.issued.allocatorEpoch, state.issued.highWater kind + 1, next⟩) := by
  have hroot := h.ahead world.root mem_cons_self
  rw [allocateRange] at hr
  split at hr
  · cases hr
    exact ⟨h.node, h.edge, hroot, .inl ⟨rfl, _, rfl⟩⟩
  split at hr
  · cases hr
    exact ⟨h.node, h.edge, hroot, .inl ⟨rfl, _, rfl⟩⟩
  next hmax =>
    split at hr
    · next reserved slot hreserve =>
      cases hr
      obtain ⟨hsame, hnode, hedge, hfile⟩ := reserveRange_spec h hreserve
      exact ⟨hnode, hedge, hfile, .inl ⟨hsame, _, rfl⟩⟩
    · next reserved slot hreserve =>
      obtain ⟨hsame, hnode, hedge, hfile⟩ := reserveRange_spec h hreserve
      split at hr
      · cases hr
        exact ⟨hnode, hedge, hfile, .inr ⟨_, not_lt.mp hmax, Nat.le_add_right _ _,
          by rw [hsame], by rw [hsame]⟩⟩
      · cases hr
        exact ⟨hnode, hedge, hfile, .inl ⟨hsame, _, rfl⟩⟩

variable {root : File}

variable {other : Option File}

section

variable (h : Inv crc world)
include h

theorem Inv.allocate
    (hstore : world.store = some state) (kind : CounterKind) (count : ℕ) (writing : Replacing)
    (checked : Bool) : Inv crc (world.allocate crc state kind count writing checked) := by
  have hserves := h.serves state hstore
  have hfiles : ∀ {root : File}, root.All (Ahead crc state.issued) →
      ∀ file ∈ root :: world.other.toList, file.All (Ahead crc state.issued) := by
    intro root hroot
    exact forall_mem_cons.mpr ⟨hroot, fun file h => hserves.ahead file (mem_cons_of_mem _ h)⟩
  rcases hr : allocateRange crc state world.root kind count writing checked with
    ⟨next, root, result⟩
  rw [World.allocate, hr]
  obtain ⟨hnode, hedge, hroot, hcases⟩ := allocateRange_spec hserves hr
  rcases hcases with ⟨hsame, e, rfl⟩ | ⟨last, hlast, hle, hissued, rfl⟩
  · refine inv_of_serves h.apart rfl ⟨?_, hnode, hedge, ?_, ?_⟩ <;> rw [hsame]
    · exact hserves.valid
    · exact hserves.counted
    · exact hfiles hroot
  · have hid : next.issued.databaseId = state.issued.databaseId := by rw [hissued]; simp
    -- the new range begins above all that the store has counted
    have happart : ∀ issue ∈ world.issues, Apart
        ⟨next.issued.databaseId, kind, state.issued.allocatorEpoch,
          state.issued.highWater kind + 1, last⟩ issue := by
      rintro issue hissue hkind hsame ⟨hepoch, counter, ⟨hfirst, -⟩, -, hbelow⟩
      dsimp only at hkind hsame hepoch hfirst
      have hcounted := (hserves.counted issue hissue (hsame.symm.trans hid)).2 hepoch.symm
      rw [← hkind] at hcounted
      omega
    refine inv_of_serves (pairwise_cons.mpr ⟨happart, h.apart⟩) rfl ⟨?_, hnode, hedge, ?_, ?_⟩
    · rw [hissued]
      exact hserves.valid.setHighWater hlast kind
    · intro issue hissue hsame
      rw [hid] at hsame
      rw [hissued, GraphIdentitySnapshot.setHighWater_allocatorEpoch,
        GraphIdentitySnapshot.highWater_setHighWater]
      rcases mem_cons.mp hissue with rfl | hold
      · exact ⟨le_rfl, fun _ => by rw [if_pos rfl]⟩
      · obtain ⟨hepoch, hcounter⟩ := hserves.counted issue hold hsame
        refine ⟨hepoch, fun heq => ?_⟩
        split
        · next hkind => exact (hkind ▸ hcounter heq).trans hle
        · exact hcounter heq
    · intro file hfile
      refine (hfiles hroot file hfile).imp fun content hcontent => ?_
      rw [hissued]
      simpa [Ahead] using hcontent

/-- The store stays, over files that are not behind it. -/
theorem Inv.refile (hstore : world.store = some state)
    (hahead : ∀ file ∈ root :: other.toList, file.All (Ahead crc state.issued)) :
    Inv crc { world with root, other } :=
  have hserves := h.serves state hstore
  inv_of_serves h.apart hstore
    ⟨hserves.valid, hserves.node, hserves.edge, hserves.counted, hahead⟩

/-- A new epoch, while no restore is exchanging the roots. -/
theorem Inv.reserveNewEpoch
    (hstore : world.store = some state) (hother : world.other = none) (writing : Replacing)
    (checked : Bool) {next : AllocatorState} {result : Result ℕ}
    (hr : reserveNewEpoch crc state world.root writing checked = (next, root, result)) :
    Inv crc { world with root, store := some next } := by
  have hserves := h.serves state hstore
  have hroot := hserves.ahead world.root mem_cons_self
  have hkeep : ∀ {root : File}, root.All (Ahead crc state.issued) →
      Inv crc { world with root, store := some state } := fun hfile =>
    hstore ▸ h.refile hstore (by simpa [hother] using hfile)
  rw [Graph.reserveNewEpoch] at hr
  split at hr
  · cases hr
    exact hkeep hroot
  · next epoch hepoch =>
    have hvalid := hserves.valid.successor hepoch
    obtain ⟨rfl, -⟩ := GraphIdentitySnapshot.successorEpoch_eq_ok hepoch
    split at hr
    · next hdone =>
      cases hr
      refine inv_of_serves h.apart rfl (serves_new hvalid (fun issue hissue hsame =>
        Nat.lt_succ_of_le (hserves.counted issue hissue hsame).1) ?_)
      simpa [World.files, hother, writeState, hdone.1, Slot.replace] using
        Slot.all_settled (ahead_encode hvalid)
    · cases hr
      exact hkeep (hroot.replace ⟨_, rfl, hvalid, rfl, Nat.le_succ _⟩ writing)

theorem Inv.refile_of_mem (hmem : ∀ file ∈ root :: other.toList, file ∈ world.files) :
    Inv crc { world with root, other } where
  apart := h.apart
  closed file hfile := h.closed file (hmem file hfile)
  serves state hstore :=
    have hserves := h.serves state hstore
    ⟨hserves.valid, hserves.node, hserves.edge, hserves.counted,
      fun file hfile => hserves.ahead file (hmem file hfile)⟩

theorem Inv.step {next : World} {event : Event}
    (hstep : world.step crc event = some next) : Inv crc next := by
  cases event with
  | reopen install uuid writing checked =>
    simp only [World.step, Option.ite_none_right_eq_some, Option.some.injEq] at hstep
    obtain ⟨⟨hclosed, huuid, hfresh⟩, rfl⟩ := hstep
    exact h.openStore (h.recovered install) (Option.isNone_iff_eq_none.mp hclosed) huuid hfresh
      writing checked
  | allocate kind count writing checked =>
    simp only [World.step, Option.ite_none_right_eq_some, Option.map_eq_some_iff] at hstep
    obtain ⟨-, state, hstore, rfl⟩ := hstep
    exact h.allocate hstore kind count writing checked
  | reserveNewEpoch writing checked =>
    simp only [World.step, Option.ite_none_right_eq_some, Option.map_eq_some_iff] at hstep
    obtain ⟨hother, state, hstore, rfl⟩ := hstep
    exact h.reserveNewEpoch hstore (Option.isNone_iff_eq_none.mp hother) writing checked rfl
  | preserveForRootSwap writing =>
    simp only [World.step, Option.ite_none_right_eq_some, Option.map_eq_some_iff] at hstep
    obtain ⟨-, state, hstore, rfl⟩ := hstep
    split
    · next hdone =>
      subst hdone
      have hserves := h.serves state hstore
      exact h.refile hstore (forall_mem_cons.mpr ⟨hserves.ahead _ mem_cons_self,
        forall_mem_singleton.mpr (Slot.all_settled ⟨_, rfl, hserves.valid_durable, rfl, le_rfl⟩)⟩)
    · exact h
  | swap =>
    simp only [World.step, Option.map_eq_some_iff] at hstep
    obtain ⟨other, hother, rfl⟩ := hstep
    refine h.refile_of_mem fun file hfile => ?_
    simp only [World.files, hother, Option.toList_some, mem_cons, not_mem_nil, or_false] at hfile ⊢
    exact hfile.symm
  | endRestore =>
    cases hstep
    refine h.refile_of_mem fun file hfile => ?_
    rw [Option.toList_none, mem_singleton] at hfile
    exact hfile ▸ mem_cons_self
  | stop =>
    cases hstep
    exact h.close
  | powerLoss rootChoice otherChoice =>
    simp only [World.step, Option.bind_eq_bind, Option.bind_eq_some_iff, Option.pure_def,
      Option.some.injEq] at hstep
    obtain ⟨root, hroot, rfl⟩ := hstep
    refine ⟨h.apart, fun file hfile => ?_, fun _ hstore => by cases hstore⟩
    rcases mem_cons.mp hfile with rfl | hfile
    · exact (h.closed _ mem_cons_self).lose hroot
    · obtain ⟨old, hold, hleft⟩ := Option.bind_eq_some_iff.mp (Option.mem_toList.mp hfile)
      exact (h.closed old (by simp [World.files, hold])).lose hleft

theorem Inv.run {reached : World} {events : List Event}
    (hrun : world.run crc events = some reached) : Inv crc reached := by
  induction events generalizing world with
  | nil =>
    cases hrun
    exact h
  | cons event rest ih =>
    obtain ⟨next, hstep, hrest⟩ := Option.bind_eq_some_iff.mp hrun
    exact ih (h.step hstep) hrest

end

/-- **No identity is handed out twice.**  Over any run of allocations, new epochs, restores, failed
writes, stops, power losses and reopenings, no two ranges of one kind that were handed out for one
database have an identity in common. -/
theorem identities_unique (file : Option Bytes) (events : List Event) {world : World}
    (hrun : (World.initial file).run crc events = some world) :
    world.issues.Pairwise fun a b => a.kind = b.kind → a.databaseId = b.databaseId →
      ¬ a.range.Overlaps b.range :=
  ((World.inv_initial file).run hrun).apart

end Unique

/-- A run with a reservation that fails behind the rename, a restore that is cut off after the
exchange, and a reopening. -/
def exampleRun : List Event :=
  let uuid := List.Vector.replicate 16
  [.reopen false (uuid 7) .done true, .allocate .node 3 .done true, .reserveNewEpoch .unsynced true,
    .allocate .node 2 .done true, .preserveForRootSwap .done, .swap, .powerLoss 0 1,
    .reopen true (uuid 9) .done true, .allocate .node 4 .done true]

theorem identities_unique_exampleRun : ∃ world,
    (World.initial none).run (fun _ => 0) exampleRun = some world ∧ world.issues.length = 3 ∧
      world.issues.Pairwise fun a b => a.kind = b.kind → a.databaseId = b.databaseId →
        ¬ a.range.Overlaps b.range := by
  have hlength : ((World.initial none).run (fun _ => 0) exampleRun).map
      (fun world => world.issues.length) = some 3 := by decide +kernel
  obtain ⟨world, hrun, hlength⟩ := Option.map_eq_some_iff.mp hlength
  exact ⟨world, hrun, hlength, identities_unique none exampleRun hrun⟩

end ChironDB.Graph
