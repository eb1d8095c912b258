/-
# The replicated catalog

The commands of `chirondb-server/src/raft.rs`, the log entries that carry them and the
state machine that applies them.  A command crosses the network and reaches the log file
as JSON (`to_proto_entry`, `RaftGrpcService::append_entries`, `save_log`, `load_log`).
The bytes are not modelled, only what `serde_json::from_slice` makes of the bytes that
`serde_json::to_vec` wrote: integers, strings, enumerations and maps with string keys come
back as they were, and a float that is not finite is written as `null`, which an optional
field reads as absent (`jsonF32`, `CatalogCommand.reread`).
-/

import ChironDB.Tables.Index

namespace ChironDB.Raft

open Tables

abbrev NodeId := ℕ

/-- The bits of an `f32`. -/
abbrev F32 := BitVec 32

/-- Neither an infinity nor a NaN: the exponent is not all ones. -/
def isFinite (x : F32) : Bool := x.extractLsb 30 23 != 255#8

/-- `f32::INFINITY`. -/
def infinity : F32 := 0x7f800000#32

/-- A float after a trip through JSON. -/
def jsonF32 (x : F32) : Option F32 := if isFinite x then some x else none

inductive DistanceMetric
  | l2
  | cosine
  | dot
  deriving DecidableEq, Repr

inductive PayloadType
  | string
  | number
  | bool
  | object
  | array
  | optionalString
  | optionalNumber
  | optionalBool
  | optionalObject
  | optionalArray
  | nullableString
  | nullableNumber
  | nullableBool
  | nullableObject
  | nullableArray
  deriving DecidableEq, Repr

structure CollectionConfig where
  name : String
  vectorDim : ℕ
  metric : DistanceMetric
  shards : ℕ
  replicas : ℕ
  quantization : Option String
  payloadSchema : Table String PayloadType
  namedVectorDims : Table String ℕ
  hnswM : Option ℕ
  hnswEfConstruction : Option ℕ
  hnswEfSearch : Option ℕ
  recallSla : Option F32
  indexKind : Option String
  streamerMaxBytes : ℕ

/-- A configuration after a trip through JSON. -/
def CollectionConfig.reread (config : CollectionConfig) : CollectionConfig :=
  { config with recallSla := config.recallSla.bind jsonF32 }

inductive CatalogCommand
  | createCollection (config : CollectionConfig)
  | deleteCollection (name : String)
  | updatePayloadSchema (collection : String) (schema : Table String PayloadType)
  | noop

/-- A command after a trip through JSON. -/
def CatalogCommand.reread : CatalogCommand → CatalogCommand
  | .createCollection config => .createCollection config.reread
  | command => command

structure RaftLogEntry where
  term : ℕ
  index : ℕ
  command : CatalogCommand

/-- An entry after a trip through JSON. -/
def RaftLogEntry.reread (entry : RaftLogEntry) : RaftLogEntry :=
  { entry with command := entry.command.reread }

theorem CatalogCommand.reread_reread (command : CatalogCommand) :
    command.reread.reread = command.reread := by
  have hfloat : ∀ x : Option F32, (x.bind jsonF32).bind jsonF32 = x.bind jsonF32 := by
    intro x
    cases x with
    | none => rfl
    | some x =>
      change (jsonF32 x).bind jsonF32 = jsonF32 x
      rw [jsonF32]
      split
      · next hfinite =>
        change jsonF32 x = some x
        rw [jsonF32, if_pos hfinite]
      · rfl
  cases command with
  | createCollection config =>
    change createCollection config.reread.reread = createCollection config.reread
    rw [CollectionConfig.reread, CollectionConfig.reread, hfloat]
  | deleteCollection | updatePayloadSchema | noop => rfl

theorem map_reread_reread (log : List RaftLogEntry) :
    (log.map RaftLogEntry.reread).map RaftLogEntry.reread = log.map RaftLogEntry.reread := by
  rw [List.map_map]
  refine List.map_congr_left fun entry _ => ?_
  change RaftLogEntry.mk entry.term entry.index entry.command.reread.reread = _
  rw [CatalogCommand.reread_reread]
  rfl

/-- Every command of the log comes back from JSON as it was. -/
def Stable (log : List RaftLogEntry) : Prop := ∀ entry ∈ log, entry.command.reread = entry.command

theorem Stable.map_reread {log : List RaftLogEntry} (h : Stable log) :
    log.map RaftLogEntry.reread = log := by
  have hentry : ∀ entry ∈ log, entry.reread = entry := by
    intro entry hmem
    rw [RaftLogEntry.reread, h entry hmem]
  rw [List.map_congr_left hentry, List.map_id']

structure CatalogStateMachine where
  collections : Table String CollectionConfig := ∅
  lastApplied : ℕ := 0

/-- `CatalogStateMachine::apply`. -/
def CatalogStateMachine.apply (machine : CatalogStateMachine) (entry : RaftLogEntry) :
    CatalogStateMachine :=
  { collections :=
      match entry.command with
      | .createCollection config => machine.collections.insert config.name config
      | .deleteCollection name => machine.collections.erase name
      | .updatePayloadSchema collection schema =>
        match machine.collections.lookup collection with
        | some config =>
          machine.collections.insert collection { config with payloadSchema := schema }
        | none => machine.collections
      | .noop => machine.collections
    lastApplied := entry.index }

end ChironDB.Raft
