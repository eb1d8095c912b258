/-
# Scalar indexes

`chirondb-core/src/relational/indexes.rs`: the members of a scalar index are immutable
runs on disk, each record an interval of commit sequences, under an overlay of marks that
say whether a row is a member now.

A physical key is the key of the index entry, the row and the begin of the version, ordered by
the three parts, the begin descending.  Decoding a record checks that its value repeats the row
and begin of its key, so a record is modelled by its key and the end of its interval.
-/

import ChironDB.Relational.KeyOrder
import ChironDB.Relational.Definition

namespace ChironDB.Relational

open Codec
open Std (ExtTreeMap)

/-! ### Physical keys -/

/-- The key of a record in a run: what its bytes start with, the row, and the begin. -/
structure PhysicalKey where
  stem : Bytes
  id : ℕ
  begin : ℕ
  deriving DecidableEq, Repr

/-- Ascending, but for the begin. -/
instance : Ord PhysicalKey where
  compare a b := ((compare a.stem b.stem).then (compare a.id b.id)).then (compare b.begin a.begin)

/-- An entry of an index: its key and its row. -/
structure Posting where
  key : Bytes
  rowId : ℕ
  deriving DecidableEq, Repr

instance : Ord Posting where
  compare a b := (compare a.key b.key).then (compare a.rowId b.rowId)

instance : Std.TransOrd Posting :=
  inferInstanceAs (Std.TransCmp (compareLex (compareOn Posting.key) (compareOn Posting.rowId)))

/-! ### Runs -/

/-- `SegmentKind`. -/
inductive SegmentKind
  | row
  | index
  deriving DecidableEq, Repr

/-- File names: `{kind}-{sequence:020}-{table:020}.rseg` of a published run, or that of a
private one. -/
inductive SegmentName
  | published (kind : SegmentKind) (sequence : ℕ) (tableId : UInt64)
  | scratch
  deriving DecidableEq, Repr

/-- An immutable run: `TableSegmentBacking` with the records behind its reader, or
`RelationalSegmentReference` with those of the file it names. -/
structure Segment (V : Type) where
  name : SegmentName
  sequence : ℕ
  records : ExtTreeMap PhysicalKey V

/-- A run of index records: the ends of the intervals. -/
abbrev IndexSegment := Segment (Option ℕ)

/-! ### The index -/

/-- `ScalarIndex`. -/
structure ScalarIndex where
  id : UInt64
  types : List RelationalType
  delta : ExtTreeMap Posting Bool

namespace ScalarIndex

/-- `new`. -/
def new (definition : TableDefinition) (columns : List String) : Result ScalarIndex :=
  match existingIndexId definition columns with
  | none => .error (invalid "scalar index has no physical identity")
  | some id => do
    let positions ← columnIndexes definition columns
    let types ← positions.mapM (typeAt definition)
    return ⟨id, types, ∅⟩

variable [Chrono]

/-- `key`. -/
def key (index : ScalarIndex) (values : List RelationalValue) : Result (Option Bytes) :=
  if values.length ≠ index.types.length then
    .error (invalid "scalar index key arity mismatch")
  else if .null ∈ values then .ok none
  else do
    let key ← encodeIndexPrefixV1 index.id (index.types.zip values)
    return some key

/-- `set`. -/
def set (index : ScalarIndex) (rowId : ℕ) (values : List RelationalValue) (present : Bool) :
    Result ScalarIndex := do
  match ← index.key values with
  | some key => return { index with delta := index.delta.insert ⟨key, rowId⟩ present }
  | none => return index

end ScalarIndex

end ChironDB.Relational
