/-
# Version 1 keys

`chirondb-core/src/relational/key_encoding.rs`: the byte keys of rows and of scalar
index entries, and the equality bytes of single values.  A `KeyWriter` is modelled by
the bytes it is given; the admitted writer puts the same bytes into an accounted
buffer.
-/

import ChironDB.Codec.Digits
import ChironDB.Relational.Value

namespace ChironDB.Relational

open Codec

def keyEncodingVersion : UInt8 := 1
def rowMagic : Bytes := [82, 75]
def indexMagic : Bytes := [73, 75]

def tagNull : UInt8 := 0
def tagBool : UInt8 := 1
def tagInteger : UInt8 := 2
def tagFloat64 : UInt8 := 3
def tagDecimal : UInt8 := 4
def tagText : UInt8 := 5
def tagBytes : UInt8 := 6
def tagDate : UInt8 := 7
def tagTimestamp : UInt8 := 8
def tagUuid : UInt8 := 9
def tagJsonb : UInt8 := 10
def tagVector : UInt8 := 11
def tagRecordRef : UInt8 := 12
def tagFloat32 : UInt8 := 13

/-- A column of a key: its type and its value. -/
abbrev Column := RelationalType × RelationalValue

/-- `RowIdentityKey`. -/
inductive RowIdentityKey
  | primary (columns : List Column)
  | hidden (rowId : UInt64)
  deriving DecidableEq, Repr

/-- `u64::to_be_bytes`. -/
def be64 (n : UInt64) : Bytes := beBytes 8 n.toNat

/-- `i128::to_be_bytes` with the sign bit flipped. -/
def signed128 (n : ℤ) : Bytes := flipSign (beBytes 16 (BitVec.ofInt 128 n).toNat)

/-- `append_framed`: the bytes after their length. -/
def appendFramed (value : Bytes) : Bytes := beBytes 8 value.length ++ value

/-- `append_escaped`. -/
def appendEscaped (value : Bytes) : Bytes := escape value

/-! ### Decimals -/

/-- `split_once('.').unwrap_or((unsigned, ""))`. -/
def wholeFraction (unsigned : List Char) : List Char × List Char :=
  (splitOnce '.' unsigned).getD (unsigned, [])

/-- `strip_prefix('-')`, and whether there was one. -/
def stripMinus (value : List Char) : Bool × List Char :=
  match stripPrefix '-' value with
  | some value => (true, value)
  | none => (false, value)

/-- `canonical_decimal`. -/
def canonicalDecimal (value : String) : List Char :=
  let (negative, unsigned) := stripMinus value.toList
  let (whole, fraction) := wholeFraction unsigned
  let whole := trimStartZeros whole
  let whole := if whole = [] then ['0'] else whole
  let fraction := trimEndZeros fraction
  let zero := whole = ['0'] ∧ fraction = []
  (if negative ∧ ¬zero then ['-'] else []) ++ whole ++
    (if fraction = [] then [] else '.' :: fraction)

/-- `str::parse::<i128>`: an optional sign, then at least one digit, in range. -/
def parseI128 (digits : List Char) : Option ℤ :=
  let (negative, unsigned) := match digits with
    | '+' :: s => (false, s)
    | '-' :: s => (true, s)
    | s => (false, s)
  if unsigned = [] ∨ allDigits unsigned = false then none
  else
    let n : ℤ := if negative then -(digitsValue unsigned : ℤ) else digitsValue unsigned
    if -2 ^ 127 ≤ n ∧ n < 2 ^ 127 then some n else none

/-- `scaled_decimal`. -/
def scaledDecimal (value : String) (scale : UInt8) : Result ℤ :=
  let (negative, unsigned) := stripMinus (canonicalDecimal value)
  let (whole, fraction) := wholeFraction unsigned
  if scale.toNat < byteLen fraction then
    .error (invalid "decimal value exceeds declared scale")
  else
    let digits := (if whole = [] then ['0'] else whole) ++
      (fraction ++ List.replicate (scale.toNat - byteLen fraction) '0')
    match parseI128 digits with
    | none => .error (invalid "decimal value cannot be represented in a v1 key")
    | some magnitude => .ok (if negative then -magnitude else magnitude)

/-! ### Floats -/

/-- `ordered_f64`. -/
def orderedF64 (value : UInt64) : UInt64 :=
  let bits := if value &&& 0x7fffffffffffffff = 0 then 0 else value
  if bits &&& 0x8000000000000000 ≠ 0 then ~~~bits else bits ^^^ 0x8000000000000000

/-- `ordered_f32`. -/
def orderedF32 (value : UInt32) : UInt32 :=
  let bits := if value &&& 0x7fffffff = 0 then 0 else value
  if bits &&& 0x80000000 ≠ 0 then ~~~bits else bits ^^^ 0x80000000

section

variable [Chrono]

/-- `timestamp()`: seconds since the epoch, whose day is number 719163. -/
def UtcTime.timestamp (time : UtcTime) : ℤ := (time.day.toInt - 719163) * 86400 + time.second.val

/-- The nanoseconds an ordered timestamp key holds. -/
def UtcTime.nanos (time : UtcTime) : ℤ := time.timestamp * 1000000000 + time.nano.val

/-- `encode_ordered_value`. -/
def encodeOrderedValue (dataType : RelationalType) (value : RelationalValue) : Result Bytes :=
  match dataType, value with
  | _, .null => .ok [tagNull]
  | .boolean, .boolean value => .ok [tagBool, if value then 1 else 0]
  | .smallInt, .integer value | .integer, .integer value | .bigInt, .integer value =>
    .ok (tagInteger :: be64 (value.toUInt64 ^^^ 0x8000000000000000))
  | .real, .float value => .ok (tagFloat32 :: beBytes 4 (orderedF32 (castFloat32 value)).toNat)
  | .float, .float value => .ok (tagFloat64 :: be64 (orderedF64 value))
  | .decimal _ scale, .decimal value => do
    let scaled ← scaledDecimal value scale
    return tagDecimal :: signed128 scaled
  | .text, .text value | .varchar _, .text value => .ok (tagText :: appendEscaped (asBytes value))
  | .bytea, .bytes value => .ok (tagBytes :: appendEscaped value)
  | .date, .date value =>
    match Chrono.parseDate value with
    | none => .error (invalid "invalid DATE in relational key")
    | some date => .ok (tagDate :: beBytes 4 (date.toUInt32 ^^^ 0x80000000).toNat)
  | .timestampUtc, .timestampUtc value =>
    match Chrono.parseFromRfc3339 value with
    | none => .error (invalid "invalid TIMESTAMP in relational key")
    | some timestamp => .ok (tagTimestamp :: signed128 timestamp.utc.nanos)
  | .uuid, .uuid value => .ok (tagUuid :: value.bytes)
  | .jsonb, .json text => .ok (tagJsonb :: appendEscaped (asBytes text))
  | .vector dimension, .vector value =>
    if value.length ≠ dimension then
      .error (invalid "vector dimension does not match relational key type")
    else
      .ok (tagVector :: beBytes 4 dimension ++
        value.flatMap fun component => beBytes 4 (orderedF32 component).toNat)
  | .recordRef namespaceName, .recordRef value =>
    if value.namespaceName ≠ namespaceName then
      .error (invalid "RECORD_REF namespace does not match relational key type")
    else
      .ok (tagRecordRef ::
        (appendEscaped (asBytes value.namespaceName) ++ appendEscaped (asBytes value.id)))
  | _, _ => .error (invalid "relational key value does not match its declared type")

/-- The loop of `encode_column_tuple`. -/
def encodeColumns : List Column → Result Bytes
  | [] => .ok []
  | (dataType, value) :: columns => do
    let key ← encodeOrderedValue dataType value
    let rest ← encodeColumns columns
    return key ++ rest

/-- `encode_column_tuple`. -/
def encodeColumnTuple (columns : List Column) : Result Bytes :=
  if 2 ^ 16 ≤ columns.length then .error (invalid "relational key contains too many columns")
  else do
    let values ← encodeColumns columns
    return beBytes 2 columns.length ++ values

/-- The identity part of `write_row_key`. -/
def encodeRowIdentity : RowIdentityKey → Result Bytes
  | .hidden rowId =>
    if rowId = 0 then .error (invalid "hidden row identity must be non-zero")
    else .ok (0 :: be64 rowId)
  | .primary columns => do
    let tuple ← encodeColumnTuple columns
    return 1 :: tuple

/-- `encode_row_key_v1`. -/
def encodeRowKeyV1 (tableId : UInt64) (identity : RowIdentityKey) (commitSequence : UInt64) :
    Result Bytes :=
  if tableId = 0 ∨ commitSequence = 0 then
    .error (invalid "row keys require non-zero table and commit identifiers")
  else do
    let key ← encodeRowIdentity identity
    return rowMagic ++ keyEncodingVersion :: be64 tableId ++ key ++ be64 (~~~commitSequence)

/-- `encode_index_prefix_v1`. -/
def encodeIndexPrefixV1 (indexId : UInt64) (columns : List Column) : Result Bytes :=
  if indexId = 0 then .error (invalid "index prefixes require a non-zero index identifier")
  else do
    let tuple ← encodeColumnTuple columns
    return indexMagic ++ keyEncodingVersion :: be64 indexId ++ tuple

/-- `encode_index_key_v1`. -/
def encodeIndexKeyV1 (indexId : UInt64) (columns : List Column) (rowId commitSequence : UInt64) :
    Result Bytes :=
  if indexId = 0 ∨ rowId = 0 ∨ commitSequence = 0 then
    .error (invalid "index keys require non-zero index, row, and commit identifiers")
  else do
    let key ← encodeIndexPrefixV1 indexId columns
    return key ++ be64 rowId ++ be64 (~~~commitSequence)

/-- `encode_equality_value`. -/
def encodeEqualityValue (value : RelationalValue) : Bytes :=
  match value with
  | .null => [tagNull]
  | .boolean value => [tagBool, if value then 1 else 0]
  | .integer value => tagInteger :: be64 value.toUInt64
  | .float value =>
    tagFloat64 :: be64 (if value &&& 0x7fffffffffffffff = 0 then 0 else value)
  | .decimal value =>
    tagDecimal :: appendFramed (asBytes (String.ofList (canonicalDecimal value)))
  | .text value => tagText :: appendFramed (asBytes value)
  | .bytes value => tagBytes :: appendFramed value
  | .date value => tagDate :: appendFramed (asBytes value)
  | .timestampUtc value =>
    let canonical := match Chrono.parseFromRfc3339 value with
      | some value => Chrono.toRfc3339Nanos value.utc
      | none => value
    tagTimestamp :: appendFramed (asBytes canonical)
  | .uuid value => tagUuid :: value.bytes
  | .json text => tagJsonb :: appendFramed (asBytes text)
  | .vector value =>
    tagVector :: beBytes 8 value.length ++ value.flatMap fun component =>
        beBytes 4 (if component &&& 0x7fffffff = 0 then 0 else component).toNat
  | .recordRef value =>
    tagRecordRef :: appendFramed (asBytes value.namespaceName) ++ appendFramed (asBytes value.id)

end

end ChironDB.Relational
