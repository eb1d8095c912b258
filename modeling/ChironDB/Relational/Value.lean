/-
# Relational types and values

`chirondb-types/src/relational.rs` (`RelationalType`, `RelationalValue`,
`RecordRef`) and the functions of `chirondb-core/src/relational.rs` that look at
one value: `validate_value`, `compare_values`, `value_key` and the decimal
spellings they share (`validate_decimal`, `decimal_parts`, `compare_decimal`).

Dates and timestamps are read by `chrono`, which is not part of the repository.
The class `Chrono` stands for what is called of it.  A `NaiveDate` is the number
of its day (`num_days_from_ce`), which is also how dates are ordered; a
`DateTime` is a UTC day, a second of that day and a nanosecond field that runs
past `10 ^ 9` inside a leap second, ordered field by field.  A `serde_json`
value is modelled by the text `serde_json::to_string` gives for it, the only
thing the relational code ever reads of it.  Floating-point payloads are their
bit patterns.
-/

import Mathlib.Data.List.DropRight
import Mathlib.Data.List.Basic
import ChironDB.Codec.PrefixCode
import ChironDB.Fault.Program

namespace ChironDB.Relational

open Codec

/-- The cases of `GaussError` that the relational code returns. -/
inductive GaussError
  | invalidRequest (message : String)
  | resourceExhausted (message : String)
  | segmentCorruption (path message : String)
  deriving DecidableEq, Repr

/-- `crate::Result`. -/
abbrev Result := Except GaussError

export Fault (bind_eq_ok)

/-- `invalid`. -/
def invalid (message : String) : GaussError := .invalidRequest message

/-- `RelationalType`. -/
inductive RelationalType
  | boolean
  | smallInt
  | integer
  | bigInt
  | real
  | float
  | decimal (precision scale : UInt8)
  | text
  | varchar (length : ℕ)
  | bytea
  | date
  | timestampUtc
  | uuid
  | jsonb
  | vector (dimension : ℕ)
  | recordRef (namespaceName : String)
  deriving DecidableEq, Repr

/-- `uuid::Uuid`: sixteen bytes. -/
structure Uuid where
  bytes : Bytes
  length_eq : bytes.length = 16
  deriving DecidableEq, Repr

/-- `RecordRef`. -/
structure RecordRef where
  namespaceName : String
  id : String
  deriving DecidableEq, Repr

/-- `RelationalValue`.  `float` and `vector` hold IEEE bit patterns, `json` the
serialized text. -/
inductive RelationalValue
  | null
  | boolean (value : Bool)
  | integer (value : Int64)
  | float (bits : UInt64)
  | decimal (value : String)
  | text (value : String)
  | bytes (value : Bytes)
  | date (value : String)
  | timestampUtc (value : String)
  | uuid (value : Uuid)
  | json (text : String)
  | vector (bits : List UInt32)
  | recordRef (value : RecordRef)
  deriving DecidableEq, Repr

/-- The UTC side of a `chrono::DateTime`. -/
structure UtcTime where
  day : Int32
  second : Fin 86400
  nano : Fin 2000000000
  deriving DecidableEq, Repr

/-- `chrono::DateTime<FixedOffset>`; `offset` is `local_minus_utc`. -/
structure DateTime where
  utc : UtcTime
  offset : ℤ
  deriving DecidableEq, Repr

/-- What is called of `chrono`, and the float formatting of `serde_json`. -/
class Chrono where
  /-- `NaiveDate::parse_from_str(_, "%Y-%m-%d")`, as `num_days_from_ce`. -/
  parseDate : String → Option Int32
  /-- `DateTime::parse_from_rfc3339`. -/
  parseFromRfc3339 : String → Option DateTime
  /-- `to_rfc3339_opts(SecondsFormat::Nanos, true)` of a UTC time. -/
  toRfc3339Nanos : UtcTime → String
  /-- The JSON text of an `f32`. -/
  jsonFloat32 : UInt32 → String

/-- What `chrono` documents of its RFC 3339 texts: a time that was read from one
is written to a text that reads back as the same UTC time. -/
class LawfulChrono extends Chrono where
  parse_toRfc3339Nanos : ∀ s d, parseFromRfc3339 s = some d →
    parseFromRfc3339 (toRfc3339Nanos d.utc) = some ⟨d.utc, 0⟩

/-! ### Strings -/

/-- `str::as_bytes`. -/
def asBytes (s : String) : Bytes := s.toByteArray.data.toList

theorem asBytes_injective : Function.Injective asBytes := by
  intro s t h
  rw [asBytes, asBytes] at h
  exact String.toByteArray_inj.1 (ByteArray.ext (Array.ext' h))

/-- `str::len` of the characters. -/
def byteLen (s : List Char) : ℕ := (s.map Char.utf8Size).sum

/-- `strip_prefix` of one character. -/
def stripPrefix (c : Char) : List Char → Option (List Char)
  | [] => none
  | x :: s => if x = c then some s else none

/-- `strip_prefix(['-', '+'])`, or the text itself. -/
def stripSign : List Char → List Char
  | '-' :: s => s
  | '+' :: s => s
  | s => s

/-- `split_once`. -/
def splitOnce (c : Char) : List Char → Option (List Char × List Char)
  | [] => none
  | x :: s => if x = c then some ([], s) else (splitOnce c s).map fun p => (x :: p.1, p.2)

/-- `split`. -/
def split (c : Char) : List Char → List (List Char)
  | [] => [[]]
  | x :: s =>
    if x = c then [] :: split c s
    else match split c s with
      | [] => [[x]]
      | p :: ps => (x :: p) :: ps

/-- `trim_start_matches('0')`. -/
def trimStartZeros (s : List Char) : List Char := s.dropWhile (· = '0')

/-- `trim_end_matches('0')`. -/
def trimEndZeros (s : List Char) : List Char := s.rdropWhile (· = '0')

/-- `bytes().all(|byte| byte.is_ascii_digit())`. -/
def allDigits (s : List Char) : Bool := s.all Char.isDigit

/-! ### Decimals -/

/-- `validate_decimal`. -/
def validateDecimal (value : String) (precision scale : UInt8) : Result Unit :=
  let parts := split '.' (stripSign value.toList)
  let whole := parts.headD []
  let fraction := (parts.drop 1).headD []
  if (parts.drop 2).isEmpty = false ∨ whole = [] ∨ allDigits whole = false ∨
      allDigits fraction = false ∨ scale.toNat < byteLen fraction ∨
      precision.toNat < byteLen (trimStartZeros whole) + byteLen fraction then
    .error (invalid s!"decimal {value} exceeds decimal({precision},{scale})")
  else .ok ()

/-- `decimal_parts`: the sign, the whole digits without leading zeros and the
fraction digits without trailing zeros. -/
def decimalParts (value : String) : Option (Bool × List Char × List Char) :=
  let negative := value.toList.head? = some '-'
  let parts := split '.' (stripSign value.toList)
  let whole := parts.headD []
  let fraction := (parts.drop 1).headD []
  if (parts.drop 2).isEmpty = false ∨ whole = [] ∨ allDigits whole = false ∨
      allDigits fraction = false then none
  else
    let whole := trimStartZeros whole
    let whole := if whole = [] then ['0'] else whole
    let fraction := trimEndZeros fraction
    let zero := whole = ['0'] ∧ fraction = []
    some (negative ∧ ¬zero, whole, fraction)

/-- `compare_decimal`. -/
def compareDecimal (left right : String) : Option Ordering := do
  let (leftNegative, leftWhole, leftFraction) ← decimalParts left
  let (rightNegative, rightWhole, rightFraction) ← decimalParts right
  if leftNegative ≠ rightNegative then
    return if leftNegative then .lt else .gt
  let width := max leftFraction.length rightFraction.length
  let leftFraction := leftFraction ++ List.replicate (width - leftFraction.length) '0'
  let rightFraction := rightFraction ++ List.replicate (width - rightFraction.length) '0'
  let magnitude := (compare leftWhole.length rightWhole.length).then
    ((compare leftWhole rightWhole).then (compare leftFraction rightFraction))
  return if leftNegative then magnitude.swap else magnitude

/-! ### Values -/

section

variable [Chrono]

/-- `Debug` of a type, as error texts show it. -/
def RelationalType.debug : RelationalType → String
  | .boolean => "Boolean"
  | .smallInt => "SmallInt"
  | .integer => "Integer"
  | .bigInt => "BigInt"
  | .real => "Real"
  | .float => "Float"
  | .decimal precision scale => s!"Decimal \x7b precision: {precision}, scale: {scale} \x7d"
  | .text => "Text"
  | .varchar length => s!"Varchar \x7b length: {length} \x7d"
  | .bytea => "Bytea"
  | .date => "Date"
  | .timestampUtc => "TimestampUtc"
  | .uuid => "Uuid"
  | .jsonb => "Jsonb"
  | .vector dimension => s!"Vector \x7b dimension: {dimension} \x7d"
  | .recordRef namespaceName => "RecordRef \x7b namespace: " ++ namespaceName.quote ++ " \x7d"

/-- `f64::is_finite`. -/
def isFinite64 (bits : UInt64) : Bool := bits &&& 0x7ff0000000000000 ≠ 0x7ff0000000000000

/-- `f32::is_finite`. -/
def isFinite32 (bits : UInt32) : Bool := bits &&& 0x7f800000 ≠ 0x7f800000

/-- The cast `value as f32` of an `f64`. -/
def castFloat32 (bits : UInt64) : UInt32 := (Float.ofBits bits).toFloat32.toBits

/-- `validate_value`. -/
def validateValue (dataType : RelationalType) (value : RelationalValue) : Result Unit :=
  match dataType, value with
  | _, .null => .ok ()
  | .boolean, .boolean _ => .ok ()
  | .bigInt, .integer _ => .ok ()
  | .float, .float value =>
    if isFinite64 value then .ok () else .error (invalid "floating-point values must be finite")
  | .text, .text _ => .ok ()
  | .bytea, .bytes _ => .ok ()
  | .uuid, .uuid _ => .ok ()
  | .jsonb, .json _ => .ok ()
  | .smallInt, .integer value =>
    if -2 ^ 15 ≤ value.toInt ∧ value.toInt < 2 ^ 15 then .ok ()
    else .error (invalid "SMALLINT value is out of range")
  | .integer, .integer value =>
    if -2 ^ 31 ≤ value.toInt ∧ value.toInt < 2 ^ 31 then .ok ()
    else .error (invalid "INTEGER value is out of range")
  | .real, .float value =>
    if isFinite64 value ∧ isFinite32 (castFloat32 value) then .ok ()
    else .error (invalid "REAL value must be finite and in range")
  | .varchar length, .text value =>
    if value.length ≤ length then .ok ()
    else .error (invalid s!"VARCHAR({length}) value is too long")
  | .date, .date value =>
    match Chrono.parseDate value with
    | some _ => .ok ()
    | none => .error (invalid "date must use YYYY-MM-DD")
  | .decimal precision scale, .decimal value => validateDecimal value precision scale
  | .timestampUtc, .timestampUtc value =>
    match Chrono.parseFromRfc3339 value with
    | none => .error (invalid "timestamp must be valid RFC 3339")
    | some parsed =>
      if parsed.offset ≠ 0 then
        .error (invalid "timestamp must use UTC offset Z or +00:00")
      else .ok ()
  | .vector dimension, .vector vector =>
    if vector.length ≠ dimension ∨ vector.any (fun value => !isFinite32 value) then
      .error (invalid s!"vector requires {dimension} finite dimensions")
    else .ok ()
  | .recordRef namespaceName, .recordRef reference =>
    if reference.namespaceName ≠ namespaceName ∨ reference.id = "" then
      .error (invalid s!"record reference requires namespace {namespaceName} and a non-empty id")
    else .ok ()
  | dataType, _ => .error (invalid ("value does not match type " ++ dataType.debug))

/-- `partial_cmp` of two finite-or-infinite floats by their bits; `none` on a NaN. -/
def compareFloat64 (left right : UInt64) : Option Ordering :=
  let isNan := fun bits : UInt64 => 0x7ff0000000000000 < bits &&& 0x7fffffffffffffff
  let key := fun bits : UInt64 =>
    if bits &&& 0x8000000000000000 ≠ 0 then -((bits &&& 0x7fffffffffffffff).toNat : ℤ)
    else (bits.toNat : ℤ)
  if isNan left ∨ isNan right then none else some (compare (key left) (key right))

/-- The order of `NaiveDateTime`: day, then second, then nanosecond. -/
def compareUtc (left right : UtcTime) : Ordering :=
  (compare left.day.toInt right.day.toInt).then
    ((compare left.second right.second).then (compare left.nano right.nano))

/-- `RecordRef::partial_cmp`, derived: namespace, then id. -/
def compareRecordRef (left right : RecordRef) : Ordering :=
  (compare (asBytes left.namespaceName) (asBytes right.namespaceName)).then
    (compare (asBytes left.id) (asBytes right.id))

/-- `compare_values`. -/
def compareValues (left right : RelationalValue) : Option Ordering :=
  match left, right with
  | .null, _ => none
  | _, .null => none
  | .boolean left, .boolean right => some (compare left right)
  | .integer left, .integer right => some (compare left.toInt right.toInt)
  | .float left, .float right => compareFloat64 left right
  | .decimal left, .decimal right => compareDecimal left right
  | .text left, .text right => some (compare (asBytes left) (asBytes right))
  | .bytes left, .bytes right => some (compare left right)
  | .date left, .date right => do
    let left ← Chrono.parseDate left
    let right ← Chrono.parseDate right
    return compare left.toInt right.toInt
  | .timestampUtc left, .timestampUtc right => do
    let left ← Chrono.parseFromRfc3339 left
    let right ← Chrono.parseFromRfc3339 right
    return compareUtc left.utc right.utc
  | .uuid left, .uuid right => some (compare left.bytes right.bytes)
  | .json left, .json right => some (compare (asBytes left) (asBytes right))
  | .recordRef left, .recordRef right => some (compareRecordRef left right)
  | _, _ => none

/-! ### Equality texts -/

/-- One lowercase hexadecimal digit. -/
def hexDigit (n : ℕ) : Char := "0123456789abcdef".toList.getD n '0'

/-- `{byte:02x}`. -/
def hexByte (b : UInt8) : List Char := [hexDigit (b.toNat / 16), hexDigit (b.toNat % 16)]

/-- `{bits:016x}`. -/
def hex64 (bits : UInt64) : List Char := (beBytes 8 bits.toNat).flatMap hexByte

/-- The hyphenated text of a UUID. -/
def hyphenated (value : Uuid) : List Char :=
  let hex := fun i j => ((value.bytes.drop i).take (j - i)).flatMap hexByte
  hex 0 4 ++ '-' :: hex 4 6 ++ '-' :: hex 6 8 ++ '-' :: hex 8 10 ++ '-' :: hex 10 16

/-- How `serde_json` writes one character of a string. -/
def jsonChar (c : Char) : List Char :=
  if c = '"' then ['\\', '"']
  else if c = '\\' then ['\\', '\\']
  else if c.toNat = 8 then ['\\', 'b']
  else if c.toNat = 9 then ['\\', 't']
  else if c.toNat = 10 then ['\\', 'n']
  else if c.toNat = 12 then ['\\', 'f']
  else if c.toNat = 13 then ['\\', 'r']
  else if c.toNat < 32 then
    ['\\', 'u', '0', '0', hexDigit (c.toNat / 16), hexDigit (c.toNat % 16)]
  else [c]

/-- The JSON text of a string. -/
def jsonString (s : List Char) : List Char := '"' :: s.flatMap jsonChar ++ ['"']

/-- `serde_json::to_string` of a value with its `type` tag and `value` content. -/
def jsonTagged (tag : String) (content : List Char) : List Char :=
  "\x7b\"type\":\"".toList ++ tag.toList ++ "\",\"value\":".toList ++ content ++ ['\x7d']

/-- `value_key`. -/
def valueKey (value : RelationalValue) : List Char :=
  match value with
  | .float bits =>
    if bits &&& 0x7fffffffffffffff = 0 then "float:0".toList
    else "float:".toList ++ hex64 bits
  | .decimal value =>
    match decimalParts value with
    | some (negative, whole, fraction) =>
      "decimal:".toList ++ (if negative then ['-'] else []) ++ whole ++
        (if fraction = [] then [] else '.' :: fraction)
    | none => "decimal:".toList ++ value.toList
  | .bytes value => "bytea:".toList ++ value.flatMap hexByte
  | .date value => "date:".toList ++ value.toList
  | .json text => "jsonb:".toList ++ text.toList
  | .timestampUtc value =>
    match Chrono.parseFromRfc3339 value with
    | some parsed => "timestamp:".toList ++ (Chrono.toRfc3339Nanos parsed.utc).toList
    | none => "timestamp:".toList ++ value.toList
  | .null => "\x7b\"type\":\"null\"\x7d".toList
  | .boolean value => jsonTagged "boolean" (if value then "true".toList else "false".toList)
  | .integer value => jsonTagged "integer" (toString value.toInt).toList
  | .text value => jsonTagged "text" (jsonString value.toList)
  | .uuid value => jsonTagged "uuid" (jsonString (hyphenated value))
  | .vector bits =>
    jsonTagged "vector"
      ('[' :: (",".toList.intercalate (bits.map fun b => (Chrono.jsonFloat32 b).toList)) ++ [']'])
  | .recordRef value =>
    jsonTagged "record_ref" ("\x7b\"namespace\":".toList ++ jsonString value.namespaceName.toList ++
        ",\"id\":".toList ++ jsonString value.id.toList ++ ['\x7d'])

/-! ### Accepted values -/

/-- The values other than NULL that `validate_value` accepts for a type. -/
inductive HasType : RelationalType → RelationalValue → Prop
  | boolean (value) : HasType .boolean (.boolean value)
  | smallInt (value : Int64) (h : -2 ^ 15 ≤ value.toInt ∧ value.toInt < 2 ^ 15) :
      HasType .smallInt (.integer value)
  | integer (value : Int64) (h : -2 ^ 31 ≤ value.toInt ∧ value.toInt < 2 ^ 31) :
      HasType .integer (.integer value)
  | bigInt (value) : HasType .bigInt (.integer value)
  | real (value) (h : isFinite64 value ∧ isFinite32 (castFloat32 value)) :
      HasType .real (.float value)
  | float (value) (h : isFinite64 value) : HasType .float (.float value)
  | decimal (precision scale value) (h : validateDecimal value precision scale = .ok ()) :
      HasType (.decimal precision scale) (.decimal value)
  | text (value) : HasType .text (.text value)
  | varchar (length) (value : String) (h : value.length ≤ length) :
      HasType (.varchar length) (.text value)
  | bytea (value) : HasType .bytea (.bytes value)
  | date (value day) (h : Chrono.parseDate value = some day) : HasType .date (.date value)
  | timestampUtc (value time) (h : Chrono.parseFromRfc3339 value = some ⟨time, 0⟩) :
      HasType .timestampUtc (.timestampUtc value)
  | uuid (value) : HasType .uuid (.uuid value)
  | jsonb (text) : HasType .jsonb (.json text)
  | vector (bits : List UInt32) (h : ∀ b ∈ bits, isFinite32 b) :
      HasType (.vector bits.length) (.vector bits)
  | recordRef (namespaceName id) (h : id ≠ "") :
      HasType (.recordRef namespaceName) (.recordRef ⟨namespaceName, id⟩)

/-- **`validate_value` accepts NULL and the values of the type.** -/
theorem hasType_of_validate {dataType : RelationalType} {value : RelationalValue}
    (h : validateValue dataType value = .ok ()) (hnull : value ≠ .null) :
    HasType dataType value := by
  -- The mismatched pairs are errors; what is left of each type is its own constructor.
  cases dataType <;> cases value <;>
    simp only [validateValue, reduceCtorEq, ne_eq, not_true_eq_false] at h hnull
  case boolean.boolean => exact .boolean _
  case bigInt.integer => exact .bigInt _
  case text.text => exact .text _
  case bytea.bytes => exact .bytea _
  case uuid.uuid => exact .uuid _
  case jsonb.json => exact .jsonb _
  case decimal.decimal => exact .decimal _ _ _ h
  case smallInt.integer =>
      split_ifs at h with hr
      exact .smallInt _ hr
  case integer.integer =>
      split_ifs at h with hr
      exact .integer _ hr
  case float.float =>
      split_ifs at h with hr
      exact .float _ hr
  case real.float =>
      split_ifs at h with hr
      exact .real _ hr
  case varchar.text =>
      split_ifs at h with hr
      exact .varchar _ _ hr
  case date.date =>
      split at h
      · exact .date _ _ ‹_›
      · cases h
  case timestampUtc.timestampUtc =>
      split at h
      · cases h
      · rename_i parsed hparsed
        split_ifs at h with hoffset
        obtain ⟨time, offset⟩ := parsed
        obtain rfl : offset = 0 := hoffset
        exact .timestampUtc _ time hparsed
  case vector.vector =>
      split_ifs at h with hbad
      push Not at hbad
      obtain ⟨rfl, hfinite⟩ := hbad
      exact .vector _ (by simpa using hfinite)
  case recordRef.recordRef namespaceName reference =>
      split_ifs at h with hbad
      push Not at hbad
      obtain ⟨rfl, hid⟩ := hbad
      exact .recordRef _ _ hid

end

end ChironDB.Relational
