/-
# Type names

`relational_type` of `chirondb-core/src/relational.rs` reads the type of a column or of a
cast from what `sqlparser` made of its name, with `parse_precision_scale` and
`parse_single_type_length` for the arguments in its parentheses.

`relational_type` looks at two things of a `DataType`: whether it is the custom type
`record_ref`, and how the type is displayed.
-/

import ChironDB.Codec.Digits
import ChironDB.Relational.Value

namespace ChironDB.Relational

/-- `unsupported`. -/
def unsupported (message : String) : GaussError := .invalidRequest ("unsupported SQL: " ++ message)

/-- `sqlparser`'s `DataType`: the name and the modifiers of a custom type, and its text. -/
structure DataType where
  custom : Option (String × List String) := none
  display : String
  deriving DecidableEq, Repr

/-! ### Texts -/

/-- `to_ascii_lowercase`. -/
def toAsciiLowercase (s : String) : String := String.ofList (s.toList.map Char.toLower)

/-- `char::is_whitespace`. -/
def isWhitespace (c : Char) : Bool :=
  let n := c.toNat
  (9 ≤ n && n ≤ 13) || n = 32 || n = 0x85 || n = 0xa0 || n = 0x1680 ||
    (0x2000 ≤ n && n ≤ 0x200a) || n = 0x2028 || n = 0x2029 || n = 0x202f || n = 0x205f ||
    n = 0x3000

/-- `str::trim`. -/
def trim (s : List Char) : List Char := (s.dropWhile isWhitespace).rdropWhile isWhitespace

/-- `str::parse` of an unsigned integer below `limit`: a plus sign may stand before the digits. -/
def parseUnsigned (limit : ℕ) (s : List Char) : Option ℕ :=
  let digits := match s with
    | '+' :: digits => digits
    | digits => digits
  if digits = [] ∨ allDigits digits = false then none
  else if Codec.digitsValue digits < limit then some (Codec.digitsValue digits) else none

/-- `strip_suffix` of one character. -/
def stripSuffix (c : Char) (s : List Char) : Option (List Char) :=
  if s.getLast? = some c then some s.dropLast else none

/-- `strip_prefix` of a text. -/
def stripText (head s : List Char) : Option (List Char) :=
  if head.isPrefixOf s then some (s.drop head.length) else none

/-! ### Arguments -/

/-- `parse_precision_scale`. -/
def parsePrecisionScale (value : String) : Result (UInt8 × UInt8) :=
  match splitOnce '(' value.toList with
  | none => .ok (38, 9)
  | some (_, rest) =>
    let parts := (split ',' (rest.rdropWhile (· = ')'))).map trim
    match parseUnsigned 256 (parts.headD []) with
    | none => .error (invalid "invalid decimal precision")
    | some precision =>
      match parseUnsigned 256 ((parts.drop 1).headD ['0']) with
      | none => .error (invalid "invalid decimal scale")
      | some scale =>
        if precision = 0 ∨ 38 < precision ∨ precision < scale ∨ (parts.drop 2).isEmpty = false then
          .error (invalid "decimal requires 1 <= precision <= 38 and scale <= precision")
        else .ok (UInt8.ofNat precision, UInt8.ofNat scale)

/-- `parse_single_type_length`. -/
def parseSingleTypeLength (value typeName : String) : Result ℕ :=
  match ((stripText typeName.toList value.toList).map trim).bind fun value =>
      (stripPrefix '(' value).bind (stripSuffix ')') with
  | none => .error (invalid (typeName ++ " requires a positive length"))
  | some arguments =>
    match parseUnsigned (2 ^ 64) (trim arguments) with
    | none => .error (invalid ("invalid " ++ typeName ++ " length"))
    | some length =>
      if length = 0 ∨ 10485760 < length then
        .error (invalid (typeName ++ " length must be between 1 and 10485760"))
      else .ok length

/-- The branches of `relational_type` that read a displayed name, in their order. -/
def typeOfText (text display : String) : Result RelationalType :=
  let startsWith := fun head : String => head.toList.isPrefixOf text.toList
  if text = "boolean" ∨ text = "bool" then .ok .boolean
  else if text = "smallint" ∨ text = "int2" then .ok .smallInt
  else if text = "integer" ∨ text = "int" ∨ text = "int4" then .ok .integer
  else if text = "bigint" ∨ text = "int8" then .ok .bigInt
  else if text = "real" ∨ text = "float4" then .ok .real
  else if ["float", "float8", "double", "double precision"].any startsWith then .ok .float
  else if startsWith "decimal" || startsWith "numeric" then do
    let (precision, scale) ← parsePrecisionScale text
    return .decimal precision scale
  else if text = "uuid" then .ok .uuid
  else if text = "bytea" then .ok .bytea
  else if text = "date" then .ok .date
  else if text.toList.tails.any ("timestamp".toList.isPrefixOf ·) then .ok .timestampUtc
  else if text = "jsonb" then .ok .jsonb
  else if text = "text" then .ok .text
  else if startsWith "varchar" || startsWith "character varying" then do
    let length ← match parseSingleTypeLength text "varchar" with
      | .ok length => .ok length
      | .error _ => parseSingleTypeLength text "character varying"
    return .varchar length
  else
    match (stripText "vector(".toList text.toList).bind (stripSuffix ')') with
    | some inner =>
      match parseUnsigned (2 ^ 64) inner with
      | none => .error (invalid "invalid vector dimension")
      | some dimension =>
        if dimension = 0 ∨ 65536 < dimension then
          .error (invalid "vector dimension must be between 1 and 65536")
        else .ok (.vector dimension)
    | none => .error (unsupported ("unsupported relational type " ++ display))

/-- `relational_type`. -/
def relationalType (dataType : DataType) : Result RelationalType :=
  match dataType.custom with
  | some (name, modifiers) =>
    if toAsciiLowercase name = "record_ref" then
      match modifiers with
      | [namespaceName] =>
        if trim namespaceName.toList = [] then
          .error (invalid "RECORD_REF requires exactly one namespace")
        else .ok (.recordRef (toAsciiLowercase namespaceName))
      | _ => .error (invalid "RECORD_REF requires exactly one namespace")
    else typeOfText (toAsciiLowercase dataType.display) dataType.display
  | none => typeOfText (toAsciiLowercase dataType.display) dataType.display

end ChironDB.Relational
