/-
# Scalar expressions

`expression_value` of `chirondb-core/src/relational.rs` evaluates a literal, a parameter, a sign,
a cast or a `RECORD_REF` call to a value of an expected type, with `coerce_parameter`,
`numeric_value`, `string_value`, `parse_bytea` and `cast_storage_compatible`.

`Expr` keeps what the relational code looks at of `sqlparser`'s tree.  The arguments of a function
are told apart as literals, other expressions and arguments that are not positional.  A subquery
is its text.  What is called of `sqlparser`, `uuid`, `serde_json` and the float parser of the
standard library is the class `Literals`.  The parameter cursor is passed around by the source and
never read.
-/

import ChironDB.Relational.Definition
import ChironDB.Relational.TypeName

namespace ChironDB.Relational

/-! ### The syntax tree -/

/-- `Value`. -/
inductive Value
  | null
  | boolean (value : Bool)
  | number (value : String)
  | singleQuotedString (value : String)
  | placeholder (value : String)
  | other

/-- `BinaryOperator`. -/
inductive BinaryOperator
  | plus
  | minus
  | multiply
  | divide
  | modulo
  | stringConcat
  | gt
  | lt
  | gtEq
  | ltEq
  | eq
  | notEq
  | and
  | or
  | other
  deriving DecidableEq

/-- `UnaryOperator`: the ones displayed as `NOT` and `-`. -/
inductive UnaryOperator
  | not
  | minus
  | other
  deriving DecidableEq

/-- `CastKind`. -/
inductive CastKind
  | cast
  | doubleColon
  | other
  deriving DecidableEq

/-- `FunctionArg`. -/
inductive FunctionArg
  | value (value : Value)
  | expr
  | other

/-- `FunctionArguments::List`. -/
structure FunctionArgumentList where
  args : List FunctionArg
  clauses : Bool := false

/-- `Expr`. -/
inductive Expr
  | identifier (value : String)
  | compoundIdentifier (values : List String)
  | value (value : Value)
  | function (name : String) (args : Option FunctionArgumentList)
  | unaryOp (op : UnaryOperator) (expr : Expr)
  | binaryOp (left : Expr) (op : BinaryOperator) (right : Expr)
  | isNull (expr : Expr)
  | isNotNull (expr : Expr)
  | inList (expr : Expr) (list : List Expr) (negated : Bool)
  | inSubquery (expr : Expr) (subquery : String) (negated : Bool)
  | exists (subquery : String) (negated : Bool)
  | between (expr : Expr) (negated : Bool) (low high : Expr)
  | nested (expr : Expr)
  | cast (kind : CastKind) (expr : Expr) (dataType : DataType) (array : Bool)
      (format : Option String)
  | other

/-- Induction over an expression; the members of an IN list are not descended into. -/
@[elab_as_elim, induction_eliminator]
theorem Expr.induction {motive : Expr → Prop} (identifier : ∀ value, motive (.identifier value))
    (compoundIdentifier : ∀ values, motive (.compoundIdentifier values))
    (value : ∀ value, motive (.value value)) (function : ∀ name args, motive (.function name args))
    (unaryOp : ∀ op expr, motive expr → motive (.unaryOp op expr))
    (binaryOp : ∀ left op right, motive left → motive right → motive (.binaryOp left op right))
    (isNull : ∀ expr, motive expr → motive (.isNull expr))
    (isNotNull : ∀ expr, motive expr → motive (.isNotNull expr))
    (inList : ∀ expr list negated, motive expr → motive (.inList expr list negated))
    (inSubquery : ∀ expr subquery negated, motive expr → motive (.inSubquery expr subquery negated))
    (existsQuery : ∀ subquery negated, motive (.exists subquery negated))
    (between : ∀ expr negated low high, motive expr → motive low → motive high →
      motive (.between expr negated low high))
    (nested : ∀ expr, motive expr → motive (.nested expr))
    (cast : ∀ kind expr dataType array format, motive expr →
      motive (.cast kind expr dataType array format))
    (other : motive .other) (expression : Expr) : motive expression := by
  exact @Expr.rec motive (fun _ => True) identifier compoundIdentifier value function unaryOp
    binaryOp isNull isNotNull (fun expr list negated ih _ => inList expr list negated ih)
    inSubquery existsQuery between nested cast other trivial (fun _ _ _ _ => trivial) expression

/-- What is called of other crates for the text of an expression and of its literals. -/
class Literals where
  /-- `Display` of an expression. -/
  display : Expr → String
  /-- `str::parse::<f64>`. -/
  parseFloat64 : String → Option UInt64
  /-- `Uuid::parse_str`. -/
  parseUuid : String → Option Uuid
  /-- `serde_json::from_str`, as the text of the value. -/
  parseJson : String → Option String
  /-- `serde_json::from_str::<Vec<f32>>`. -/
  parseVector : String → Option (List UInt32)

/-! ### Names -/

/-- `normalize_ident`. -/
def normalizeIdent (value : String) : String := toAsciiLowercase value

/-- `expression_column_name`. -/
def expressionColumnName : Expr → Result String
  | .identifier value => .ok (normalizeIdent value)
  | .compoundIdentifier values =>
    match values.getLast? with
    | some value => .ok (normalizeIdent value)
    | none => .error (unsupported "expected a column reference")
  | _ => .error (unsupported "expected a column reference")

/-! ### Numbers and bytes -/

/-- The integer that a sign and digits spell, of any size. -/
def parseInteger (s : List Char) : Option ℤ :=
  let digits := stripSign s
  if digits = [] ∨ allDigits digits = false then none
  else if s.head? = some '-' then some (-(Codec.digitsValue digits : ℤ))
  else some (Codec.digitsValue digits)

/-- `str::parse::<i64>`. -/
def parseI64 (value : String) : Option Int64 := do
  let n ← parseInteger value.toList
  if -2 ^ 63 ≤ n ∧ n < 2 ^ 63 then some (Int64.ofInt n) else none

/-- The position that the digits behind `$` name. -/
def parsePosition (number : List Char) : Option ℕ := do
  let number ← parseUnsigned (2 ^ 64) number
  if number = 0 then none else some (number - 1)

/-- A hexadecimal digit. -/
def hexNibble (byte : UInt8) : Option ℕ :=
  let n := byte.toNat
  if 48 ≤ n ∧ n ≤ 57 then some (n - 48)
  else if 65 ≤ n ∧ n ≤ 70 then some (n - 55)
  else if 97 ≤ n ∧ n ≤ 102 then some (n - 87)
  else none

/-- `u8::from_str_radix(pair, 16)`: a plus sign may stand for the first digit. -/
def parseHexPair (high low : UInt8) : Result UInt8 :=
  let high := if high.toNat = 43 then some 0 else hexNibble high
  match high, hexNibble low with
  | some high, some low => .ok (UInt8.ofNat (16 * high + low))
  | _, _ => .error (invalid "BYTEA contains invalid hex")

/-- The pairs of `chunks_exact(2)`. -/
def parseHexPairs : Codec.Bytes → Result Codec.Bytes
  | high :: low :: rest => do
    let byte ← parseHexPair high low
    let bytes ← parseHexPairs rest
    return byte :: bytes
  | _ => .ok []

/-- `parse_bytea`. -/
def parseBytea (value : String) : Result Codec.Bytes :=
  match stripText "\\x".toList value.toList with
  | none => .error (invalid "BYTEA text input must use PostgreSQL hex format \\x...")
  | some hex =>
    let hex := asBytes (String.ofList hex)
    if hex.length % 2 ≠ 0 then .error (invalid "BYTEA hex input must contain complete bytes")
    else parseHexPairs hex

/-! ### Literals and parameters -/

/-- `ok_or_else` of an invalid request. -/
def orInvalid {α : Type} (value : Option α) (message : String) : Result α :=
  match value with
  | some value => .ok value
  | none => .error (invalid message)

theorem orInvalid_eq_ok {α : Type} {value : Option α} {message : String} {a : α} :
    orInvalid value message = .ok a ↔ value = some a := by
  cases value <;> simp [orInvalid]

section

variable [Chrono]

/-- How an evaluator ends: its value is checked against the type. -/
def validated (expected : RelationalType) (value : Result RelationalValue) :
    Result RelationalValue := do
  let value ← value
  validateValue expected value
  return value

theorem validated_eq_ok {expected : RelationalType} {result : Result RelationalValue}
    {value : RelationalValue} :
    validated expected result = .ok value ↔
      result = .ok value ∧ validateValue expected value = .ok () := by
  simp only [validated, bind_eq_ok]
  constructor
  · rintro ⟨_, hresult, _, hvalid, h⟩
    cases h
    exact ⟨hresult, hvalid⟩
  · rintro ⟨hresult, hvalid⟩
    exact ⟨value, hresult, (), hvalid, rfl⟩

variable [Literals]

/-- What `coerce_parameter` makes of a text. -/
def textParameter (text : String) (expected : RelationalType) : Result RelationalValue :=
  match expected with
  | .boolean =>
    let lower := toAsciiLowercase text
    if lower = "true" ∨ lower = "t" ∨ lower = "1" then .ok (.boolean true)
    else if lower = "false" ∨ lower = "f" ∨ lower = "0" then .ok (.boolean false)
    else .error (invalid "boolean parameter must be true or false")
  | .smallInt | .integer | .bigInt => do
    return .integer (← orInvalid (parseI64 text) "integer parameter is invalid")
  | .real | .float => do
    return .float (← orInvalid (Literals.parseFloat64 text) "floating-point parameter is invalid")
  | .decimal _ _ => .ok (.decimal text)
  | .text | .varchar _ => .ok (.text text)
  | .bytea => do return .bytes (← parseBytea text)
  | .date => .ok (.date text)
  | .timestampUtc => .ok (.timestampUtc text)
  | .uuid => do return .uuid (← orInvalid (Literals.parseUuid text) "UUID parameter is invalid")
  | .jsonb => do return .json (← orInvalid (Literals.parseJson text) "JSONB parameter is invalid")
  | .vector _ => do
    return .vector (← orInvalid (Literals.parseVector text) "vector parameter is invalid")
  | .recordRef _ =>
    .error (invalid "RECORD_REF parameters require the typed record_ref representation")

/-- `coerce_parameter`. -/
def coerceParameter (value : RelationalValue) (expected : RelationalType) :
    Result RelationalValue :=
  if value = .null then .ok value
  else match validateValue expected value, value with
    | .ok (), _ => .ok value
    | .error _, .text text => validated expected (textParameter text expected)
    | .error _, _ => .error (invalid ("parameter value does not match type " ++ expected.debug))

/-- `numeric_value`. -/
def numericValue (value : String) (expected : RelationalType) : Result RelationalValue :=
  match expected with
  | .smallInt | .integer | .bigInt => do
    return .integer (← orInvalid (parseI64 value) s!"{value} is not a valid integer")
  | .real | .float => do
    return .float (← orInvalid (Literals.parseFloat64 value) s!"{value} is not a valid float")
  | .decimal _ _ => .ok (.decimal value)
  | _ => .error (invalid ("numeric literal is not valid for " ++ expected.debug))

/-- `string_value`. -/
def stringValue (value : String) (expected : RelationalType) : Result RelationalValue :=
  match expected with
  | .text | .varchar _ => .ok (.text value)
  | .bytea => do return .bytes (← parseBytea value)
  | .date => .ok (.date value)
  | .decimal _ _ => .ok (.decimal value)
  | .timestampUtc => .ok (.timestampUtc value)
  | .uuid => do
    return .uuid (← orInvalid (Literals.parseUuid value) s!"{value} is not a valid UUID")
  | .jsonb => do
    return .json (← orInvalid (Literals.parseJson value) "JSONB string must be valid JSON")
  | .vector _ => do
    return .vector (← orInvalid (Literals.parseVector value)
      "vector string must be a JSON numeric array")
  | _ => .error (invalid ("string literal is not valid for " ++ expected.debug))

/-- The parameter a placeholder names. -/
def placeholderValue (parameters : List RelationalValue) (placeholder : String)
    (expected : RelationalType) : Result RelationalValue :=
  match stripPrefix '$' placeholder.toList with
  | none => .error (invalid s!"unsupported placeholder {placeholder}; use $1 through $n")
  | some number => do
    let index ← orInvalid (parsePosition number) s!"invalid placeholder {placeholder}"
    let value ← orInvalid parameters[index]? s!"missing parameter for {placeholder}"
    coerceParameter value expected

/-- The branch of `expression_value` for a literal. -/
def literalValue (parameters : List RelationalValue) (value : Value) (expected : RelationalType) :
    Result RelationalValue :=
  match value with
  | .null => .ok .null
  | .boolean value => .ok (.boolean value)
  | .number value => numericValue value expected
  | .singleQuotedString value => stringValue value expected
  | .placeholder placeholder => placeholderValue parameters placeholder expected
  | .other => .error (unsupported "literal is outside relational v1")

/-! ### Record references -/

/-- The namespace argument of `RECORD_REF`. -/
def recordRefNamespace : FunctionArg → Result String
  | .other => .error (invalid "RECORD_REF arguments must be positional expressions")
  | .value (.singleQuotedString value) => .ok (toAsciiLowercase value)
  | _ => .error (invalid "RECORD_REF namespace must be a string literal")

/-- The id argument of `RECORD_REF`. -/
def recordRefId (parameters : List RelationalValue) : FunctionArg → Result String
  | .other => .error (invalid "RECORD_REF arguments must be positional expressions")
  | .expr => .error (invalid "RECORD_REF id must be a literal or parameter")
  | .value (.singleQuotedString value) => .ok value
  | .value (.number value) => .ok value
  | .value (.placeholder placeholder) => do
    let index ← orInvalid ((stripPrefix '$' placeholder.toList).bind parsePosition)
      s!"invalid placeholder {placeholder}"
    match parameters[index]? with
    | some (.text value) => return value
    | some (.uuid value) => return String.ofList (hyphenated value)
    | some (.integer value) => return toString value.toInt
    | _ => .error (invalid "RECORD_REF id parameter must be text, UUID, or integer")
  | .value _ => .error (invalid "RECORD_REF id must be text, number, or a parameter")

/-- The branch of `expression_value` for `RECORD_REF`. -/
def recordRefValue (parameters : List RelationalValue) (args : Option FunctionArgumentList)
    (expected : RelationalType) : Result RelationalValue :=
  match expected, args with
  | .recordRef expected, some ⟨[first, second], false⟩ => do
    let namespaceName ← recordRefNamespace first
    if namespaceName ≠ expected then
      .error (invalid ("RECORD_REF namespace " ++ namespaceName ++
        " does not match column namespace " ++ expected))
    else
      let id ← recordRefId parameters second
      if id = "" then .error (invalid "RECORD_REF id cannot be empty")
      else return .recordRef ⟨namespaceName, id⟩
  | .recordRef _, _ => .error (invalid "RECORD_REF requires namespace and id arguments")
  | _, _ => .error (invalid "RECORD_REF can only be assigned to a RECORD_REF column")

/-! ### Expressions -/

/-- Unary minus.  An integer is negated by `-value`, which wraps around in a release build. -/
def negateValue : RelationalValue → Result RelationalValue
  | .integer value => .ok (.integer (-value))
  | .float bits => .ok (.float (bits ^^^ 0x8000000000000000))
  | .decimal value => .ok (.decimal ("-" ++ value))
  | _ => .error (invalid "unary minus requires a numeric value")

/-- `SmallInt | Integer | BigInt`. -/
def RelationalType.isInteger : RelationalType → Bool
  | .smallInt | .integer | .bigInt => true
  | _ => false

/-- `Real | Float`. -/
def RelationalType.isFloat : RelationalType → Bool
  | .real | .float => true
  | _ => false

/-- `Text | Varchar`. -/
def RelationalType.isText : RelationalType → Bool
  | .text | .varchar _ => true
  | _ => false

/-- `cast_storage_compatible`. -/
def castStorageCompatible (source target : RelationalType) : Bool :=
  source = target || source.isInteger && target.isInteger ||
    source.isFloat && target.isFloat || source.isText && target.isText

/-- `expression_value`. -/
def expressionValue (parameters : List RelationalValue) (expression : Expr)
    (expected : RelationalType) : Result RelationalValue :=
  validated expected <| match expression with
    | .value value => literalValue parameters value expected
    | .function name args =>
      if toAsciiLowercase name = "record_ref" then recordRefValue parameters args expected
      else .error (unsupported "expression is outside the scalar relational v1 subset")
    | .unaryOp .minus expr => do
      let value ← expressionValue parameters expr expected
      negateValue value
    | .cast kind expr dataType array format =>
      if kind = .other ∨ array ∨ format.isSome then
        .error (unsupported "only CAST(expr AS type) and expr::type are supported")
      else do
        let target ← relationalType dataType
        let value ← expressionValue parameters expr target
        if castStorageCompatible target expected then return value
        else .error (unsupported ("cast from " ++ target.debug ++ " cannot be assigned to " ++
          expected.debug))
    | _ => .error (unsupported "expression is outside the scalar relational v1 subset")

end

end ChironDB.Relational
