/-
# Integer arithmetic

Integers are computed in three places of `chirondb-core/src/relational.rs`: `expression_value`
negates, `upsert_binary_value` adds, subtracts, multiplies and divides in the assignments of
`ON CONFLICT`, and `aggregate_sum` adds up a column.  The last two use the checked operations of
`i64`; the first one negates by `-value`.

`exactInteger` and `exactUpsert` give the mathematical value of an expression, if it and the
values of its parts are within their types.
-/

import ChironDB.Relational.Expr
import ChironDB.Relational.KeyOrder

namespace ChironDB.Relational

/-! ### Checked operations -/

/-- The integer, if it is within `i64`. -/
def checkedI64 (n : ℤ) : Option Int64 :=
  if -2 ^ 63 ≤ n ∧ n < 2 ^ 63 then some (Int64.ofInt n) else none

variable {n : ℤ} {value : Int64} {dataType : RelationalType} {text : String}

theorem toInt_of_checkedI64 (h : checkedI64 n = some value) :
    value.toInt = n := by
  unfold checkedI64 at h
  split_ifs at h with hrange
  cases h
  exact Int64.toInt_ofInt_of_le hrange.1 hrange.2

/-- Negation is exact except at the minimum. -/
theorem toInt_neg_of_ne (h : value.toInt ≠ -2 ^ 63) :
    (-value).toInt = -value.toInt := by
  have hlow := Int64.le_toInt value
  have hhigh := Int64.toInt_lt value
  rw [Int64.toInt_neg, Int.bmod_eq_of_le]
  · omega
  · omega

theorem toInt_ne_zero (h : value ≠ 0) : value.toInt ≠ 0 :=
  fun heq => h (Int64.toInt_inj.1 heq)

/-- `checked_rem`: the remainder overflows where the quotient does. -/
def checkedRem (left right : Int64) : Option Int64 :=
  if right = 0 ∨ left = Int64.minValue ∧ right = -1 then none
  else checkedI64 (left.toInt.tmod right.toInt)

/-- `checked_div`. -/
def checkedDiv (left right : Int64) : Option Int64 :=
  if right = 0 then none else checkedI64 (left.toInt.tdiv right.toInt)

/-! ### Assignments of `ON CONFLICT` -/

/-- `UpsertRowSource`. -/
inductive UpsertRowSource
  | existing
  | excluded

/-- `upsert_column_reference`. -/
def upsertColumnReference (expression : Expr) (definition : TableDefinition) :
    Result (UpsertRowSource × ℕ) := do
  let (source, name) ← match expression with
    | .identifier value => .ok (UpsertRowSource.existing, normalizeIdent value)
    | .compoundIdentifier [qualifier, name] =>
      let qualifier := normalizeIdent qualifier
      if qualifier = "excluded" then .ok (.excluded, normalizeIdent name)
      else if qualifier = definition.name then .ok (.existing, normalizeIdent name)
      else .error (invalid s!"unknown ON CONFLICT row qualifier {qualifier}")
    | _ => .error (unsupported "ON CONFLICT expression requires a column reference")
  return (source, ← columnIndex definition name)

/-- `definition_type_for_expression`. -/
def definitionTypeForExpression (expression : Expr) (definition : TableDefinition) :
    Option RelationalType :=
  match upsertColumnReference expression definition with
  | .ok (_, index) => (typeAt definition index).toOption
  | .error _ => none

/-- `upsert_binary_value`. -/
def upsertBinaryValue (left : RelationalValue) (operator : BinaryOperator)
    (right : RelationalValue) : Result RelationalValue :=
  if left = .null ∨ right = .null then .ok .null
  else match left, operator, right with
    | .integer left, .plus, .integer right => do
      return .integer (← orInvalid (checkedI64 (left.toInt + right.toInt))
        "integer addition overflow")
    | .integer left, .minus, .integer right => do
      return .integer (← orInvalid (checkedI64 (left.toInt - right.toInt))
        "integer subtraction overflow")
    | .integer left, .multiply, .integer right => do
      return .integer (← orInvalid (checkedI64 (left.toInt * right.toInt))
        "integer multiplication overflow")
    | .integer left, .divide, .integer right =>
      if right = 0 then .error (invalid "division by zero")
      else do
        return .integer (← orInvalid (checkedDiv left right) "integer division overflow")
    | .integer left, .modulo, .integer right =>
      if right = 0 then .error (invalid "division by zero")
      else do
        return .integer (← orInvalid (checkedRem left right) "integer remainder overflow")
    | .float left, .plus, .float right =>
      .ok (.float (Float.ofBits left + Float.ofBits right).toBits)
    | .float left, .minus, .float right =>
      .ok (.float (Float.ofBits left - Float.ofBits right).toBits)
    | .float left, .multiply, .float right =>
      .ok (.float (Float.ofBits left * Float.ofBits right).toBits)
    | .float left, .divide, .float right =>
      if right &&& 0x7fffffffffffffff = 0 then .error (invalid "division by zero")
      else .ok (.float (Float.ofBits left / Float.ofBits right).toBits)
    | .text left, .stringConcat, .text right => .ok (.text (left ++ right))
    | _, _, _ => .error (unsupported
        "ON CONFLICT arithmetic requires matching integer, float, or text operands")

/-- The operators of `ON CONFLICT` arithmetic. -/
def BinaryOperator.isArithmetic : BinaryOperator → Bool
  | .plus | .minus | .multiply | .divide | .modulo | .stringConcat => true
  | _ => false

section

variable [Chrono] [Literals]

/-- The rows and parameters of an `ON CONFLICT` assignment. -/
structure UpsertContext where
  definition : TableDefinition
  existing : RowValues
  excluded : RowValues
  parameters : List RelationalValue

/-- The value of a column reference. -/
def UpsertContext.column (context : UpsertContext) (expression : Expr) :
    Result RelationalValue := do
  let (source, index) ← upsertColumnReference expression context.definition
  match source with
  | .existing => valueAt context.existing index
  | .excluded => valueAt context.excluded index

/-- The type at which an operand is evaluated. -/
def UpsertContext.operandType (context : UpsertContext) (operand : Expr)
    (expected : RelationalType) : RelationalType :=
  (definitionTypeForExpression operand context.definition).getD expected

/-- `upsert_expression_value`. -/
def upsertExpressionValue (context : UpsertContext) (expression : Expr)
    (expected : RelationalType) : Result RelationalValue :=
  validated expected <| match expression with
    | .identifier _ | .compoundIdentifier _ => context.column expression
    | .nested inner => upsertExpressionValue context inner expected
    | .binaryOp left op right =>
      if op.isArithmetic then do
        let left ← upsertExpressionValue context left (context.operandType left expected)
        let right ← upsertExpressionValue context right (context.operandType right expected)
        upsertBinaryValue left op right
      else expressionValue context.parameters expression expected
    | _ => expressionValue context.parameters expression expected

end

/-! ### Sums -/

/-- The running state of `aggregate_sum`: the two sums and whether integers were seen. -/
structure SumState where
  integer : Int64 := 0
  floating : UInt64 := 0
  kind : Option Bool := none

/-- One value of the loop of `aggregate_sum`. -/
def sumStep (state : SumState) (value : RelationalValue) : Result SumState :=
  match value with
  | .null => .ok state
  | .integer value =>
    if state.kind = some false then
      .error (invalid "SUM input types changed within a column")
    else do
      let integer ← orInvalid (checkedI64 (state.integer.toInt + value.toInt))
        "SUM integer overflow"
      return { state with kind := some true, integer := integer }
  | .float value =>
    if state.kind = some true then
      .error (invalid "SUM input types changed within a column")
    else
      let floating := (Float.ofBits state.floating + Float.ofBits value).toBits
      if isFinite64 floating then
        .ok { state with kind := some false, floating := floating }
      else .error (invalid "SUM floating-point overflow")
  | _ => .error (invalid "SUM requires numeric values")

/-- `aggregate_sum`. -/
def aggregateSum (rows : List RowValues) (index : ℕ) : Result RelationalValue := do
  let state ← rows.foldlM (fun state row => do sumStep state (← valueAt row index)) {}
  return match state.kind with
    | some true => .integer state.integer
    | some false => .float state.floating
    | none => .null

/-! ### Mathematical values -/

/-- The integers of a type. -/
def RelationalType.fits : RelationalType → ℤ → Bool
  | .smallInt, n => -2 ^ 15 ≤ n && n < 2 ^ 15
  | .integer, n => -2 ^ 31 ≤ n && n < 2 ^ 31
  | .bigInt, n => -2 ^ 63 ≤ n && n < 2 ^ 63
  | _, _ => false

/-- The integer, if it is within the type. -/
def fitting (dataType : RelationalType) (n : Option ℤ) : Option ℤ := n.filter dataType.fits

theorem fitting_eq_some {m : Option ℤ} :
    fitting dataType m = some n ↔ m = some n ∧ dataType.fits n = true := Option.filter_eq_some_iff

theorem parseI64_eq_some :
    parseI64 text = some value ↔ parseInteger text.toList = some value.toInt := by
  unfold parseI64
  cases parseInteger text.toList with
  | none => simp
  | some n =>
    change checkedI64 n = some value ↔ _
    rw [Option.some.injEq]
    constructor
    · intro h
      exact (toInt_of_checkedI64 h).symm
    · rintro rfl
      rw [checkedI64, if_pos ⟨Int64.le_toInt value, Int64.toInt_lt value⟩, Int64.ofInt_toInt]

theorem fits_isInteger (h : dataType.fits n = true) :
    dataType.isInteger = true := by
  cases dataType <;> first | rfl | cases h

theorem fits_bigInt (h : dataType.fits n = true) :
    RelationalType.bigInt.fits n = true := by
  cases dataType <;> simp [RelationalType.fits] at h ⊢ <;> omega

section

variable [Chrono] [Literals] {parameters : List RelationalValue}

omit [Literals] in
theorem validate_integer_iff :
    validateValue dataType (.integer value) = .ok () ↔ dataType.fits value.toInt = true := by
  cases dataType <;> simp [validateValue, RelationalType.fits]
  exact ⟨Int64.le_toInt value, Int64.toInt_lt value⟩

/-- The parameter a placeholder names. -/
def parameterAt (parameters : List RelationalValue) (placeholder : String) :
    Option RelationalValue := do
  let number ← stripPrefix '$' placeholder.toList
  let index ← parsePosition number
  parameters[index]?

/-- The integer a parameter stands for; a text is read. -/
def parameterInteger : RelationalValue → Option ℤ
  | .integer value => some value.toInt
  | .text text => parseInteger text.toList
  | _ => none

/-- The integer a literal stands for. -/
def exactLiteral (parameters : List RelationalValue) : Value → Option ℤ
  | .number text => parseInteger text.toList
  | .placeholder placeholder => (parameterAt parameters placeholder).bind parameterInteger
  | _ => none

/-- **The mathematical value of a scalar expression**, if it and those of its parts are within
their types. -/
def exactInteger (parameters : List RelationalValue) (expression : Expr)
    (expected : RelationalType) : Option ℤ :=
  fitting expected <| match expression with
    | .value literal => exactLiteral parameters literal
    | .unaryOp .minus expr => (exactInteger parameters expr expected).map (- ·)
    | .cast kind expr dataType array format =>
      if kind = .other ∨ array ∨ format.isSome then none
      else match relationalType dataType with
        | .ok target =>
          if castStorageCompatible target expected then exactInteger parameters expr target
          else none
        | .error _ => none
    | _ => none

/-! ### Leaves -/

omit [Chrono] in
theorem numericValue_integer :
    numericValue text dataType = .ok (.integer value) ↔
      parseInteger text.toList = some value.toInt ∧ dataType.isInteger = true := by
  rw [← parseI64_eq_some]
  cases dataType <;>
    simp [numericValue, RelationalType.isInteger, bind_eq_ok, orInvalid_eq_ok, pure, Except.pure]

omit [Chrono] in
theorem stringValue_ne_integer :
    stringValue text dataType ≠ .ok (.integer value) := by
  cases dataType <;> unfold stringValue <;> simp [bind_eq_ok, pure, Except.pure]

omit [Chrono] in
theorem textParameter_integer :
    textParameter text dataType = .ok (.integer value) ↔
      parseInteger text.toList = some value.toInt ∧ dataType.isInteger = true := by
  rw [← parseI64_eq_some]
  cases dataType <;>
    simp [textParameter, RelationalType.isInteger, bind_eq_ok, orInvalid_eq_ok, pure, Except.pure]
  split_ifs <;> simp

theorem coerceParameter_integer {parameter : RelationalValue} :
    coerceParameter parameter dataType = .ok (.integer value) ↔
      parameterInteger parameter = some value.toInt ∧ dataType.fits value.toInt = true := by
  unfold coerceParameter
  cases hvalid : validateValue dataType parameter with
  | ok _ =>
    cases parameter with
    | integer own =>
      rw [validate_integer_iff] at hvalid
      simp only [reduceCtorEq, if_false, Except.ok.injEq, RelationalValue.integer.injEq,
        parameterInteger, Option.some.injEq, Int64.toInt_inj]
      constructor
      · rintro rfl
        exact ⟨rfl, hvalid⟩
      · exact fun h => h.1
    | text text =>
      -- A text is accepted as it is by the text types only, and these hold no integer.
      cases dataType <;> simp_all [validateValue, RelationalType.fits]
    | _ => simp [parameterInteger]
  | error _ =>
    cases parameter with
    | integer own =>
      simp only [reduceCtorEq, if_false, false_iff, not_and, parameterInteger, Option.some.injEq]
      intro heq hfits
      rw [← heq, ← validate_integer_iff, hvalid] at hfits
      cases hfits
    | text text =>
      simp only [reduceCtorEq, if_false, validated_eq_ok, textParameter_integer,
        validate_integer_iff, parameterInteger]
      constructor
      · rintro ⟨⟨hparse, -⟩, hfits⟩
        exact ⟨hparse, hfits⟩
      · rintro ⟨hparse, hfits⟩
        exact ⟨⟨hparse, fits_isInteger hfits⟩, hfits⟩
    | _ => simp [parameterInteger]

/-! ### Parts -/

/-- `Subexpression e t x u`: the evaluation of `e` at the type `t` evaluates `x` at `u`. -/
inductive Subexpression : Expr → RelationalType → Expr → RelationalType → Prop
  | refl (expression expected) : Subexpression expression expected expression expected
  | minus {expr expected part dataType} (h : Subexpression expr expected part dataType) :
      Subexpression (.unaryOp .minus expr) expected part dataType
  | cast {kind expr name array format target expected part dataType}
      (htarget : relationalType name = .ok target)
      (h : Subexpression expr target part dataType) :
      Subexpression (.cast kind expr name array format) expected part dataType

/-- Every part of a scalar expression that gives an integer gives the mathematical one. -/
def ScalarExact (parameters : List RelationalValue) (expression : Expr)
    (expected : RelationalType) : Prop :=
  ∀ part dataType, Subexpression expression expected part dataType →
    ∀ value, expressionValue parameters part dataType = .ok (.integer value) →
      exactInteger parameters part dataType = some value.toInt

/-- A unary minus stands before an operand with the mathematical value `-2 ^ 63`. -/
def NegatesMinimum (parameters : List RelationalValue) (expression : Expr)
    (expected : RelationalType) : Prop :=
  ∃ operand dataType, Subexpression expression expected (.unaryOp .minus operand) dataType ∧
    exactInteger parameters operand dataType = some (-2 ^ 63)

section

theorem value_integer {literal : Value} :
    expressionValue parameters (.value literal) dataType = .ok (.integer value) ↔
      exactInteger parameters (.value literal) dataType = some value.toInt := by
  rw [expressionValue, exactInteger, validated_eq_ok, fitting_eq_some, validate_integer_iff]
  refine and_congr_left fun hfits => ?_
  cases literal with
  | number text =>
    simp only [literalValue, numericValue_integer, fits_isInteger hfits, and_true, exactLiteral]
  | placeholder placeholder =>
    rw [literalValue, placeholderValue, exactLiteral, parameterAt]
    cases stripPrefix '$' placeholder.toList with
    | none => simp
    | some number =>
      simp only [bind_eq_ok, orInvalid_eq_ok, coerceParameter_integer, hfits, and_true,
        Option.bind_eq_bind, Option.bind_some, Option.bind_eq_some_iff]
      constructor
      · rintro ⟨index, hindex, parameter, hparameter, h⟩
        exact ⟨parameter, ⟨index, hindex, hparameter⟩, h⟩
      · rintro ⟨parameter, ⟨index, hindex, hparameter⟩, h⟩
        exact ⟨index, hindex, parameter, hparameter, h⟩
  | singleQuotedString text =>
    simp [literalValue, stringValue_ne_integer, exactLiteral]
  | _ => simp [literalValue, exactLiteral]

variable {expr : Expr}

theorem minus_integer :
    expressionValue parameters (.unaryOp .minus expr) dataType = .ok (.integer value) ↔
      (∃ operand, expressionValue parameters expr dataType = .ok (.integer operand) ∧
        value = -operand) ∧ dataType.fits value.toInt = true := by
  rw [expressionValue, validated_eq_ok, validate_integer_iff]
  refine and_congr_left fun _ => ?_
  simp only [bind_eq_ok]
  constructor
  · rintro ⟨operand, hoperand, h⟩
    cases operand <;> simp only [negateValue, reduceCtorEq, Except.ok.injEq,
      RelationalValue.integer.injEq] at h
    exact ⟨_, hoperand, h.symm⟩
  · rintro ⟨operand, hoperand, rfl⟩
    exact ⟨_, hoperand, rfl⟩

variable {array : Bool} {kind : CastKind} {name : DataType} {format : Option String}

theorem cast_integer :
    expressionValue parameters (.cast kind expr name array format) dataType =
        .ok (.integer value) ↔
      (¬(kind = .other ∨ array ∨ format.isSome) ∧ ∃ target, relationalType name = .ok target ∧
          expressionValue parameters expr target = .ok (.integer value) ∧
          castStorageCompatible target dataType = true) ∧ dataType.fits value.toInt = true := by
  rw [expressionValue, validated_eq_ok, validate_integer_iff]
  refine and_congr_left fun _ => ?_
  split_ifs with hform
  · simp [hform]
  · simp only [hform, not_false_eq_true, true_and, bind_eq_ok]
    refine exists_congr fun target => and_congr_right fun _ => ?_
    constructor
    · rintro ⟨result, hresult, h⟩
      split_ifs at h with hcast
      cases h
      exact ⟨hresult, hcast⟩
    · rintro ⟨hresult, hcast⟩
      exact ⟨_, hresult, by rw [if_pos hcast]; rfl⟩

omit [Chrono] [Literals] in
theorem exactInteger_minus :
    exactInteger parameters (.unaryOp .minus expr) dataType = some n ↔
      exactInteger parameters expr dataType = some (-n) ∧ dataType.fits n = true := by
  rw [exactInteger, fitting_eq_some, Option.map_eq_some_iff]
  refine and_congr_left fun _ => ?_
  constructor
  · rintro ⟨m, hm, rfl⟩
    rw [hm, neg_neg]
  · intro h
    exact ⟨-n, h, neg_neg n⟩

omit [Chrono] [Literals] in
theorem exactInteger_cast :
    exactInteger parameters (.cast kind expr name array format) dataType = some n ↔
      (¬(kind = .other ∨ array ∨ format.isSome) ∧ ∃ target, relationalType name = .ok target ∧
          exactInteger parameters expr target = some n ∧
          castStorageCompatible target dataType = true) ∧ dataType.fits n = true := by
  rw [exactInteger, fitting_eq_some]
  refine and_congr_left fun _ => ?_
  split_ifs with hform
  · simp [hform]
  · cases relationalType name with
    | error _ => simp
    | ok target => simp [hform, and_comm]

end

variable {expression : Expr} {context : UpsertContext}

omit [Chrono] [Literals] in
theorem fits_of_exact (h : exactInteger parameters expression dataType = some n) :
    dataType.fits n = true := by
  rw [exactInteger.eq_def] at h
  exact (fitting_eq_some.1 h).2

omit [Chrono] [Literals] in
theorem exists_toInt_of_exact (h : exactInteger parameters expression dataType = some n) :
    ∃ value : Int64, value.toInt = n := by
  have hrange := fits_bigInt (fits_of_exact h)
  simp only [RelationalType.fits, Bool.and_eq_true, decide_eq_true_eq] at hrange
  exact ⟨Int64.ofInt n, Int64.toInt_ofInt_of_le hrange.1 hrange.2⟩

/-! ### When negation is exact -/

variable {e x y : Expr} {t u w : RelationalType}

section

/-- **Without a negated minimum the value of an expression is the mathematical one.** -/
theorem integer_iff_exact (h : ¬NegatesMinimum parameters expression dataType) (value : Int64) :
    expressionValue parameters expression dataType = .ok (.integer value) ↔
      exactInteger parameters expression dataType = some value.toInt := by
  induction expression generalizing dataType value with
  | value literal => exact value_integer
  | unaryOp op expr ih =>
    cases op with
    | minus =>
      have hpart : ¬NegatesMinimum parameters expr dataType := by
        rintro ⟨operand, u, hsub, hmin⟩
        exact h ⟨operand, u, .minus hsub, hmin⟩
      have hmin : exactInteger parameters expr dataType ≠ some (-2 ^ 63) :=
        fun heq => h ⟨expr, dataType, .refl _ _, heq⟩
      rw [minus_integer, exactInteger_minus]
      refine and_congr_left fun _ => ?_
      constructor
      · rintro ⟨operand, hoperand, rfl⟩
        have hexact := (ih hpart operand).1 hoperand
        have hne : operand.toInt ≠ -2 ^ 63 := fun heq => hmin (heq ▸ hexact)
        rw [hexact, toInt_neg_of_ne hne, neg_neg]
      · intro hexact
        obtain ⟨operand, hoperand⟩ := exists_toInt_of_exact hexact
        rw [← hoperand] at hexact
        have hne : operand.toInt ≠ -2 ^ 63 := fun heq => hmin (heq ▸ hexact)
        refine ⟨operand, (ih hpart operand).2 hexact, Int64.toInt_inj.1 ?_⟩
        rw [toInt_neg_of_ne hne, hoperand, neg_neg]
    | _ => simp [expressionValue, exactInteger, validated_eq_ok, fitting_eq_some]
  | cast kind expr name array format ih =>
    rw [cast_integer, exactInteger_cast]
    refine and_congr_left fun _ => and_congr_right fun _ => exists_congr fun target =>
      and_congr_right fun htarget => and_congr_left fun _ => ih ?_ value
    rintro ⟨operand, u, hsub, hmin⟩
    exact h ⟨operand, u, .cast htarget hsub, hmin⟩
  | function name args =>
    simp only [expressionValue, exactInteger, validated_eq_ok, fitting_eq_some,
      validate_integer_iff]
    refine and_congr_left fun hfits => ?_
    have hinteger := fits_isInteger hfits
    clear hfits h
    split_ifs
    · cases dataType <;> simp [RelationalType.isInteger, recordRefValue] at hinteger ⊢
    · simp
  | _ => simp [expressionValue, exactInteger, validated_eq_ok, fitting_eq_some]

omit [Chrono] [Literals] in
theorem Subexpression.trans (h : Subexpression e t x u) (h' : Subexpression x u y w) :
    Subexpression e t y w := by
  induction h with
  | refl => exact h'
  | minus _ ih => exact .minus (ih h')
  | cast htarget _ ih => exact .cast htarget (ih h')

omit [Chrono] [Literals] in
theorem NegatesMinimum.innermost (h : NegatesMinimum parameters expression dataType) :
    ∃ operand u, Subexpression expression dataType (.unaryOp .minus operand) u ∧
      exactInteger parameters operand u = some (-2 ^ 63) ∧
      ¬NegatesMinimum parameters operand u := by
  induction expression generalizing dataType with
  | unaryOp op expr ih =>
    by_cases hinner : op = .minus ∧ NegatesMinimum parameters expr dataType
    · obtain ⟨rfl, hinner⟩ := hinner
      obtain ⟨operand, u, hsub, hrest⟩ := ih hinner
      exact ⟨operand, u, .minus hsub, hrest⟩
    · obtain ⟨operand, u, hsub, hmin⟩ := h
      cases hsub with
      | refl => exact ⟨expr, dataType, .refl _ _, hmin, fun hneg => hinner ⟨rfl, hneg⟩⟩
      | minus hsub => exact absurd ⟨rfl, operand, u, hsub, hmin⟩ hinner
  | cast kind expr name array format ih =>
    obtain ⟨operand, u, hsub, hmin⟩ := h
    cases hsub with
    | cast htarget hsub =>
      obtain ⟨inner, w, hsub, hrest⟩ := ih ⟨operand, u, hsub, hmin⟩
      exact ⟨inner, w, .cast htarget hsub, hrest⟩
  | _ =>
    obtain ⟨operand, u, hsub, hmin⟩ := h
    cases hsub

/-- **A scalar expression is exact in all its parts unless a minimum is negated.** -/
theorem scalarExact_iff :
    ScalarExact parameters expression dataType ↔
      ¬NegatesMinimum parameters expression dataType := by
  constructor
  · intro hexact hnegates
    obtain ⟨operand, u, hsub, hmin, hinner⟩ := hnegates.innermost
    have hoperand : expressionValue parameters operand u = .ok (.integer Int64.minValue) :=
      (integer_iff_exact hinner _).2 hmin
    have hvalue : expressionValue parameters (.unaryOp .minus operand) u =
        .ok (.integer Int64.minValue) :=
      minus_integer.2 ⟨⟨_, hoperand, by decide⟩, fits_of_exact hmin⟩
    have hwrong := (exactInteger_minus.1 (hexact _ _ hsub _ hvalue)).1
    rw [hmin] at hwrong
    exact absurd hwrong (by decide)
  · intro hnone part u hsub value
    refine (integer_iff_exact ?_ value).1
    rintro ⟨operand, w, hpart, hmin⟩
    exact hnone ⟨operand, w, hsub.trans hpart, hmin⟩

end

/-! ### Assignments are exact but for their scalars -/

/-- The mathematical value of an operation; division truncates, and by zero there is none. -/
def exactBinary (left : ℤ) (operator : BinaryOperator) (right : ℤ) : Option ℤ :=
  match operator with
  | .plus => some (left + right)
  | .minus => some (left - right)
  | .multiply => some (left * right)
  | .divide => if right = 0 then none else some (left.tdiv right)
  | .modulo => if right = 0 then none else some (left.tmod right)
  | _ => none

/-- The mathematical value of an assigned expression. -/
def exactUpsert (context : UpsertContext) (expression : Expr) (expected : RelationalType) :
    Option ℤ :=
  fitting expected <| match expression with
    | .identifier _ | .compoundIdentifier _ =>
      match context.column expression with
      | .ok (.integer value) => some value.toInt
      | _ => none
    | .nested inner => exactUpsert context inner expected
    | .binaryOp left op right =>
      if op.isArithmetic then do
        let left ← exactUpsert context left (context.operandType left expected)
        let right ← exactUpsert context right (context.operandType right expected)
        exactBinary left op right
      else exactInteger context.parameters expression expected
    | _ => exactInteger context.parameters expression expected

/-- The expressions that are left to `expression_value`. -/
def Expr.isScalar : Expr → Bool
  | .identifier _ | .compoundIdentifier _ | .nested _ => false
  | .binaryOp _ op _ => !op.isArithmetic
  | _ => true

/-- `UpsertPart c e t x u`: the evaluation of `e` at the type `t` evaluates `x` at `u`. -/
inductive UpsertPart (context : UpsertContext) :
    Expr → RelationalType → Expr → RelationalType → Prop
  | refl (expression expected) : UpsertPart context expression expected expression expected
  | nested {inner expected part dataType} (h : UpsertPart context inner expected part dataType) :
      UpsertPart context (.nested inner) expected part dataType
  | left {left op right expected part dataType} (hop : op.isArithmetic = true)
      (h : UpsertPart context left (context.operandType left expected) part dataType) :
      UpsertPart context (.binaryOp left op right) expected part dataType
  | right {left op right expected part dataType} (hop : op.isArithmetic = true)
      (h : UpsertPart context right (context.operandType right expected) part dataType) :
      UpsertPart context (.binaryOp left op right) expected part dataType

/-- Every part of an assigned expression that gives an integer gives the mathematical one. -/
def UpsertExact (context : UpsertContext) (expression : Expr) (expected : RelationalType) : Prop :=
  ∀ part dataType, UpsertPart context expression expected part dataType →
    (∀ value, upsertExpressionValue context part dataType = .ok (.integer value) →
      exactUpsert context part dataType = some value.toInt) ∧
    (part.isScalar = true → ScalarExact context.parameters part dataType)

/-- A scalar of an assigned expression negates the minimum. -/
def UpsertNegatesMinimum (context : UpsertContext) (expression : Expr)
    (expected : RelationalType) : Prop :=
  ∃ part dataType, UpsertPart context expression expected part dataType ∧
    part.isScalar = true ∧ NegatesMinimum context.parameters part dataType

omit [Chrono] [Literals] in
/-- **The checked operations are exact.** -/
theorem upsertBinaryValue_integer {left right : RelationalValue} {op : BinaryOperator}
    (h : upsertBinaryValue left op right = .ok (.integer value)) :
    ∃ a b : Int64, left = .integer a ∧ right = .integer b ∧
      exactBinary a.toInt op b.toInt = some value.toInt := by
  unfold upsertBinaryValue at h
  split_ifs at h with hnull
  · cases h
  split at h
  case h_1 a b | h_2 a b | h_3 a b =>
    simp only [bind_eq_ok, orInvalid_eq_ok] at h
    obtain ⟨result, hresult, h⟩ := h
    obtain rfl := RelationalValue.integer.inj (Except.ok.inj h)
    exact ⟨a, b, rfl, rfl, by rw [toInt_of_checkedI64 hresult]; rfl⟩
  case h_4 a b | h_5 a b =>
    split_ifs at h with hzero
    simp only [bind_eq_ok, orInvalid_eq_ok, checkedDiv, checkedRem] at h
    obtain ⟨result, hresult, h⟩ := h
    split_ifs at hresult
    obtain rfl := RelationalValue.integer.inj (Except.ok.inj h)
    refine ⟨a, b, rfl, rfl, ?_⟩
    rw [exactBinary, if_neg (toInt_ne_zero hzero), toInt_of_checkedI64 hresult]
  case h_9 =>
    split_ifs at h
    cases h
  all_goals cases h

theorem upsert_scalar (hscalar : expression.isScalar = true) (dataType : RelationalType) :
    upsertExpressionValue context expression dataType =
        validated dataType (expressionValue context.parameters expression dataType) ∧
      exactUpsert context expression dataType =
        fitting dataType (exactInteger context.parameters expression dataType) := by
  cases expression with
  | binaryOp left op right =>
    rw [Expr.isScalar, Bool.not_eq_true'] at hscalar
    rw [upsertExpressionValue, exactUpsert, hscalar]
    exact ⟨rfl, rfl⟩
  | identifier _ | compoundIdentifier _ | nested _ => cases hscalar
  | _ => exact ⟨rfl, rfl⟩

omit [Chrono] [Literals] in
theorem UpsertPart.trans (h : UpsertPart context e t x u) (h' : UpsertPart context x u y w) :
    UpsertPart context e t y w := by
  induction h with
  | refl => exact h'
  | nested _ ih => exact .nested (ih h')
  | left hop _ ih => exact .left hop (ih h')
  | right hop _ ih => exact .right hop (ih h')

theorem upsert_exact_of_scalar (hscalar : expression.isScalar = true)
    (hexact : ScalarExact context.parameters expression dataType)
    (h : upsertExpressionValue context expression dataType = .ok (.integer value)) :
    exactUpsert context expression dataType = some value.toInt := by
  rw [(upsert_scalar hscalar _).1, validated_eq_ok, validate_integer_iff] at h
  rw [(upsert_scalar hscalar _).2, fitting_eq_some]
  exact ⟨hexact _ _ (.refl _ _) _ h.1, h.2⟩

/-- An assigned expression is exact if its scalars are. -/
theorem upsert_exact
    (hscalars : ∀ x w, UpsertPart context expression dataType x w → x.isScalar = true →
      ScalarExact context.parameters x w)
    (h : upsertExpressionValue context expression dataType = .ok (.integer value)) :
    exactUpsert context expression dataType = some value.toInt := by
  induction expression generalizing dataType value with
  | identifier | compoundIdentifier =>
    rw [upsertExpressionValue, validated_eq_ok, validate_integer_iff] at h
    rw [exactUpsert, fitting_eq_some, h.1]
    exact ⟨rfl, h.2⟩
  | nested inner ih =>
    rw [upsertExpressionValue, validated_eq_ok, validate_integer_iff] at h
    rw [exactUpsert, fitting_eq_some]
    exact ⟨ih (fun x w hx => hscalars x w (.nested hx)) h.1, h.2⟩
  | binaryOp left op right ihl ihr =>
    by_cases hop : op.isArithmetic = true
    · rw [upsertExpressionValue, if_pos hop, validated_eq_ok, validate_integer_iff] at h
      simp only [bind_eq_ok] at h
      obtain ⟨⟨l, hl, r, hr, hbinary⟩, hfits⟩ := h
      obtain ⟨a, b, rfl, rfl, hexact⟩ := upsertBinaryValue_integer hbinary
      rw [exactUpsert, if_pos hop, fitting_eq_some,
        ihl (fun x w hx => hscalars x w (.left hop hx)) hl,
        ihr (fun x w hx => hscalars x w (.right hop hx)) hr]
      exact ⟨hexact, hfits⟩
    · have hscalar : (Expr.binaryOp left op right).isScalar = true := by
        rw [Expr.isScalar, Bool.not_eq_true', Bool.eq_false_iff]
        exact hop
      exact upsert_exact_of_scalar hscalar (hscalars _ _ (.refl _ _) hscalar) h
  | _ => exact upsert_exact_of_scalar rfl (hscalars _ _ (.refl _ _) rfl) h

/-- **An assigned expression is exact in all its parts unless a scalar negates the minimum.** -/
theorem upsertExact_iff :
    UpsertExact context expression dataType ↔
      ¬UpsertNegatesMinimum context expression dataType := by
  constructor
  · rintro hexact ⟨part, u, hpart, hscalar, hnegates⟩
    exact scalarExact_iff.1 ((hexact part u hpart).2 hscalar) hnegates
  · intro hnone part u hpart
    have hscalars : ∀ x w, UpsertPart context part u x w → x.isScalar = true →
        ScalarExact context.parameters x w := by
      intro x w hx hscalar
      exact scalarExact_iff.2 fun hnegates => hnone ⟨x, w, hpart.trans hx, hscalar, hnegates⟩
    exact ⟨fun value => upsert_exact hscalars, hscalars part u (.refl _ _)⟩

end

/-! ### Sums are exact -/

/-- The integers of a column. -/
def integersAt (rows : List RowValues) (index : ℕ) : List ℤ :=
  rows.filterMap fun row : RowValues => match row[index]? with
    | some (.integer value) => some value.toInt
    | _ => none

variable {state next : SumState}

theorem sumStep_integer {value : RelationalValue} (h : sumStep state value = .ok next)
    (hkind : next.kind ≠ some false) :
    state.kind ≠ some false ∧ (value = .null ∧ next = state ∨ ∃ own : Int64, value = .integer own ∧
        next.integer.toInt = state.integer.toInt + own.toInt) := by
  unfold sumStep at h
  split at h
  case h_1 =>
    cases h
    exact ⟨hkind, .inl ⟨rfl, rfl⟩⟩
  case h_2 own =>
    split_ifs at h with hfalse
    simp only [bind_eq_ok, orInvalid_eq_ok] at h
    obtain ⟨integer, hinteger, h⟩ := h
    cases h
    exact ⟨hfalse, .inr ⟨own, rfl, toInt_of_checkedI64 hinteger⟩⟩
  case h_3 =>
    dsimp only at h
    split_ifs at h
    cases h
    exact absurd rfl hkind
  case h_4 => cases h

theorem sumRows_integer {rows : List RowValues} {index : ℕ}
    (h : rows.foldlM (fun state row => do sumStep state (← valueAt row index)) state =
      (.ok next : Result SumState)) (hkind : next.kind ≠ some false) :
    state.kind ≠ some false ∧
      next.integer.toInt = state.integer.toInt + (integersAt rows index).sum ∧
      ∀ row ∈ rows, row[index]? = some .null ∨ ∃ own, row[index]? = some (.integer own) := by
  induction rows generalizing state with
  | nil =>
    cases h
    exact ⟨hkind, by simp [integersAt], by simp⟩
  | cons row rows ih =>
    rw [List.foldlM_cons] at h
    simp only [bind_eq_ok] at h
    obtain ⟨middle, ⟨value, hvalue, hstep⟩, hrest⟩ := h
    obtain ⟨hmiddle, hsum, hrows⟩ := ih hrest
    have hrow := valueAt_eq_ok.1 hvalue
    obtain ⟨hstate, ⟨rfl, rfl⟩ | ⟨own, rfl, hown⟩⟩ := sumStep_integer hstep hmiddle
    · refine ⟨hstate, ?_, List.forall_mem_cons.2 ⟨.inl hrow, hrows⟩⟩
      rw [hsum, integersAt, integersAt, List.filterMap_cons, hrow]
    · refine ⟨hstate, ?_, List.forall_mem_cons.2 ⟨.inr ⟨own, hrow⟩, hrows⟩⟩
      rw [hsum, hown, integersAt, integersAt, List.filterMap_cons, hrow, List.sum_cons, add_assoc]

section

variable [Chrono] [Literals]

end

/-- Parsers that accept nothing, for examples without such literals. -/
abbrev noLiterals : Literals where
  display _ := ""
  parseFloat64 _ := none
  parseUuid _ := none
  parseJson _ := none
  parseVector _ := none

section

attribute [local instance] sampleChrono noLiterals

end

end ChironDB.Relational
