/-
# Predicates

`chirondb-core/src/relational.rs` evaluates a predicate in three places: `predicate_result` for
the WHERE of UPDATE and DELETE, `query_predicate_result` for that of SELECT and
`check_constraint_result` for CHECK.  All three use three truth values, `None` being UNKNOWN, and
evaluate both operands of AND and OR; they differ in how a column is found and in what they make
of two values that `compare_values` cannot compare.

`connectives` is what the three share above a single condition, `columnCondition` what they share
of the conditions on one column.  Two columns are compared by SELECT and CHECK only.
-/

import ChironDB.Logic.Kleene
import ChironDB.Relational.Arithmetic

namespace ChironDB.Relational

open Logic

/-! ### Truth values -/

/-- `sql_and`. -/
def sqlAnd (left right : Option Bool) : Option Bool :=
  match left, right with
  | some false, _ => some false
  | _, some false => some false
  | some true, some true => some true
  | _, _ => none

/-- `sql_or`. -/
def sqlOr (left right : Option Bool) : Option Bool :=
  match left, right with
  | some true, _ => some true
  | _, some true => some true
  | some false, some false => some false
  | _, _ => none

theorem sqlAnd_eq (left right : Option Bool) :
    sqlAnd left right = Truth.junction false left right := by
  revert left right
  decide

theorem sqlOr_eq (left right : Option Bool) :
    sqlOr left right = Truth.junction true left right := by
  revert left right
  decide

/-! ### Comparisons -/

theorem swap_then {a b c d : Ordering} (h : a = c.swap) (h' : b = d.swap) :
    a.then b = (c.then d).swap := by
  rw [h, h', Ordering.swap_then]

theorem not_nan_of_isFinite64 {bits : UInt64} (h : isFinite64 bits = true) :
    ¬0x7ff0000000000000 < bits &&& 0x7fffffffffffffff := by
  intro hlt
  have hmask : bits.toNat &&& 0x7fffffffffffffff = bits.toNat % 2 ^ 63 :=
    Nat.and_two_pow_sub_one_eq_mod _ 63
  have hnan : 2047 * 2 ^ 52 < bits.toNat % 2 ^ 63 := by
    rw [← hmask]
    exact UInt64.lt_iff_toNat_lt.1 hlt
  have hquotient : bits.toNat % 2 ^ 63 / 2 ^ 52 = 2 ^ 11 - 1 := by omega
  refine of_decide_eq_true h (UInt64.toNat_inj.1 ?_)
  rw [UInt64.toNat_and]
  change bits.toNat &&& (2 ^ 11 - 1) <<< 52 = (2 ^ 11 - 1) <<< 52
  refine Nat.eq_of_testBit_eq fun i => ?_
  rw [Nat.testBit_and, Nat.testBit_shiftLeft]
  by_cases hi : 52 ≤ i ∧ i < 63
  · have hbit : bits.toNat.testBit i = (bits.toNat % 2 ^ 63 / 2 ^ 52).testBit (i - 52) := by
      rw [Nat.testBit_div_two_pow, Nat.testBit_mod_two_pow, Nat.sub_add_cancel hi.1]
      simp [hi.2]
    have hone : (2 ^ 11 - 1).testBit (i - 52) = true := by
      rw [Nat.testBit_two_pow_sub_one]
      exact decide_eq_true (by omega)
    rw [hbit, hquotient, hone, Bool.true_and]
  · rw [Nat.testBit_two_pow_sub_one]
    have : ¬(52 ≤ i ∧ i - 52 < 11) := by omega
    simp [this]

theorem compareUtc_swap (left right : UtcTime) :
    compareUtc left right = (compareUtc right left).swap :=
  swap_then Std.OrientedCmp.eq_swap (swap_then Std.OrientedCmp.eq_swap Std.OrientedCmp.eq_swap)

theorem compareRecordRef_swap (left right : RecordRef) :
    compareRecordRef left right = (compareRecordRef right left).swap :=
  swap_then Std.OrientedCmp.eq_swap Std.OrientedCmp.eq_swap

theorem compareFloat64_of_isFinite {left right : UInt64} (hl : isFinite64 left = true)
    (hr : isFinite64 right = true) :
    ∃ o, compareFloat64 left right = some o ∧ compareFloat64 right left = some o.swap := by
  unfold compareFloat64
  dsimp only
  rw [if_neg (not_or.2 ⟨not_nan_of_isFinite64 hl, not_nan_of_isFinite64 hr⟩),
    if_neg (not_or.2 ⟨not_nan_of_isFinite64 hr, not_nan_of_isFinite64 hl⟩)]
  exact ⟨_, rfl, congrArg some Std.OrientedCmp.eq_swap⟩

section

variable [Chrono]

/-- **Values of one type compare, except vectors**, and alike from both sides. -/
theorem HasType.compareValues_eq_some {dataType : RelationalType} {left right : RelationalValue}
    (hl : HasType dataType left) (hr : HasType dataType right)
    (hvector : ∀ bits, left ≠ .vector bits) :
    ∃ o, compareValues left right = some o ∧ compareValues right left = some o.swap := by
  cases hl with
  | vector bits => exact absurd rfl (hvector bits)
  | real a h =>
    cases hr with
    | real b h' => exact compareFloat64_of_isFinite h.1 h'.1
  | float a h =>
    cases hr with
    | float b h' => exact compareFloat64_of_isFinite h h'
  | decimal precision scale a h =>
    cases hr with
    | decimal _ _ b h' =>
      obtain ⟨s, w, f, hl, hls⟩ := isDecimal_of_validate h
      obtain ⟨s', w', f', hr, hrs⟩ := isDecimal_of_validate h'
      have hls := hl.trimmed_length_le hls
      have hrs := hr.trimmed_length_le hrs
      refine ⟨_, compareDecimal_eq hl hr hls hrs, ?_⟩
      rw [compareValues, compareDecimal_eq hr hl hrs hls]
      exact congrArg some Std.OrientedCmp.eq_swap
  | date a day h =>
    cases hr with
    | date b day' h' =>
      refine ⟨compare day.toInt day'.toInt, by simp [compareValues, h, h'], ?_⟩
      simp only [compareValues, h, h']
      exact congrArg some Std.OrientedCmp.eq_swap
  | timestampUtc a time h =>
    cases hr with
    | timestampUtc b time' h' =>
      refine ⟨compareUtc time time', by simp [compareValues, h, h'], ?_⟩
      simp only [compareValues, h, h']
      exact congrArg some (compareUtc_swap _ _)
  | recordRef =>
    cases hr
    exact ⟨_, rfl, congrArg some (compareRecordRef_swap _ _)⟩
  | _ =>
    cases hr
    exact ⟨_, rfl, congrArg some Std.OrientedCmp.eq_swap⟩

/-- `compare_predicate`. -/
def comparePredicate (left right : RelationalValue) (operator : BinaryOperator) : Result Bool :=
  let ordering := compareValues left right
  match operator with
  | .eq => .ok (ordering = some .eq)
  | .notEq => .ok (ordering = some .lt ∨ ordering = some .gt)
  | .lt => .ok (ordering = some .lt)
  | .ltEq => .ok (ordering = some .lt ∨ ordering = some .eq)
  | .gt => .ok (ordering = some .gt)
  | .gtEq => .ok (ordering = some .gt ∨ ordering = some .eq)
  | _ => .error (unsupported "predicate operator is outside relational v1")

/-- `reverse_operator`. -/
def reverseOperator : BinaryOperator → BinaryOperator
  | .lt => .gt
  | .ltEq => .gtEq
  | .gt => .lt
  | .gtEq => .ltEq
  | operator => operator

theorem comparePredicate_reverse {left right : RelationalValue} {o : Ordering}
    (h : compareValues left right = some o) (h' : compareValues right left = some o.swap)
    (operator : BinaryOperator) :
    comparePredicate left right (reverseOperator operator) =
      comparePredicate right left operator := by
  cases operator <;> cases o <;> simp [comparePredicate, reverseOperator, h, h']

/-- `in_list_predicate`. -/
def inListPredicate (value : RelationalValue) (list : List RelationalValue) (negated : Bool) :
    Option Bool :=
  if value = .null then none
  else if list.any fun candidate => candidate ≠ .null ∧ compareValues value candidate = some .eq
    then some (!negated)
  else if list.any (· = .null) then none
  else some negated

/-- `between_predicate`. -/
def betweenPredicate (value low high : RelationalValue) (negated : Bool) : Option Bool :=
  let atLeastLow := compareValues value low = some .eq ∨ compareValues value low = some .gt
  let atMostHigh := compareValues value high = some .eq ∨ compareValues value high = some .lt
  if value = .null ∨ low = .null ∨ high = .null then none
  else some (if negated then ¬(atLeastLow ∧ atMostHigh) else atLeastLow ∧ atMostHigh)

/-! ### Columns -/

/-- `QueryColumn`. -/
structure QueryColumn where
  qualifier : String
  name : String
  dataType : RelationalType

/-- The columns a query reads of one table. -/
def queryColumns (definition : TableDefinition) (qualifier : String) : List QueryColumn :=
  definition.columns.map fun column => ⟨qualifier, column.name, column.dataType⟩

/-- The position of the only column that satisfies a test. -/
def uniqueIndex {α : Type} (items : List α) (test : α → Bool) (unknown ambiguous : String) :
    Result ℕ :=
  match (List.range items.length).filter fun index => items[index]?.any test with
  | [index] => .ok index
  | [] => .error (invalid unknown)
  | _ => .error (invalid ambiguous)

/-- The qualifier and the name of a column reference in a query. -/
def queryReference : Expr → Result (Option String × String)
  | .identifier value => .ok (none, normalizeIdent value)
  | .compoundIdentifier [qualifier, name] =>
    .ok (some (normalizeIdent qualifier), normalizeIdent name)
  | _ => .error (unsupported "expected a column reference")

variable [Literals]

/-- `query_column_index`. -/
def queryColumnIndex (columns : List QueryColumn) (expression : Expr) : Result ℕ := do
  let reference ← queryReference expression
  uniqueIndex columns
    (fun column => column.name = reference.2 ∧ reference.1.all (column.qualifier = ·))
    ("unknown column " ++ Literals.display expression)
    ("ambiguous column " ++ Literals.display expression)

/-- The column of a table that an expression names. -/
def tableColumnIndex (definition : TableDefinition) (expression : Expr) : Result ℕ := do
  columnIndex definition (← expressionColumnName expression)

/-- How an evaluator finds a column, and the types of the columns. -/
structure Columns where
  find : Expr → Result ℕ
  types : List RelationalType

/-- The type of a column. -/
def Columns.typeAt (columns : Columns) (index : ℕ) : Result RelationalType :=
  match columns.types[index]? with
  | some dataType => .ok dataType
  | none => .error (invalid "index out of bounds")

/-- The columns of a table. -/
def tableSource (definition : TableDefinition) : Columns :=
  ⟨tableColumnIndex definition, definition.columns.map (·.dataType)⟩

/-- The columns of a query. -/
def querySource (columns : List QueryColumn) : Columns :=
  ⟨queryColumnIndex columns, columns.map (·.dataType)⟩

/-! ### Conditions -/

/-- A comparison as SELECT and CHECK make it: UNKNOWN with NULL. -/
def compareKnown (left right : RelationalValue) (operator : BinaryOperator) :
    Result (Option Bool) :=
  if left = .null ∨ right = .null then .ok none
  else do return some (← comparePredicate left right operator)

/-- `Identifier | CompoundIdentifier`. -/
def Expr.isColumn : Expr → Bool
  | .identifier _ | .compoundIdentifier _ => true
  | _ => false

/-- IN, BETWEEN, IS NULL and a bare column; `subject` is how the messages call the predicate. -/
def columnCondition (columns : Columns) (row : RowValues) (parameters : List RelationalValue)
    (subject : String) (expression : Expr) : Result (Option Bool) :=
  match expression with
  | .inList expr list negated => do
    let index ← columns.find expr
    let dataType ← columns.typeAt index
    let values ← list.mapM fun value => expressionValue parameters value dataType
    return inListPredicate (← valueAt row index) values negated
  | .between expr negated low high => do
    let index ← columns.find expr
    let dataType ← columns.typeAt index
    let low ← expressionValue parameters low dataType
    let high ← expressionValue parameters high dataType
    return betweenPredicate (← valueAt row index) low high negated
  | .isNull expr => do
    let index ← columns.find expr
    return some ((← valueAt row index) = .null)
  | .isNotNull expr => do
    let index ← columns.find expr
    return some ((← valueAt row index) ≠ .null)
  | .identifier _ | .compoundIdentifier _ => do
    let index ← columns.find expression
    match ← valueAt row index with
    | .boolean value => return some value
    | .null => return none
    | _ => .error (invalid ("bare " ++ subject ++ " column must be BOOLEAN"))
  | _ => .error (unsupported (subject ++ " expression is outside relational v1"))

/-- AND, OR, NOT and parentheses over conditions. -/
def connectives (condition : Expr → Result (Option Bool)) (expression : Expr) :
    Result (Option Bool) :=
  match expression with
  | .binaryOp left .and right => do
    let left ← connectives condition left
    let right ← connectives condition right
    return sqlAnd left right
  | .binaryOp left .or right => do
    let left ← connectives condition left
    let right ← connectives condition right
    return sqlOr left right
  | .unaryOp .not expr => do
    return (← connectives condition expr).map (! ·)
  | .nested inner => connectives condition inner
  | expression => condition expression

/-! ### UPDATE and DELETE -/

/-- The column and the operand of a comparison, and whether they stand the other way around. -/
def columnOperand (left right : Expr) : Result (Expr × Expr × Bool) :=
  if left.isColumn then .ok (left, right, false)
  else if right.isColumn then .ok (right, left, true)
  else .error (unsupported "predicate must compare a column and scalar value")

/-- A condition of `predicate_result`. -/
def predicateCondition (definition : TableDefinition) (row : RowValues)
    (parameters : List RelationalValue) (expression : Expr) : Result (Option Bool) :=
  match expression with
  | .binaryOp left op right => do
    let found ← columnOperand left right
    let index ← tableColumnIndex definition found.1
    let expected ← (tableSource definition).typeAt index
    let value ← expressionValue parameters found.2.1 expected
    let own ← valueAt row index
    if compareValues own value = none then return none
    else
      return some (← comparePredicate own value (if found.2.2 then reverseOperator op else op))
  | expression => columnCondition (tableSource definition) row parameters "predicate" expression

/-- `predicate_result` of a predicate. -/
def predicateResult (definition : TableDefinition) (row : RowValues)
    (parameters : List RelationalValue) (expression : Expr) : Result (Option Bool) :=
  connectives (predicateCondition definition row parameters) expression

/-- `predicate_matches`. -/
def predicateMatches (definition : TableDefinition) (row : RowValues)
    (parameters : List RelationalValue) : Option Expr → Result Bool
  | none => .ok true
  | some expression => do
    return (← predicateResult definition row parameters expression).getD false

/-! ### SELECT -/

/-- What `execute_query` returns for a subquery: the types of its columns and its rows, or `none`
for a result without rows. -/
abbrev Subqueries := String → Result (Option (List RelationalType × List RowValues))

/-- A condition of `query_predicate_result`. -/
def queryCondition (executeQuery : Subqueries) (columns : List QueryColumn) (row : RowValues)
    (parameters : List RelationalValue) (expression : Expr) : Result (Option Bool) :=
  match expression with
  | .exists subquery negated => do
    match ← executeQuery subquery with
    | some (_, rows) => return some (if negated then rows.isEmpty else !rows.isEmpty)
    | none => .error (unsupported "EXISTS requires a read-only subquery")
  | .inSubquery expr subquery negated => do
    let index ← queryColumnIndex columns expr
    match ← executeQuery subquery with
    | some (types, rows) =>
      let dataType ← (querySource columns).typeAt index
      if types.length ≠ 1 ∨ rows.any (·.length ≠ 1) then
        .error (invalid "IN subquery must return exactly one column")
      else if types.head? ≠ some dataType then
        .error (invalid "IN subquery column type does not match left operand")
      else return inListPredicate (← valueAt row index) rows.flatten negated
    | none => .error (unsupported "IN requires a read-only subquery")
  | .binaryOp left op right =>
    match queryColumnIndex columns left, queryColumnIndex columns right with
    | .ok left, .ok right => do compareKnown (← valueAt row left) (← valueAt row right) op
    | .ok left, .error _ => do
      let value ← expressionValue parameters right (← (querySource columns).typeAt left)
      compareKnown (← valueAt row left) value op
    | .error _, .ok right => do
      let value ← expressionValue parameters left (← (querySource columns).typeAt right)
      compareKnown value (← valueAt row right) op
    | .error _, .error _ => .error (unsupported "predicate must compare at least one column")
  | expression => columnCondition (querySource columns) row parameters "predicate" expression

/-- `query_predicate_result` of a predicate. -/
def queryPredicateResult (executeQuery : Subqueries) (columns : List QueryColumn)
    (row : RowValues) (parameters : List RelationalValue) (expression : Expr) :
    Result (Option Bool) :=
  connectives (queryCondition executeQuery columns row parameters) expression

/-- `query_predicate_matches`. -/
def queryPredicateMatches (executeQuery : Subqueries) (columns : List QueryColumn)
    (row : RowValues) (parameters : List RelationalValue) : Option Expr → Result Bool
  | none => .ok true
  | some expression => do
    return (← queryPredicateResult executeQuery columns row parameters expression).getD false

/-! ### CHECK -/

/-- The column of a table, if the expression is a column reference. -/
def optionalColumn (definition : TableDefinition) (expression : Expr) : Result (Option ℕ) :=
  match expressionColumnName expression with
  | .ok name => do return some (← columnIndex definition name)
  | .error _ => .ok none

/-- A condition of `check_constraint_result`. -/
def checkCondition (definition : TableDefinition) (row : RowValues) (expression : Expr) :
    Result (Option Bool) :=
  match expression with
  | .value (.boolean value) => .ok (some value)
  | .value .null => .ok none
  | .value _ => .error (unsupported "CHECK scalar must be boolean")
  | .binaryOp left op right => do
    let leftColumn ← optionalColumn definition left
    let rightColumn ← optionalColumn definition right
    match leftColumn, rightColumn with
    | some left, some right => compareKnown (← valueAt row left) (← valueAt row right) op
    | some index, none =>
      let value ← expressionValue [] right (← (tableSource definition).typeAt index)
      compareKnown (← valueAt row index) value op
    | none, some index =>
      let value ← expressionValue [] left (← (tableSource definition).typeAt index)
      compareKnown (← valueAt row index) value (reverseOperator op)
    | none, none =>
      .error (unsupported "CHECK comparison must reference at least one column")
  | expression => columnCondition (tableSource definition) row [] "CHECK" expression

/-- `check_constraint_result`. -/
def checkConstraintResult (definition : TableDefinition) (row : RowValues) (expression : Expr) :
    Result (Option Bool) :=
  connectives (checkCondition definition row) expression

end

end ChironDB.Relational
