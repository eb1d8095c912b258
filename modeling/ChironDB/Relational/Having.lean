/-
# HAVING

`aggregate_having_matches` of `chirondb-core/src/relational.rs` decides whether a group is kept.
It works on two truth values: a comparison with a NULL aggregate is FALSE, where WHERE has
UNKNOWN, and AND and OR stop at an operand that decides them.

The three-valued reading of the same expression is `havingTruth` over its connectives.  A
comparison with NULL that is FALSE instead of UNKNOWN makes no difference to whether the whole is
TRUE until a NOT turns it around; `NullSlips` says when that shows.
-/

import ChironDB.Relational.Where

namespace ChironDB.Relational

open Logic

/-- What HAVING reads of an `AggregateProjection`. -/
structure AggregateProjection where
  name : String
  expressionKey : String
  dataType : RelationalType

section

variable [Chrono] [Literals]

/-! ### The evaluator -/

/-- `canonical_expression`. -/
def canonicalExpression (expression : Expr) : String :=
  toAsciiLowercase (Literals.display expression)

/-- `aggregate_output_index`. -/
def aggregateOutputIndex (projection : List AggregateProjection) (expression : Expr) : Result ℕ :=
  let key := canonicalExpression expression
  uniqueIndex projection (fun item => item.name = key ∨ item.expressionKey = key)
    ("unknown aggregate output " ++ Literals.display expression)
    ("ambiguous aggregate output " ++ Literals.display expression)

/-- The type of an output. -/
def outputType (projection : List AggregateProjection) (index : ℕ) : Result RelationalType :=
  match projection[index]? with
  | some item => .ok item.dataType
  | none => .error (invalid "index out of bounds")

/-- The values of the two sides of a comparison. -/
def havingOperands (projection : List AggregateProjection) (row : RowValues)
    (parameters : List RelationalValue) (left right : Expr) :
    Result (RelationalValue × RelationalValue) :=
  match aggregateOutputIndex projection left, aggregateOutputIndex projection right with
  | .ok left, .ok right => do return (← valueAt row left, ← valueAt row right)
  | .ok left, .error _ => do
    let own ← valueAt row left
    return (own, ← expressionValue parameters right (← outputType projection left))
  | .error _, .ok right => do
    let value ← expressionValue parameters left (← outputType projection right)
    return (value, ← valueAt row right)
  | .error _, .error _ => .error (unsupported
      "HAVING must reference a projected group or aggregate expression")

/-- A condition of `aggregate_having_matches`. -/
def havingCondition (projection : List AggregateProjection) (row : RowValues)
    (parameters : List RelationalValue) : Expr → Result Bool
  | .binaryOp left op right => do
    let operands ← havingOperands projection row parameters left right
    comparePredicate operands.1 operands.2 op
  | .isNull expr => do
    return (← valueAt row (← aggregateOutputIndex projection expr)) = .null
  | .isNotNull expr => do
    return (← valueAt row (← aggregateOutputIndex projection expr)) ≠ .null
  | _ => .error (unsupported "HAVING expression is outside the current aggregate profile")

/-- `aggregate_having_matches` of an expression. -/
def havingMatches (projection : List AggregateProjection) (row : RowValues)
    (parameters : List RelationalValue) (expression : Expr) : Result Bool :=
  match expression with
  | .nested inner => havingMatches projection row parameters inner
  | .unaryOp .not expr => do return !(← havingMatches projection row parameters expr)
  | .binaryOp left .and right => do
    if ← havingMatches projection row parameters left then
      havingMatches projection row parameters right
    else return false
  | .binaryOp left .or right => do
    if ← havingMatches projection row parameters left then return true
    else havingMatches projection row parameters right
  | expression => havingCondition projection row parameters expression

/-- `aggregate_having_matches`. -/
def aggregateHavingMatches (projection : List AggregateProjection) (row : RowValues)
    (parameters : List RelationalValue) : Option Expr → Result Bool
  | none => .ok true
  | some expression => havingMatches projection row parameters expression

/-! ### Three truth values -/

/-- The truth value of a condition: a comparison with NULL is UNKNOWN, and so is a condition that
cannot be evaluated. -/
def havingTruth (projection : List AggregateProjection) (row : RowValues)
    (parameters : List RelationalValue) (expression : Expr) : Truth :=
  match expression with
  | .binaryOp left op right =>
    match havingOperands projection row parameters left right with
    | .ok (left, right) =>
      if left = .null ∨ right = .null then none else (comparePredicate left right op).toOption
    | .error _ => none
  | expression => (havingCondition projection row parameters expression).toOption

/-- Kleene's reading of a HAVING expression. -/
def havingKleene (projection : List AggregateProjection) (row : RowValues)
    (parameters : List RelationalValue) (expression : Expr) : Truth :=
  (skeleton expression).eval (havingTruth projection row parameters)

/-- `compare_predicate` knows the operator. -/
def BinaryOperator.isComparison : BinaryOperator → Bool
  | .eq | .notEq | .lt | .ltEq | .gt | .gtEq => true
  | _ => false

/-- The condition is a comparison of which one side is NULL. -/
def ComparesNull (projection : List AggregateProjection) (row : RowValues)
    (parameters : List RelationalValue) : Expr → Prop
  | .binaryOp left op right => op.isComparison = true ∧
      ∃ x y, havingOperands projection row parameters left right = .ok (x, y) ∧
        (x = .null ∨ y = .null)
  | _ => False

/-- A comparison with NULL, FALSE instead of UNKNOWN, makes the expression `b`. -/
def NullSlips (projection : List AggregateProjection) (row : RowValues)
    (parameters : List RelationalValue) (b : Bool) (expression : Expr) : Prop :=
  (skeleton expression).Slips
    (fun condition b => ComparesNull projection row parameters condition ∧ b = false)
    (havingTruth projection row parameters) b

variable {projection : List AggregateProjection} {row : RowValues}
  {parameters : List RelationalValue}

omit [Literals] in
theorem comparePredicate_null {x y : RelationalValue} (h : x = .null ∨ y = .null)
    (op : BinaryOperator) :
    (comparePredicate x y op).toOption = if op.isComparison then some false else none := by
  have hnone : compareValues x y = none := by
    rcases h with rfl | rfl
    · rfl
    · cases x <;> rfl
  cases op <;> simp [comparePredicate, hnone, BinaryOperator.isComparison, Except.toOption]

theorem havingCondition_decides (expression : Expr) :
    (havingTruth projection row parameters expression = none ∨
      havingTruth projection row parameters expression =
        (havingCondition projection row parameters expression).toOption) ∧
    ∀ b, (ComparesNull projection row parameters expression ∧ b = false) ↔
      havingTruth projection row parameters expression = none ∧
        (havingCondition projection row parameters expression).toOption = some b := by
  cases expression with
  | binaryOp left op right =>
    simp only [ComparesNull, havingTruth, havingCondition]
    cases havingOperands projection row parameters left right with
    | error error => exact ⟨.inl rfl, fun b => by simp [bind, Except.bind, Except.toOption]⟩
    | ok operands =>
      obtain ⟨x, y⟩ := operands
      change ((if x = .null ∨ y = .null then none else (comparePredicate x y op).toOption) =
          none ∨ _ = (comparePredicate x y op).toOption) ∧
        ∀ b, _ ↔ (if x = .null ∨ y = .null then none
          else (comparePredicate x y op).toOption) = none ∧
            (comparePredicate x y op).toOption = some b
      by_cases hnull : x = .null ∨ y = .null
      · rw [comparePredicate_null hnull]
        refine ⟨.inl (if_pos hnull), fun b => ?_⟩
        cases hop : op.isComparison <;> simp [hnull, eq_comm]
      · refine ⟨.inr (if_neg hnull), fun b => ?_⟩
        rw [if_neg hnull]
        constructor
        · rintro ⟨⟨-, _, _, hok, hside⟩, -⟩
          cases hok
          exact absurd hside hnull
        · rintro ⟨hnone, hsome⟩
          rw [hnone] at hsome
          cases hsome
  | _ =>
    refine ⟨.inr rfl, fun b => ⟨fun h => absurd h.1 id, ?_⟩⟩
    rintro ⟨hnone, hsome⟩
    exact absurd (hnone.symm.trans hsome) (by simp)

/-- **The evaluator computes the formula over its conditions**; what it skips does not matter. -/
theorem eval_of_havingMatches {expression : Expr} {b : Bool}
    (h : havingMatches projection row parameters expression = .ok b) :
    (skeleton expression).eval
      (fun a => (havingCondition projection row parameters a).toOption) = some b := by
  have hcondition {e : Expr} (hskeleton : skeleton e = .atom e) {b : Bool}
      (h : havingCondition projection row parameters e = .ok b) :
      (skeleton e).eval (fun a => (havingCondition projection row parameters a).toOption) =
        some b := by
    rw [hskeleton, Formula.eval, h]
    rfl
  induction expression generalizing b with
  | nested inner ih => exact ih h
  | unaryOp op expr ih =>
    cases op with
    | not =>
      simp only [havingMatches, bind_eq_ok] at h
      obtain ⟨c, hc, h⟩ := h
      rw [skeleton, Formula.eval, ih hc, ← Except.ok.inj h]
      rfl
    | _ => exact hcondition rfl h
  | binaryOp left op right ihl ihr =>
    cases op with
    | and =>
      simp only [havingMatches, bind_eq_ok] at h
      obtain ⟨c, hc, h⟩ := h
      rw [skeleton, Formula.eval, ihl hc]
      cases c with
      | false =>
        rw [← Except.ok.inj h]
        exact Truth.junction_eq_some_self.2 (.inl rfl)
      | true =>
        rw [ihr h]
        cases b <;> rfl
    | or =>
      simp only [havingMatches, bind_eq_ok] at h
      obtain ⟨c, hc, h⟩ := h
      rw [skeleton, Formula.eval, ihl hc]
      cases c with
      | false =>
        rw [ihr h]
        cases b <;> rfl
      | true =>
        rw [← Except.ok.inj h]
        exact Truth.junction_eq_some_self.2 (.inl rfl)
    | _ => exact hcondition rfl h
  | _ => exact hcondition rfl h

/-- **HAVING keeps the groups for which its expression is TRUE, unless a negated comparison with
NULL shows.** -/
theorem having_kleene_iff (projection : List AggregateProjection) (row : RowValues)
    (parameters : List RelationalValue) (expression : Expr) {kept : Bool}
    (h : aggregateHavingMatches projection row parameters (some expression) = .ok kept) :
    (kept = true ↔ havingKleene projection row parameters expression = some true) ↔
      ¬NullSlips projection row parameters true expression := by
  have hdecides : (skeleton expression).Decides
      (fun condition b => ComparesNull projection row parameters condition ∧ b = false)
      (havingTruth projection row parameters)
      (fun a => (havingCondition projection row parameters a).toOption) :=
    fun a _ => havingCondition_decides a
  rw [NullSlips, ← hdecides.eval_true_iff, eval_of_havingMatches h, Option.some.injEq]
  rfl

end

section

/-- Texts of the outputs in the examples. -/
abbrev outputNames : Literals where
  display
    | .identifier name => name
    | _ => ""
  parseFloat64 _ := none
  parseUuid _ := none
  parseJson _ := none
  parseVector _ := none

attribute [local instance] sampleChrono outputNames

theorem having_kleene_iff_total :
    aggregateHavingMatches [⟨"total", "sum(x)", .bigInt⟩] [.null] []
        (some (.binaryOp (.identifier "total") .gt (.value (.number "5")))) = .ok false ∧
      (false = true ↔ havingKleene [⟨"total", "sum(x)", .bigInt⟩] [.null] []
        (.binaryOp (.identifier "total") .gt (.value (.number "5"))) = some true) := by
  refine ⟨by decide +kernel, (having_kleene_iff _ _ _ _ (by decide +kernel)).2 ?_⟩
  exact fun h => Bool.noConfusion h.2

/-- `NOT (total = 5)` over a group whose total is NULL: UNKNOWN, and the group is kept. -/
theorem negated_null_comparison_kept :
    aggregateHavingMatches [⟨"total", "sum(x)", .bigInt⟩] [.null] [] (some (.unaryOp .not (.nested
          (.binaryOp (.identifier "total") .eq (.value (.number "5")))))) = .ok true ∧
      havingKleene [⟨"total", "sum(x)", .bigInt⟩] [.null] [] (.unaryOp .not (.nested
        (.binaryOp (.identifier "total") .eq (.value (.number "5"))))) = none := by
  refine ⟨?_, ?_⟩ <;> decide +kernel

end

end ChironDB.Relational
