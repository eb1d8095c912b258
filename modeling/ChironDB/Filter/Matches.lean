/-
# Payload filters

`Filter::matches` and `Filter::validate_complexity` of `chirondb-types/src/filter.rs`.  A filter
is a JSON object from fields to conditions; a payload satisfies it when for every field some
value at the field meets the condition.  A field is looked up literally first, then as a path
of components separated by dots, where arrays are looked through and a trailing `[]` of a
component is dropped.

The Unicode table behind `char::is_alphanumeric` is a parameter.
-/

import ChironDB.Json.Value

namespace ChironDB.Filter

open Json

/-- The Unicode table that is asked of. -/
class Unicode where
  /-- `char::is_alphanumeric`. -/
  isAlphanumeric : Char → Bool

/-! ### Complexity -/

/-- `MAX_NODES`. -/
def maxNodes : ℕ := 1024

/-- The walk of `validate_complexity` over a stack of values with their depths, where `nodes`
values may still be taken from the stack. -/
def validateStack : ℕ → List (Value × ℕ) → Except String Unit
  | _, [] => .ok ()
  | 0, _ :: _ => .error "filter exceeds 1024 value nodes"
  | nodes + 1, (value, depth) :: stack =>
    if 16 < depth then .error "filter nesting exceeds depth 16"
    else
      match value with
      | .object fields =>
        if 256 < fields.length then .error "filter object exceeds 256 entries"
        else if fields.any fun field => 256 < (field.1.toList.map Char.utf8Size).sum then
          .error "filter field exceeds 256 bytes"
        else
          validateStack nodes ((fields.map fun field => (field.2, depth + 1)).reverse ++ stack)
      | .array items =>
        if 256 < items.length then .error "filter array exceeds 256 entries"
        else validateStack nodes ((items.map fun item => (item, depth + 1)).reverse ++ stack)
      | _ => validateStack nodes stack

/-- `Filter::validate_complexity`. -/
def validateComplexity (filter : Value) : Except String Unit := validateStack maxNodes [(filter, 0)]

/-! ### Values at a field -/

mutual
def collectTerminalValues : Value → List Value
  | .array items => collectTerminalItems items
  | value => [value]

def collectTerminalItems : List Value → List Value
  | [] => []
  | item :: items => collectTerminalValues item ++ collectTerminalItems items
end

mutual
/-- Go on with the child of a name, in an object or in the objects of an array. -/
def collectChild (name : String) (next : Value → List Value) : Value → List Value
  | .object fields =>
    match fields.lookup name with
    | some child => next child
    | none => []
  | .array items => collectChildItems name next items
  | _ => []

def collectChildItems (name : String) (next : Value → List Value) : List Value → List Value
  | [] => []
  | item :: items => collectChild name next item ++ collectChildItems name next items
end

/-- `strip_suffix("[]")`. -/
def normalizePathComponent (component : List Char) : List Char :=
  if ("[]".toList).isSuffixOf component then component.take (component.length - 2) else component

def collectPathValues : List (List Char) → Value → List Value
  | [], value => collectTerminalValues value
  | component :: components, value =>
    collectChild (String.ofList (normalizePathComponent component))
      (collectPathValues components) value

def payloadFieldValues (payload : Value) (field : String) : List Value :=
  match payload.get field with
  | some value => collectTerminalValues value
  | none => collectPathValues (field.toList.splitOn '.') payload

/-! ### Conditions -/

/-- `Value::as_f64`. -/
def asF64 : Value → Option F64
  | .number n => some n.asF64
  | _ => none

/-- `compare_numbers`, with the predicate on the places of the two numbers. -/
def compareNumbers (actual bound : Value) (predicate : ℤ → ℤ → Bool) : Bool :=
  match asF64 actual, asF64 bound with
  | some left, some right => predicate left.rank right.rank
  | _, _ => false

section

variable [Unicode]

def tokenize (value : String) : List String :=
  ((value.toList.splitOnP fun c => !Unicode.isAlphanumeric c).filter (· ≠ [])).map fun token =>
    String.ofList (token.map Char.toLower)

def containsAllTerms (actual query : String) : Bool :=
  tokenize query ≠ [] && (tokenize query).all fun term => (tokenize actual).contains term

def matchesText (actual expected : Value) : Bool :=
  match actual, expected with
  | .string actual, .string query => containsAllTerms actual query
  | _, _ => false

/-- The operator `in`. -/
def matchesIn (actual bound : Value) : Bool :=
  match bound with
  | .array values => values.any fun value => value.same actual
  | _ => false

mutual
/-- `Filter::matches`. -/
def filterMatches : Value → Value → Bool
  | .object conditions, payload => matchesConditions conditions payload
  | _, _ => true

def matchesConditions : List (String × Value) → Value → Bool
  | [], _ => true
  | (field, expected) :: conditions, payload =>
    (payloadFieldValues payload field).any (fun actual => matchesCondition expected actual) &&
      matchesConditions conditions payload

/-- `matches_condition`. -/
def matchesCondition : Value → Value → Bool
  | .object condition, actual => matchesOperators condition actual
  | expected, actual => actual.same expected

def matchesOperators : List (String × Value) → Value → Bool
  | [], _ => true
  | (op, bound) :: condition, actual =>
    (match op with
      | "eq" => actual.same bound
      | "ne" => !actual.same bound
      | "gt" => compareNumbers actual bound fun left right => right < left
      | "gte" => compareNumbers actual bound fun left right => right ≤ left
      | "lt" => compareNumbers actual bound fun left right => left < right
      | "lte" => compareNumbers actual bound fun left right => left ≤ right
      | "nested" => matchesNestedFilter bound actual
      | "text" => matchesText actual bound
      | "in" => matchesIn actual bound
      | _ => false) &&
      matchesOperators condition actual

/-- `matches_nested_filter`: the filter is under `filter`, or else the bound itself. -/
def matchesNestedFilter : Value → Value → Bool
  | .object fields, actual =>
    if (fields.lookup "filter").isSome then matchesWrapped fields actual
    else matchesConditions fields actual
  | _, _ => false

/-- The filter under `filter`. -/
def matchesWrapped : List (String × Value) → Value → Bool
  | [], _ => false
  | (name, value) :: fields, actual =>
    if name = "filter" then value.isObject && filterMatches value actual
    else matchesWrapped fields actual
end

end

end ChironDB.Filter
