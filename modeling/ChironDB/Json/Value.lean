/-
# JSON values

A JSON value as `serde_json` keeps it in memory: an integer that is not negative, a negative
integer and a double are three kinds of number, and the fields of an object are kept in key
order.  A double is finite (no JSON text spells another), given by its sign and by the other 63
bits of its pattern, which order the magnitudes.

`Value.same` is the equality of the library, which takes the two zeros for one number.
`Value.walk` follows a list of field names down the objects of a value.
-/

import ChironDB.Tables.Sorted
import Mathlib.Data.String.Basic
import Mathlib.Order.Nat

namespace ChironDB.Json

open Tables List

/-- A finite double. -/
structure F64 where
  /-- The sign bit. -/
  negative : Bool
  /-- The exponent and the fraction. -/
  magnitude : ℕ
  /-- The exponent is not that of an infinity or a NaN. -/
  finite : magnitude < 0x7ff0000000000000
deriving DecidableEq

/-- The place of a double on the number line: the two zeros share one. -/
def F64.rank (x : F64) : ℤ := if x.negative then -x.magnitude else x.magnitude

/-- The bits of the double nearest to an integer that is not negative, ties to even. -/
def roundBits (n : ℕ) : ℕ :=
  if n = 0 then 0
  else if n.log2 ≤ 52 then (n.log2 + 1022) * 2 ^ 52 + n * 2 ^ (52 - n.log2)
  else
    let unit := 2 ^ (n.log2 - 52)
    let up := unit < 2 * (n % unit) ∨ unit = 2 * (n % unit) ∧ n / unit % 2 = 1
    (n.log2 + 1022) * 2 ^ 52 + n / unit + if up then 1 else 0

theorem roundBits_lt {n : ℕ} (h : n < 2 ^ 64) : roundBits n < 0x7ff0000000000000 := by
  rw [roundBits]
  split
  · decide
  · next hn =>
    have hlog : n.log2 < 64 := (Nat.log2_lt hn).mpr h
    split
    · next hsmall =>
      have hpow : n * 2 ^ (52 - n.log2) < 2 ^ 53 := by
        have hlt : n < 2 ^ (n.log2 + 1) := Nat.lt_log2_self
        calc n * 2 ^ (52 - n.log2) < 2 ^ (n.log2 + 1) * 2 ^ (52 - n.log2) :=
              Nat.mul_lt_mul_of_pos_right hlt (Nat.two_pow_pos _)
          _ = 2 ^ 53 := by rw [← Nat.pow_add]; congr 1; omega
      omega
    · next hlarge =>
      have hquot : n / 2 ^ (n.log2 - 52) < 2 ^ 53 := by
        rw [Nat.div_lt_iff_lt_mul (Nat.two_pow_pos _), ← Nat.pow_add]
        have hexp : 53 + (n.log2 - 52) = n.log2 + 1 := by omega
        rw [hexp]
        exact Nat.lt_log2_self
      dsimp only
      split <;> omega

/-- `serde_json::Number`: a `u64`, an `i64` below zero or a double. -/
inductive Number
  | posInt (n : Fin (2 ^ 64))
  /-- The integer `-1 - n`. -/
  | negInt (n : Fin (2 ^ 63))
  | float (x : F64)
deriving DecidableEq

/-- `Number::as_f64`. -/
def Number.asF64 : Number → F64
  | .posInt n => ⟨false, roundBits n, roundBits_lt n.isLt⟩
  | .negInt n => ⟨true, roundBits (n + 1), roundBits_lt (by have := n.isLt; omega)⟩
  | .float x => x

/-- `Number::eq`: numbers of two kinds are never equal. -/
def Number.same : Number → Number → Bool
  | .posInt m, .posInt n => m = n
  | .negInt m, .negInt n => m = n
  | .float x, .float y => x.rank = y.rank
  | _, _ => false

/-- `serde_json::Value`. -/
inductive Value
  | null
  | bool (b : Bool)
  | number (n : Number)
  | string (s : String)
  | array (items : List Value)
  | object (fields : List (String × Value))

/-- Induction over a value, with a hypothesis for every item and every field. -/
@[elab_as_elim]
theorem Value.induct {motive : Value → Prop} (null : motive .null) (bool : ∀ b, motive (.bool b))
    (number : ∀ n, motive (.number n)) (string : ∀ s, motive (.string s))
    (array : ∀ items, (∀ item ∈ items, motive item) → motive (.array items))
    (object : ∀ fields, (∀ field ∈ fields, motive field.2) → motive (.object fields))
    (value : Value) : motive value := by
  refine @Value.rec motive (fun items => ∀ item ∈ items, motive item)
    (fun fields => ∀ field ∈ fields, motive field.2) (fun field => motive field.2)
    null bool number string array object ?_ ?_ ?_ ?_ (fun _ _ h => h) value
  · simp
  · exact fun _ _ hhead htail => forall_mem_cons.mpr ⟨hhead, htail⟩
  · simp
  · exact fun _ _ hhead htail => forall_mem_cons.mpr ⟨hhead, htail⟩

namespace Value

mutual
/-- Whether the fields of every object come in key order. -/
def ordered : Value → Bool
  | .array items => orderedItems items
  | .object fields => decide (Ascending fields) && orderedFields fields
  | _ => true

def orderedItems : List Value → Bool
  | [] => true
  | item :: items => item.ordered && orderedItems items

def orderedFields : List (String × Value) → Bool
  | [] => true
  | (_, value) :: fields => value.ordered && orderedFields fields
end

mutual
/-- `Value::eq`. -/
def same : Value → Value → Bool
  | .null, .null => true
  | .bool a, .bool b => a = b
  | .number m, .number n => m.same n
  | .string s, .string t => s = t
  | .array items, .array others => sameItems items others
  | .object fields, .object others => sameFields fields others
  | _, _ => false

def sameItems : List Value → List Value → Bool
  | [], [] => true
  | item :: items, other :: others => item.same other && sameItems items others
  | _, _ => false

def sameFields : List (String × Value) → List (String × Value) → Bool
  | [], [] => true
  | (name, value) :: fields, (name', value') :: others =>
    name = name' && value.same value' && sameFields fields others
  | _, _ => false
end

/-! ### Key order -/

variable {fields : List (String × Value)}

theorem orderedFields_iff :
    orderedFields fields = true ↔ ∀ field ∈ fields, field.2.ordered = true := by
  induction fields with
  | nil => simp [orderedFields]
  | cons field fields ih => rw [orderedFields, Bool.and_eq_true, ih, forall_mem_cons]

theorem ordered_object :
    (object fields).ordered = true ↔
      Ascending fields ∧ ∀ field ∈ fields, field.2.ordered = true := by
  rw [ordered, Bool.and_eq_true, decide_eq_true_iff, orderedFields_iff]

/-! ### Fields and paths -/

/-- `Value::as_object`. -/
def asObject : Value → Option (List (String × Value))
  | .object fields => some fields
  | _ => none

/-- `Value::is_object`. -/
def isObject (value : Value) : Bool := value.asObject.isSome

/-- `Value::get` with a field name. -/
def get (value : Value) (name : String) : Option Value :=
  value.asObject.bind fun fields => fields.lookup name

/-- The value at the end of a list of field names. -/
def walk : List String → Value → Option Value
  | [], value => some value
  | name :: names, value => (value.get name).bind (walk names)

@[simp] theorem walk_nil (value : Value) : value.walk [] = some value := rfl

@[simp] theorem bind_walk_nil (value : Option Value) : value.bind (walk []) = value :=
  Option.bind_fun_some value

@[simp] theorem get_object (fields : List (String × Value)) (name : String) :
    (object fields).get name = fields.lookup name := rfl

variable {value : Value}

theorem isObject_iff : value.isObject = true ↔ ∃ fields, value = .object fields := by
  cases value <;> simp [isObject, asObject]

variable {name : String} {child : Value}

theorem ordered_of_get (h : value.ordered = true) (hget : value.get name = some child) :
    child.ordered = true := by
  cases value with
  | object fields =>
    obtain ⟨hascending, hfields⟩ := ordered_object.mp h
    exact hfields (name, child) (hascending.lookup_eq_some_iff.mp hget)
  | null | bool | number | string | array => cases hget

/-! ### Equality -/

/-- `Option::eq` of values. -/
def sameOption : Option Value → Option Value → Bool
  | none, none => true
  | some left, some right => left.same right
  | _, _ => false

variable {left right : List (String × Value)}

theorem sameOption_lookup (h : sameFields left right = true) (name : String) :
    sameOption (left.lookup name) (right.lookup name) = true := by
  induction left generalizing right with
  | nil =>
    cases right with
    | nil => rfl
    | cons field right => cases h
  | cons field left ih =>
    cases right with
    | nil => cases h
    | cons field' right =>
      obtain ⟨k, v⟩ := field
      obtain ⟨k', v'⟩ := field'
      simp only [sameFields, Bool.and_eq_true, decide_eq_true_iff] at h
      obtain ⟨⟨rfl, hv⟩, hrest⟩ := h
      rw [lookup_cons_eq, lookup_cons_eq]
      split
      · exact hv
      · exact ih hrest

theorem sameOption_get {left right : Value} (h : left.same right = true) (name : String) :
    sameOption (left.get name) (right.get name) = true := by
  cases left with
  | object fields =>
    cases right with
    | object others => exact sameOption_lookup h name
    | null | bool | number | string | array => cases h
  | null | bool | number | string | array =>
    cases right with
    | object others => cases h
    | null | bool | number | string | array => rfl

theorem sameOption_walk {left right : Option Value} (h : sameOption left right = true)
    (names : List String) :
    sameOption (left.bind (walk names)) (right.bind (walk names)) = true := by
  induction names generalizing left right with
  | nil => rwa [bind_walk_nil, bind_walk_nil]
  | cons name names ih =>
    cases left with
    | none =>
      cases right with
      | none => rfl
      | some right => cases h
    | some left =>
      cases right with
      | none => cases h
      | some right => exact ih (sameOption_get h name)

theorem lookup_eq_none_of_lt (h : ∀ field ∈ fields, name < field.1) :
    fields.lookup name = none := by
  rw [lookup_eq_none_iff]
  intro field hfield
  simpa using (h field hfield).ne

theorem sameFields_of_lookup (hl : Ascending left) (hr : Ascending right)
    (h : ∀ name, sameOption (left.lookup name) (right.lookup name) = true) :
    sameFields left right = true := by
  induction left generalizing right with
  | nil =>
    cases right with
    | nil => rfl
    | cons field right =>
      have hfield := h field.1
      rw [lookup_cons_eq, if_pos rfl] at hfield
      cases hfield
  | cons field left ih =>
    obtain ⟨k, v⟩ := field
    obtain ⟨hhead, htail⟩ := ascending_cons.mp hl
    cases right with
    | nil =>
      have hfield := h k
      rw [lookup_cons_eq, if_pos rfl] at hfield
      cases hfield
    | cons field' right =>
      obtain ⟨k', v'⟩ := field'
      obtain ⟨hhead', htail'⟩ := ascending_cons.mp hr
      have hkey : k = k' := by
        rcases lt_trichotomy k k' with hlt | heq | hlt
        · have hfield := h k
          have hnone : List.lookup k ((k', v') :: right) = none :=
            lookup_eq_none_of_lt (forall_mem_cons.mpr ⟨hlt, fun e he => hlt.trans (hhead' e he)⟩)
          rw [lookup_cons_eq, if_pos rfl, hnone] at hfield
          cases hfield
        · exact heq
        · have hfield := h k'
          have hnone : List.lookup k' ((k, v) :: left) = none :=
            lookup_eq_none_of_lt (forall_mem_cons.mpr ⟨hlt, fun e he => hlt.trans (hhead e he)⟩)
          rw [hnone, lookup_cons_eq, if_pos rfl] at hfield
          cases hfield
      subst hkey
      have hvalue := h k
      rw [lookup_cons_eq, lookup_cons_eq, if_pos rfl, if_pos rfl] at hvalue
      have hrest := ih htail htail' fun name => by
        have hname := h name
        rw [lookup_cons_eq, lookup_cons_eq] at hname
        by_cases heq : name = k
        · rw [heq, lookup_eq_none_of_lt hhead, lookup_eq_none_of_lt hhead']
          rfl
        · rwa [if_neg heq, if_neg heq] at hname
      simp only [sameFields, Bool.and_eq_true, decide_eq_true_iff]
      exact ⟨⟨trivial, hvalue⟩, hrest⟩

theorem sizeOf_lt_of_get (h : value.get name = some child) : sizeOf child < sizeOf value := by
  cases value with
  | object fields =>
    obtain ⟨before, after, heq, -⟩ := lookup_eq_some_iff.mp h
    have hmem : (name, child) ∈ fields := by
      rw [heq]
      simp
    have hsize := sizeOf_lt_of_mem hmem
    simp only [Prod.mk.sizeOf_spec, object.sizeOf_spec] at hsize ⊢
    omega
  | null | bool | number | string | array => cases h

/-- Induction over two values at once, along the field names of both. -/
@[elab_as_elim]
theorem pair_induct {motive : Option Value → Option Value → Prop} (absent : motive none none)
    (step : ∀ left right,
      (∀ name, motive (left.bind fun v => v.get name) (right.bind fun v => v.get name)) →
        motive left right) (left right : Option Value) : motive left right := by
  -- The larger of the two values shrinks on the way to a field.
  suffices hbound : ∀ n left right, (∀ v, left = some v → sizeOf v < n) →
      (∀ v, right = some v → sizeOf v < n) → motive left right by
    refine hbound (left.elim 0 sizeOf + right.elim 0 sizeOf + 1) left right ?_ ?_
    · rintro v rfl
      simp only [Option.elim_some]
      omega
    · rintro v rfl
      simp only [Option.elim_some]
      omega
  intro n
  induction n with
  | zero =>
    intro left right hl hr
    cases left with
    | none =>
      cases right with
      | none => exact absent
      | some v => exact absurd (hr v rfl) (Nat.not_lt_zero _)
    | some v => exact absurd (hl v rfl) (Nat.not_lt_zero _)
  | succ n ih =>
    intro left right hl hr
    have hchild : ∀ (value : Option Value) (name : String),
        (∀ v, value = some v → sizeOf v < n + 1) →
          ∀ child, (value.bind fun v => v.get name) = some child → sizeOf child < n := by
      intro value name hvalue child hchild
      obtain ⟨v, rfl, hget⟩ := Option.bind_eq_some_iff.mp hchild
      have hlt := sizeOf_lt_of_get hget
      have hv := hvalue v rfl
      omega
    exact step left right fun name => ih _ _ (hchild left name hl) (hchild right name hr)

end Value

/-- A value whose objects are kept in key order, as every value of the library is. -/
structure Document where
  /-- The value. -/
  value : Value
  /-- Its objects are in key order. -/
  ordered : value.ordered = true

end ChironDB.Json
