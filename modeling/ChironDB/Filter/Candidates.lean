/-
# Candidates of a filter

`payload_filter_candidates` and `payload_filter_ordinal_candidates` of `payload_index.rs`, with the
predicates that `Filter::indexed_predicates` finds in a filter.  A payload index keeps, for every
field, the points under each scalar, under each number in the order of the numbers, and under each
word; a sealed segment has the same index over ordinals.

The candidates of a range come from `BTreeMap::range`, which panics when the lower bound lies above
the upper one, or when both are one key and exclude it.  Nothing keeps the bounds of a filter from
being so.  The key of a number orders the two zeros, which are one number.
-/

import ChironDB.Filter.Matches
import ChironDB.Fault.Result

namespace ChironDB.Filter

open Json Tables Fault List

/-! ### Predicates -/

structure IndexedFilterTerm where
  field : String
  values : List Value

structure IndexedTextTerm where
  field : String
  requiredTerms : List String

structure IndexedNumericRangeTerm where
  field : String
  gt : Option F64
  gte : Option F64
  lt : Option F64
  lte : Option F64

/-- A number satisfies the range. -/
def IndexedNumericRangeTerm.matches (term : IndexedNumericRangeTerm) (x : F64) : Bool :=
  (term.gt.all fun bound => bound.rank < x.rank) &&
    (term.gte.all fun bound => bound.rank ≤ x.rank) &&
    (term.lt.all fun bound => x.rank < bound.rank) && term.lte.all fun bound => x.rank ≤ bound.rank

inductive IndexedFilterPredicate
  | equality (term : IndexedFilterTerm)
  | numericRange (term : IndexedNumericRangeTerm)
  | text (term : IndexedTextTerm)

def isIndexableValue : Value → Bool
  | .array _ | .object _ => false
  | _ => true

def normalizeIndexField (field : String) : String :=
  ".".intercalate ((field.toList.splitOn '.').map fun component =>
    String.ofList (normalizePathComponent component))

def joinIndexFields (outer field : String) : String :=
  if outer = "" then field else if field = "" then outer else outer ++ "." ++ field

/-- `prefix_indexed_predicate_field`. -/
def prefixIndexedPredicateField (outer : String) : IndexedFilterPredicate → IndexedFilterPredicate
  | .equality term => .equality { term with field := joinIndexFields outer term.field }
  | .numericRange term => .numericRange { term with field := joinIndexFields outer term.field }
  | .text term => .text { term with field := joinIndexFields outer term.field }

/-- The loop of `indexed_condition` over the bounds of a range. -/
def indexedRange (field : String) (condition : List (String × Value)) :
    Option (List IndexedFilterPredicate) := do
  let range ← condition.foldlM (fun (range : IndexedNumericRangeTerm) entry => do
    let bound ← asF64 entry.2
    match entry.1 with
    | "gt" => some { range with gt := some bound }
    | "gte" => some { range with gte := some bound }
    | "lt" => some { range with lt := some bound }
    | "lte" => some { range with lte := some bound }
    | _ => none) ⟨field, none, none, none, none⟩
  some [.numericRange range]

section

variable [Unicode]

mutual
/-- `indexed_condition`. -/
def indexedCondition (field : String) : Value → Option (List IndexedFilterPredicate)
  | .object [(op, bound)] =>
    match op with
    | "eq" =>
      if isIndexableValue bound then some [.equality ⟨normalizeIndexField field, [bound]⟩]
      else indexedRange (normalizeIndexField field) [(op, bound)]
    | "in" =>
      match bound with
      | .array values =>
        if values.all isIndexableValue then some [.equality ⟨normalizeIndexField field, values⟩]
        else none
      | _ => none
    | "nested" => indexedNestedConditions (normalizeIndexField field) bound
    | "text" =>
      match bound with
      | .string query =>
        if tokenize query = [] then none
        else some [.text ⟨normalizeIndexField field, tokenize query⟩]
      | _ => none
    | _ => indexedRange (normalizeIndexField field) [(op, bound)]
  | .object condition => indexedRange (normalizeIndexField field) condition
  | expected =>
    if isIndexableValue expected then some [.equality ⟨normalizeIndexField field, [expected]⟩]
    else none

/-- `indexed_nested_conditions`: the filter is under `filter`, or else the bound itself. -/
def indexedNestedConditions (field : String) : Value → Option (List IndexedFilterPredicate)
  | .object fields =>
    if (fields.lookup "filter").isSome then indexedWrapped field fields
    else some (nestedPredicates field fields)
  | _ => none

def indexedWrapped (field : String) : List (String × Value) → Option (List IndexedFilterPredicate)
  | [] => none
  | (name, value) :: fields =>
    if name = "filter" then
      match value with
      | .object conditions => some (nestedPredicates field conditions)
      | _ => none
    else indexedWrapped field fields

/-- The loop over the nested conditions, in which one without an index is passed over. -/
def nestedPredicates (field : String) : List (String × Value) → List IndexedFilterPredicate
  | [] => []
  | (nested, expected) :: conditions =>
    ((indexedCondition nested expected).getD []).map (prefixIndexedPredicateField field) ++
      nestedPredicates field conditions
end

def indexedPredicates : Value → Option (List IndexedFilterPredicate)
  | .object conditions => do
    let predicates ← conditions.mapM fun entry => indexedCondition entry.1 entry.2
    some predicates.flatten
  | _ => none

end

/-! ### The index -/

/-- The texts of numbers. -/
class NumberText where
  /-- `Number::fmt`. -/
  display : Number → String

def payloadIndexKey [NumberText] : Value → Option String
  | .null => some "null"
  | .bool value => some (if value then "bool:true" else "bool:false")
  | .number value => some ("number:" ++ NumberText.display value)
  | .string value => some ("string:" ++ value)
  | .array _ | .object _ => none

/-- `numeric_payload_sort_key` of a finite number: its bits with the sign bit set, or all of them
flipped. -/
def numericPayloadSortKey (x : F64) : ℕ :=
  if x.negative then 2 ^ 63 - 1 - x.magnitude else 2 ^ 63 + x.magnitude

/-- A payload index; the ids of points in the mutable one are strings, those of a sealed segment are
its ordinals. -/
structure PayloadIndex (α : Type) where
  equality : TreeMap String (TreeMap String (Finset α))
  numeric : TreeMap String (TreeMap ℕ (Finset α))
  text : TreeMap String (TreeMap String (Finset α))
  /-- The keys under which numbers are kept are keys of numbers. -/
  keys : ∀ {field values key posting}, numeric.get field = some values →
    values.get key = some posting → ∃ x, numericPayloadSortKey x = key

/-! ### Ranges of an ordered map -/

inductive Bound
  | included (key : ℕ)
  | excluded (key : ℕ)
  | unbounded

namespace Bound

def key : Bound → Option ℕ
  | .included key | .excluded key => some key
  | .unbounded => none

def isExcluded : Bound → Bool
  | .excluded _ => true
  | _ => false

/-- As a lower bound, it lets a key pass. -/
def below : Bound → ℕ → Bool
  | .included key, k => key ≤ k
  | .excluded key, k => key < k
  | .unbounded, _ => true

/-- As an upper bound, it lets a key pass. -/
def above : Bound → ℕ → Bool
  | .included key, k => k ≤ key
  | .excluded key, k => k < key
  | .unbounded, _ => true

end Bound

/-- The panics of `BTreeMap::range`. -/
inductive RangePanic
  | startIsGreaterThanEnd
  | startAndEndAreEqualAndExcluded
deriving DecidableEq

/-- `BTreeMap::range`, with the values it gives. -/
def range {β : Type} (map : TreeMap ℕ β) (bounds : Bound × Bound) : Except RangePanic (List β) := do
  ensure (!(bounds.1.isExcluded && bounds.2.isExcluded && bounds.1.key == bounds.2.key))
    .startAndEndAreEqualAndExcluded
  ensure (decide (∀ start ∈ bounds.1.key, ∀ stop ∈ bounds.2.key, start ≤ stop))
    .startIsGreaterThanEnd
  pure ((map.entries.filter fun entry => bounds.1.below entry.1 && bounds.2.above entry.1).map
    Prod.snd)

/-- One of the bounds, where `stricter` says which of two numbers decides. -/
def rangeBound (stricter : F64 → F64 → Bool) : Option F64 → Option F64 → Bound
  | some strict, some loose =>
    if stricter strict loose then .excluded (numericPayloadSortKey strict)
    else .included (numericPayloadSortKey loose)
  | some strict, none => .excluded (numericPayloadSortKey strict)
  | none, some loose => .included (numericPayloadSortKey loose)
  | none, none => .unbounded

def numericPayloadRangeBounds (term : IndexedNumericRangeTerm) : Bound × Bound :=
  (rangeBound (fun gt gte => gte.rank ≤ gt.rank) term.gt term.gte,
    rangeBound (fun lt lte => lt.rank ≤ lte.rank) term.lt term.lte)

/-! ### Candidates -/

variable {α : Type}

section

variable [DecidableEq α]

/-- What is left of the candidates after one more set of them. -/
def narrow (candidates : Option (Finset α)) (found : Finset α) : Option (Finset α) :=
  some (match candidates with
    | some existing => existing ∩ found
    | none => found)

variable (index : PayloadIndex α)

def equalityPayloadCandidates [NumberText] (term : IndexedFilterTerm) : Finset α :=
  match index.equality.get term.field with
  | none => ∅
  | some values => term.values.foldl (fun ids value =>
      ids ∪ ((payloadIndexKey value).bind values.get).getD ∅) ∅

def numericRangePayloadCandidates (term : IndexedNumericRangeTerm) :
    Except RangePanic (Finset α) :=
  match index.numeric.get term.field with
  | none => .ok ∅
  | some values => do
    let postings ← range values (numericPayloadRangeBounds term)
    pure (postings.foldl (· ∪ ·) ∅)

def textPayloadCandidates (term : IndexedTextTerm) : Finset α :=
  match index.text.get term.field with
  | none => ∅
  | some terms => (term.requiredTerms.foldl (fun candidates required =>
      narrow candidates ((terms.get required).getD ∅)) none).getD ∅

variable [NumberText]

def predicateCandidates : IndexedFilterPredicate → Except RangePanic (Finset α)
  | .equality term => .ok (equalityPayloadCandidates index term)
  | .numericRange term => numericRangePayloadCandidates index term
  | .text term => .ok (textPayloadCandidates index term)

def narrowBy (candidates : Option (Finset α)) (predicate : IndexedFilterPredicate) :
    Except RangePanic (Option (Finset α)) := do
  let found ← predicateCandidates index predicate
  pure (narrow candidates found)

/-- The two functions, which differ in the type of the postings. -/
def filterCandidates [Unicode] (filter : Option Value) :
    Except RangePanic (Option (Finset α)) :=
  match filter.bind indexedPredicates with
  | none | some [] => .ok none
  | some predicates => predicates.foldlM (narrowBy index) none

end

section

variable [NumberText] [Unicode]

def payloadFilterCandidates (index : PayloadIndex String) (filter : Option Value) :
    Except RangePanic (Option (Finset String)) :=
  filterCandidates index filter

def payloadFilterOrdinalCandidates (index : PayloadIndex UInt32) (filter : Option Value) :
    Except RangePanic (Option (Finset UInt32)) :=
  filterCandidates index filter

end

/-! ### When they are found -/

/-- Bounds that `BTreeMap::range` takes. -/
def Forward (bounds : Bound × Bound) : Prop :=
  ∀ start ∈ bounds.1.key, ∀ stop ∈ bounds.2.key, start ≤ stop ∧
    (start = stop → ¬ (bounds.1.isExcluded = true ∧ bounds.2.isExcluded = true))

theorem range_returns_iff {β : Type} (map : TreeMap ℕ β) {bounds : Bound × Bound} :
    (∃ postings, range map bounds = .ok postings) ↔ Forward bounds := by
  obtain ⟨lower, upper⟩ := bounds
  simp only [range, eq_ok, Forward]
  cases lower <;> cases upper <;> simp [Bound.key, Bound.isExcluded]
  omega

variable {term : IndexedNumericRangeTerm} {index : PayloadIndex α}

section

variable [DecidableEq α]

theorem numericRange_returns_iff : (∃ found, numericRangePayloadCandidates index term = .ok found) ↔
    (index.numeric.containsKey term.field = true → Forward (numericPayloadRangeBounds term)) := by
  rw [TreeMap.containsKey, numericRangePayloadCandidates]
  cases index.numeric.get term.field with
  | none => simp
  | some values =>
    dsimp only
    rw [← range_returns_iff values]
    cases range values (numericPayloadRangeBounds term) <;>
      simp [bind, Except.bind, pure, Except.pure]

/-- All ranges of a filter over fields with numbers are such that `BTreeMap::range` takes them. -/
def RangesForward [Unicode] (index : PayloadIndex α) (filter : Option Value) : Prop :=
  ∀ predicates, filter.bind indexedPredicates = some predicates → ∀ term,
    .numericRange term ∈ predicates → index.numeric.containsKey term.field = true →
      Forward (numericPayloadRangeBounds term)

variable [NumberText]

theorem predicate_returns_iff {predicate : IndexedFilterPredicate} :
    (∃ found, predicateCandidates index predicate = .ok found) ↔
      ∀ term, predicate = .numericRange term → index.numeric.containsKey term.field = true →
        Forward (numericPayloadRangeBounds term) := by
  cases predicate with
  | equality | text => simp [predicateCandidates]
  | numericRange term => simp [predicateCandidates, numericRange_returns_iff]

theorem narrowing_returns_iff {predicates : List IndexedFilterPredicate}
    {candidates : Option (Finset α)} :
    (∃ result, predicates.foldlM (narrowBy index) candidates = .ok result) ↔
      ∀ predicate ∈ predicates, ∃ found, predicateCandidates index predicate = .ok found := by
  induction predicates generalizing candidates with
  | nil => simp [pure, Except.pure]
  | cons predicate predicates ih =>
    rw [foldlM_cons, forall_mem_cons, narrowBy]
    cases predicateCandidates index predicate with
    | error e => simp [bind, Except.bind]
    | ok found => simpa [bind, Except.bind, pure, Except.pure] using ih

/-- **Candidates are found exactly when no range runs backwards.** -/
theorem filterCandidates_returns_iff [Unicode] {filter : Option Value} :
    (∃ candidates, filterCandidates index filter = .ok candidates) ↔
      RangesForward index filter := by
  rw [filterCandidates, RangesForward]
  rcases filter.bind indexedPredicates with _ | _ | ⟨predicate, predicates⟩
  · simp
  · simp
  · refine narrowing_returns_iff.trans ⟨fun h _ hfound term hterm => ?_, fun h other hother => ?_⟩
    · cases hfound
      exact predicate_returns_iff.mp (h _ hterm) term rfl
    · exact predicate_returns_iff.mpr fun term hterm => h _ rfl term (hterm ▸ hother)

end

/-! ### Ranges without numbers -/

def negativeZero : F64 := ⟨true, 0, by decide⟩

variable {x y : F64}

theorem rank_le_of_key_le (h : numericPayloadSortKey x ≤ numericPayloadSortKey y) :
    x.rank ≤ y.rank := by
  obtain ⟨xs, m, hm⟩ := x
  obtain ⟨ys, n, hn⟩ := y
  cases xs <;> cases ys <;> simp [numericPayloadSortKey, F64.rank] at h ⊢ <;> omega

/-- The keys order the numbers, but for the two zeros. -/
theorem rank_lt_of_key_lt (h : numericPayloadSortKey x < numericPayloadSortKey y)
    (hx : x ≠ negativeZero) : x.rank < y.rank := by
  obtain ⟨xs, m, hm⟩ := x
  obtain ⟨ys, n, hn⟩ := y
  rw [negativeZero, ne_eq, F64.mk.injEq] at hx
  cases xs <;> cases ys <;> simp [numericPayloadSortKey, F64.rank] at h hx ⊢ <;> omega

section

/-- What passes a bound stands on the right side of both numbers. -/
theorem all_of_rangeBound {strict loose : Option F64} {stricter : F64 → F64 → Bool}
    (place : F64 → ℤ) (r : ℤ) (passes : Bound → Bool)
    (hstricter : ∀ s l, stricter s l = true ↔ place l ≤ place s)
    (hexcluded : ∀ b, strict = some b → passes (.excluded (numericPayloadSortKey b)) = true →
      place b < r)
    (hincluded : ∀ b, passes (.included (numericPayloadSortKey b)) = true → place b ≤ r)
    (h : passes (rangeBound stricter strict loose) = true) :
    (∀ b, strict = some b → place b < r) ∧ ∀ b, loose = some b → place b ≤ r := by
  rcases strict with _ | s <;> rcases loose with _ | l
  · simp
  · simpa using hincluded l h
  · simpa using hexcluded s rfl h
  · rw [rangeBound] at h
    split at h
    · next hs =>
      have hlt := hexcluded s rfl h
      simpa using ⟨hlt, ((hstricter s l).mp hs).trans hlt.le⟩
    · next hs =>
      have hle := hincluded l h
      simpa using ⟨(not_le.mp (mt (hstricter s l).mpr hs)).trans_le hle, hle⟩

/-- A number whose key lies within the bounds of a range satisfies it. -/
theorem matches_of_key (hgt : term.gt ≠ some negativeZero) (hx : x ≠ negativeZero)
    (hbelow : (numericPayloadRangeBounds term).1.below (numericPayloadSortKey x) = true)
    (habove : (numericPayloadRangeBounds term).2.above (numericPayloadSortKey x) = true) :
    term.matches x = true := by
  have hlower := all_of_rangeBound F64.rank x.rank (·.below (numericPayloadSortKey x)) (by simp)
    (fun b hb h => rank_lt_of_key_lt (of_decide_eq_true h) (by rintro rfl; exact hgt hb))
    (fun b h => rank_le_of_key_le (of_decide_eq_true h)) hbelow
  have hupper := all_of_rangeBound (-·.rank) (-x.rank) (·.above (numericPayloadSortKey x)) (by simp)
    (fun b _ h => Int.neg_lt_neg (rank_lt_of_key_lt (of_decide_eq_true h) hx))
    (fun b h => Int.neg_le_neg (rank_le_of_key_le (of_decide_eq_true h))) habove
  simp only [Int.neg_lt_neg_iff, Int.neg_le_neg_iff] at hupper
  simpa [IndexedNumericRangeTerm.matches, Option.all_eq_true, and_assoc] using
    ⟨hlower.1, hlower.2, hupper⟩

variable [DecidableEq α]

/-- No negative zero bounds a range from below or is kept under its field. -/
def Signed (index : PayloadIndex α) (term : IndexedNumericRangeTerm) : Prop :=
  term.gt ≠ some negativeZero ∧ ∀ values, index.numeric.get term.field = some values →
    values.get (numericPayloadSortKey negativeZero) = none

theorem numericRange_empty (hnone : ∀ x, term.matches x = false) (hsigned : Signed index term)
    (hforward : Forward (numericPayloadRangeBounds term)) :
    numericRangePayloadCandidates index term = .ok ∅ := by
  rw [numericRangePayloadCandidates]
  cases hvalues : index.numeric.get term.field with
  | none => rfl
  | some values =>
    obtain ⟨postings, hpostings⟩ := (range_returns_iff values).mpr hforward
    have hnil : postings = [] := by
      simp only [range, eq_ok] at hpostings
      obtain ⟨-, -, rfl⟩ := hpostings
      refine map_eq_nil_iff.mpr (filter_eq_nil_iff.mpr fun entry hentry hwithin => ?_)
      have hget := TreeMap.get_eq_some_iff.mpr hentry
      obtain ⟨x, hx⟩ := index.keys hvalues hget
      rw [Bool.and_eq_true, ← hx] at hwithin
      refine Bool.false_ne_true ((hnone x).symm.trans
        (matches_of_key hsigned.1 ?_ hwithin.1 hwithin.2))
      rintro rfl
      rw [← hx, hsigned.2 values hvalues] at hget
      cases hget
    dsimp only
    rw [hpostings, hnil]
    rfl

end

section

/-- An index with one point, which has a price. -/
def pricedAt {α : Type} (id : α) (price : F64) : PayloadIndex α where
  equality := .empty
  numeric := TreeMap.empty.insert "price"
    (TreeMap.empty.insert (numericPayloadSortKey price) {id})
  text := .empty
  keys {field values key posting} hvalues hposting := by
    rcases TreeMap.of_get_insert hvalues with ⟨-, rfl⟩ | ⟨-, ⟨⟩⟩
    rcases TreeMap.of_get_insert hposting with ⟨rfl, -⟩ | ⟨-, ⟨⟩⟩
    exact ⟨price, rfl⟩

/-- The filter `{"price": {"gt": low, "lt": high}}`. -/
def priceBetween (low high : Fin (2 ^ 64)) : Value :=
  .object [("price", .object [("gt", .number (.posInt low)), ("lt", .number (.posInt high))])]

abbrev exampleText : NumberText := ⟨fun _ => ""⟩

abbrev exampleLetters : Unicode := ⟨Char.isAlphanum⟩

attribute [local instance] exampleText exampleLetters

end

end ChironDB.Filter
