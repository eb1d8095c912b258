/-
# Security filters

`SecurityFilter` of `security/filter.rs`: a filter is compiled to the sets of paths it may refer
to, and is evaluated only when one of each set is known and all known ones may be queried, and
only on the projection of the payload.

**Noninterference.**  Two payloads that agree at the rule paths a subject may use are projected
to one value, copied to that value, and answered alike by every compiled filter.
-/

import ChironDB.Filter.Matches
import ChironDB.Security.Projection

namespace ChironDB.Security

open Tables Json Fault ChironDB.Filter

/-- The length of a value as the writer of `serde_json` spells it. -/
class JsonWriter where
  /-- The number of bytes. -/
  serializedLen : Value → ℕ

structure SecurityFilter where
  filter : Value
  references : List (Finset String)

/-- `rule_for_path`: the rule of a path, or else of the nearest ancestor. -/
def ruleForPath (record : ResourceRecord) (path : String) : Option PropertyRule :=
  (record.properties.get path).or <|
    ((((List.range path.toList.length).filter fun i => path.toList[i]? = some '/').reverse.filter
      fun i => 0 < i).map fun i => String.ofList (path.toList.take i)).findSome?
        record.properties.get

/-- The two readings of a field name below a path: as one name, and as a dotted path. -/
def aliasesBelow (parent field : String) : List String :=
  [parent ++ "/" ++ escapeName field,
    parent ++ "/" ++ "/".intercalate ((field.toList.splitOn '.').map fun part =>
      escapeName (String.ofList (normalizePathComponent part)))]

def fieldAliases (parents : Finset String) (field : String) : Finset String :=
  parents.biUnion fun parent => (aliasesBelow parent field).toFinset

/-- The references collected so far and the work done. -/
abbrev Collected : Type := List (Finset String) × ℕ

/-- Whether a condition only looks at fields below. -/
def nestedOnly : Value → Bool
  | .object [(op, _)] => op = "nested"
  | _ => false

/-- Whether an operator other than `nested` takes a bound of this kind. -/
def supported (op : String) (bound : Value) : Bool :=
  match op, bound with
  | "eq", _ | "ne", _ => true
  | "gt", .number _ | "gte", .number _ | "lt", .number _ | "lte", .number _ => true
  | "in", .array _ => true
  | "text", .string _ => true
  | _, _ => false

mutual
def collect : Value → Finset String → Collected → Result Collected
  | .object conditions, parents, acc => collectConditions conditions parents acc
  | _, _, _ => .error (.invalid "filter must be an object")

def collectConditions : List (String × Value) → Finset String → Collected → Result Collected
  | [], _, acc => .ok acc
  | (field, expected) :: conditions, parents, (references, work) =>
    let aliases := fieldAliases parents field
    let work := work + aliases.card
    if maxPolicyGrants < work then .error .budgetExceeded
    else
      let references := if nestedOnly expected then references else references ++ [aliases]
      match expected with
      | .object operators => do
        let acc ← collectOperators operators aliases (references, work)
        collectConditions conditions parents acc
      | _ => collectConditions conditions parents (references, work)

def collectOperators : List (String × Value) → Finset String → Collected → Result Collected
  | [], _, acc => .ok acc
  | (op, bound) :: operators, aliases, acc =>
    if op = "nested" then do
      let acc ← collectNested bound aliases acc
      collectOperators operators aliases acc
    else if supported op bound then collectOperators operators aliases acc
    else .error (.invalid "unsupported filter operator or value type")

/-- The filter under `filter`, which must then stand alone, or else the bound itself.  An empty
one asks whether its container exists. -/
def collectNested : Value → Finset String → Collected → Result Collected
  | .object [("filter", nested)], aliases, (references, work) =>
    collect nested aliases (match nested with
        | .object [] => (references ++ [aliases], work)
        | _ => (references, work))
  | .object fields, aliases, (references, work) =>
    if (fields.lookup "filter").isSome then .error (.invalid "ambiguous nested filter wrapper")
    else
      collectConditions fields aliases
        (if fields.isEmpty then (references ++ [aliases], work) else (references, work))
  | _, _, _ => .error (.invalid "filter must be an object")
end

/-- `SecurityFilter::compile`. -/
def SecurityFilter.compile [JsonWriter] (filter : Value) : Result SecurityFilter := do
  (validateComplexity filter).mapError .invalid
  ensure (JsonWriter.serializedLen filter ≤ 64 * 1024) .budgetExceeded
  let (references, _) ← collect filter {""} ([], 0)
  .ok ⟨filter, references⟩

/-- A reference is allowed when one of its aliases has a rule and all that have one may be
queried. -/
def checkReference (record : ResourceRecord) (attributes : SubjectAttributes)
    (aliases : Finset String) : Result Unit := do
  ensure (decide (∀ path ∈ aliases,
    (ruleForPath record path).all fun rule => rule.allows attributes .query)) .forbidden
  ensure (decide (∃ path ∈ aliases, (ruleForPath record path).isSome)) .forbidden

/-- `SecurityFilter::matches`. -/
def SecurityFilter.matches [Unicode] (compiled : SecurityFilter) (record : ResourceRecord)
    (attributes : SubjectAttributes) (payload : Value) : Result Bool := do
  compiled.references.forM (checkReference record attributes)
  .ok (filterMatches compiled.filter (projectPayload record attributes .query payload))

/-- **Projection is noninterferent.**  Payloads that hold the same value, or none, at every rule
path that allows the action give one projection, one copy and, for queries, one answer to every
compiled filter. -/
theorem projection_noninterferent [Unicode] [JsonWriter] (record : ResourceRecord)
    (attributes : SubjectAttributes) (action : PropertyAction) (left right : Document)
    (h : ∀ path rule, record.properties.get path = some rule →
      rule.allows attributes action = true → valueAt path left.value = valueAt path right.value) :
    projectPayload record attributes action left.value =
        projectPayload record attributes action right.value ∧
      (∀ path events, (∀ event ∈ events, event = .pass) →
        (∃ path' rest, copy record attributes action left.value path events =
          .done (projectPayload record attributes action left.value) path' rest) ∧
        ∃ path' rest, copy record attributes action right.value path events =
          .done (projectPayload record attributes action left.value) path' rest) ∧
      (action = .query → ∀ filter compiled, SecurityFilter.compile filter = .ok compiled →
        compiled.matches record attributes left.value =
          compiled.matches record attributes right.value) := by
  have hproject : projectPayload record attributes action left.value =
      projectPayload record attributes action right.value := by
    refine projectPayload_eq left.ordered right.ordered fun path hallowed => ?_
    obtain ⟨rule, hrule, hallows⟩ := fieldAllowed_iff.mp hallowed
    exact h path rule hrule hallows
  refine ⟨hproject, fun path events hevents => ⟨?_, ?_⟩, ?_⟩
  · exact (copy_spec left.value path).2 events hevents
  · rw [hproject]
    exact (copy_spec right.value path).2 events hevents
  · rintro rfl filter compiled -
    rw [SecurityFilter.matches, SecurityFilter.matches, hproject]

/-- A record with a rule that an internal subject may query and one that it may not. -/
def profileRecord : ResourceRecord where
  key := ⟨1, "acme", "doc"⟩
  storageId := 2
  labels := ⟨"writer", "Finance", .internal, false⟩
  properties := TreeMap.empty.insert "/profile/name" ⟨.internal, {.query}⟩ |>.insert
    "/profile/salary" ⟨.restricted, {.query}⟩
  representations := .empty
  grants := []
  parent := none
  revision := 1
  retired := false
  createReceipt := none

/-- A payload of the record. -/
def profile (name salary note : Value) : Value :=
  .object [("note", note), ("profile", .object [("name", name), ("salary", salary)])]

/-- The salary and an unlabelled note say nothing: to the projection, to the copy, or to the
filter `profile.name = ada`, which has 22 bytes. -/
theorem projection_noninterferent_profile :
    letI : Unicode := ⟨Char.isAlphanum⟩
    letI : JsonWriter := ⟨fun _ => 22⟩
    let attributes : SubjectAttributes := ⟨"Finance", .internal⟩
    let left := profile (.string "ada") (.number (.posInt 100)) .null
    let right := profile (.string "ada") (.array []) (.object [])
    projectPayload profileRecord attributes .query left =
        projectPayload profileRecord attributes .query right ∧
      ∃ compiled, SecurityFilter.compile (.object [("profile.name", .string "ada")]) = .ok compiled ∧
        compiled.matches profileRecord attributes left =
          compiled.matches profileRecord attributes right := by
  have h := @projection_noninterferent ⟨Char.isAlphanum⟩ ⟨fun _ => 22⟩ profileRecord
    ⟨"Finance", .internal⟩ .query ⟨profile (.string "ada") (.number (.posInt 100)) .null, by decide⟩
    ⟨profile (.string "ada") (.array []) (.object []), by decide⟩ (by
      intro path rule hrule hallows
      have hentries : profileRecord.properties.entries = [("/profile/name", ⟨.internal, {.query}⟩),
            ("/profile/salary", ⟨.restricted, {.query}⟩)] := by
        decide
      rw [TreeMap.get_eq_some_iff, hentries, List.mem_cons, List.mem_singleton] at hrule
      rcases hrule with hrule | hrule
      · cases hrule
        have hnames : pointerNames "/profile/name" = ["profile", "name"] := by decide
        rw [valueAt, valueAt, hnames]
        rfl
      · cases hrule
        exact absurd hallows (by decide))
  obtain ⟨compiled, hcompiled⟩ : ∃ compiled, @SecurityFilter.compile ⟨fun _ => 22⟩
      (.object [("profile.name", .string "ada")]) = .ok compiled := ⟨_, rfl⟩
  exact ⟨h.1, compiled, hcompiled, h.2.2 rfl _ compiled hcompiled⟩

end ChironDB.Security
