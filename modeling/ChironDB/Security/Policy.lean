/-
# Templates and property rules

`identifier`, `validate_template` and `field_allowed` of `security/policy.rs`.  A property rule
is kept under a JSON pointer.  A template is accepted when every rule path is a pointer that is
not reserved and lies below no other rule path, so that the rules of a resource cut its payload
into separate subtrees (`rules_separate`).
-/

import ChironDB.Fault.Result
import ChironDB.Json.Pointer
import ChironDB.Security.Types

namespace ChironDB.Security

open Tables Json Fault List

abbrev Result (α : Type) : Type := Except SecurityError α

/-- `u64::checked_add(1)`. -/
def successor (n : ℕ) : Result ℕ := if n + 1 < 2 ^ 64 then .ok (n + 1) else .error .unavailable

theorem successor_eq_ok {n next : ℕ} : successor n = .ok next ↔ n + 1 < 2 ^ 64 ∧ n + 1 = next := by
  rw [successor]
  split <;> simp_all

/-- `str::len`. -/
def byteLength (text : String) : ℕ := (text.toList.map Char.utf8Size).sum

def identifier (value : String) : Bool :=
  value ≠ "" && byteLength value ≤ 128 &&
    value.toList.all fun c => c.isAlphanum || "_-.:".toList.contains c

def validPropertyPath (path : String) : Bool :=
  path.toList.head? = some '/' && byteLength path ≤ 1024 &&
    (path.toList.splitOn '/').length ≤ 17 && escapesValid path.toList

def reserved (path : String) : Bool :=
  ["/tenant_id", "/owner", "/department", "/classification", "/acl", "/allowed_groups"].any
    fun name => path = name || (name ++ "/").toList.isPrefixOf path.toList

/-- What precedes the slashes of a path, the leading one aside: `match_indices`, `skip(1)`. -/
def ancestorPaths (path : String) : List String :=
  (((List.range path.toList.length).filter fun i => path.toList[i]? = some '/').drop 1).map
    fun i => String.ofList (path.toList.take i)

/-- The checks on one property path. -/
def validateProperty (properties : TreeMap String PropertyRule) (path : String) : Result Unit := do
  ensure (validPropertyPath path && !reserved path) (.invalid "invalid or reserved property path")
  ensure (!(ancestorPaths path).any properties.containsKey)
    (.invalid "property rules cannot overlap an ancestor rule")

/-- The checks on one source field of a representation. -/
def validateSource (properties : TreeMap String PropertyRule) (representation : Representation)
    (path : String) : Result Unit :=
  match properties.get path with
  | none => .error (.invalid "unknown representation source")
  | some property =>
    ensure (property.classification ≤ representation.classification)
      (.invalid "representation is less restricted than its source")

local instance trans_string : IsTrans String (· ≤ ·) := inferInstance

local instance antisymm_string : Std.Antisymm (α := String) (· ≤ ·) := inferInstance

/-- The checks on one representation. -/
def validateRepresentation (properties : TreeMap String PropertyRule)
    (entry : String × Representation) : Result Unit := do
  ensure (identifier entry.1 && entry.2.sourceFields.card ≤ maxPolicyGrants)
    (.invalid "invalid representation")
  ensure (entry.2.sourceFields ≠ ∅) (.invalid "representation requires attested sources")
  (entry.2.sourceFields.sort (· ≤ ·)).forM (validateSource properties entry.2)

def validateTemplate (template : IngestTemplate) : Result Unit := do
  ensure (identifier template.department && template.properties.entries.length ≤ maxPolicyGrants &&
    template.representations.entries.length ≤ maxPolicyGrants) (.invalid "invalid ingest template")
  template.properties.keys.forM (validateProperty template.properties)
  template.representations.entries.forM (validateRepresentation template.properties)

variable {path : String}

theorem validateProperty_of_template {template : IngestTemplate}
    (h : validateTemplate template = .ok ()) (hpath : template.properties.containsKey path = true) :
    validPropertyPath path = true ∧
      (ancestorPaths path).any template.properties.containsKey = false := by
  have hchecks := (seq_eq_ok.mp (seq_eq_ok.mp h).2).1
  have hmem : path ∈ template.properties.keys :=
    TreeMap.mem_keys.mpr (TreeMap.containsKey_iff.mp hpath)
  have hproperty := forM_eq_ok.mp hchecks path hmem
  rw [validateProperty, seq_eq_ok, ensure_eq_ok, ensure_eq_ok, Bool.and_eq_true] at hproperty
  exact ⟨hproperty.1.1, by simpa using hproperty.2⟩

theorem pointer_of_rule {template : IngestTemplate} (h : validateTemplate template = .ok ())
    (hpath : template.properties.containsKey path = true) :
    pointer (pointerNames path) = path := by
  have hvalid := (validateProperty_of_template h hpath).1
  simp only [validPropertyPath, Bool.and_eq_true, decide_eq_true_iff] at hvalid
  exact pointer_pointerNames hvalid.1.1.1 hvalid.2

theorem mem_ancestorPaths {above below : List Char}
    (hslash : path.toList.head? = some '/') (habove : above ≠ [])
    (hpath : path.toList = above ++ '/' :: below) : String.ofList above ∈ ancestorPaths path := by
  obtain ⟨rest, hrest⟩ := head?_eq_some_iff.mp hslash
  have hpos : 0 < above.length := length_pos_iff.mpr habove
  have hindex : path.toList[above.length]? = some '/' := by
    rw [hpath, getElem?_append_right (le_refl _), Nat.sub_self]
    rfl
  have hlength : path.toList.length = rest.length + 1 := by rw [hrest, length_cons]
  have hlt : above.length < path.toList.length := by
    rw [hpath, length_append, length_cons]
    omega
  rw [ancestorPaths, mem_map]
  refine ⟨above.length, ?_, by rw [hpath, take_left]⟩
  -- The slash in front is the first index that is found.
  rw [hlength, range_succ_eq_map, filter_cons, if_pos (by simp [hrest]), drop_one,
    tail_cons, mem_filter, mem_map]
  refine ⟨⟨above.length - 1, ?_, ?_⟩, by simp [hindex]⟩
  · rw [mem_range]
    omega
  · omega

/-- **The rules are separate:** no rule path lies above another. -/
theorem rules_separate {template : IngestTemplate} (h : validateTemplate template = .ok ())
    {names more : List String} (hmore : more ≠ [])
    (habove : template.properties.containsKey (pointer names) = true)
    (hbelow : template.properties.containsKey (pointer (names ++ more)) = true) : False := by
  obtain ⟨hvalid, -⟩ := validateProperty_of_template h habove
  obtain ⟨hvalid', hnone⟩ := validateProperty_of_template h hbelow
  simp only [validPropertyPath, Bool.and_eq_true, decide_eq_true_iff] at hvalid hvalid'
  obtain ⟨name, rest, rfl⟩ := exists_cons_of_ne_nil hmore
  have hpath : (pointer (names ++ name :: rest)).toList = (pointer names).toList ++
      '/' :: ((escapeName name).toList ++ rest.flatMap fun name =>
        '/' :: (escapeName name).toList) := by
    rw [toList_pointer, toList_pointer, flatMap_append, flatMap_cons]
    rfl
  have hne : (pointer names).toList ≠ [] := by
    intro hnil
    rw [hnil] at hvalid
    exact absurd hvalid.1.1.1 (by simp)
  have hmem := mem_ancestorPaths hvalid'.1.1.1 hne hpath
  rw [String.ofList_toList] at hmem
  rw [any_eq_false] at hnone
  exact hnone _ hmem habove

/-- The template of a resource's own rules, as `validate_resource` checks it. -/
def ResourceRecord.template (record : ResourceRecord) : IngestTemplate :=
  ⟨record.labels.department, record.labels.classification, record.properties,
    record.representations⟩

/-- Whether a rule lets a subject act. -/
def PropertyRule.allows (rule : PropertyRule) (attributes : SubjectAttributes)
    (action : PropertyAction) : Bool :=
  rule.classification ≤ attributes.clearance && decide (action ∈ rule.actions)

def fieldAllowed (record : ResourceRecord) (attributes : SubjectAttributes) (path : String)
    (action : PropertyAction) : Bool :=
  (record.properties.get path).any fun rule => rule.allows attributes action

theorem fieldAllowed_iff {record : ResourceRecord} {attributes : SubjectAttributes}
    {action : PropertyAction} :
    fieldAllowed record attributes path action = true ↔
      ∃ rule, record.properties.get path = some rule ∧ rule.allows attributes action = true := by
  rw [fieldAllowed]
  cases record.properties.get path <;> simp

def childPath (parent key : String) : String := parent ++ "/" ++ escapeName key

end ChironDB.Security
