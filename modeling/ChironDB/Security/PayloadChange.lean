/-
# Changes of a payload

`validate_payload_change` of `security/policy.rs`, which compares an old and a new payload field
by field and authorizes every difference.  A difference is authorized at a rule path that allows
writing, and at an object on the way to one.

The check is exact.  It accepts only changes that are confined to writable rule paths
(`confined_of_visit`), and within the budgets it accepts all of them (`visit_of_confined`).
-/

import ChironDB.Security.Projection

namespace ChironDB.Security

open Tables Json Fault List

/-- The names of the fields of either value, in order. -/
def fieldNames (old new : Option Value) : List String :=
  sortedKeys (((old.bind Value.asObject).getD []).map Prod.fst ++
    ((new.bind Value.asObject).getD []).map Prod.fst)

section

variable (record : ResourceRecord) (attributes : SubjectAttributes)

/-- `visit` of `validate_payload_change`.  There is room for so many more levels, and `count`
places were visited before; the result is the number of places visited after. -/
def visit : ℕ → String → Option Value → Option Value → ℕ → Result ℕ
  | 0, _, _, _, _ => .error .budgetExceeded
  | room + 1, path, old, new, count =>
    if maxPolicyGrants < count + 1 then .error .budgetExceeded
    else if Value.sameOption old new then .ok (count + 1)
    else if record.properties.containsKey path then
      if fieldAllowed record attributes path .write then .ok (count + 1) else .error .forbidden
    else if old.any Value.isObject || new.any Value.isObject then
      if (old.any (fun value => !value.isObject) || new.any fun value => !value.isObject) &&
          !fieldAllowed record attributes path .write then .error .forbidden
      else if (fieldNames old new).isEmpty && path ≠ "" then .error .forbidden
      else
        (fieldNames old new).foldlM
          (fun count name => visit room (childPath path name) (old.bind fun v => v.get name)
            (new.bind fun v => v.get name) count) (count + 1)
    else if fieldAllowed record attributes path .write then .ok (count + 1)
    else .error .forbidden

/-- A path has at most 16 components below the root. -/
def maxDepth : ℕ := 16

def validatePayloadChange (old new : Value) : Result Unit :=
  if new.isObject then do
    let _ ← visit record attributes (maxDepth + 1) "" (some old) (some new) 0
    .ok ()
  else .error (.invalid "payload must be an object")

end

/-! ### Confined changes -/

/-- Whether the subject may write at the path of these names. -/
def Writable (record : ResourceRecord) (attributes : SubjectAttributes) (names : List String) :
    Prop :=
  fieldAllowed record attributes (pointer names) .write = true

/-- An object, or nothing. -/
def IsContainer (value : Option Value) : Prop := ∀ v, value = some v → v.isObject = true

/-- A place where two values differ. -/
def Differ (old new : Option Value) (place : List String) : Prop :=
  Value.sameOption (old.bind (Value.walk place)) (new.bind (Value.walk place)) = false

/-- A change below a path is confined to writable rule paths: wherever the values differ, the
place lies at or below a writable rule path, or it is an object or nothing on both sides and the
values differ at a writable rule path below it. -/
def ConfinedBelow (record : ResourceRecord) (attributes : SubjectAttributes) (names : List String)
    (old new : Option Value) : Prop :=
  ∀ place, Differ old new place → (∃ k, Writable record attributes (names ++ place.take k)) ∨
      IsContainer (old.bind (Value.walk place)) ∧ IsContainer (new.bind (Value.walk place)) ∧
        ∃ more, more ≠ [] ∧ Writable record attributes (names ++ place ++ more) ∧
          Differ old new (place ++ more)

variable {record : ResourceRecord} {attributes : SubjectAttributes}

variable {names : List String}

theorem Writable.rule (h : Writable record attributes names) :
    record.properties.containsKey (pointer names) = true := by
  obtain ⟨rule, hrule, -⟩ := fieldAllowed_iff.mp h
  exact TreeMap.containsKey_iff.mpr ⟨rule, hrule⟩

theorem bind_walk_cons (value : Option Value) (name : String) (place : List String) :
    value.bind (Value.walk (name :: place)) =
      (value.bind fun v => v.get name).bind (Value.walk place) := by
  rw [Option.bind_assoc]
  rfl

variable {place : List String} {old new : Option Value} {name : String}

theorem differ_cons :
    Differ old new (name :: place) ↔
      Differ (old.bind fun v => v.get name) (new.bind fun v => v.get name) place := by
  rw [Differ, Differ, bind_walk_cons, bind_walk_cons]

variable {value : Option Value}

theorem mem_keys_asObject :
    name ∈ ((value.bind Value.asObject).getD []).map Prod.fst ↔
      value.bind (fun v => v.get name) ≠ none := by
  cases value with
  | none => simp
  | some v =>
    cases v with
    | object fields =>
      rw [Option.bind_some, Option.bind_some, Value.get_object, Value.asObject, Option.getD_some,
        Ne, lookup_eq_none_iff, mem_map]
      push Not
      refine exists_congr fun field => and_congr_right fun _ => ?_
      rw [Ne, bne_iff_ne, not_not, eq_comm]
    | null | bool | number | string | array => simp [Value.asObject, Value.get]

theorem mem_fieldNames :
    name ∈ fieldNames old new ↔
      old.bind (fun v => v.get name) ≠ none ∨ new.bind (fun v => v.get name) ≠ none := by
  rw [fieldNames, mem_sortedKeys, mem_append, mem_keys_asObject, mem_keys_asObject]

/-- A field below which the values differ is a field of one of them. -/
theorem mem_fieldNames_of_differ (h : Differ old new (name :: place)) :
    name ∈ fieldNames old new := by
  rw [mem_fieldNames]
  by_contra hnone
  push Not at hnone
  rw [differ_cons, Differ, hnone.1, hnone.2] at h
  cases h

theorem differ_nil : Differ old new [] ↔ Value.sameOption old new = false := by
  rw [Differ, Value.bind_walk_nil, Value.bind_walk_nil]

/-- Where values are equal, nothing below differs. -/
theorem Differ.nil (h : Differ old new place) : Differ old new [] := by
  rw [differ_nil, ← Bool.not_eq_true]
  intro hsame
  rw [Differ, Value.sameOption_walk hsame place] at h
  cases h

/-- Two different containers differ in a field, unless an empty one is added or removed. -/
theorem exists_differ (hold : IsContainer old) (hnew : IsContainer new)
    (hl : old.all Value.ordered = true) (hr : new.all Value.ordered = true)
    (hdiffer : Differ old new [])
    (hnames : fieldNames old new ≠ [] ∨ old.isSome = true ∧ new.isSome = true) :
    ∃ name, Differ old new [name] := by
  by_contra hnone
  push Not at hnone
  have hsame : ∀ name, Value.sameOption (old.bind fun v => v.get name)
      (new.bind fun v => v.get name) = true := by
    intro name
    have hname := hnone name
    rwa [differ_cons, differ_nil, Bool.not_eq_false] at hname
  have hboth : old.isSome = true ∧ new.isSome = true := by
    refine hnames.elim (fun hne => ?_) id
    obtain ⟨name, hname⟩ := exists_mem_of_ne_nil _ hne
    have hfield := hsame name
    rw [mem_fieldNames] at hname
    have hsome : (old.bind fun v => v.get name).isSome = true ∧
        (new.bind fun v => v.get name).isSome = true := by
      cases hold : old.bind (fun v => v.get name) <;>
        cases hnew : new.bind (fun v => v.get name) <;> simp_all [Value.sameOption]
    exact hsome.imp Option.isSome_of_isSome_bind Option.isSome_of_isSome_bind
  obtain ⟨v, rfl⟩ := Option.isSome_iff_exists.mp hboth.1
  obtain ⟨w, rfl⟩ := Option.isSome_iff_exists.mp hboth.2
  obtain ⟨fields, rfl⟩ := Value.isObject_iff.mp (hold v rfl)
  obtain ⟨others, rfl⟩ := Value.isObject_iff.mp (hnew w rfl)
  have hfields : Value.sameFields fields others = true :=
    Value.sameFields_of_lookup (Value.ordered_object.mp hl).1 (Value.ordered_object.mp hr).1 hsame
  rw [differ_nil] at hdiffer
  exact absurd (hfields.symm.trans hdiffer) (by decide)

/-! ### What the check accepts -/

variable {path : String} {room count : ℕ}

theorem visit_below (hdiffer : Differ old new [])
    (hrule : record.properties.containsKey path = false) :
    visit record attributes (room + 1) path old new count =
      if maxPolicyGrants < count + 1 then .error .budgetExceeded
      else if (old.any Value.isObject || new.any Value.isObject) &&
          !(old.any (fun value => !value.isObject) || new.any fun value => !value.isObject) &&
          !((fieldNames old new).isEmpty && path ≠ "") then
        (fieldNames old new).foldlM
          (fun count name => visit record attributes room (childPath path name)
            (old.bind fun v => v.get name) (new.bind fun v => v.get name) count) (count + 1)
      else .error .forbidden := by
  rw [differ_nil] at hdiffer
  rw [visit, hdiffer, hrule, fieldAllowed_eq_false hrule]
  cases old.any Value.isObject || new.any Value.isObject <;>
    cases old.any (fun value => !value.isObject) || new.any fun value => !value.isObject <;>
    cases (fieldNames old new).isEmpty && decide (path ≠ "") <;> simp

theorem isContainer_iff : IsContainer value ↔ value.any (fun v => !v.isObject) = false := by
  cases value <;> simp [IsContainer]

variable {count' : ℕ} {f : ℕ → String → Result ℕ}

/-- **What is accepted is confined** to writable rule paths. -/
theorem confined_of_visit (hl : old.all Value.ordered = true) (hr : new.all Value.ordered = true)
    (hroot : names = [] → old.isSome = true ∧ new.isSome = true)
    (h : visit record attributes room (pointer names) old new count = .ok count') :
    ConfinedBelow record attributes names old new := by
  induction room generalizing names old new count count' with
  | zero => cases h
  | succ room ih =>
    intro place hplace
    have hnil := hplace.nil
    by_cases hrule : record.properties.containsKey (pointer names) = true
    · -- A rule is passed only when it allows writing.
      refine .inl ⟨0, ?_⟩
      rw [take_zero, append_nil, Writable]
      by_contra hforbidden
      rw [differ_nil] at hnil
      rw [visit, hnil, hrule, Bool.eq_false_iff.mpr hforbidden] at h
      split at h <;> cases h
    · rw [Bool.not_eq_true] at hrule
      rw [visit_below hnil hrule] at h
      split at h
      · cases h
      split at h
      case isFalse => cases h
      case isTrue hshape =>
        simp only [Bool.and_eq_true, Bool.not_eq_true', Bool.or_eq_false_iff] at hshape
        obtain ⟨⟨-, holdLeaf, hnewLeaf⟩, hnames⟩ := hshape
        have hold := isContainer_iff.mpr holdLeaf
        have hnew := isContainer_iff.mpr hnewLeaf
        -- Every field of either side was visited.
        have hchild : ∀ name ∈ fieldNames old new, ConfinedBelow record attributes
            (names ++ [name]) (old.bind fun v => v.get name) (new.bind fun v => v.get name) := by
          refine foldlM_forall (fun c name c' hvisit => ?_) h
          rw [pointer_childPath] at hvisit
          exact ih (all_ordered_get hl name) (all_ordered_get hr name)
            (fun hnil => absurd hnil (by simp)) hvisit
        cases place with
        | nil =>
          refine .inr ⟨by rwa [Value.bind_walk_nil], by rwa [Value.bind_walk_nil], ?_⟩
          have hfields : fieldNames old new ≠ [] ∨ old.isSome = true ∧ new.isSome = true := by
            by_cases hempty : fieldNames old new = []
            · refine .inr (hroot (pointer_eq_empty.mp ?_))
              simpa [hempty] using hnames
            · exact .inl hempty
          obtain ⟨name, hname⟩ := exists_differ hold hnew hl hr hnil hfields
          rcases hchild name (mem_fieldNames_of_differ hname) [] (differ_cons.mp hname) with
            ⟨k, hwritable⟩ | ⟨-, -, more, -, hwritable, hmore⟩
          · rw [take_nil, append_nil] at hwritable
            exact ⟨[name], by simp, by rwa [append_nil], hname⟩
          · rw [append_nil, append_assoc] at hwritable
            exact ⟨name :: more, by simp, by rwa [append_nil], differ_cons.mpr hmore⟩
        | cons name place =>
          rw [bind_walk_cons, bind_walk_cons]
          rcases hchild name (mem_fieldNames_of_differ hplace) place (differ_cons.mp hplace) with
            ⟨k, hwritable⟩ | ⟨hold, hnew, more, hne, hwritable, hmore⟩
          · rw [append_assoc] at hwritable
            exact .inl ⟨k + 1, hwritable⟩
          · rw [append_assoc, append_assoc] at hwritable
            refine .inr ⟨hold, hnew, more, hne, ?_, differ_cons.mpr hmore⟩
            rwa [append_assoc]

/-! ### What the check does not refuse -/

/-- The places the check compares, in order: below a place it goes on when the values differ
there and no rule covers it.  There is room for so many more levels. -/
def places (record : ResourceRecord) : ℕ → List String → Option Value → Option Value →
    List (List String)
  | 0, names, _, _ => [names]
  | room + 1, names, old, new =>
    names ::
      if Value.sameOption old new || record.properties.containsKey (pointer names) then []
      else (fieldNames old new).flatMap fun name =>
        places record room (names ++ [name]) (old.bind fun v => v.get name)
          (new.bind fun v => v.get name)

theorem any_isObject_of_get (h : value.bind (fun v => v.get name) ≠ none) :
    value.any Value.isObject = true := by
  cases value with
  | none => exact absurd rfl h
  | some v =>
    cases v with
    | object fields => rfl
    | null | bool | number | string | array => exact absurd rfl h

theorem foldlM_count {g : String → ℕ} (limit : ℕ)
    (h : ∀ name ∈ names, ∀ c, c + g name ≤ limit → f c name = .ok (c + g name)) :
    ∀ c, c + (names.map g).sum ≤ limit → names.foldlM f c = .ok (c + (names.map g).sum) := by
  induction names with
  | nil =>
    intro c _
    rfl
  | cons name names ih =>
    intro c hc
    rw [map_cons, sum_cons] at hc ⊢
    rw [foldlM_cons, h name mem_cons_self c (by omega), ← Nat.add_assoc]
    exact ih (fun name hname => h name (mem_cons_of_mem _ hname)) _ (by omega)

theorem ConfinedBelow.child (h : ConfinedBelow record attributes names old new)
    (hrule : record.properties.containsKey (pointer names) = false) (name : String) :
    ConfinedBelow record attributes (names ++ [name]) (old.bind fun v => v.get name)
      (new.bind fun v => v.get name) := by
  intro place hplace
  rcases h (name :: place) (differ_cons.mpr hplace) with
    ⟨k, hwritable⟩ | ⟨hold, hnew, more, hne, hwritable, hmore⟩
  · cases k with
    | zero =>
      rw [take_zero, append_nil] at hwritable
      exact absurd (hwritable.rule.symm.trans hrule) (by decide)
    | succ k => exact .inl ⟨k, by rwa [append_assoc]⟩
  · rw [bind_walk_cons] at hold hnew
    refine .inr ⟨hold, hnew, more, hne, ?_, differ_cons.mp hmore⟩
    rwa [append_assoc names [name] place]

/-- **What is confined is accepted**, within the budgets. -/
theorem visit_of_confined (hvalid : validateTemplate record.template = .ok ()) :
    ∀ {names : List String} {old new : Option Value} {count : ℕ},
      names.length + room = maxDepth + 1 →
      (∀ place ∈ places record room names old new, place.length ≤ maxDepth) →
      count + (places record room names old new).length ≤ maxPolicyGrants →
      ConfinedBelow record attributes names old new →
      visit record attributes room (pointer names) old new count =
        .ok (count + (places record room names old new).length) := by
  induction room with
  | zero =>
    intro names old new count hroom hdepth
    have hself := hdepth names (by simp [places])
    omega
  | succ room ih =>
    intro names old new count hroom hdepth hcount hconfined
    rw [places] at hdepth hcount ⊢
    rw [length_cons] at hcount ⊢
    have hbudget : ¬ maxPolicyGrants < count + 1 := by omega
    by_cases hsame : Value.sameOption old new = true
    · rw [hsame, visit, if_neg hbudget, if_pos hsame]
      rfl
    rw [Bool.not_eq_true] at hsame
    rw [hsame] at hdepth hcount ⊢
    have hnil := differ_nil.mpr hsame
    by_cases hrule : record.properties.containsKey (pointer names) = true
    · rcases hconfined [] hnil with ⟨k, hwritable⟩ | ⟨-, -, more, hne, hwritable, -⟩
      · rw [take_nil, append_nil, Writable] at hwritable
        rw [hrule, visit, if_neg hbudget, hsame, hrule, hwritable]
        rfl
      · rw [append_nil] at hwritable
        exact (rules_separate hvalid hne hrule hwritable.rule).elim
    rw [Bool.not_eq_true] at hrule
    rw [hrule] at hdepth hcount ⊢
    rcases hconfined [] hnil with ⟨k, hwritable⟩ | ⟨hold, hnew, more, hne, -, hmore⟩
    · rw [take_nil, append_nil] at hwritable
      exact absurd (hwritable.rule.symm.trans hrule) (by decide)
    rw [Value.bind_walk_nil] at hold hnew
    obtain ⟨first, rest, rfl⟩ := exists_cons_of_ne_nil hne
    have hfirst : first ∈ fieldNames old new := mem_fieldNames_of_differ hmore
    have hshape : ((old.any Value.isObject || new.any Value.isObject) &&
        !(old.any (fun value => !value.isObject) || new.any fun value => !value.isObject) &&
        !((fieldNames old new).isEmpty && pointer names ≠ "")) = true := by
      rw [isContainer_iff.mp hold, isContainer_iff.mp hnew]
      have hobject : (old.any Value.isObject || new.any Value.isObject) = true := by
        rw [Bool.or_eq_true]
        exact (mem_fieldNames.mp hfirst).imp any_isObject_of_get any_isObject_of_get
      have hempty : (fieldNames old new).isEmpty = false :=
        isEmpty_eq_false_iff.mpr (ne_nil_of_mem hfirst)
      rw [hobject, hempty]
      rfl
    rw [visit_below hnil hrule, if_neg hbudget, if_pos hshape]
    simp only [Bool.or_self, Bool.false_eq_true, if_false, mem_cons, mem_flatMap,
      length_flatMap] at hdepth hcount ⊢
    rw [← Nat.add_assoc, Nat.add_right_comm] at hcount ⊢
    refine foldlM_count maxPolicyGrants (fun name hname c hc => ?_) (count + 1) hcount
    rw [pointer_childPath]
    refine ih ?_ ?_ hc ?_
    · rw [length_append, length_singleton]
      omega
    · intro place hplace
      exact hdepth place (.inr ⟨name, hname, hplace⟩)
    · exact hconfined.child hrule name

/-! ### The check as a whole -/

/-- A change is confined to writable rule paths. -/
def Confined (record : ResourceRecord) (attributes : SubjectAttributes) (old new : Value) : Prop :=
  ConfinedBelow record attributes [] (some old) (some new)

/-- The check stays within its depth and within its number of places. -/
def WithinBudgets (record : ResourceRecord) (old new : Value) : Prop :=
  (∀ place ∈ places record (maxDepth + 1) [] (some old) (some new), place.length ≤ maxDepth) ∧
    (places record (maxDepth + 1) [] (some old) (some new)).length ≤ maxPolicyGrants

theorem confined_of_accepted {old new : Document}
    (h : validatePayloadChange record attributes old.value new.value = .ok ()) :
    Confined record attributes old.value new.value := by
  rw [validatePayloadChange] at h
  split at h
  · obtain ⟨count, hvisit, -⟩ := bind_eq_ok.mp h
    exact confined_of_visit (by exact old.ordered) (by exact new.ordered) (fun _ => ⟨rfl, rfl⟩)
      hvisit
  · cases h

/-- A confined change leaves alone what is at a rule path that may not be written. -/
theorem Confined.same_at_rule (hvalid : validateTemplate record.template = .ok ()) {old new : Value}
    (h : Confined record attributes old new) (hrule : record.properties.containsKey path = true)
    (hforbidden : fieldAllowed record attributes path .write = false) :
    Value.sameOption (valueAt path old) (valueAt path new) = true := by
  have hpath : pointer (pointerNames path) = path := pointer_of_rule hvalid hrule
  rw [← hpath] at hrule hforbidden
  by_contra hdiffer
  rw [Bool.not_eq_true] at hdiffer
  rcases h (pointerNames path) hdiffer with ⟨k, hwritable⟩ | ⟨-, -, more, hne, hwritable, -⟩
  · rw [nil_append] at hwritable
    by_cases hk : (pointerNames path).drop k = []
    · rw [take_of_length_le (drop_eq_nil_iff.mp hk), Writable, hforbidden] at hwritable
      cases hwritable
    · refine rules_separate hvalid hk hwritable.rule ?_
      rwa [take_append_drop]
  · rw [nil_append] at hwritable
    exact rules_separate hvalid hne hrule hwritable.rule

/-- A record whose title may be written and whose price may not. -/
def articleRecord : ResourceRecord where
  key := ⟨1, "acme", "doc"⟩
  storageId := 2
  labels := ⟨"writer", "Sales", .internal, false⟩
  properties := TreeMap.empty.insert "/meta/title" ⟨.internal, {.write}⟩ |>.insert
    "/price" ⟨.internal, {.read}⟩
  representations := .empty
  grants := []
  parent := none
  revision := 1
  retired := false
  createReceipt := none

end ChironDB.Security
