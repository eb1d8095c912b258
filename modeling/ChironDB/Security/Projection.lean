/-
# Field projection

`project_payload` of `security/policy.rs` and `projection::copy` of `security/projection.rs`,
which hand out the parts of a payload that lie under allowed property rules.  The first clones
them.  The second drives the visitor of `serde_json` over the payload with a path that is pushed
and popped on the way and looks ahead for a visible descendant before it hands out a key; every
growth of the path and of the copy is admitted by the memory accounting, which may refuse.

Whatever the memory accounting does, what the copy returns is the projection, and it returns when
nothing is refused (`copy_spec`).  The projection is a function of the values at the allowed rule
paths (`projectPayload_eq`): two payloads that agree there are projected to one value.
-/

import ChironDB.Json.Pointer
import ChironDB.Security.Policy

namespace ChironDB.Security

open Tables Json Fault List

section

variable (record : ResourceRecord) (attributes : SubjectAttributes) (action : PropertyAction)

/-! ### The clone -/

mutual
/-- `project` of `project_payload`. -/
def project (path : String) (value : Value) : Option Value :=
  if record.properties.containsKey path then
    if fieldAllowed record attributes path action then some value else none
  else
    match value with
    | .object fields =>
      let out := projectFields path fields
      if !out.isEmpty || path = "" then some (.object out) else none
    | value => if fieldAllowed record attributes path action then some value else none

/-- The entries that are left, which come in key order. -/
def projectFields (path : String) : List (String × Value) → List (String × Value)
  | [] => []
  | (name, value) :: fields =>
    match project (childPath path name) value with
    | some value => (name, value) :: projectFields path fields
    | none => projectFields path fields
end

def projectPayload (payload : Value) : Value :=
  (project record attributes action "" payload).getD (.object [])

/-! ### The copy -/

inductive GaussError
  | resourceExhausted (message : String)
  | sqlOverloaded
  deriving DecidableEq, Repr

/-- The path of a projection. -/
structure Path where
  text : String
  deriving DecidableEq, Repr

/-- `Path::push`: the length of the path before. -/
def Path.push (key : String) : Program Path GaussError ℕ := do
  let path ← get
  Program.atomic (.resourceExhausted "projection path memory is full") fun path =>
    ⟨path.text ++ "/" ++ String.ofList (key.toList.flatMap escapeChar)⟩
  pure path.text.length

/-- `Path::pop`. -/
def Path.pop (length : ℕ) (path : Path) : Path := ⟨String.ofList (path.text.toList.take length)⟩

/-- Pop the path when a computation is over, whether it returns or fails. -/
def popAfter {α : Type} (length : ℕ) (c : Program Path GaussError α) : Program Path GaussError α :=
  fun path events =>
    match c path events with
    | .done a path' rest => .done a (path'.pop length) rest
    | .error e path' rest => .error e (path'.pop length) rest
    | .crashed path' => .crashed path'

/-- Pop the path unless a visible descendant was found, as `next_key_seed` does. -/
def popUnlessFound (length : ℕ) (c : Program Path GaussError Bool) :
    Program Path GaussError Bool :=
  fun path events =>
    match c path events with
    | .done true path' rest => .done true path' rest
    | .done false path' rest => .done false (path'.pop length) rest
    | .error e path' rest => .error e (path'.pop length) rest
    | .crashed path' => .crashed path'

mutual
/-- `Projection::present`. -/
def present (value : Value) : Program Path GaussError Bool := do
  let path ← get
  if record.properties.containsKey path.text || !value.isObject then
    pure (fieldAllowed record attributes path.text action)
  else if path.text = "" then pure true
  else
    match value with
    | .object fields => presentAny fields
    | _ => pure false

def presentAny : List (String × Value) → Program Path GaussError Bool
  | [] => pure false
  | (key, value) :: fields => do
    let before ← Path.push key
    let found ← popAfter before (present value)
    if found then pure true else presentAny fields
end

/-- The visitor charges what it is about to keep. -/
def charge : Program Path GaussError Unit := Program.atomic .sqlOverloaded id

mutual
/-- `Projection::deserialize_any`, driven by the visitor of `Value`. -/
def deserializeAny (value : Value) : Program Path GaussError Value := do
  let path ← get
  if record.properties.containsKey path.text || !value.isObject then
    if fieldAllowed record attributes path.text action then
      charge
      pure value
    else pure (.object [])
  else
    match value with
    | .object fields => do
      let out ← visitMap fields
      pure (.object out)
    | _ => pure (.object [])

/-- The visitor asks for keys and values in turn: `next_key_seed`, `next_value_seed`. -/
def visitMap : List (String × Value) → Program Path GaussError (List (String × Value))
  | [] => pure []
  | (key, value) :: fields => do
    let before ← Path.push key
    let found ← popUnlessFound before (present record attributes action value)
    if found then
      charge
      let copied ← popAfter before (deserializeAny value)
      let out ← visitMap fields
      pure ((key, copied) :: out)
    else visitMap fields
end

/-- `projection::copy`. -/
def copy (value : Value) : Program Path GaussError Value := do
  set (Path.mk "")
  deserializeAny record attributes action value

end

variable {record : ResourceRecord} {attributes : SubjectAttributes} {action : PropertyAction}

/-! ### What the clone keeps -/

variable {path : String}

theorem fieldAllowed_eq_false (h : record.properties.containsKey path = false) :
    fieldAllowed record attributes path action = false := by
  rw [fieldAllowed, TreeMap.containsKey_eq_false_iff.mp h]
  rfl

theorem project_of_rule (h : record.properties.containsKey path = true) (value : Value) :
    project record attributes action path value =
      if fieldAllowed record attributes path action then some value else none := by
  unfold project
  rw [if_pos h]

theorem project_object (h : record.properties.containsKey path = false)
    (fields : List (String × Value)) :
    project record attributes action path (.object fields) =
      if projectFields record attributes action path fields ≠ [] ∨ path = "" then
        some (.object (projectFields record attributes action path fields))
      else none := by
  unfold project
  rw [h]
  simp

theorem project_scalar {value : Value}
    (h : record.properties.containsKey path = false) (hvalue : value.isObject = false) :
    project record attributes action path value = none := by
  unfold project
  rw [h]
  cases value with
  | object fields => cases hvalue
  | null | bool | number | string | array => simp [fieldAllowed_eq_false h]

/-- What is not an object is handed out whole or not at all. -/
theorem project_of_not_object {value : Value} (hvalue : value.isObject = false) :
    project record attributes action path value =
      if fieldAllowed record attributes path action then some value else none := by
  cases hrule : record.properties.containsKey path with
  | true => exact project_of_rule hrule value
  | false =>
    rw [project_scalar hrule hvalue, fieldAllowed_eq_false hrule]
    rfl

theorem projectFields_eq_filterMap (path : String) (fields : List (String × Value)) :
    projectFields record attributes action path fields =
      fields.filterMap fun field =>
        (project record attributes action (childPath path field.1) field.2).map (field.1, ·) := by
  induction fields with
  | nil => rfl
  | cons field fields ih =>
    obtain ⟨name, value⟩ := field
    rw [projectFields, filterMap_cons, ih]
    cases project record attributes action (childPath path name) value <;> rfl

variable {fields : List (String × Value)}

theorem ascending_projectFields (h : Ascending fields) :
    Ascending (projectFields record attributes action path fields) := by
  rw [projectFields_eq_filterMap]
  refine List.Pairwise.filterMap _ ?_ h
  rintro ⟨name, value⟩ ⟨name', value'⟩ hlt kept hkept kept' hkept'
  obtain ⟨-, -, rfl⟩ := Option.map_eq_some_iff.mp hkept
  obtain ⟨-, -, rfl⟩ := Option.map_eq_some_iff.mp hkept'
  exact hlt

/-- The fields that are left of a payload, if it is an object. -/
def visibleFields (record : ResourceRecord) (attributes : SubjectAttributes)
    (action : PropertyAction) (path : String) : Option Value → List (String × Value)
  | some (.object fields) => projectFields record attributes action path fields
  | _ => []

theorem lookup_projectFields (h : Ascending fields) (name : String) :
    (projectFields record attributes action path fields).lookup name =
      (fields.lookup name).bind (project record attributes action (childPath path name)) := by
  induction fields with
  | nil => rfl
  | cons field fields ih =>
    obtain ⟨k, value⟩ := field
    obtain ⟨hhead, htail⟩ := ascending_cons.mp h
    have habsent : fields.lookup k = none := by
      rw [Option.eq_none_iff_forall_ne_some]
      intro value' hvalue'
      exact absurd (hhead _ (htail.lookup_eq_some_iff.mp hvalue')) (lt_irrefl _)
    rw [projectFields, lookup_cons_eq]
    cases hproject : project record attributes action (childPath path k) value with
    | none =>
      dsimp only
      rw [ih htail]
      split
      · next heq => rw [heq, habsent, Option.bind_some, hproject]; rfl
      · rfl
    | some kept =>
      dsimp only
      rw [lookup_cons_eq, ih htail]
      split
      · next heq => rw [heq, Option.bind_some, hproject]
      · rfl

/-! ### What the clone depends on -/

theorem pointer_childPath (names : List String) (name : String) :
    childPath (pointer names) name = pointer (names ++ [name]) :=
  (pointer_append_singleton names name).symm

variable {names : List String}

theorem pointer_eq_empty : pointer names = "" ↔ names = [] :=
  ⟨fun h => pointer_injective h, fun h => by rw [h]; rfl⟩

/-- The value a payload holds at a rule path. -/
def valueAt (path : String) (payload : Value) : Option Value := payload.walk (pointerNames path)

/-- Two values below a path that agree at the allowed rule paths there. -/
def Agree (record : ResourceRecord) (attributes : SubjectAttributes) (action : PropertyAction)
    (names : List String) (left right : Option Value) : Prop :=
  ∀ rest, fieldAllowed record attributes (pointer (names ++ rest)) action = true →
    left.bind (Value.walk rest) = right.bind (Value.walk rest)

variable {left right : Option Value}

theorem Agree.child (h : Agree record attributes action names left right) (name : String) :
    Agree record attributes action (names ++ [name]) (left.bind fun v => v.get name)
      (right.bind fun v => v.get name) := by
  intro rest hallowed
  rw [append_assoc] at hallowed
  have hwalk := h (name :: rest) hallowed
  rw [Option.bind_assoc, Option.bind_assoc]
  exact hwalk

variable {value : Option Value}

theorem all_ordered_get (h : value.all Value.ordered = true) (name : String) :
    (value.bind fun v => v.get name).all Value.ordered = true := by
  cases value with
  | none => rfl
  | some v => exact (Option.all_eq_true _ _).mpr fun child hget => Value.ordered_of_get h hget

theorem lookup_visibleFields (h : value.all Value.ordered = true) (name : String) :
    (visibleFields record attributes action path value).lookup name =
      (value.bind fun v => v.get name).bind
        (project record attributes action (childPath path name)) := by
  cases value with
  | none => rfl
  | some v =>
    cases v with
    | object fields =>
      exact lookup_projectFields (Value.ordered_object.mp h).1 name
    | null | bool | number | string | array => rfl

theorem ascending_visibleFields (h : value.all Value.ordered = true) :
    Ascending (visibleFields record attributes action path value) := by
  cases value with
  | none => exact .nil
  | some v =>
    cases v with
    | object fields => exact ascending_projectFields (Value.ordered_object.mp h).1
    | null | bool | number | string | array => exact .nil

/-- Below the root, a value without a rule is left exactly when a field of it is. -/
theorem bind_project (hrule : record.properties.containsKey path = false)
    (hpath : path ≠ "") (value : Option Value) :
    value.bind (project record attributes action path) =
      if visibleFields record attributes action path value = [] then none
      else some (.object (visibleFields record attributes action path value)) := by
  cases value with
  | none => rfl
  | some v =>
    cases v with
    | object fields =>
      rw [Option.bind_some, project_object hrule, visibleFields]
      by_cases hout : projectFields record attributes action path fields = [] <;>
        simp [hout, hpath]
    | null | bool | number | string | array =>
      rw [Option.bind_some, project_scalar hrule rfl]
      rfl

theorem visibleFields_eq (hl : left.all Value.ordered = true)
    (hr : right.all Value.ordered = true) (h : ∀ name, (left.bind fun v => v.get name).bind
        (project record attributes action (pointer (names ++ [name]))) =
      (right.bind fun v => v.get name).bind
        (project record attributes action (pointer (names ++ [name])))) :
    visibleFields record attributes action (pointer names) left =
      visibleFields record attributes action (pointer names) right := by
  refine (ascending_visibleFields hl).ext (ascending_visibleFields hr) fun name => ?_
  rw [lookup_visibleFields hl, lookup_visibleFields hr, pointer_childPath, h]

/-- Below the root, the projection depends on the values at the allowed rule paths only. -/
theorem bind_project_eq (left right : Option Value) :
    ∀ names, names ≠ [] → left.all Value.ordered = true → right.all Value.ordered = true →
      Agree record attributes action names left right →
      left.bind (project record attributes action (pointer names)) =
        right.bind (project record attributes action (pointer names)) := by
  induction left, right using Value.pair_induct with
  | absent =>
    intros
    rfl
  | step left right ih =>
    intro names hnames hl hr hagree
    by_cases hrule : record.properties.containsKey (pointer names) = true
    · -- At a rule the value is handed out whole or not at all.
      have hproject : ∀ value : Option Value,
          value.bind (project record attributes action (pointer names)) =
            if fieldAllowed record attributes (pointer names) action then value else none := by
        intro value
        cases value with
        | none => simp
        | some v => rw [Option.bind_some, project_of_rule hrule]
      rw [hproject, hproject]
      split
      · next hallowed =>
        have hself := hagree [] (by rwa [append_nil])
        rwa [Value.bind_walk_nil, Value.bind_walk_nil] at hself
      · rfl
    · rw [Bool.not_eq_true] at hrule
      have hpath : pointer names ≠ "" := fun h => hnames (pointer_eq_empty.mp h)
      have hfields := visibleFields_eq hl hr fun name => ih name (names ++ [name]) (by simp)
          (all_ordered_get hl name) (all_ordered_get hr name) (hagree.child name)
      rw [bind_project hrule hpath, bind_project hrule hpath, hfields]

/-- At the root, an object is left even when no field of it is. -/
theorem projectPayload_of_no_rule (h : record.properties.containsKey "" = false) (payload : Value) :
    projectPayload record attributes action payload =
      .object (visibleFields record attributes action "" (some payload)) := by
  rw [projectPayload]
  cases payload with
  | object fields =>
    rw [project_object h, if_pos (.inr rfl)]
    rfl
  | null | bool | number | string | array =>
    rw [project_scalar h rfl]
    rfl

/-- **The projection is a function of the values at the allowed rule paths.** -/
theorem projectPayload_eq {left right : Value} (hl : left.ordered = true)
    (hr : right.ordered = true)
    (h : ∀ path, fieldAllowed record attributes path action = true →
      valueAt path left = valueAt path right) :
    projectPayload record attributes action left =
      projectPayload record attributes action right := by
  have hagree : Agree record attributes action [] (some left) (some right) := by
    intro rest hallowed
    have hvalue := h _ hallowed
    rwa [valueAt, valueAt, nil_append, pointerNames_pointer] at hvalue
  by_cases hrule : record.properties.containsKey "" = true
  · rw [projectPayload, projectPayload, project_of_rule hrule, project_of_rule hrule]
    split
    · next hallowed =>
      have hself := hagree [] hallowed
      rw [Value.bind_walk_nil, Value.bind_walk_nil] at hself
      rw [hself]
    · rfl
  · rw [Bool.not_eq_true] at hrule
    have hfields : visibleFields record attributes action (pointer []) (some left) =
        visibleFields record attributes action (pointer []) (some right) := by
      exact visibleFields_eq hl hr fun name => bind_project_eq _ _ [name] (by simp)
        (@all_ordered_get (some left) hl name) (@all_ordered_get (some right) hr name)
        (hagree.child name)
    rw [projectPayload_of_no_rule hrule, projectPayload_of_no_rule hrule]
    exact congrArg Value.object hfields

/-! ### The copy is the clone -/

theorem childPath_ne (path name : String) : childPath path name ≠ "" := by
  intro h
  have hlist := congrArg String.toList h
  rw [childPath, String.toList_append, String.toList_append] at hlist
  simp at hlist

theorem push_text (path key : String) :
    path ++ "/" ++ String.ofList (key.toList.flatMap escapeChar) = childPath path key := by
  rw [childPath, ← toList_escapeName, String.ofList_toList]

theorem pop_push (path key : String) :
    Path.pop path.length ⟨childPath path key⟩ = ⟨path⟩ := by
  have htake : (childPath path key).toList.take path.length = path.toList := by
    rw [childPath, String.toList_append, String.toList_append, append_assoc,
      ← String.length_toList, take_left]
  rw [Path.pop, htake, String.ofList_toList]

/-- Nothing is asked of an error but that it is one. -/
structure Steady (x : Program.Exits Path GaussError) : Prop where
  safe : ∀ path, x.Safe path
  fault : ∀ e path path', x.fault e path → x.fault e path'

theorem steady_quiet : Steady Program.quiet :=
  ⟨Program.safe_quiet, fun _ _ _ h => h⟩

/-- Memory may be refused at every step. -/
def tight : Program.Exits Path GaussError := ⟨fun _ => True, fun _ _ => True, fun _ => True⟩

theorem steady_tight : Steady tight :=
  ⟨fun _ => ⟨fun _ _ _ => trivial, fun _ _ => trivial⟩, fun _ _ _ _ => trivial⟩

variable {x : Program.Exits Path GaussError} (hx : Steady x)

include hx

theorem ensures_push {post : ℕ → Path → Prop} (path key : String)
    (h : post path.length ⟨childPath path key⟩) :
    (Path.push key).Ensures x post ⟨path⟩ := by
  refine .bind (.get ?_)
  refine .bind (.atomic (hx.safe _) ?_)
  refine .pure ?_
  rwa [push_text]

variable {length : ℕ}

theorem ensures_popAfter {α : Type} {post : α → Path → Prop} {c : Program Path GaussError α}
    {path : Path} (h : c.Ensures x (fun a p => post a (p.pop length)) path) :
    (popAfter length c).Ensures x post path := by
  intro events hevents
  have hc := h events hevents
  rw [popAfter]
  cases hout : c path events with
  | done | crashed =>
    rw [hout] at hc
    exact hc
  | error e path' rest =>
    rw [hout] at hc
    exact ⟨hx.fault _ _ _ hc.1, hc.2⟩

theorem ensures_popUnlessFound {post : Bool → Path → Prop} {c : Program Path GaussError Bool}
    {path : Path}
    (h : c.Ensures x (fun found p => post found (if found then p else p.pop length)) path) :
    (popUnlessFound length c).Ensures x post path := by
  intro events hevents
  have hc := h events hevents
  rw [popUnlessFound]
  cases hout : c path events with
  | done found path' rest =>
    rw [hout] at hc
    cases found <;> exact hc
  | error e path' rest =>
    rw [hout] at hc
    exact ⟨hx.fault _ _ _ hc.1, hc.2⟩
  | crashed path' =>
    rw [hout] at hc
    exact hc

/-- Looking ahead finds something exactly when the projection leaves something. -/
theorem ensures_present (value : Value) : ∀ path, path ≠ "" →
    (present record attributes action value).Ensures x
      (fun found p => found = (project record attributes action path value).isSome ∧ p = ⟨path⟩)
      ⟨path⟩ := by
  induction value using Value.induct with
  | object fields ih =>
    have hany : ∀ path, (presentAny record attributes action fields).Ensures x
        (fun found p => found = !(projectFields record attributes action path fields).isEmpty ∧
          p = ⟨path⟩) ⟨path⟩ := by
      intro path
      induction fields with
      | nil =>
        unfold presentAny
        exact .pure ⟨rfl, rfl⟩
      | cons field fields ihf =>
        obtain ⟨key, value⟩ := field
        unfold presentAny
        refine .bind (ensures_push hx path key ?_)
        refine .bind (ensures_popAfter hx ?_)
        refine (ih (key, value) mem_cons_self _ (childPath_ne path key)).imp ?_
        rintro found p ⟨hfound, rfl⟩
        rw [pop_push, projectFields]
        refine .ite (fun h => .pure ?_) fun h => ?_
        · rw [hfound] at h
          obtain ⟨kept, hkept⟩ := Option.isSome_iff_exists.mp h
          rw [hkept]
          exact ⟨rfl, rfl⟩
        · rw [hfound, Option.not_isSome_iff_eq_none] at h
          rw [h]
          exact ihf fun field hfield => ih field (mem_cons_of_mem _ hfield)
    intro path hpath
    unfold present
    refine .bind (.get ?_)
    refine .ite (fun h => .pure ?_) fun h => ?_
    · have hrule : record.properties.containsKey path = true := by
        simpa [Value.isObject, Value.asObject] using h
      rw [project_of_rule hrule]
      split <;> simp [*]
    · have hrule : record.properties.containsKey path = false := by
        simpa [Value.isObject, Value.asObject] using h
      refine .ite (fun h => absurd h hpath) fun _ => (hany path).imp ?_
      rintro found p ⟨rfl, rfl⟩
      rw [project_object hrule]
      by_cases hout : projectFields record attributes action path fields = [] <;>
        simp [hout, hpath]
  | null | bool | number | string | array =>
    intro path hpath
    unfold present
    refine .bind (.get ?_)
    refine .ite (fun _ => .pure ⟨?_, rfl⟩) fun h => by simp [Value.isObject, Value.asObject] at h
    rw [project_of_not_object rfl]
    split <;> simp [*]

/-- What is not looked into is handed out whole, or an empty map in its place. -/
theorem ensures_handOut {value : Value} :
    (if fieldAllowed record attributes path action then do charge; pure value
      else pure (.object []) : Program Path GaussError Value).Ensures x
      (fun copied p =>
        copied = (if fieldAllowed record attributes path action then some value else none).getD
          (.object []) ∧ p = ⟨path⟩) ⟨path⟩ := by
  refine .ite (fun h => ?_) fun h => ?_
  · rw [if_pos h]
    exact .bind (.atomic (hx.safe _) (.pure ⟨rfl, rfl⟩))
  · rw [if_neg h]
    exact .pure ⟨rfl, rfl⟩

/-- Where the projection leaves something, or at the root, the copy hands it out. -/
theorem ensures_deserializeAny (value : Value) : ∀ path,
    (deserializeAny record attributes action value).Ensures x (fun copied p =>
        copied = (project record attributes action path value).getD (.object []) ∧ p = ⟨path⟩)
      ⟨path⟩ := by
  induction value using Value.induct with
  | object fields ih =>
    have hmap : ∀ path, (visitMap record attributes action fields).Ensures x
        (fun out p => out = projectFields record attributes action path fields ∧ p = ⟨path⟩)
        ⟨path⟩ := by
      intro path
      induction fields with
      | nil =>
        unfold visitMap
        exact .pure ⟨rfl, rfl⟩
      | cons field fields ihf =>
        obtain ⟨key, value⟩ := field
        have hrest := ihf fun field hfield => ih field (mem_cons_of_mem _ hfield)
        unfold visitMap
        refine .bind (ensures_push hx path key ?_)
        refine .bind (ensures_popUnlessFound hx ?_)
        refine (ensures_present hx value _ (childPath_ne path key)).imp ?_
        rintro found p ⟨hfound, rfl⟩
        rw [projectFields]
        refine .ite (fun h => ?_) fun h => ?_
        · rw [if_pos h]
          rw [hfound] at h
          obtain ⟨kept, hkept⟩ := Option.isSome_iff_exists.mp h
          refine .bind (.atomic (hx.safe _) ?_)
          refine .bind (ensures_popAfter hx ?_)
          refine (ih (key, value) mem_cons_self _).imp ?_
          rintro copied p ⟨rfl, rfl⟩
          rw [pop_push]
          refine .bind (hrest.imp ?_)
          rintro out p ⟨rfl, rfl⟩
          refine .pure ?_
          rw [hkept]
          exact ⟨rfl, rfl⟩
        · rw [if_neg h, pop_push]
          rw [hfound, Option.not_isSome_iff_eq_none] at h
          rw [h]
          exact hrest
    intro path
    unfold deserializeAny
    refine .bind (.get ?_)
    refine .ite (fun h => ?_) fun h => ?_
    · have hrule : record.properties.containsKey path = true := by
        simpa [Value.isObject, Value.asObject] using h
      rw [project_of_rule hrule]
      exact ensures_handOut hx
    · have hrule : record.properties.containsKey path = false := by
        simpa [Value.isObject, Value.asObject] using h
      refine .bind ((hmap path).imp ?_)
      rintro out p ⟨rfl, rfl⟩
      refine .pure ⟨?_, rfl⟩
      rw [project_object hrule]
      by_cases hout : projectFields record attributes action path fields = [] <;>
        by_cases hpath : path = "" <;> simp [hout, hpath]
  | null | bool | number | string | array =>
    intro path
    unfold deserializeAny
    refine .bind (.get ?_)
    refine .ite (fun _ => ?_) fun h => by simp [Value.isObject, Value.asObject] at h
    rw [project_of_not_object rfl]
    exact ensures_handOut hx

/-- **The copy returns the projection or fails for memory.** -/
theorem ensures_copy (payload : Value) (path : Path) :
    (copy record attributes action payload).Ensures x
      (fun copied _ => copied = projectPayload record attributes action payload) path := by
  rw [copy]
  refine .bind ?_
  exact fun events hevents =>
    ⟨(ensures_deserializeAny hx payload "").imp fun copied p h => h.1, hevents⟩

omit hx

/-- **Whatever memory is refused, what the copy returns is the projection; and it returns when
nothing is refused.** -/
theorem copy_spec (payload : Value) (path : Path) :
    (∀ events copied path' rest,
      copy record attributes action payload path events = .done copied path' rest →
        copied = projectPayload record attributes action payload) ∧
    ∀ events, (∀ event ∈ events, event = .pass) →
      ∃ path' rest, copy record attributes action payload path events =
        .done (projectPayload record attributes action payload) path' rest := by
  constructor
  · intro events copied path' rest h
    have hmeets := @ensures_copy record attributes action tight steady_tight payload path events
      fun _ _ => trivial
    rw [h] at hmeets
    exact hmeets.1
  · intro events hevents
    refine (@ensures_copy record attributes action _ steady_quiet payload path).outcome hevents
      (fun copied path' rest hcopied => ?_) (fun _ _ _ hfalse => hfalse.elim)
      fun _ hfalse => hfalse.elim
    exact ⟨path', rest, by rw [hcopied]⟩

end ChironDB.Security
