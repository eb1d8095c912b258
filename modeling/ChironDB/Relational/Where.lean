/-
# One meaning of WHERE

DELETE should remove the rows that SELECT shows.  The evaluators of `Predicate` agree on every
condition except one: two vectors do not compare, which is UNKNOWN for UPDATE and DELETE and FALSE
for SELECT and CHECK.  Over AND, OR and NOT the difference can be hidden or turned around, and
`VectorSlips` says where it shows.
-/

import ChironDB.Fault.Result
import ChironDB.Relational.Predicate

namespace ChironDB.Relational

open Fault Logic List

/-! ### Rows and columns -/

variable {α : Type}

/-- Two loops that agree where both steps end well agree where both end well. -/
theorem mapM_agree {β : Type} {f g : α → Result β} {l : List α} {ys zs : List β}
    (h : ∀ x y z, f x = .ok y → g x = .ok z → y = z) (hf : l.mapM f = .ok ys)
    (hg : l.mapM g = .ok zs) : ys = zs := by
  rw [← forall₂_eq_eq_eq]
  refine (forall₂_join (mapM_eq_ok_iff_forall₂.mp hf) (mapM_eq_ok_iff_forall₂.mp hg)).imp ?_
  rintro y z ⟨x, hy, hz⟩
  exact h x y z hy hz

variable {index : ℕ} {dataType : RelationalType}

theorem Columns.typeAt_eq_ok {columns : Columns} :
    columns.typeAt index = .ok dataType ↔ columns.types[index]? = some dataType := by
  unfold Columns.typeAt
  cases columns.types[index]? <;> simp

theorem mem_uniqueIndex {items : List α} {test : α → Bool} {unknown ambiguous : String}
    (h : uniqueIndex items test unknown ambiguous = .ok index) :
    (∃ item, items[index]? = some item ∧ test item = true) ∧
      ∀ other item, items[other]? = some item → test item = true → other = index := by
  unfold uniqueIndex at h
  split at h
  · rename_i only hfilter
    obtain rfl := Except.ok.inj h
    have hmem (i : ℕ) : i = only ↔ i < items.length ∧ items[i]?.any test = true := by
      rw [← mem_singleton, ← hfilter, mem_filter, mem_range]
    refine ⟨?_, fun other item hitem htest => ?_⟩
    · have := ((hmem only).1 rfl).2
      simpa [Option.any_eq_true] using this
    · refine (hmem other).2 ⟨(List.getElem?_eq_some_iff.1 hitem).1, ?_⟩
      rw [hitem]
      exact htest
  · cases h
  · cases h

section

variable [Chrono]

variable {row : RowValues} {value own : RelationalValue} {parameters : List RelationalValue}
  {expression left right : Expr} {definition : TableDefinition} {qualifier : String}
  {x y : Option Bool} {reverse : Bool} {executeQuery : Subqueries} {op : BinaryOperator}

/-- The values of a valid row are NULL or of the type of their column. -/
theorem validateColumns_value {columns : List RelationalColumn}
    (h : validateColumns columns row = .ok ()) {column : RelationalColumn}
    (hcolumn : columns[index]? = some column)
    (hvalue : row[index]? = some value) (hnull : value ≠ .null) :
    HasType column.dataType value := by
  induction columns generalizing row index with
  | nil => simp at hcolumn
  | cons first columns ih =>
    cases row with
    | nil => simp at hvalue
    | cons own row =>
      rw [validateColumns] at h
      cases index with
      | zero =>
        cases hcolumn
        cases hvalue
        rw [if_neg hnull, bind_eq_ok] at h
        obtain ⟨⟨⟩, hvalid, -⟩ := h
        exact hasType_of_validate hvalid hnull
      | succ index =>
        refine ih ?_ hcolumn hvalue
        split_ifs at h
        · exact h
        · obtain ⟨-, -, h⟩ := bind_eq_ok.1 h
          exact h

variable [Literals]

theorem expressionValue_column (h : expressionValue parameters expression dataType = .ok value) :
    expression.isColumn = false := by
  cases expression with
  | identifier _ | compoundIdentifier _ => simp [expressionValue, validated_eq_ok] at h
  | _ => rfl

theorem expressionValue_valid (h : expressionValue parameters expression dataType = .ok value) :
    validateValue dataType value = .ok () := by
  rw [expressionValue.eq_def] at h
  exact (validated_eq_ok.1 h).2

omit [Chrono] [Literals] in
theorem expressionColumnName_column {name : String}
    (h : expressionColumnName expression = .ok name) : expression.isColumn = true := by
  cases expression <;> first | rfl | cases h

variable {columns : List QueryColumn}

omit [Chrono] in
theorem queryColumnIndex_column (h : queryColumnIndex columns expression = .ok index) :
    expression.isColumn = true := by
  cases expression <;> first | rfl | cases h

variable {i : ℕ}

omit [Chrono] in
theorem columnIndex_agree {j : ℕ} (hi : tableColumnIndex definition expression = .ok i)
    (hj : queryColumnIndex (queryColumns definition qualifier) expression = .ok j) : i = j := by
  obtain ⟨name, hname, hi⟩ := bind_eq_ok.1 hi
  obtain ⟨⟨owner, name'⟩, hreference, hj⟩ := bind_eq_ok.1 hj
  have hnames : name' = name := by
    unfold queryReference at hreference
    split at hreference
    · cases hreference
      exact Except.ok.inj hname
    · cases hreference
      exact Except.ok.inj hname
    · cases hreference
  obtain ⟨⟨item, hitem, htest⟩, hunique⟩ := mem_uniqueIndex hj
  unfold columnIndex at hi
  split at hi
  · rename_i position hposition
    obtain rfl := Except.ok.inj hi
    obtain ⟨hlt, hposition, -⟩ := findIdx?_eq_some_iff_getElem.1 hposition
    refine hunique position ⟨qualifier, definition.columns[position].name,
      definition.columns[position].dataType⟩ ?_ ?_
    · simp [queryColumns, hlt]
    · -- All columns of the query have one qualifier, so the found one vouches for it.
      have hqualifier : item.qualifier = qualifier := by
        obtain ⟨column, -, rfl⟩ := mem_map.1 (mem_of_getElem? hitem)
        rfl
      simp only [decide_eq_true_eq] at htest hposition ⊢
      exact ⟨by rw [hposition, hnames], by rw [← hqualifier]; exact htest.2⟩
  · cases hi

/-! ### Conditions on one column -/

/-- **Conditions on one column do not depend on who evaluates them.**  The columns are found alike
and have the same types, and what both make of an operand is the same. -/
theorem columnCondition_agree {left right : Columns}
    {ps qs : List RelationalValue} {subject subject' : String} (htypes : left.types = right.types)
    (hfind : ∀ e i j, left.find e = .ok i → right.find e = .ok j → i = j)
    (hvalue : ∀ e t v w, expressionValue ps e t = .ok v → expressionValue qs e t = .ok w → v = w)
    (hx : columnCondition left row ps subject expression = .ok x)
    (hy : columnCondition right row qs subject' expression = .ok y) : x = y := by
  have hread {e i j own own'} (hi : left.find e = .ok i) (hj : right.find e = .ok j)
      (hown : valueAt row i = .ok own) (hown' : valueAt row j = .ok own') : i = j ∧ own = own' := by
    obtain rfl := hfind e i j hi hj
    exact ⟨rfl, Except.ok.inj (hown.symm.trans hown')⟩
  have htype {i t u} (ht : left.typeAt i = .ok t) (hu : right.typeAt i = .ok u) : t = u := by
    rw [Columns.typeAt, htypes] at ht
    exact Except.ok.inj (ht.symm.trans hu)
  unfold columnCondition at hx hy
  split at hx <;> simp only [bind_eq_ok] at hx hy
  · obtain ⟨i, hi, t, ht, vs, hvs, own, hown, hx⟩ := hx
    obtain ⟨j, hj, u, hu, ws, hws, own', hown', hy⟩ := hy
    obtain ⟨rfl, rfl⟩ := hread hi hj hown hown'
    obtain rfl := htype ht hu
    rw [mapM_agree (fun e v w => hvalue e t v w) hvs hws] at hx
    exact Except.ok.inj (hx.symm.trans hy)
  · obtain ⟨i, hi, t, ht, low, hlow, high, hhigh, own, hown, hx⟩ := hx
    obtain ⟨j, hj, u, hu, low', hlow', high', hhigh', own', hown', hy⟩ := hy
    obtain ⟨rfl, rfl⟩ := hread hi hj hown hown'
    obtain rfl := htype ht hu
    rw [hvalue _ _ _ _ hlow hlow', hvalue _ _ _ _ hhigh hhigh'] at hx
    exact Except.ok.inj (hx.symm.trans hy)
  · obtain ⟨i, hi, own, hown, hx⟩ := hx
    obtain ⟨j, hj, own', hown', hy⟩ := hy
    obtain ⟨rfl, rfl⟩ := hread hi hj hown hown'
    exact Except.ok.inj (hx.symm.trans hy)
  · obtain ⟨i, hi, own, hown, hx⟩ := hx
    obtain ⟨j, hj, own', hown', hy⟩ := hy
    obtain ⟨rfl, rfl⟩ := hread hi hj hown hown'
    exact Except.ok.inj (hx.symm.trans hy)
  · obtain ⟨i, hi, own, hown, hx⟩ := hx
    obtain ⟨j, hj, own', hown', hy⟩ := hy
    obtain ⟨rfl, rfl⟩ := hread hi hj hown hown'
    cases own <;> first | exact Except.ok.inj (hx.symm.trans hy) | cases hx
  · obtain ⟨i, hi, own, hown, hx⟩ := hx
    obtain ⟨j, hj, own', hown', hy⟩ := hy
    obtain ⟨rfl, rfl⟩ := hread hi hj hown hown'
    cases own <;> first | exact Except.ok.inj (hx.symm.trans hy) | cases hx
  · cases hx

/-! ### Comparisons of a column and an operand -/

/-- The comparison is between a vector of the row and a vector. -/
def ComparesVectors (definition : TableDefinition) (row : RowValues)
    (parameters : List RelationalValue) : Expr → Prop
  | .binaryOp left _ right => ∃ column operand, (column, operand) ∈ [(left, right), (right, left)] ∧
      ∃ index dataType own other, tableColumnIndex definition column = .ok index ∧
        (tableSource definition).typeAt index = .ok dataType ∧
        row[index]? = some (.vector own) ∧
        expressionValue parameters operand dataType = .ok (.vector other)
  | _ => False

omit [Literals] in
/-- Two values of one type: one is NULL, both are vectors, or they compare. -/
theorem compare_cases
    (hown : own ≠ .null → HasType dataType own) (hvalue : value ≠ .null → HasType dataType value) :
    (own = .null ∨ value = .null) ∧ compareValues own value = none ∨
      (∃ u v, own = .vector u ∧ value = .vector v) ∨
      own ≠ .null ∧ value ≠ .null ∧ (∀ u, own ≠ .vector u) ∧
        ∃ o, compareValues own value = some o ∧ compareValues value own = some o.swap := by
  by_cases hnull : own = .null
  · exact .inl ⟨.inl hnull, by rw [hnull]; rfl⟩
  by_cases hnull' : value = .null
  · exact .inl ⟨.inr hnull', by rw [hnull']; cases own <;> rfl⟩
  replace hown := hown hnull
  replace hvalue := hvalue hnull'
  by_cases hvector : ∃ u, own = .vector u
  · obtain ⟨u, rfl⟩ := hvector
    have hother : ∃ v, value = .vector v := by
      generalize htype : dataType = t at hvalue
      cases hown
      cases hvalue <;> first | exact ⟨_, rfl⟩ | cases htype
    obtain ⟨v, rfl⟩ := hother
    exact .inr (.inl ⟨u, v, rfl, rfl⟩)
  · push Not at hvector
    exact .inr (.inr ⟨hnull, hnull', hvector, hown.compareValues_eq_some hvalue hvector⟩)

variable {operator : BinaryOperator}

omit [Literals] in
theorem compareKnown_eq_ok {left right : RelationalValue} (hleft : left ≠ .null)
    (hright : right ≠ .null) :
    compareKnown left right operator = .ok y ↔
      ∃ b, comparePredicate left right operator = .ok b ∧ y = some b := by
  rw [compareKnown, if_neg (not_or.2 ⟨hleft, hright⟩), bind_eq_ok]
  refine exists_congr fun b => and_congr_right fun _ => ?_
  exact ⟨fun h => (Except.ok.inj h).symm, fun h => by rw [h]; rfl⟩

omit [Literals] in
theorem comparePredicate_vector {u v : List UInt32} {b : Bool}
    (h : comparePredicate (.vector u) (.vector v) operator = .ok b) : b = false := by
  cases operator <;> simp [comparePredicate, compareValues] at h <;> simp [h]

omit [Literals] in
/-- **A comparison for UPDATE and DELETE against one for SELECT.** -/
theorem comparison_agree (hown : own ≠ .null → HasType dataType own)
    (hvalue : value ≠ .null → HasType dataType value)
    (hx : (if compareValues own value = none then .ok none
      else do return some (← comparePredicate own value
        (if reverse then reverseOperator operator else operator))) = (.ok x : Result (Option Bool)))
    (hy : (if reverse then compareKnown value own operator else compareKnown own value operator) =
      .ok y) :
    ((∃ u v, own = .vector u ∧ value = .vector v) → x = none ∧ y = some false) ∧
      (¬(∃ u v, own = .vector u ∧ value = .vector v) → x = y) := by
  rcases compare_cases hown hvalue with ⟨hnull, hnone⟩ | ⟨u, v, rfl, rfl⟩ |
    ⟨hown, hvalue, hvector, o, ho, ho'⟩
  · rw [if_pos hnone] at hx
    cases hx
    have hy : y = none := by
      split_ifs at hy
      · rw [compareKnown, if_pos hnull.symm] at hy
        exact (Except.ok.inj hy).symm
      · rw [compareKnown, if_pos hnull] at hy
        exact (Except.ok.inj hy).symm
    refine ⟨?_, fun _ => hy.symm⟩
    rintro ⟨u, v, rfl, rfl⟩
    simp at hnull
  · rw [if_pos (by rfl)] at hx
    cases hx
    refine ⟨fun _ => ⟨rfl, ?_⟩, fun h => absurd ⟨u, v, rfl, rfl⟩ h⟩
    split_ifs at hy <;>
    · obtain ⟨b, hb, rfl⟩ := (compareKnown_eq_ok (by simp) (by simp)).1 hy
      rw [comparePredicate_vector hb]
  · rw [if_neg (by simp [ho])] at hx
    obtain ⟨b, hb, hx⟩ := bind_eq_ok.1 hx
    cases hx
    refine ⟨fun ⟨u, _, h, _⟩ => absurd h (hvector u), fun _ => ?_⟩
    split_ifs at hy hb
    · rw [comparePredicate_reverse ho ho'] at hb
      obtain ⟨b', hb', rfl⟩ := (compareKnown_eq_ok hvalue hown).1 hy
      rw [hb] at hb'
      rw [Except.ok.inj hb']
    · obtain ⟨b', hb', rfl⟩ := (compareKnown_eq_ok hown hvalue).1 hy
      rw [hb] at hb'
      rw [Except.ok.inj hb']

variable {column operand : Expr}

omit [Chrono] [Literals] in
theorem columnOperand_cases (h : columnOperand left right = .ok (column, operand, reverse)) :
    left = column ∧ right = operand ∧ reverse = false ∨
      left = operand ∧ right = column ∧ reverse = true := by
  unfold columnOperand at h
  split_ifs at h
  · cases h
    exact .inl ⟨rfl, rfl, rfl⟩
  · cases h
    exact .inr ⟨rfl, rfl, rfl⟩

/-- A comparison in a query: of two columns, or of a column and an operand on either side. -/
theorem queryCondition_cases
    (h : queryCondition executeQuery columns row parameters (.binaryOp left op right) = .ok y) :
    (∃ i j a b, queryColumnIndex columns left = .ok i ∧ queryColumnIndex columns right = .ok j ∧
      valueAt row i = .ok a ∧ valueAt row j = .ok b ∧ compareKnown a b op = .ok y) ∨
    (∃ i t v a, queryColumnIndex columns left = .ok i ∧ (querySource columns).typeAt i = .ok t ∧
      expressionValue parameters right t = .ok v ∧ valueAt row i = .ok a ∧
      compareKnown a v op = .ok y) ∨
    ∃ i t v a, queryColumnIndex columns right = .ok i ∧ (querySource columns).typeAt i = .ok t ∧
      expressionValue parameters left t = .ok v ∧ valueAt row i = .ok a ∧
      compareKnown v a op = .ok y := by
  rw [queryCondition] at h
  split at h
  · simp only [bind_eq_ok] at h
    obtain ⟨a, ha, b, hb, h⟩ := h
    exact .inl ⟨_, _, a, b, ‹_›, ‹_›, ha, hb, h⟩
  · simp only [bind_eq_ok] at h
    obtain ⟨t, ht, v, hv, a, ha, h⟩ := h
    exact .inr (.inl ⟨_, t, v, a, ‹_›, ht, hv, ha, h⟩)
  · simp only [bind_eq_ok] at h
    obtain ⟨t, ht, v, hv, a, ha, h⟩ := h
    exact .inr (.inr ⟨_, t, v, a, ‹_›, ht, hv, ha, h⟩)
  · cases h

section

variable (hfound : columnOperand left right = .ok (column, operand, reverse))
include hfound

theorem queryCondition_comparison (hoperand : operand.isColumn = false)
    (h : queryCondition executeQuery columns row parameters (.binaryOp left op right) = .ok y) :
    ∃ i t v a, queryColumnIndex columns column = .ok i ∧ (querySource columns).typeAt i = .ok t ∧
      expressionValue parameters operand t = .ok v ∧ valueAt row i = .ok a ∧
      (if reverse then compareKnown v a op else compareKnown a v op) = .ok y := by
  have hnone (i : ℕ) : queryColumnIndex columns operand ≠ .ok i := by
    intro hi
    rw [queryColumnIndex_column hi] at hoperand
    cases hoperand
  rcases columnOperand_cases hfound with ⟨rfl, rfl, rfl⟩ | ⟨rfl, rfl, rfl⟩
  · rcases queryCondition_cases h with ⟨_, j, _, _, _, hj, _⟩ | hcolumn | ⟨j, _, _, _, hj, _⟩
    · exact absurd hj (hnone j)
    · exact hcolumn
    · exact absurd hj (hnone j)
  · rcases queryCondition_cases h with ⟨i, _, _, _, hi, _⟩ | ⟨i, _, _, _, hi, _⟩ | hcolumn
    · exact absurd hi (hnone i)
    · exact absurd hi (hnone i)
    · exact hcolumn

/-- The comparison compares vectors if the column and the operand have vectors. -/
theorem comparesVectors_iff (hindex : tableColumnIndex definition column = .ok index)
    (htype : (tableSource definition).typeAt index = .ok dataType)
    (hvalue : expressionValue parameters operand dataType = .ok value)
    (hown : valueAt row index = .ok own) :
    ComparesVectors definition row parameters (.binaryOp left op right) ↔
      ∃ u v, own = .vector u ∧ value = .vector v := by
  have hoperand := expressionValue_column hvalue
  constructor
  · rintro ⟨column', operand', hmem, i, t, u, v, hi, ht, hu, hv⟩
    -- The operand is no column, so the column is the same one.
    have hsame : column' = column ∧ operand' = operand := by
      obtain ⟨name, hname, -⟩ := bind_eq_ok.1 hi
      have hcolumn := expressionColumnName_column hname
      simp only [mem_cons, Prod.mk.injEq, not_mem_nil, or_false] at hmem
      rcases columnOperand_cases hfound with ⟨rfl, rfl, -⟩ | ⟨rfl, rfl, -⟩ <;>
        rcases hmem with ⟨rfl, rfl⟩ | ⟨rfl, rfl⟩ <;> simp_all
    obtain ⟨rfl, rfl⟩ := hsame
    cases hi.symm.trans hindex
    cases ht.symm.trans htype
    rw [valueAt_eq_ok, hu] at hown
    exact ⟨u, v, (Option.some.inj hown).symm, Except.ok.inj (hvalue.symm.trans hv)⟩
  · rintro ⟨u, v, rfl, rfl⟩
    refine ⟨column, operand, ?_, index, dataType, u, v, hindex, htype, valueAt_eq_ok.1 hown, hvalue⟩
    rcases columnOperand_cases hfound with ⟨rfl, rfl, -⟩ | ⟨rfl, rfl, -⟩ <;> simp

end

omit [Chrono] in
theorem types_querySource (definition : TableDefinition) (qualifier : String) :
    (querySource (queryColumns definition qualifier)).types = (tableSource definition).types := by
  simp [querySource, queryColumns, tableSource]

omit [Literals] in
theorem hasType_of_validateRow (hrow : validateRow definition row = .ok ())
    (htype : (tableSource definition).typeAt index = .ok dataType)
    (hown : valueAt row index = .ok own) (hnull : own ≠ .null) : HasType dataType own := by
  rw [Columns.typeAt_eq_ok, tableSource, getElem?_map, Option.map_eq_some_iff] at htype
  obtain ⟨column, hcolumn, rfl⟩ := htype
  rw [validateRow] at hrow
  split_ifs at hrow
  exact validateColumns_value hrow hcolumn (valueAt_eq_ok.1 hown) hnull

/-- A condition of a valid row for UPDATE and DELETE against one for SELECT. -/
theorem predicate_query_agree (hrow : validateRow definition row = .ok ())
    (hx : predicateCondition definition row parameters expression = .ok x)
    (hy : queryCondition executeQuery (queryColumns definition qualifier) row parameters
      expression = .ok y) :
    (ComparesVectors definition row parameters expression → x = none ∧ y = some false) ∧
      (¬ComparesVectors definition row parameters expression → x = y) := by
  cases expression with
  | binaryOp left op right =>
    simp only [predicateCondition, bind_eq_ok] at hx
    obtain ⟨⟨column, operand, reverse⟩, hfound, index, hindex, dataType, htype, value, hvalue,
      own, hown, hx⟩ := hx
    obtain ⟨i, t, value', own', hi, ht, hvalue', hown', hy⟩ :=
      queryCondition_comparison hfound (expressionValue_column hvalue) hy
    obtain rfl := columnIndex_agree hindex hi
    rw [Columns.typeAt, types_querySource] at ht
    cases htype.symm.trans ht
    cases hvalue.symm.trans hvalue'
    cases hown.symm.trans hown'
    rw [comparesVectors_iff hfound hindex htype hvalue hown]
    exact comparison_agree (hasType_of_validateRow hrow htype hown)
      (hasType_of_validate (expressionValue_valid hvalue)) hx hy
  | «exists» _ _ | inSubquery _ _ _ => cases hx
  | _ =>
    rw [predicateCondition] at hx
    · rw [queryCondition] at hy
      · refine ⟨fun h => absurd h id, fun _ => columnCondition_agree
          (types_querySource definition qualifier).symm (fun _ _ _ => columnIndex_agree) ?_ hx hy⟩
        intro e t v w hv hw
        exact Except.ok.inj (hv.symm.trans hw)
      all_goals simp
    · simp

/-! ### Conditions of CHECK -/

omit [Chrono] [Literals] in
theorem recordRefId_nil {argument : FunctionArg} {id : String}
    (h : recordRefId [] argument = .ok id) : recordRefId parameters argument = .ok id := by
  unfold recordRefId at h ⊢
  split at h
  case h_5 =>
    obtain ⟨index, -, h⟩ := bind_eq_ok.1 h
    cases h
  all_goals exact h

omit [Chrono] [Literals] in
theorem recordRefValue_nil {args : Option FunctionArgumentList}
    (h : recordRefValue [] args dataType = .ok value) :
    recordRefValue parameters args dataType = .ok value := by
  unfold recordRefValue at h ⊢
  split at h
  · obtain ⟨namespaceName, hnamespace, h⟩ := bind_eq_ok.1 h
    refine bind_eq_ok.2 ⟨namespaceName, hnamespace, ?_⟩
    split_ifs at h ⊢
    obtain ⟨id, hid, h⟩ := bind_eq_ok.1 h
    exact bind_eq_ok.2 ⟨id, recordRefId_nil hid, h⟩
  · cases h
  · cases h

/-- What is evaluated without parameters is evaluated alike with parameters. -/
theorem expressionValue_nil (h : expressionValue [] expression dataType = .ok value) :
    expressionValue parameters expression dataType = .ok value := by
  induction expression generalizing dataType value with
  | value literal =>
    rw [expressionValue, validated_eq_ok] at h ⊢
    refine ⟨?_, h.2⟩
    cases literal with
    | placeholder placeholder =>
      have h := h.1
      rw [literalValue, placeholderValue] at h
      split at h
      · cases h
      · obtain ⟨index, -, h⟩ := bind_eq_ok.1 h
        cases h
    | _ => exact h.1
  | function name args =>
    rw [expressionValue, validated_eq_ok] at h ⊢
    refine ⟨?_, h.2⟩
    have h := h.1
    split_ifs at h ⊢
    exact recordRefValue_nil h
  | unaryOp op expr ih =>
    cases op with
    | minus =>
      rw [expressionValue, validated_eq_ok, bind_eq_ok] at h ⊢
      obtain ⟨⟨operand, hoperand, h⟩, hvalid⟩ := h
      exact ⟨⟨operand, ih hoperand, h⟩, hvalid⟩
    | _ => simp [expressionValue, validated_eq_ok] at h
  | cast kind expr name array format ih =>
    rw [expressionValue, validated_eq_ok] at h ⊢
    refine ⟨?_, h.2⟩
    have h := h.1
    split_ifs at h ⊢
    simp only [bind_eq_ok] at h ⊢
    obtain ⟨target, htarget, operand, hoperand, h⟩ := h
    exact ⟨target, htarget, operand, ih hoperand, h⟩
  | _ => simp [expressionValue, validated_eq_ok] at h

omit [Chrono] [Literals] in
theorem optionalColumn_cases
    {found : Option ℕ} (h : optionalColumn definition expression = .ok found) :
    (∃ index, found = some index ∧ tableColumnIndex definition expression = .ok index) ∨
      found = none ∧ ∃ error, expressionColumnName expression = .error error := by
  unfold optionalColumn at h
  split at h
  · rename_i name hname
    obtain ⟨index, hindex, h⟩ := bind_eq_ok.1 h
    cases h
    exact .inl ⟨index, rfl, bind_eq_ok.2 ⟨name, hname, hindex⟩⟩
  · rename_i error herror
    exact .inr ⟨(Except.ok.inj h).symm, error, herror⟩

omit [Literals] in
/-- A comparison that CHECK has turned around against the one of SELECT. -/
theorem compareKnown_reverse
    (hown : own ≠ .null → HasType dataType own) (hvalue : value ≠ .null → HasType dataType value)
    (hx : compareKnown own value (reverseOperator op) = .ok x)
    (hy : compareKnown value own op = .ok y) : x = y := by
  rcases compare_cases hown hvalue with ⟨hnull, -⟩ | ⟨u, v, rfl, rfl⟩ |
    ⟨hown, hvalue, -, o, ho, ho'⟩
  · rw [compareKnown, if_pos hnull] at hx
    rw [compareKnown, if_pos hnull.symm] at hy
    exact Except.ok.inj (hx.symm.trans hy)
  · obtain ⟨b, hb, rfl⟩ := (compareKnown_eq_ok (by simp) (by simp)).1 hx
    obtain ⟨c, hc, rfl⟩ := (compareKnown_eq_ok (by simp) (by simp)).1 hy
    rw [comparePredicate_vector hb, comparePredicate_vector hc]
  · obtain ⟨b, hb, rfl⟩ := (compareKnown_eq_ok hown hvalue).1 hx
    obtain ⟨c, hc, rfl⟩ := (compareKnown_eq_ok hvalue hown).1 hy
    rw [comparePredicate_reverse ho ho', hc] at hb
    rw [Except.ok.inj hb]

omit [Chrono] in
theorem optionalColumn_of_query {found : Option ℕ}
    (h : optionalColumn definition expression = .ok found)
    (hi : queryColumnIndex (queryColumns definition qualifier) expression = .ok i) :
    found = some i := by
  rcases optionalColumn_cases h with ⟨index, rfl, hindex⟩ | ⟨-, error, herror⟩
  · rw [columnIndex_agree hindex hi]
  · obtain ⟨reference, hreference, -⟩ := bind_eq_ok.1 hi
    unfold queryReference at hreference
    split at hreference
    · cases herror
    · cases herror
    · cases hreference

omit [Chrono] [Literals] in
theorem optionalColumn_of_operand
    {found : Option ℕ} (h : optionalColumn definition expression = .ok found)
    (hoperand : expression.isColumn = false) : found = none := by
  rcases optionalColumn_cases h with ⟨index, rfl, hindex⟩ | ⟨hnone, -⟩
  · obtain ⟨name, hname, -⟩ := bind_eq_ok.1 hindex
    rw [expressionColumnName_column hname] at hoperand
    cases hoperand
  · exact hnone

/-- A condition of CHECK against one of SELECT. -/
theorem check_query_agree (hrow : validateRow definition row = .ok ())
    (hx : checkCondition definition row expression = .ok x)
    (hy : queryCondition executeQuery (queryColumns definition qualifier) row parameters
      expression = .ok y) : x = y := by
  cases expression with
  | binaryOp left op right =>
    simp only [checkCondition, bind_eq_ok] at hx
    obtain ⟨leftColumn, hleft, rightColumn, hright, hx⟩ := hx
    rcases queryCondition_cases hy with ⟨i, j, a, b, hi, hj, ha, hb, hy⟩ |
      ⟨i, t, v, a, hi, ht, hv, ha, hy⟩ | ⟨i, t, v, a, hi, ht, hv, ha, hy⟩
    · obtain rfl := optionalColumn_of_query hleft hi
      obtain rfl := optionalColumn_of_query hright hj
      simp only [ha, hb] at hx
      exact Except.ok.inj (hx.symm.trans hy)
    · obtain rfl := optionalColumn_of_query hleft hi
      obtain rfl := optionalColumn_of_operand hright (expressionValue_column hv)
      rw [Columns.typeAt, types_querySource] at ht
      simp only [bind_eq_ok] at hx
      obtain ⟨t', ht', v', hv', a', ha', hx⟩ := hx
      cases ht.symm.trans ht'
      cases hv.symm.trans (expressionValue_nil hv')
      cases ha.symm.trans ha'
      exact Except.ok.inj (hx.symm.trans hy)
    · obtain rfl := optionalColumn_of_query hright hi
      obtain rfl := optionalColumn_of_operand hleft (expressionValue_column hv)
      rw [Columns.typeAt, types_querySource] at ht
      simp only [bind_eq_ok] at hx
      obtain ⟨t', ht', v', hv', a', ha', hx⟩ := hx
      cases ht.symm.trans ht'
      cases hv.symm.trans (expressionValue_nil hv')
      cases ha.symm.trans ha'
      exact compareKnown_reverse (hasType_of_validateRow hrow ht' ha')
        (hasType_of_validate (expressionValue_valid hv)) hx hy
  | value literal => cases hy
  | «exists» _ _ | inSubquery _ _ _ => cases hx
  | _ =>
    rw [checkCondition] at hx
    · rw [queryCondition] at hy
      · refine columnCondition_agree (types_querySource definition qualifier).symm
          (fun _ _ _ => columnIndex_agree) (fun e t v w hv hw => ?_) hx hy
        exact Except.ok.inj ((expressionValue_nil hv).symm.trans hw)
      all_goals simp
    all_goals simp

/-! ### Whole predicates -/

/-- AND, OR and NOT over the conditions of a predicate. -/
def skeleton : Expr → Formula Expr
  | .binaryOp left .and right => .junction false (skeleton left) (skeleton right)
  | .binaryOp left .or right => .junction true (skeleton left) (skeleton right)
  | .unaryOp .not expr => .not (skeleton expr)
  | .nested inner => skeleton inner
  | expression => .atom expression

/-- The truth value of a condition; one that fails has none. -/
def truth (condition : Expr → Result (Option Bool)) (expression : Expr) : Truth :=
  match condition expression with
  | .ok value => value
  | .error _ => none

variable {condition : Expr → Result (Option Bool)}

omit [Chrono] [Literals] in
theorem truth_of_ok {value : Option Bool} (h : condition expression = .ok value) :
    truth condition expression = value := by
  rw [truth, h]

omit [Chrono] [Literals] in
/-- **A predicate that is evaluated has all its conditions evaluated** and is the formula over
their truth values. -/
theorem connectives_eval {value : Option Bool} (h : connectives condition expression = .ok value) :
    (∀ a, (skeleton expression).Occurs a → ∃ x, condition a = .ok x) ∧
      (skeleton expression).eval (truth condition) = value := by
  have hatom {e : Expr} (hskeleton : skeleton e = .atom e) {value : Option Bool}
      (h : condition e = .ok value) :
      (∀ a, (skeleton e).Occurs a → ∃ x, condition a = .ok x) ∧
        (skeleton e).eval (truth condition) = value := by
    rw [hskeleton]
    refine ⟨?_, truth_of_ok h⟩
    rintro a rfl
    exact ⟨value, h⟩
  induction expression generalizing value with
  | binaryOp left op right ihl ihr =>
    cases op with
    | and | or =>
      simp only [connectives, bind_eq_ok, sqlAnd_eq, sqlOr_eq] at h
      obtain ⟨l, hl, r, hr, h⟩ := h
      obtain ⟨hleft, rfl⟩ := ihl hl
      obtain ⟨hright, rfl⟩ := ihr hr
      exact ⟨fun a ha => ha.elim (hleft a) (hright a), Except.ok.inj h⟩
    | _ => exact hatom rfl h
  | unaryOp op expr ih =>
    cases op with
    | not =>
      simp only [connectives, bind_eq_ok] at h
      obtain ⟨x, hx, h⟩ := h
      obtain ⟨hinner, rfl⟩ := ih hx
      exact ⟨hinner, Except.ok.inj h⟩
    | _ => exact hatom rfl h
  | nested inner ih => exact ih h
  | _ => exact hatom rfl h

/-- A comparison of vectors, UNKNOWN for UPDATE and DELETE, makes the predicate `b` for SELECT. -/
def VectorSlips (definition : TableDefinition) (row : RowValues)
    (parameters : List RelationalValue) (b : Bool) (expression : Expr) : Prop :=
  (skeleton expression).Slips
    (fun condition b => ComparesVectors definition row parameters condition ∧ b = false)
    (truth (predicateCondition definition row parameters)) b

/-- **WHERE means the same for UPDATE, DELETE and SELECT unless a comparison of vectors shows.**
The last part is about CHECK. -/
theorem where_agrees_iff (definition : TableDefinition) (qualifier : String) (row : RowValues)
    (hrow : validateRow definition row = .ok ()) (parameters : List RelationalValue)
    (executeQuery : Subqueries) (expression : Expr) {p q : Option Bool}
    (hp : predicateResult definition row parameters expression = .ok p)
    (hq : queryPredicateResult executeQuery (queryColumns definition qualifier) row parameters
      expression = .ok q) :
    (p = q ↔ ¬VectorSlips definition row parameters true expression ∧
      ¬VectorSlips definition row parameters false expression) ∧
    (p.getD false = q.getD false ↔ ¬VectorSlips definition row parameters true expression) ∧
    ∀ c, checkConstraintResult definition row expression = .ok c → c = q := by
  obtain ⟨hps, rfl⟩ := connectives_eval hp
  obtain ⟨hqs, rfl⟩ := connectives_eval hq
  have hdecides : (skeleton expression).Decides
      (fun condition b => ComparesVectors definition row parameters condition ∧ b = false)
      (truth (predicateCondition definition row parameters))
      (truth (queryCondition executeQuery (queryColumns definition qualifier) row parameters)) := by
    intro a ha
    obtain ⟨x, hx⟩ := hps a ha
    obtain ⟨y, hy⟩ := hqs a ha
    obtain ⟨hvector, hother⟩ := predicate_query_agree hrow hx hy
    rw [truth_of_ok hx, truth_of_ok hy]
    by_cases hcompares : ComparesVectors definition row parameters a
    · obtain ⟨rfl, rfl⟩ := hvector hcompares
      refine ⟨.inl rfl, fun b => ?_⟩
      simp [hcompares, eq_comm]
    · obtain rfl := hother hcompares
      refine ⟨.inr rfl, fun b => ?_⟩
      simp only [hcompares, false_and, false_iff, not_and]
      rintro rfl
      simp
  refine ⟨hdecides.eval_eq_iff, ?_, fun c hc => ?_⟩
  · rw [VectorSlips, ← hdecides.eval_true_iff]
    exact Truth.getD_eq_iff _ _
  · obtain ⟨hcs, rfl⟩ := connectives_eval hc
    refine Formula.eval_congr fun a ha => ?_
    obtain ⟨x, hx⟩ := hcs a ha
    obtain ⟨y, hy⟩ := hqs a ha
    rw [truth_of_ok hx, truth_of_ok hy]
    exact check_query_agree hrow hx hy

end

section

attribute [local instance] sampleChrono noLiterals

/-- A table with a number and a vector. -/
def itemsTable : TableDefinition :=
  { tableId := 1, name := "items"
    columns := [⟨"id", .bigInt, false, none, none⟩, ⟨"v", .vector 1, true, none, none⟩] }

theorem where_agrees_iff_id :
    predicateResult itemsTable [.integer 3, .vector [0]] [.integer 3]
        (.binaryOp (.value (.placeholder "$1")) .ltEq (.identifier "ID")) = .ok (some true) ∧
      ∀ q, queryPredicateResult (fun _ => .ok none) (queryColumns itemsTable "items")
          [.integer 3, .vector [0]] [.integer 3]
          (.binaryOp (.value (.placeholder "$1")) .ltEq (.identifier "ID")) = .ok q →
        some true = q := by
  refine ⟨by decide +kernel, fun q hq => ?_⟩
  refine ((where_agrees_iff itemsTable "items" [.integer 3, .vector [0]] (by decide +kernel)
    [.integer 3] _ _ (by decide +kernel) hq).1).2 ⟨fun h => Bool.noConfusion h.2, ?_⟩
  rintro ⟨⟨column, operand, hmem, index, dataType, own, other, hindex, -, hown, -⟩, -⟩
  rcases mem_cons.1 hmem with h | h
  · cases h
    cases hindex
  · cases mem_singleton.1 h
    have hzero : tableColumnIndex itemsTable (.identifier "ID") = .ok 0 := by decide +kernel
    cases hzero.symm.trans hindex
    cases hown

/-- `NOT (v = $1)` with the vector of the row as its parameter: DELETE leaves the row alone, and
SELECT returns it. -/
theorem vectors_part_where :
    validateRow itemsTable [.integer 3, .vector [0]] = .ok () ∧
      predicateMatches itemsTable [.integer 3, .vector [0]] [.vector [0]]
        (some (.unaryOp .not (.nested
          (.binaryOp (.identifier "v") .eq (.value (.placeholder "$1")))))) = .ok false ∧
      queryPredicateMatches (fun _ => .ok none) (queryColumns itemsTable "items")
        [.integer 3, .vector [0]] [.vector [0]]
        (some (.unaryOp .not (.nested
          (.binaryOp (.identifier "v") .eq (.value (.placeholder "$1")))))) = .ok true := by
  refine ⟨?_, ?_, ?_⟩ <;> decide +kernel

end

end ChironDB.Relational
