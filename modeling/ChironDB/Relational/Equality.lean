/-
# When the four equalities agree

`compare_values`, `value_key`, `encode_equality_value` and the ordered keys each
normalise a value in their own way.  Type by type, two accepted values are equal for
all of them or for none, except for three kinds of spelling: a decimal written with a
plus sign, a date written without padding, and a leap second against the second
after it.
-/

import Mathlib
import ChironDB.Relational.KeyOrder

namespace ChironDB.Relational

open Codec List

/-! ### Texts can be read back -/

/-- The digit a hexadecimal character stands for. -/
def hexValue (c : Char) : ℕ := "0123456789abcdef".toList.idxOf c

theorem hexValue_hexDigit {n : ℕ} (h : n < 16) : hexValue (hexDigit n) = n := by
  have hall : ∀ m : Fin 16, hexValue (hexDigit m) = m := by decide
  exact hall ⟨n, h⟩

variable {s : List Char} {dataType : RelationalType} {left right : RelationalValue}
  {f w s' w' f' : List Char}

theorem hexByte_append {a b : UInt8} {t : List Char} (h : hexByte a ++ s = hexByte b ++ t) :
    a = b := by
  simp only [hexByte, cons_append, nil_append, List.cons.injEq] at h
  have ha := a.toNat_lt
  have hb := b.toNat_lt
  have hhigh := congrArg hexValue h.1
  have hlow := congrArg hexValue h.2.1
  rw [hexValue_hexDigit (by omega), hexValue_hexDigit (by omega)] at hhigh hlow
  exact UInt8.toNat_inj.1 (by omega)

theorem hexBytes_injective : Function.Injective fun bs : Bytes => bs.flatMap hexByte :=
  flatMap_injective (fun _ => cons_ne_nil _ _) fun _ _ _ _ => hexByte_append

/-- The character a JSON text starts with. -/
def unescape : List Char → Char
  | '\\' :: 'b' :: _ => Char.ofNat 8
  | '\\' :: 't' :: _ => Char.ofNat 9
  | '\\' :: 'n' :: _ => Char.ofNat 10
  | '\\' :: 'f' :: _ => Char.ofNat 12
  | '\\' :: 'r' :: _ => Char.ofNat 13
  | '\\' :: 'u' :: _ :: _ :: high :: low :: _ => Char.ofNat (16 * hexValue high + hexValue low)
  | '\\' :: c :: _ => c
  | c :: _ => c
  | [] => '\\'

theorem unescape_jsonChar (c : Char) (s : List Char) : unescape (jsonChar c ++ s) = c := by
  rw [jsonChar]
  split_ifs with h1 h2 h3 h4 h5 h6 h7 h8
  · rw [h1]; rfl
  · rw [h2]; rfl
  · rw [← Char.ofNat_toNat c, h3]; rfl
  · rw [← Char.ofNat_toNat c, h4]; rfl
  · rw [← Char.ofNat_toNat c, h5]; rfl
  · rw [← Char.ofNat_toNat c, h6]; rfl
  · rw [← Char.ofNat_toNat c, h7]; rfl
  · simp only [cons_append, nil_append, unescape]
    rw [hexValue_hexDigit (by omega), hexValue_hexDigit (by omega), Nat.div_add_mod,
      Char.ofNat_toNat]
  · simp only [cons_append, nil_append]
    rw [unescape.eq_def]
    split <;> simp_all

theorem jsonChar_ne_nil (c : Char) : jsonChar c ≠ [] := by
  rw [jsonChar]
  split_ifs <;> exact cons_ne_nil _ _

theorem jsonString_injective : Function.Injective jsonString := by
  intro s t h
  refine flatMap_injective jsonChar_ne_nil (fun a b u v h => ?_)
    (append_cancel_right (List.cons.inj h).2)
  rw [← unescape_jsonChar a u, h, unescape_jsonChar]

theorem jsonTagged_injective (tag : String) : Function.Injective (jsonTagged tag) := by
  intro s t h
  exact append_cancel_left (append_cancel_right h)

theorem hexDigit_ne_hyphen (n : ℕ) : hexDigit n ≠ '-' := by
  by_cases h : n < 16
  · have hall : ∀ m : Fin 16, hexDigit m ≠ '-' := by decide
    exact hall ⟨n, h⟩
  · rw [hexDigit, getD_eq_getElem?_getD, getElem?_eq_none (by simpa using h)]
    decide

theorem filter_hexBytes (bs : Bytes) :
    (bs.flatMap hexByte).filter (· ≠ '-') = bs.flatMap hexByte := by
  refine filter_eq_self.2 fun c hc => ?_
  obtain ⟨b, -, hb⟩ := mem_flatMap.1 hc
  have hc : c = hexDigit (b.toNat / 16) ∨ c = hexDigit (b.toNat % 16) := by
    simpa [hexByte] using hb
  rcases hc with rfl | rfl <;> exact decide_eq_true (hexDigit_ne_hyphen _)

theorem take_drop_append {α : Type} (l : List α) (i n : ℕ) :
    (l.drop i).take n ++ l.drop (i + n) = l.drop i := by
  rw [← drop_drop, take_append_drop]

/-- The hyphens dropped, the hexadecimal digits of all sixteen bytes are left. -/
theorem hyphenated_filter (value : Uuid) :
    (hyphenated value).filter (· ≠ '-') = value.bytes.flatMap hexByte := by
  have hlast : (value.bytes.drop 10).take 6 = value.bytes.drop 10 := by
    rw [take_of_length_le]
    rw [length_drop, value.length_eq]
  have hpieces : (value.bytes.drop 0).take 4 ++ ((value.bytes.drop 4).take 2 ++
      ((value.bytes.drop 6).take 2 ++ ((value.bytes.drop 8).take 2 ++
      (value.bytes.drop 10).take 6))) = value.bytes := by
    rw [hlast, take_drop_append _ 8 2, take_drop_append _ 6 2, take_drop_append _ 4 2,
      take_drop_append _ 0 4, drop_zero]
  conv_rhs => rw [← hpieces]
  have hhyphen : ∀ s : List Char, ('-' :: s).filter (· ≠ '-') = s.filter (· ≠ '-') := fun s => by
    simp
  simp only [hyphenated, append_assoc, cons_append, filter_append, hhyphen,
    filter_hexBytes, flatMap_append]

theorem hyphenated_injective : Function.Injective hyphenated := by
  rintro ⟨a, ha⟩ ⟨b, hb⟩ h
  have hbytes := congrArg (List.filter (· ≠ '-')) h
  rw [hyphenated_filter, hyphenated_filter] at hbytes
  simpa using hexBytes_injective hbytes

theorem appendFramed_injective : Function.Injective appendFramed := by
  intro s t h
  exact (append_inj h (by rw [beBytes_length, beBytes_length])).2

/-! ### Decimals -/

section

/-- The number a decimal text stands for. -/
def decimalNumber (value : String) : ℚ :=
  let (whole, fraction) := wholeFraction (stripSign value.toList)
  let magnitude := (digitsValue (whole ++ fraction) : ℚ) / 10 ^ fraction.length
  if value.toList.head? = some '-' then -magnitude else magnitude

/-- Decimals of which `canonical_decimal` makes one text or two as they are one number or two: the
numbers differ, or no plus sign is involved, or both texts have one and the same characters up to
the point. -/
def DecimalsSpelledAlike (left right : String) : Prop :=
  decimalNumber left ≠ decimalNumber right ∨
    (left.toList.head? ≠ some '+' ∧ right.toList.head? ≠ some '+') ∨
    (left.toList.head? = some '+' ∧ right.toList.head? = some '+' ∧
      (wholeFraction left.toList).1 = (wholeFraction right.toList).1)

variable {value left right : String} {scale : ℕ}

theorem digitsValue_padded_trim (h : f.length ≤ scale) :
    digitsValue (padded scale (trimEndZeros f)) = digitsValue f * 10 ^ (scale - f.length) := by
  induction f using List.reverseRecOn with
  | nil => rw [trimEndZeros, rdropWhile_nil, padded, digitsValue_append_zeros, digitsValue_nil]
  | append_singleton f c ih =>
    rw [length_append, length_singleton] at h ⊢
    by_cases hc : c = '0'
    · subst hc
      have htrim : trimEndZeros (f ++ ['0']) = trimEndZeros f :=
        rdropWhile_concat_pos _ _ _ (by simp)
      have hzero : digitsValue (f ++ ['0']) = digitsValue f * 10 := by
        rw [digitsValue_append]
        rfl
      have hpow : scale - f.length = scale - (f.length + 1) + 1 := by omega
      rw [htrim, ih (by omega), hzero, hpow, Nat.pow_succ]
      ring
    · have htrim : trimEndZeros (f ++ [c]) = f ++ [c] :=
        rdropWhile_concat_neg _ _ _ (by simp [hc])
      rw [htrim, padded, digitsValue_append_zeros, length_append, length_singleton]

theorem fixedPoint_eq_number (hs : f.length ≤ scale) :
    (fixedPoint scale (normalWhole w) (trimEndZeros f) : ℚ) =
      (digitsValue (w ++ f) : ℚ) / 10 ^ f.length * 10 ^ scale := by
  have hpow : (10 : ℚ) ^ scale = 10 ^ f.length * 10 ^ (scale - f.length) := by
    rw [← pow_add]
    congr 1
    omega
  rw [fixedPoint_eq ((trimEndZeros_length_le f).trans hs), digitsValue_normalWhole,
    digitsValue_padded_trim hs, digitsValue_append]
  push_cast
  rw [hpow]
  field_simp

/-- **The scaled value is the number, scaled.** -/
theorem IsDecimal.scaledValue_eq (h : IsDecimal value s w f) (hs : f.length ≤ scale) :
    (scaledValue scale s w f : ℚ) = decimalNumber value * 10 ^ scale := by
  have hfixed := fixedPoint_eq_number (w := w) hs
  have hminus := h.head_iff (c := '-') (by decide)
  have htext : wholeFraction (stripSign value.toList) = (w, f) :=
    wholeFraction_of_text h.point_not_mem h.unsigned
  simp only [decimalNumber, htext, hminus]
  rw [scaledValue]
  split_ifs with hneg hsign hsign
  · push_cast
    rw [hfixed]
    ring
  · exact absurd (of_decide_eq_true hneg).1 hsign
  · -- The text is a zero with a minus sign.
    have hzero : normalWhole w = ['0'] ∧ trimEndZeros f = [] := by
      by_contra hz
      exact hneg (decide_eq_true ⟨hsign, hz⟩)
    have hval : fixedPoint scale (normalWhole w) (trimEndZeros f) = 0 := by
      rw [hzero.1, hzero.2, fixedPoint, nil_append, digitsValue_append_zeros]
      exact Nat.zero_mul _
    rw [hval] at hfixed ⊢
    push_cast at hfixed ⊢
    linarith
  · exact_mod_cast hfixed

theorem compareDecimal_eq_iff_number (hl : IsDecimal left s w f) (hr : IsDecimal right s' w' f') :
    compareDecimal left right = some .eq ↔ decimalNumber left = decimalNumber right := by
  have hls : f.length ≤ max f.length f'.length := Nat.le_max_left _ _
  have hrs : f'.length ≤ max f.length f'.length := Nat.le_max_right _ _
  have hpos : (10 : ℚ) ^ max f.length f'.length ≠ 0 := by positivity
  rw [compareDecimal_eq hl hr ((trimEndZeros_length_le f).trans hls)
    ((trimEndZeros_length_le f').trans hrs), Option.some.injEq, compare_eq_iff_eq,
    ← Int.cast_inj (α := ℚ), hl.scaledValue_eq hls, hr.scaledValue_eq hrs]
  exact mul_left_inj' hpos

theorem IsDecimal.plus_ne (h : IsDecimal left s w f) (t : List Char) : '+' :: t ≠ normalWhole w :=
  fun heq => digit_ne_of_not_isDigit (by decide) (allDigits_normalWhole h.whole_digits)
    (heq ▸ mem_cons_self)

theorem normalWhole_eq_of_wholeText (hl : IsDecimal left s w f)
    (hr : IsDecimal right s' w' f') (h : wholeText s w = wholeText s' w') :
    normalWhole w = normalWhole w' := by
  rw [wholeText, wholeText] at h
  split_ifs at h
  · rw [(List.cons.inj h).2]
  · exact absurd h (hr.plus_ne w)
  · exact absurd h.symm (hl.plus_ne w')
  · exact h

/-- Equal decimals have one whole text when no plus sign or the same signed digits stand there. -/
theorem wholeText_eq_iff (hl : IsDecimal left s w f)
    (hr : IsDecimal right s' w' f') (h : normalWhole w = normalWhole w') :
    wholeText s w = wholeText s' w' ↔
      (left.toList.head? ≠ some '+' ∧ right.toList.head? ≠ some '+') ∨
      (left.toList.head? = some '+' ∧ right.toList.head? = some '+' ∧
        (wholeFraction left.toList).1 = (wholeFraction right.toList).1) := by
  rw [Ne, Ne, hl.head_iff (by decide), hr.head_iff (by decide)]
  by_cases hs : s = ['+'] <;> by_cases hs' : s' = ['+']
  · subst hs hs'
    simp [wholeText, hl.wholeFraction_plus, hr.wholeFraction_plus]
  · simp [wholeText, hs, hs', hr.plus_ne w]
  · simp [wholeText, hs, hs', (hl.plus_ne w').symm]
  · simp [wholeText, hs, hs', h]

/-! ### Leap seconds -/

/-- `left` is inside a leap second and `right` the same fraction of the second after it. -/
def UtcTime.LeapOf (left right : UtcTime) : Prop :=
  right.timestamp = left.timestamp + 1 ∧ left.nano.val = right.nano.val + 1000000000

instance (left right : UtcTime) : Decidable (left.LeapOf right) :=
  inferInstanceAs (Decidable (_ ∧ _))

theorem UtcTime.timestamp_inj {left right : UtcTime} (h : left.timestamp = right.timestamp)
    (hn : left.nano = right.nano) : left = right := by
  obtain ⟨day, second, nano⟩ := left
  obtain ⟨day', second', nano'⟩ := right
  have hs := second.isLt
  have hs' := second'.isLt
  simp only [UtcTime.timestamp] at h
  have hday : day.toInt = day'.toInt := by omega
  have hsecond : second.val = second'.val := by omega
  rw [UtcTime.mk.injEq]
  exact ⟨Int32.toInt_inj.1 hday, Fin.ext hsecond, hn⟩

/-- Two times share their nanosecond count only across a leap second. -/
theorem UtcTime.nanos_eq_iff {left right : UtcTime} :
    left.nanos = right.nanos ↔ left = right ∨ left.LeapOf right ∨ right.LeapOf left := by
  have hl := left.nano.isLt
  have hr := right.nano.isLt
  constructor
  · intro h
    simp only [UtcTime.nanos] at h
    rcases Int.lt_trichotomy left.timestamp right.timestamp with ht | ht | ht
    · exact .inr (.inl ⟨by omega, by omega⟩)
    · exact .inl (UtcTime.timestamp_inj ht (Fin.ext (by omega)))
    · exact .inr (.inr ⟨by omega, by omega⟩)
  · rintro (rfl | ⟨ht, hn⟩ | ⟨ht, hn⟩)
    · rfl
    · simp only [UtcTime.nanos]
      omega
    · simp only [UtcTime.nanos]
      omega

theorem UtcTime.nanos_bounds (time : UtcTime) : -2 ^ 127 ≤ time.nanos ∧ time.nanos < 2 ^ 127 := by
  have hlow := time.day.le_toInt
  have hhigh := time.day.toInt_lt
  have hs := time.second.isLt
  have hn := time.nano.isLt
  simp only [UtcTime.nanos, UtcTime.timestamp]
  omega

theorem compareUtc_eq_iff {left right : UtcTime} : compareUtc left right = .eq ↔ left = right := by
  obtain ⟨day, second, nano⟩ := left
  obtain ⟨day', second', nano'⟩ := right
  rw [compareUtc, Ordering.then_eq_eq, Ordering.then_eq_eq, compare_eq_iff_eq, compare_eq_iff_eq,
    compare_eq_iff_eq, Int32.toInt_inj, UtcTime.mk.injEq]

end

/-! ### Agreement -/

/-- The scalar types other than the floats. -/
def RelationalType.isScalar : RelationalType → Bool
  | .real | .float | .vector _ => false
  | _ => true

/-- The types of which every value has one spelling. -/
def RelationalType.isPlain : RelationalType → Bool
  | .decimal _ _ | .date | .timestampUtc | .real | .float | .vector _ => false
  | _ => true

variable {t : String}

theorem compare_asBytes_eq {s : String} :
    some (compare (asBytes s) (asBytes t)) = some .eq ↔ s = t := by
  rw [Option.some.injEq, Std.LawfulEqOrd.compare_eq_iff_eq, asBytes_injective.eq_iff]

theorem toUInt64_injective : Function.Injective Int64.toUInt64 := by
  rintro ⟨a⟩ ⟨b⟩ rfl
  rfl

theorem framedText_injective {tag : UInt8} {s : String}
    (h : tag :: appendFramed (asBytes s) = tag :: appendFramed (asBytes t)) : s = t :=
  asBytes_injective (appendFramed_injective (List.cons.inj h).2)

section

variable [Chrono]

/-- The four equalities give one answer for two values of a type: `compare_values`,
`value_key`, `encode_equality_value` and, where they exist, the ordered keys. -/
structure EqualitiesAgree (dataType : RelationalType) (left right : RelationalValue) : Prop where
  valueKey_iff : valueKey left = valueKey right ↔ compareValues left right = some .eq
  equality_iff : encodeEqualityValue left = encodeEqualityValue right ↔
    compareValues left right = some .eq
  ordered_iff : ∀ x y, encodeOrderedValue dataType left = .ok x →
    encodeOrderedValue dataType right = .ok y → (x = y ↔ compareValues left right = some .eq)

/-- Ordered keys always agree with `compare_values`, timestamps apart. -/
theorem HasType.ordered_iff
    (ht : dataType.isOrdered = true) (hl : HasType dataType left) (hr : HasType dataType right)
    (x y : Bytes) (hx : encodeOrderedValue dataType left = .ok x)
    (hy : encodeOrderedValue dataType right = .ok y) :
    x = y ↔ compareValues left right = some .eq := by
  obtain ⟨o, ho, hc⟩ := hl.codes ht hr hx hy
  rw [ho, Option.some.injEq]
  exact hc.eq_iff

/-- Where every normalisation is one-to-one, the answers are those of plain equality. -/
theorem EqualitiesAgree.of_injective
    (ht : dataType.isOrdered = true) (hl : HasType dataType left) (hr : HasType dataType right)
    (hcompare : compareValues left right = some .eq ↔ left = right)
    (hkey : valueKey left = valueKey right → left = right)
    (hequality : encodeEqualityValue left = encodeEqualityValue right → left = right) :
    EqualitiesAgree dataType left right where
  valueKey_iff := by
    rw [hcompare]
    exact ⟨hkey, congrArg valueKey⟩
  equality_iff := by
    rw [hcompare]
    exact ⟨hequality, congrArg encodeEqualityValue⟩
  ordered_iff := hl.ordered_iff ht hr

section

variable (ht : dataType.isPlain = true)
include ht

section

variable (hl : HasType dataType left) (hr : HasType dataType right)
include hl hr

/-- Plain types: `compare_values` is equality. -/
theorem HasType.compare_eq_iff :
    compareValues left right = some .eq ↔ left = right := by
  cases hl with
  | boolean a =>
    cases hr with
    | boolean b => cases a <;> cases b <;> simp [compareValues, compare]
  | smallInt | integer | bigInt =>
    cases hr
    rw [compareValues, Option.some.injEq, compare_eq_iff_eq, Int64.toInt_inj,
      RelationalValue.integer.injEq]
  | text | varchar =>
    cases hr
    rw [compareValues, compare_asBytes_eq, RelationalValue.text.injEq]
  | bytea =>
    cases hr
    rw [compareValues, Option.some.injEq, Std.LawfulEqOrd.compare_eq_iff_eq,
      RelationalValue.bytes.injEq]
  | jsonb =>
    cases hr
    rw [compareValues, compare_asBytes_eq, RelationalValue.json.injEq]
  | uuid a =>
    cases hr with
    | uuid b =>
      obtain ⟨a, ha⟩ := a
      obtain ⟨b, hb⟩ := b
      rw [compareValues, Option.some.injEq, Std.LawfulEqOrd.compare_eq_iff_eq,
        RelationalValue.uuid.injEq, Uuid.mk.injEq]
  | recordRef =>
    cases hr
    rw [compareValues, compareRecordRef, Std.ReflOrd.compare_self, Ordering.eq_then,
      compare_asBytes_eq, RelationalValue.recordRef.injEq, RecordRef.mk.injEq,
      and_iff_right rfl]
  | decimal | date | real | float | timestampUtc | vector => cases ht

theorem HasType.valueKey_inj (h : valueKey left = valueKey right) : left = right := by
  cases hl with
  | boolean a =>
    cases hr with
    | boolean b =>
      have h := jsonTagged_injective _ h
      cases a <;> cases b <;> simp at h ⊢
  | smallInt | integer | bigInt =>
    cases hr
    have h := String.toList_inj.1 (jsonTagged_injective _ h)
    rw [Int.toString_eq_repr, Int.toString_eq_repr, Int.repr_inj, Int64.toInt_inj] at h
    rw [h]
  | text | varchar =>
    cases hr
    rw [String.toList_inj.1 (jsonString_injective (jsonTagged_injective _ h))]
  | bytea =>
    cases hr
    rw [hexBytes_injective (append_cancel_left h)]
  | jsonb =>
    cases hr
    rw [String.toList_inj.1 (append_cancel_left h)]
  | uuid =>
    cases hr
    rw [hyphenated_injective (jsonString_injective (jsonTagged_injective _ h))]
  | recordRef _ id =>
    cases hr with
    | recordRef _ id' =>
      have h := append_cancel_left (append_cancel_right (jsonTagged_injective _ h))
      obtain rfl : id = id' := String.toList_inj.1 (jsonString_injective h)
      rfl
  | decimal | date | real | float | timestampUtc | vector => cases ht

theorem HasType.equality_inj
    (h : encodeEqualityValue left = encodeEqualityValue right) : left = right := by
  cases hl with
  | boolean a =>
    cases hr with
    | boolean b => cases a <;> cases b <;> simp [encodeEqualityValue] at h ⊢
  | smallInt | integer | bigInt =>
    cases hr
    rw [toUInt64_injective (be64_injective (List.cons.inj h).2)]
  | text | varchar | jsonb =>
    cases hr
    rw [framedText_injective h]
  | bytea =>
    cases hr
    rw [appendFramed_injective (List.cons.inj h).2]
  | uuid a =>
    cases hr with
    | uuid b =>
      obtain ⟨a, ha⟩ := a
      obtain ⟨b, hb⟩ := b
      obtain rfl : a = b := (List.cons.inj h).2
      rfl
  | recordRef _ id =>
    cases hr with
    | recordRef _ id' =>
      obtain rfl : id = id' :=
        asBytes_injective (appendFramed_injective (append_cancel_left h))
      rfl
  | decimal | date | real | float | timestampUtc | vector => cases ht

/-- **The types with one spelling for each value always agree.** -/
theorem HasType.equalities_agree :
    EqualitiesAgree dataType left right := by
  have ho : dataType.isOrdered = true := by
    cases dataType <;> first | rfl | cases ht
  exact .of_injective ho hl hr (hl.compare_eq_iff ht hr) (hl.valueKey_inj ht hr)
    (hl.equality_inj ht hr)

end

end

/-! ### Decimals, dates and timestamps -/

variable {value left right : String}

theorem valueKey_decimal (h : IsDecimal value s w f) :
    valueKey (.decimal value) =
      "decimal:".toList ++ spelling (isNegative s w f) (normalWhole w) (trimEndZeros f) := by
  delta valueKey
  dsimp only
  rw [h.decimalParts_eq, spelling, fractionText]
  generalize "decimal:".toList = tag
  simp only [append_assoc]

theorem agree_decimal_iff {precision scale : UInt8}
    (hl : validateDecimal left precision scale = .ok ())
    (hr : validateDecimal right precision scale = .ok ()) :
    EqualitiesAgree (.decimal precision scale) (.decimal left) (.decimal right) ↔
      DecimalsSpelledAlike left right := by
  have hordered := (HasType.decimal precision scale left hl).ordered_iff rfl
    (HasType.decimal precision scale right hr)
  obtain ⟨s, w, f, hl, hls⟩ := isDecimal_of_validate hl
  obtain ⟨s', w', f', hr, hrs⟩ := isDecimal_of_validate hr
  have hcompare := compareDecimal_eq_iff hl hr (hl.trimmed_length_le hls) (hr.trimmed_length_le hrs)
  have hnumber := compareDecimal_eq_iff_number hl hr
  have hcanonical := canonicalDecimal_eq_iff hl hr
  have hkey : valueKey (.decimal left) = valueKey (.decimal right) ↔
      compareDecimal left right = some .eq := by
    rw [hcompare, valueKey_decimal hl, valueKey_decimal hr, append_cancel_left_eq]
    exact spelling_inj hl.normalWhole_head hr.normalWhole_head
      (digit_ne_of_not_isDigit (by decide) (allDigits_normalWhole hl.whole_digits))
      (digit_ne_of_not_isDigit (by decide) (allDigits_normalWhole hr.whole_digits))
  have hequality : encodeEqualityValue (.decimal left) = encodeEqualityValue (.decimal right) ↔
      canonicalDecimal left = canonicalDecimal right := by
    constructor
    · intro h
      exact String.ofList_injective (framedText_injective h)
    · intro h
      rw [encodeEqualityValue, encodeEqualityValue, h]
  constructor
  · intro h
    by_cases heq : compareDecimal left right = some .eq
    · have hcanon := hcanonical.1 (hequality.1 (h.equality_iff.2 heq))
      exact .inr ((wholeText_eq_iff hl hr (hcompare.1 heq).2.1).1 hcanon.2.1)
    · exact .inl (mt hnumber.2 heq)
  · intro h
    refine ⟨hkey, hequality.trans (hcanonical.trans ⟨fun hc => ?_, fun heq => ?_⟩), hordered⟩
    · exact hcompare.2 ⟨hc.1, normalWhole_eq_of_wholeText hl hr hc.2.1, hc.2.2⟩
    · have hparts := hcompare.1 heq
      refine ⟨hparts.1, (wholeText_eq_iff hl hr hparts.2.1).2 ?_, hparts.2.2⟩
      exact h.resolve_left (not_not.2 (hnumber.1 heq))

theorem agree_date_iff {l r : Int32} (hl : Chrono.parseDate left = some l)
    (hr : Chrono.parseDate right = some r) :
    EqualitiesAgree .date (.date left) (.date right) ↔
      left = right ∨ Chrono.parseDate left ≠ Chrono.parseDate right := by
  have hordered := (HasType.date left l hl).ordered_iff rfl (HasType.date right r hr)
  have hcompare : compareValues (.date left) (.date right) = some .eq ↔ l = r := by
    simp [compareValues, hl, hr, Int32.toInt_inj]
  have hkey : valueKey (.date left) = valueKey (.date right) ↔ left = right := by
    constructor
    · intro h
      exact String.toList_inj.1 (append_cancel_left h)
    · rintro rfl
      rfl
  have hequality : encodeEqualityValue (.date left) = encodeEqualityValue (.date right) ↔
      left = right := by
    constructor
    · intro h
      exact framedText_injective h
    · rintro rfl
      rfl
  have hparse : Chrono.parseDate left ≠ Chrono.parseDate right ↔ l ≠ r := by
    rw [hl, hr, Ne, Option.some.injEq]
  rw [hparse]
  constructor
  · intro h
    by_cases heq : l = r
    · exact .inl (hkey.1 (h.valueKey_iff.2 (hcompare.2 heq)))
    · exact .inr heq
  · intro h
    -- One text is one date; distinct dates have distinct texts.
    have htext : left = right ↔ l = r := by
      constructor
      · rintro rfl
        exact Option.some.inj (hl.symm.trans hr)
      · exact h.resolve_right ∘ not_not.2
    exact ⟨by rw [hkey, hcompare, htext], by rw [hequality, hcompare, htext], hordered⟩

theorem encode_timestamp {text : String} {time : UtcTime}
    (h : Chrono.parseFromRfc3339 text = some ⟨time, 0⟩) :
    encodeOrderedValue .timestampUtc (.timestampUtc text) =
      .ok (tagTimestamp :: signed128 time.nanos) := by
  simp only [encodeOrderedValue, h]

end

/-- Two accepted values of which every normalisation makes one value or two. -/
def SpelledAlike [Chrono] (left right : RelationalValue) : Prop :=
  match left, right with
  | .decimal left, .decimal right => DecimalsSpelledAlike left right
  | .date left, .date right => left = right ∨ Chrono.parseDate left ≠ Chrono.parseDate right
  | .timestampUtc left, .timestampUtc right =>
    ∀ l r, Chrono.parseFromRfc3339 left = some l → Chrono.parseFromRfc3339 right = some r →
      ¬l.utc.LeapOf r.utc ∧ ¬r.utc.LeapOf l.utc
  | _, _ => True

theorem SpelledAlike.of_isPlain [Chrono] (ht : dataType.isPlain = true) (hl : HasType dataType left)
    (hr : HasType dataType right) : SpelledAlike left right := by
  cases hl with
  | decimal | date | timestampUtc | real | float | vector => cases ht
  | _ =>
    cases hr
    trivial

section

variable [LawfulChrono]

section

variable {l r : UtcTime} {left right : String}
  (hl : Chrono.parseFromRfc3339 left = some ⟨l, 0⟩)
  (hr : Chrono.parseFromRfc3339 right = some ⟨r, 0⟩)
include hl hr

theorem toRfc3339Nanos_inj
    (h : Chrono.toRfc3339Nanos l = Chrono.toRfc3339Nanos r) : l = r := by
  have hl' := LawfulChrono.parse_toRfc3339Nanos _ _ hl
  have hr' := LawfulChrono.parse_toRfc3339Nanos _ _ hr
  rw [h, hr'] at hl'
  simpa using hl'.symm

theorem agree_timestamp_iff :
    EqualitiesAgree .timestampUtc (.timestampUtc left) (.timestampUtc right) ↔
      ¬l.LeapOf r ∧ ¬r.LeapOf l := by
  have hcompare : compareValues (.timestampUtc left) (.timestampUtc right) = some .eq ↔ l = r := by
    simp [compareValues, hl, hr, compareUtc_eq_iff]
  have hkeyText : ∀ {text : String} {time : UtcTime},
      Chrono.parseFromRfc3339 text = some ⟨time, 0⟩ → valueKey (.timestampUtc text) =
        "timestamp:".toList ++ (Chrono.toRfc3339Nanos time).toList := by
    intro text time h
    delta valueKey
    dsimp only
    rw [h]
  have hkey : valueKey (.timestampUtc left) = valueKey (.timestampUtc right) ↔ l = r := by
    rw [hkeyText hl, hkeyText hr, append_cancel_left_eq, String.toList_inj]
    exact ⟨toRfc3339Nanos_inj hl hr, congrArg _⟩
  have hequality : encodeEqualityValue (.timestampUtc left) =
      encodeEqualityValue (.timestampUtc right) ↔ l = r := by
    simp only [encodeEqualityValue, hl, hr]
    exact ⟨fun h => toRfc3339Nanos_inj hl hr (framedText_injective h), fun h => by rw [h]⟩
  have hordered : tagTimestamp :: signed128 l.nanos = tagTimestamp :: signed128 r.nanos ↔
      l.nanos = r.nanos := by
    rw [((codes_signed128 l.nanos_bounds r.nanos_bounds).cons tagTimestamp).eq_iff,
      compare_eq_iff_eq]
  constructor
  · intro h
    have hnanos : l.nanos = r.nanos → l = r := fun hn =>
      hcompare.1 ((h.ordered_iff _ _ (encode_timestamp hl) (encode_timestamp hr)).1 (hordered.2 hn))
    -- A leap second shares its count with a different time.
    have hirrefl : ∀ t : UtcTime, ¬t.LeapOf t := fun t ht => by
      have := ht.2
      omega
    constructor
    · intro hleap
      obtain rfl := hnanos (UtcTime.nanos_eq_iff.2 (.inr (.inl hleap)))
      exact hirrefl l hleap
    · intro hleap
      obtain rfl := hnanos (UtcTime.nanos_eq_iff.2 (.inr (.inr hleap)))
      exact hirrefl l hleap
  · rintro ⟨hleap, hleap'⟩
    refine ⟨hkey.trans hcompare.symm, hequality.trans hcompare.symm, fun x y hx hy => ?_⟩
    rw [encode_timestamp hl] at hx
    rw [encode_timestamp hr] at hy
    rw [← Except.ok.inj hx, ← Except.ok.inj hy, hordered, UtcTime.nanos_eq_iff, hcompare]
    simp [hleap, hleap']

end

/-! ### The condition -/

/-- **One notion of equality, up to spelling.**  For two accepted values of a scalar type that is
not a float, the four equalities agree exactly when the values are spelled alike: no decimal with
a plus sign against an equal one written otherwise, no date against another text of the same date,
no leap second against the second after it. -/
theorem equalities_agree_iff (dataType : RelationalType) (left right : RelationalValue)
    (ht : dataType.isScalar = true) (hl : validateValue dataType left = .ok ())
    (hr : validateValue dataType right = .ok ()) (hln : left ≠ .null) (hrn : right ≠ .null) :
    EqualitiesAgree dataType left right ↔ SpelledAlike left right := by
  replace hl := hasType_of_validate hl hln
  replace hr := hasType_of_validate hr hrn
  by_cases hp : dataType.isPlain = true
  · exact iff_of_true (hl.equalities_agree hp hr) (.of_isPlain hp hl hr)
  · cases hl with
    | decimal precision scale a h =>
      cases hr with
      | decimal _ _ b h' => exact agree_decimal_iff h h'
    | date a day h =>
      cases hr with
      | date b day' h' => exact agree_date_iff h h'
    | timestampUtc a time h =>
      cases hr with
      | timestampUtc b time' h' =>
        rw [agree_timestamp_iff h h', SpelledAlike]
        constructor
        · intro hleap l r hpl hpr
          rw [h, Option.some.injEq] at hpl
          rw [h', Option.some.injEq] at hpr
          rw [← hpl, ← hpr]
          exact hleap
        · intro hleap
          exact hleap ⟨time, 0⟩ ⟨time', 0⟩ h h'
    | real | float | vector => cases ht
    | _ => exact absurd rfl hp

end

section

attribute [local instance] sampleChrono

/-- `"+5"` and `"5"` are one number to `compare_values`, `value_key` and the ordered keys, and two
to the equality bytes. -/
theorem plus_sign_splits_equality :
    validateValue (.decimal 5 2) (.decimal "+5") = .ok () ∧
      validateValue (.decimal 5 2) (.decimal "5") = .ok () ∧
      compareValues (.decimal "+5") (.decimal "5") = some .eq ∧
      valueKey (.decimal "+5") = valueKey (.decimal "5") ∧
      encodeOrderedValue (.decimal 5 2) (.decimal "+5") =
        encodeOrderedValue (.decimal 5 2) (.decimal "5") ∧
      encodeEqualityValue (.decimal "+5") ≠ encodeEqualityValue (.decimal "5") := by
  decide

theorem equalities_agree_iff_spellings :
    EqualitiesAgree (.decimal 5 2) (.decimal "-05.10") (.decimal "-5.1") ∧
      ¬EqualitiesAgree .date (.date "2024-1-5") (.date "2024-01-05") ∧
      ¬EqualitiesAgree .timestampUtc (.timestampUtc "2016-12-31T23:59:60.5Z")
        (.timestampUtc "2017-01-01T00:00:00.5Z") := by
  refine ⟨(equalities_agree_iff (.decimal 5 2) (.decimal "-05.10") (.decimal "-5.1") rfl (by decide)
      (by decide) (by decide) (by decide)).2 ?_,
    fun h => ?_, fun h => ?_⟩
  · exact .inr (.inl (by decide))
  · have hspelled := (equalities_agree_iff .date (.date "2024-1-5") (.date "2024-01-05") rfl
      (by decide) (by decide) (by decide) (by decide)).1 h
    exact absurd hspelled (by decide : ¬("2024-1-5" = "2024-01-05" ∨
      Chrono.parseDate "2024-1-5" ≠ Chrono.parseDate "2024-01-05"))
  · have hspelled := (equalities_agree_iff .timestampUtc (.timestampUtc "2016-12-31T23:59:60.5Z")
      (.timestampUtc "2017-01-01T00:00:00.5Z") rfl (by decide) (by decide) (by decide)
      (by decide)).1 h
    exact (hspelled ⟨⟨736329, 86399, 1500000000⟩, 0⟩ ⟨⟨736330, 0, 500000000⟩, 0⟩ (by decide)
      (by decide)).1 (by decide)

end

end ChironDB.Relational
