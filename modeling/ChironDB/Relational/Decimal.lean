/-
# Decimal spellings

A `DECIMAL` is kept as the text it was written with, and five functions take such a
text apart: `validate_decimal`, `decimal_parts`, `compare_decimal`,
`canonical_decimal` and `scaled_decimal`.  `IsDecimal` says once what an accepted
text looks like; each function then has one lemma about what it makes of it.
-/

import ChironDB.Relational.KeyEncoding

namespace ChironDB.Relational

open Codec List

/-! ### Splitting -/

variable {c : Char} {scale : ℕ}

variable {s : List Char}

theorem splitOnce_eq_none : splitOnce c s = none ↔ c ∉ s := by
  induction s with
  | nil => simp [splitOnce]
  | cons x s ih =>
    rw [splitOnce]
    split_ifs with h
    · simp [h]
    · rw [Option.map_eq_none_iff, ih, mem_cons, not_or]
      exact (and_iff_right fun hc => h hc.symm).symm

variable {a b : List Char}

theorem splitOnce_eq_some (h : splitOnce c s = some (a, b)) : s = a ++ c :: b ∧ c ∉ a := by
  induction s generalizing a with
  | nil => simp [splitOnce] at h
  | cons x s ih =>
    rw [splitOnce] at h
    split_ifs at h with hx
    · obtain ⟨rfl, rfl⟩ : [] = a ∧ s = b := by simpa using h
      simp [hx]
    · obtain ⟨⟨a', b'⟩, hs, hab⟩ := Option.map_eq_some_iff.1 h
      obtain ⟨rfl, rfl⟩ : x :: a' = a ∧ b' = b := by simpa using hab
      obtain ⟨rfl, hc⟩ := ih hs
      simp [hc, Ne.symm hx]

theorem splitOnce_append (b : List Char) (h : c ∉ a) : splitOnce c (a ++ c :: b) = some (a, b) := by
  induction a with
  | nil => simp [splitOnce]
  | cons x a ih =>
    rw [mem_cons, not_or] at h
    rw [cons_append, splitOnce, if_neg (Ne.symm h.1), ih h.2]
    rfl

theorem split_of_none (h : splitOnce c s = none) : split c s = [s] := by
  induction s with
  | nil => rfl
  | cons x s ih =>
    rw [splitOnce] at h
    split_ifs at h with hx
    rw [split, if_neg hx, ih (Option.map_eq_none_iff.1 h)]

/-- `split` cuts where `split_once` does, again and again. -/
theorem split_of_some (h : splitOnce c s = some (a, b)) : split c s = a :: split c b := by
  induction s generalizing a with
  | nil => simp [splitOnce] at h
  | cons x s ih =>
    rw [splitOnce] at h
    rw [split]
    split_ifs at h ⊢ with hx
    · obtain ⟨rfl, rfl⟩ : [] = a ∧ s = b := by simpa using h
      rfl
    · obtain ⟨⟨a', b'⟩, hs, hab⟩ := Option.map_eq_some_iff.1 h
      obtain ⟨rfl, rfl⟩ : x :: a' = a ∧ b' = b := by simpa using hab
      rw [ih hs]

theorem split_ne_nil (c : Char) (s : List Char) : split c s ≠ [] := by
  cases h : splitOnce c s with
  | none => simp [split_of_none h]
  | some p => simp [split_of_some h]

/-! ### Accepted texts -/

theorem digit_ne_of_not_isDigit (hc : c.isDigit = false) (h : allDigits s = true) : c ∉ s := by
  intro hmem
  rw [all_eq_true.1 h c hmem] at hc
  exact Bool.noConfusion hc

/-- The text without its sign. -/
def unsignedText (value : String) : List Char := stripSign value.toList

/-- `value` reads `sign`, whole digits and, after a point, fraction digits. -/
structure IsDecimal (value : String) (sign whole fraction : List Char) : Prop where
  sign_mem : sign = [] ∨ sign = ['-'] ∨ sign = ['+']
  text : value.toList = sign ++ unsignedText value
  unsigned : unsignedText value = whole ∧ fraction = [] ∨
    unsignedText value = whole ++ '.' :: fraction
  whole_ne : whole ≠ []
  whole_digits : allDigits whole = true
  fraction_digits : allDigits fraction = true

theorem stripSign_cases (s : List Char) :
    ∃ sign, (sign = [] ∨ sign = ['-'] ∨ sign = ['+']) ∧ s = sign ++ stripSign s := by
  rw [stripSign.eq_def]
  split
  · exact ⟨['-'], .inr (.inl rfl), rfl⟩
  · exact ⟨['+'], .inr (.inr rfl), rfl⟩
  · exact ⟨[], .inl rfl, rfl⟩

variable {value : String}

/-- What both `validate_decimal` and `decimal_parts` require is this form. -/
theorem isDecimal_of_split (h2 : ((split '.' (unsignedText value)).drop 2).isEmpty = true)
    (hne : (split '.' (unsignedText value)).headD [] ≠ [])
    (hw : allDigits ((split '.' (unsignedText value)).headD []) = true)
    (hf : allDigits (((split '.' (unsignedText value)).drop 1).headD []) = true) :
    ∃ sign, IsDecimal value sign ((split '.' (unsignedText value)).headD [])
      (((split '.' (unsignedText value)).drop 1).headD []) := by
  obtain ⟨sign, hmem, htext⟩ := stripSign_cases value.toList
  refine ⟨sign, hmem, htext, ?_, hne, hw, hf⟩
  cases h : splitOnce '.' (unsignedText value) with
  | none =>
    rw [split_of_none h]
    exact .inl ⟨rfl, rfl⟩
  | some p =>
    obtain ⟨a, b⟩ := p
    rw [split_of_some h] at h2 ⊢
    cases hb : splitOnce '.' b with
    | none =>
      rw [split_of_none hb]
      exact .inr (splitOnce_eq_some h).1
    | some q =>
      -- A second point would leave a third part.
      rw [split_of_some hb] at h2
      simp [split_ne_nil] at h2

variable {whole fraction : List Char}

theorem IsDecimal.head_iff {sign : List Char} (h : IsDecimal value sign whole fraction)
    (hc : c.isDigit = false) : value.toList.head? = some c ↔ sign = [c] := by
  obtain ⟨d, w, rfl⟩ := exists_cons_of_ne_nil h.whole_ne
  have hd : d.isDigit = true := all_eq_true.1 h.whole_digits d mem_cons_self
  have hne : d ≠ c := by
    rintro rfl
    rw [hd] at hc
    cases hc
  rw [h.text]
  rcases h.sign_mem with rfl | rfl | rfl
  · rcases h.unsigned with ⟨hu, -⟩ | hu <;> simp [hu, hne]
  · simp
  · simp

theorem isDecimal_of_validate {precision scale : UInt8}
    (h : validateDecimal value precision scale = .ok ()) :
    ∃ sign whole fraction, IsDecimal value sign whole fraction ∧
      byteLen fraction ≤ scale.toNat := by
  rw [validateDecimal] at h
  split_ifs at h with hbad
  push Not at hbad
  obtain ⟨h2, hne, hw, hf, hs, -⟩ := hbad
  obtain ⟨sign, hd⟩ := isDecimal_of_split (Bool.of_not_eq_false h2) hne
    (Bool.of_not_eq_false hw) (Bool.of_not_eq_false hf)
  exact ⟨sign, _, _, hd, hs⟩

theorem byteLen_of_digits (h : allDigits s = true) : byteLen s = s.length := by
  induction s with
  | nil => rfl
  | cons c s ih =>
    rw [allDigits, all_cons, Bool.and_eq_true] at h
    have hc := isDigit_bounds h.1
    have hsize : c.utf8Size = 1 := Char.utf8Size_eq_one_iff.2 (UInt32.le_iff_toNat_le.2 (by
      show c.toNat ≤ 127
      omega))
    rw [byteLen, map_cons, sum_cons, ← byteLen, ih h.2, hsize, length_cons, Nat.add_comm]

/-! ### Normal forms -/

/-- `trim_start_matches('0')`, and `"0"` when nothing is left. -/
def normalWhole (whole : List Char) : List Char :=
  if trimStartZeros whole = [] then ['0'] else trimStartZeros whole

/-- The text of a fraction after its whole part. -/
def fractionText (fraction : List Char) : List Char :=
  if fraction = [] then [] else '.' :: fraction

theorem allDigits_dropWhile (h : allDigits s = true) : allDigits (trimStartZeros s) = true :=
  all_eq_true.2 fun c hc =>
    all_eq_true.1 h c ((dropWhile_suffix _).subset hc)

theorem allDigits_normalWhole (h : allDigits s = true) : allDigits (normalWhole s) = true := by
  rw [normalWhole]
  split_ifs
  · rfl
  · exact allDigits_dropWhile h

theorem allDigits_trimEnd (h : allDigits s = true) : allDigits (trimEndZeros s) = true :=
  all_eq_true.2 fun c hc =>
    all_eq_true.1 h c ((List.rdropWhile_prefix _ s).subset hc)

theorem noLeadingZero_normalWhole (s : List Char) : NoLeadingZero (normalWhole s) :=
  noLeadingZero_trim s

theorem normalWhole_ne_nil (s : List Char) : normalWhole s ≠ [] := by
  rw [normalWhole]
  split_ifs with h
  · exact cons_ne_nil _ _
  · exact h

theorem digitsValue_normalWhole (s : List Char) :
    digitsValue (normalWhole s) = digitsValue s := by
  have htrim := digitsValue_dropWhile s
  rw [normalWhole]
  split_ifs with h
  · rw [← htrim, ← trimStartZeros, h]
    rfl
  · exact htrim

theorem wholeFraction_of_text {text : List Char} (hw : '.' ∉ whole)
    (h : text = whole ∧ fraction = [] ∨ text = whole ++ '.' :: fraction) :
    wholeFraction text = (whole, fraction) := by
  rw [wholeFraction]
  rcases h with ⟨rfl, rfl⟩ | rfl
  · rw [splitOnce_eq_none.2 hw]
    rfl
  · rw [splitOnce_append _ hw]
    rfl

theorem wholeFraction_append (fraction : List Char) (hw : '.' ∉ whole) :
    wholeFraction (whole ++ fractionText fraction) = (whole, fraction) := by
  refine wholeFraction_of_text hw ?_
  rw [fractionText]
  split_ifs with hf
  · exact .inl ⟨append_nil _, hf⟩
  · exact .inr rfl

theorem stripMinus_cons (s : List Char) : stripMinus ('-' :: s) = (true, s) := rfl

theorem stripMinus_of_head (h : s.head? ≠ some '-') : stripMinus s = (false, s) := by
  cases s with
  | nil => rfl
  | cons c s =>
    have hc : c ≠ '-' := fun hc => h (by rw [hc]; rfl)
    rw [stripMinus, stripPrefix, if_neg hc]

/-- A sign, a whole part and a fraction written out. -/
def spelling (negative : Bool) (whole fraction : List Char) : List Char :=
  (if negative then ['-'] else []) ++ (whole ++ fractionText fraction)

theorem stripMinus_spelling {negative : Bool} (h : ∃ c t, whole = c :: t ∧ c ≠ '-') :
    stripMinus (spelling negative whole fraction) = (negative, whole ++ fractionText fraction) := by
  obtain ⟨c, t, rfl, hc⟩ := h
  cases negative with
  | true => rfl
  | false =>
    refine stripMinus_of_head ?_
    simpa [spelling] using hc

/-- Sign, whole part and fraction can be read off the text again. -/
theorem spelling_inj {n n' : Bool} {w w' f f' : List Char}
    (h : ∃ c t, w = c :: t ∧ c ≠ '-') (h' : ∃ c t, w' = c :: t ∧ c ≠ '-')
    (hp : '.' ∉ w) (hp' : '.' ∉ w') :
    spelling n w f = spelling n' w' f' ↔ n = n' ∧ w = w' ∧ f = f' := by
  constructor
  · intro heq
    have hstrip := congrArg stripMinus heq
    rw [stripMinus_spelling h, stripMinus_spelling h', Prod.mk.injEq] at hstrip
    have hfraction := congrArg wholeFraction hstrip.2
    rw [wholeFraction_append _ hp, wholeFraction_append _ hp', Prod.mk.injEq] at hfraction
    exact ⟨hstrip.1, hfraction⟩
  · rintro ⟨rfl, rfl, rfl⟩
    rfl

/-- The sign `decimal_parts` and `canonical_decimal` keep: a minus that says something. -/
def isNegative (sign whole fraction : List Char) : Bool :=
  sign = ['-'] ∧ ¬(normalWhole whole = ['0'] ∧ trimEndZeros fraction = [])

/-- The whole part `canonical_decimal` writes: a plus sign counts as a digit there. -/
def wholeText (sign whole : List Char) : List Char :=
  if sign = ['+'] then '+' :: whole else normalWhole whole

section

variable {sign whole fraction : List Char}

section

variable (h : IsDecimal value sign whole fraction)
include h

theorem IsDecimal.point_not_mem : '.' ∉ whole :=
  digit_ne_of_not_isDigit (by decide) h.whole_digits

theorem IsDecimal.split_eq :
    ((split '.' (unsignedText value)).drop 2).isEmpty = true ∧
      (split '.' (unsignedText value)).headD [] = whole ∧
      ((split '.' (unsignedText value)).drop 1).headD [] = fraction := by
  have hw := h.point_not_mem
  have hf : '.' ∉ fraction := digit_ne_of_not_isDigit (by decide) h.fraction_digits
  rcases h.unsigned with ⟨hu, rfl⟩ | hu
  · rw [hu, split_of_none (splitOnce_eq_none.2 hw)]
    exact ⟨rfl, rfl, rfl⟩
  · rw [hu, split_of_some (splitOnce_append _ hw), split_of_none (splitOnce_eq_none.2 hf)]
    exact ⟨rfl, rfl, rfl⟩

/-- **`decimal_parts` is the normal form of the text.** -/
theorem IsDecimal.decimalParts_eq :
    decimalParts value =
      some (isNegative sign whole fraction, normalWhole whole, trimEndZeros fraction) := by
  obtain ⟨h2, hw, hf⟩ := h.split_eq
  rw [unsignedText] at h2 hw hf
  have hminus := h.head_iff (c := '-') (by decide)
  rw [decimalParts]
  simp only [hw, hf, h2, h.whole_ne, h.whole_digits, h.fraction_digits, Bool.true_eq_false,
    or_self, if_false, hminus]
  rfl

theorem IsDecimal.normalWhole_head : ∃ c t, normalWhole whole = c :: t ∧ c ≠ '-' := by
  obtain ⟨c, t, hct⟩ := exists_cons_of_ne_nil (normalWhole_ne_nil whole)
  refine ⟨c, t, hct, ?_⟩
  rintro rfl
  exact digit_ne_of_not_isDigit (by decide) (allDigits_normalWhole h.whole_digits)
    (hct ▸ mem_cons_self)

theorem IsDecimal.wholeText_head : ∃ c t, wholeText sign whole = c :: t ∧ c ≠ '-' := by
  rw [wholeText]
  split_ifs
  · exact ⟨'+', whole, rfl, by decide⟩
  · exact h.normalWhole_head

theorem IsDecimal.wholeText_point : '.' ∉ wholeText sign whole := by
  rw [wholeText]
  split_ifs
  · simp [h.point_not_mem]
  · exact digit_ne_of_not_isDigit (by decide) (allDigits_normalWhole h.whole_digits)

end

/-- Behind a plus sign the characters up to the point are the sign and the whole digits. -/
theorem IsDecimal.wholeFraction_plus (h : IsDecimal value ['+'] whole fraction) :
    wholeFraction value.toList = ('+' :: whole, fraction) := by
  refine wholeFraction_of_text (by simp [h.point_not_mem]) ?_
  rw [h.text, singleton_append]
  rcases h.unsigned with ⟨hu, hf⟩ | hu
  · exact .inl ⟨congrArg _ hu, hf⟩
  · exact .inr (congrArg _ hu)

/-- **`canonical_decimal` is the normal form too, except behind a plus sign**, which it takes
for part of the whole digits. -/
theorem IsDecimal.canonicalDecimal_eq (h : IsDecimal value sign whole fraction) :
    canonicalDecimal value =
      spelling (isNegative sign whole fraction) (wholeText sign whole) (trimEndZeros fraction) := by
  have hpoint := h.point_not_mem
  have hminus := h.head_iff (c := '-') (by decide)
  rw [spelling, ← append_assoc]
  rcases h.sign_mem with rfl | rfl | rfl
  · rw [canonicalDecimal, stripMinus_of_head (by simp [hminus]), h.text, nil_append]
    simp only [wholeFraction_of_text hpoint h.unsigned]
    rfl
  · rw [canonicalDecimal, h.text, singleton_append, stripMinus_cons]
    simp only [wholeFraction_of_text hpoint h.unsigned, isNegative, true_and, decide_eq_true_eq]
    rfl
  · rw [canonicalDecimal, stripMinus_of_head (by simp [hminus])]
    simp only [h.wholeFraction_plus]
    rfl

/-- The number of `10 ^ -scale` units a text spells. -/
def scaledValue (scale : ℕ) (sign whole fraction : List Char) : ℤ :=
  if isNegative sign whole fraction then
    -(fixedPoint scale (normalWhole whole) (trimEndZeros fraction) : ℤ)
  else fixedPoint scale (normalWhole whole) (trimEndZeros fraction)

theorem trimEndZeros_length_le (s : List Char) : (trimEndZeros s).length ≤ s.length :=
  (List.rdropWhile_prefix _ s).length_le

theorem IsDecimal.trimmed_length_le (h : IsDecimal value sign whole fraction)
    (hs : byteLen fraction ≤ scale) : (trimEndZeros fraction).length ≤ scale := by
  rw [byteLen_of_digits h.fraction_digits] at hs
  exact (trimEndZeros_length_le fraction).trans hs

theorem parseI128_digits (hne : s ≠ []) (hd : allDigits s = true) :
    parseI128 s = if (digitsValue s : ℤ) < 2 ^ 127 then some (digitsValue s : ℤ) else none := by
  obtain ⟨c, t, rfl⟩ := exists_cons_of_ne_nil hne
  have hc : c.isDigit = true := all_eq_true.1 hd c mem_cons_self
  have hplus : c ≠ '+' := by
    rintro rfl
    exact absurd hc (by decide)
  have hminus : c ≠ '-' := by
    rintro rfl
    exact absurd hc (by decide)
  simp [parseI128, hplus, hminus, hd]

theorem parseI128_plus (hne : s ≠ []) (hd : allDigits s = true) :
    parseI128 ('+' :: s) = parseI128 s := by
  rw [parseI128_digits hne hd, parseI128]
  simp [hne, hd]

section

variable (h : IsDecimal value sign whole fraction)
include h

theorem IsDecimal.stripMinus_canonical :
    stripMinus (canonicalDecimal value) = (isNegative sign whole fraction,
        wholeText sign whole ++ fractionText (trimEndZeros fraction)) := by
  rw [h.canonicalDecimal_eq, stripMinus_spelling h.wholeText_head]

/-- Behind its whole part, the plus sign does no harm to `parse`. -/
theorem IsDecimal.parse_wholeText {rest : List Char} (hr : allDigits rest = true) :
    parseI128 (wholeText sign whole ++ rest) =
      if (digitsValue (normalWhole whole ++ rest) : ℤ) < 2 ^ 127
      then some (digitsValue (normalWhole whole ++ rest) : ℤ) else none := by
  have happ : ∀ {s : List Char}, allDigits s = true → allDigits (s ++ rest) = true := by
    intro s hs
    rw [allDigits, all_append, ← allDigits, hs]
    exact hr
  by_cases hplus : sign = ['+']
  · rw [wholeText, if_pos hplus, cons_append,
      parseI128_plus (by simp [h.whole_ne]) (happ h.whole_digits),
      parseI128_digits (by simp [h.whole_ne]) (happ h.whole_digits), digitsValue_append,
      digitsValue_append, digitsValue_normalWhole]
  · rw [wholeText, if_neg hplus]
    exact parseI128_digits (by simp [normalWhole_ne_nil])
      (happ (allDigits_normalWhole h.whole_digits))

/-- **`scaled_decimal` is the scaled value**, which it only returns when it fits. -/
theorem IsDecimal.scaledDecimal_eq {scale : UInt8} {n : ℤ} (hs : byteLen fraction ≤ scale.toNat)
    (hok : scaledDecimal value scale = .ok n) :
    n = scaledValue scale.toNat sign whole fraction ∧ -2 ^ 127 < n ∧ n < 2 ^ 127 := by
  have hdigits := allDigits_trimEnd h.fraction_digits
  have hlen := h.trimmed_length_le hs
  have hne : wholeText sign whole ≠ [] := by
    obtain ⟨c, t, hct, -⟩ := h.wholeText_head
    simp [hct]
  rw [scaledDecimal] at hok
  simp only [h.stripMinus_canonical, wholeFraction_append _ h.wholeText_point,
    byteLen_of_digits hdigits, if_neg (Nat.not_lt.2 hlen), if_neg hne] at hok
  have hparse := h.parse_wholeText (padded_all scale.toNat hdigits)
  rw [padded] at hparse
  rw [hparse] at hok
  rw [← fixedPoint] at hok
  rw [scaledValue]
  split_ifs at hok ⊢ with hfit hneg <;> cases hok
  · exact ⟨rfl, by omega, by omega⟩
  · exact ⟨rfl, by omega, by omega⟩

/-- A negative text spells a negative number, any other one does not. -/
theorem IsDecimal.scaledValue_sign (hs : (trimEndZeros fraction).length ≤ scale) :
    if isNegative sign whole fraction then scaledValue scale sign whole fraction < 0
    else 0 ≤ scaledValue scale sign whole fraction := by
  rw [scaledValue]
  split_ifs with hneg
  · have hzero := (of_decide_eq_true hneg).2
    have hpos := fixedPoint_pos (allDigits_normalWhole h.whole_digits)
      (allDigits_trimEnd h.fraction_digits) (noLeadingZero_normalWhole whole) hs (by
        rwa [trimEndZeros, rdropWhile_idempotent])
    omega
  · omega

end

end

section

variable {left right : String} {s s' w w' f f' : List Char}

section

variable (hl : IsDecimal left s w f) (hr : IsDecimal right s' w' f')
include hl hr

/-- **`compare_decimal` compares the scaled values**, at every scale that holds both
fractions. -/
theorem compareDecimal_eq
    (hls : (trimEndZeros f).length ≤ scale) (hrs : (trimEndZeros f').length ≤ scale) :
    compareDecimal left right =
      some (compare (scaledValue scale s w f) (scaledValue scale s' w' f')) := by
  have hlsign := hl.scaledValue_sign hls
  have hrsign := hr.scaledValue_sign hrs
  have hmagnitude := compare_fixedPoint (allDigits_normalWhole hl.whole_digits)
    (allDigits_normalWhole hr.whole_digits) (allDigits_trimEnd hl.fraction_digits)
    (allDigits_trimEnd hr.fraction_digits) (noLeadingZero_normalWhole w)
    (noLeadingZero_normalWhole w') (Nat.le_max_left _ _) (Nat.le_max_right _ _)
    (Nat.max_le.2 ⟨hls, hrs⟩)
  rw [padded, padded] at hmagnitude
  simp only [compareDecimal, hl.decimalParts_eq, hr.decimalParts_eq, Option.bind_eq_bind,
    Option.bind_some, hmagnitude]
  cases hneg : isNegative s w f <;> cases hneg' : isNegative s' w' f' <;>
    simp only [hneg, hneg', if_true, Bool.false_eq_true, if_false] at hlsign hrsign <;>
    simp only [ne_eq, not_true, Bool.true_eq_false, Bool.false_eq_true, not_false_eq_true,
      if_true, if_false, Option.pure_def]
  · rw [scaledValue, scaledValue, hneg, hneg', if_neg Bool.false_ne_true,
      if_neg Bool.false_ne_true, compare_natCast]
  · rw [compare_gt_iff_gt.2 (by omega)]
  · rw [compare_lt_iff_lt.2 (by omega)]
  · rw [scaledValue, scaledValue, hneg, hneg', if_pos rfl, if_pos rfl, compare_neg, compare_natCast]

/-- **Two texts compare equal exactly when their normal forms are the same.** -/
theorem compareDecimal_eq_iff (hls : (trimEndZeros f).length ≤ scale)
    (hrs : (trimEndZeros f').length ≤ scale) :
    compareDecimal left right = some .eq ↔ isNegative s w f = isNegative s' w' f' ∧
      normalWhole w = normalWhole w' ∧ trimEndZeros f = trimEndZeros f' := by
  rw [compareDecimal_eq hl hr hls hrs, Option.some.injEq, compare_eq_iff_eq]
  constructor
  · intro h
    have hlsign := hl.scaledValue_sign hls
    have hrsign := hr.scaledValue_sign hrs
    have hneg : isNegative s w f = isNegative s' w' f' := by
      cases hneg : isNegative s w f <;> cases hneg' : isNegative s' w' f' <;>
        simp only [hneg, hneg', if_true, Bool.false_eq_true, if_false] at hlsign hrsign <;>
        first | rfl | omega
    have hfixed : fixedPoint scale (normalWhole w) (trimEndZeros f) =
        fixedPoint scale (normalWhole w') (trimEndZeros f') := by
      rw [scaledValue, scaledValue, hneg] at h
      split_ifs at h <;> omega
    exact ⟨hneg, fixedPoint_inj (allDigits_normalWhole hl.whole_digits)
      (allDigits_normalWhole hr.whole_digits) (allDigits_trimEnd hl.fraction_digits)
      (allDigits_trimEnd hr.fraction_digits) (noLeadingZero_normalWhole w)
      (noLeadingZero_normalWhole w') hls hrs (rdropWhile_idempotent _ _)
      (rdropWhile_idempotent _ _) hfixed⟩
  · rintro ⟨hneg, hwhole, hfraction⟩
    rw [scaledValue, scaledValue, hneg, hwhole, hfraction]

/-- **Canonical texts are the same exactly when sign, whole text and fraction are.** -/
theorem canonicalDecimal_eq_iff :
    canonicalDecimal left = canonicalDecimal right ↔ isNegative s w f = isNegative s' w' f' ∧
      wholeText s w = wholeText s' w' ∧ trimEndZeros f = trimEndZeros f' := by
  rw [hl.canonicalDecimal_eq, hr.canonicalDecimal_eq]
  exact spelling_inj hl.wholeText_head hr.wholeText_head hl.wholeText_point hr.wholeText_point

end

end

end ChironDB.Relational
