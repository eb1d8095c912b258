/-
# Which values can be keys

`validate_decimal` counts the digits of a decimal as they are written; `scaled_decimal`, which
`encode_ordered_value` calls for a key, pads the fraction to the declared scale and parses the
digits as an `i128`.  A whole part may take all digits of the precision, so the padded digits
can be up to `precision + scale` many, and `10 ^ 39` is past the range.

The stored values that have a key are all that are not decimals, and the decimals whose number of
`10 ^ -scale` units is below `2 ^ 127`.
-/

import ChironDB.Relational.KeyOrder
import ChironDB.Relational.TypeName

namespace ChironDB.Relational

open Codec

/-- The number of `10 ^ -scale` units that the digits of a text spell, without its sign. -/
def decimalUnits (value : String) (scale : ℕ) : ℕ :=
  let parts := split '.' (stripSign value.toList)
  fixedPoint scale (parts.headD []) ((parts.drop 1).headD [])

/-- Zeros at the end of a fraction say nothing once it is padded. -/
theorem padded_trimEndZeros {scale : ℕ} {fraction : List Char} (h : fraction.length ≤ scale) :
    padded scale (trimEndZeros fraction) = padded scale fraction := by
  have hzeros : ∀ c ∈ fraction.rtakeWhile (· = '0'), c = '0' := by
    intro c hc
    simpa using List.mem_rtakeWhile_imp hc
  have hsplit : fraction = trimEndZeros fraction ++
      List.replicate (fraction.rtakeWhile (· = '0')).length '0' := by
    rw [← List.eq_replicate_of_mem hzeros]
    exact List.rdropWhile_append_rtakeWhile.symm
  have hlength := congrArg List.length hsplit
  rw [List.length_append, List.length_replicate] at hlength
  rw [padded, padded]
  nth_rewrite 3 [hsplit]
  rw [List.append_assoc, List.replicate_append_replicate]
  congr 2
  omega

section

variable {value : String} {sign whole fraction : List Char}

theorem IsDecimal.decimalUnits_eq {scale : ℕ} (h : IsDecimal value sign whole fraction)
    (hs : fraction.length ≤ scale) :
    decimalUnits value scale = fixedPoint scale (normalWhole whole) (trimEndZeros fraction) := by
  obtain ⟨-, hwhole, hfraction⟩ := h.split_eq
  have htrim := (trimEndZeros_length_le fraction).trans hs
  rw [decimalUnits]
  show fixedPoint scale ((split '.' (unsignedText value)).headD [])
    (((split '.' (unsignedText value)).drop 1).headD []) = _
  rw [hwhole, hfraction, fixedPoint_eq hs, fixedPoint_eq htrim, digitsValue_normalWhole,
    padded_trimEndZeros hs]

/-- **`scaled_decimal` succeeds exactly when the units fit an `i128`.** -/
theorem IsDecimal.scaledDecimal_ok_iff {scale : UInt8} (h : IsDecimal value sign whole fraction)
    (hs : byteLen fraction ≤ scale.toNat) :
    (∃ n, scaledDecimal value scale = .ok n) ↔ decimalUnits value scale.toNat < 2 ^ 127 := by
  have hdigits := allDigits_trimEnd h.fraction_digits
  have hlen := h.trimmed_length_le hs
  have hne : wholeText sign whole ≠ [] := by
    obtain ⟨c, t, hct, -⟩ := h.wholeText_head
    simp [hct]
  have hparse := h.parse_wholeText (padded_all scale.toNat hdigits)
  rw [byteLen_of_digits h.fraction_digits] at hs
  rw [padded] at hparse
  rw [h.decimalUnits_eq hs, scaledDecimal]
  simp only [h.stripMinus_canonical, wholeFraction_append _ h.wholeText_point,
    byteLen_of_digits hdigits, if_neg (Nat.not_lt.2 hlen), if_neg hne]
  rw [hparse, ← fixedPoint]
  constructor
  · rintro ⟨n, hn⟩
    by_contra hfit
    rw [if_neg (by exact_mod_cast hfit)] at hn
    cases hn
  · intro hfit
    rw [if_pos (by exact_mod_cast hfit)]
    exact ⟨_, rfl⟩

end

section

variable [Chrono]

/-- **A stored value has a key exactly when it is no decimal or its units fit an `i128`.**
The other types are accepted and encoded by the same conditions. -/
theorem indexable_iff (dataType : RelationalType) (value : RelationalValue)
    (h : validateValue dataType value = .ok ()) (hnull : value ≠ .null) :
    (∃ key, encodeOrderedValue dataType value = .ok key) ↔
      ∀ precision scale text, dataType = .decimal precision scale → value = .decimal text →
        decimalUnits text scale.toNat < 2 ^ 127 := by
  cases hasType_of_validate h hnull with
  | decimal precision scale text hdecimal =>
    obtain ⟨sign, whole, fraction, hd, hs⟩ := isDecimal_of_validate hdecimal
    have hkey : (∃ key, encodeOrderedValue (.decimal precision scale) (.decimal text) = .ok key) ↔
        ∃ n, scaledDecimal text scale = .ok n := by
      simp only [encodeOrderedValue]
      cases scaledDecimal text scale with
      | ok n => exact ⟨fun _ => ⟨n, rfl⟩, fun _ => ⟨_, rfl⟩⟩
      | error e =>
        constructor
        · rintro ⟨_, ⟨⟩⟩
        · rintro ⟨_, ⟨⟩⟩
    rw [hkey, hd.scaledDecimal_ok_iff hs]
    constructor
    · rintro hfit _ _ _ ⟨⟩ ⟨⟩
      exact hfit
    · intro hfit
      exact hfit _ _ _ rfl rfl
  | date text day hday => simp [encodeOrderedValue, hday]
  | timestampUtc text time htime => simp [encodeOrderedValue, htime]
  | _ => simp [encodeOrderedValue]

end

section

attribute [local instance] sampleChrono

theorem indexable_iff_price :
    validateValue (.decimal 5 2) (.decimal "12.5") = .ok () ∧
      ∃ key, encodeOrderedValue (.decimal 5 2) (.decimal "12.5") = .ok key := by
  refine ⟨by decide, (indexable_iff _ _ (by decide) (by decide)).2 ?_⟩
  rintro _ _ _ ⟨⟩ ⟨⟩
  decide

/-- A column declared `DECIMAL` has precision 38 and scale 9.  It stores 31 digits before the
point, and these have no key. -/
theorem long_decimal_has_no_key :
    relationalType { display := "DECIMAL" } = .ok (.decimal 38 9) ∧
      validateValue (.decimal 38 9) (.decimal "1000000000000000000000000000000") = .ok () ∧
      encodeOrderedValue (.decimal 38 9) (.decimal "1000000000000000000000000000000") =
        .error (invalid "decimal value cannot be represented in a v1 key") := by
  refine ⟨?_, ?_, ?_⟩ <;> decide +kernel

end

end ChironDB.Relational
