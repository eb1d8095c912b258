/-
# Decimal digit strings

The number a string of decimal digits spells, and how comparing the strings
compares the numbers: strings of one length compare character by character,
strings without leading zeros compare by length first, and a whole part with a
fraction padded to a common width compares as one scaled integer.
-/

import Mathlib.Data.List.DropRight
import Mathlib.Data.Char
import Mathlib.Tactic.Ring
import ChironDB.Codec.PrefixCode

namespace ChironDB.Codec

open List

/-- The number a digit string spells, most significant digit first. -/
def digitsValue (s : List Char) : ℕ := Nat.ofDigitChars 10 s 0

@[simp] theorem digitsValue_nil : digitsValue [] = 0 := rfl

theorem digitsValue_append (s t : List Char) :
    digitsValue (s ++ t) = digitsValue s * 10 ^ t.length + digitsValue t := by
  rw [digitsValue, Nat.ofDigitChars_append, Nat.ofDigitChars_eq_ofDigitChars_zero, Nat.mul_comm]
  rfl

theorem digitsValue_singleton (c : Char) : digitsValue [c] = c.toNat - 48 := by
  rw [digitsValue, Nat.ofDigitChars_cons, Nat.mul_zero, Nat.zero_add]
  rfl

theorem digitsValue_cons (c : Char) (s : List Char) :
    digitsValue (c :: s) = (c.toNat - 48) * 10 ^ s.length + digitsValue s := by
  rw [← singleton_append, digitsValue_append, digitsValue_singleton]

theorem digitsValue_append_zeros (s : List Char) (k : ℕ) :
    digitsValue (s ++ List.replicate k '0') = digitsValue s * 10 ^ k := by
  rw [digitsValue, Nat.ofDigitChars_append, Nat.ofDigitChars_replicate_zero, Nat.mul_comm]
  rfl

theorem digitsValue_dropWhile (s : List Char) :
    digitsValue (s.dropWhile (· = '0')) = digitsValue s := by
  induction s with
  | nil => rfl
  | cons c s ih =>
    rw [dropWhile_cons]
    split_ifs with hc
    · rw [ih, digitsValue_cons, of_decide_eq_true hc]
      simp
    · rfl

variable {c : Char}

theorem isDigit_bounds (h : c.isDigit = true) : 48 ≤ c.toNat ∧ c.toNat ≤ 57 := by
  have h := Char.isDigit_iff_toNat.1 h
  exact h

variable {s fraction f : List Char} {scale : ℕ}

theorem digitsValue_lt (h : s.all Char.isDigit = true) :
    digitsValue s < 10 ^ s.length := by
  induction s with
  | nil => simp
  | cons c s ih =>
    rw [all_cons, Bool.and_eq_true] at h
    have hc := isDigit_bounds h.1
    have hs := ih h.2
    rw [digitsValue_cons, length_cons, Nat.pow_succ]
    have hmul : (c.toNat - 48) * 10 ^ s.length ≤ 9 * 10 ^ s.length :=
      Nat.mul_le_mul_right _ (by omega)
    omega

variable {q : ℕ}

/-- Two numbers written as a quotient and a remainder compare quotient first. -/
theorem compare_mul_add (a b : ℕ) {x y : ℕ} (hx : x < q) (hy : y < q) :
    compare (a * q + x) (b * q + y) = (compare a b).then (compare x y) := by
  have hq : 0 < q := Nat.zero_lt_of_lt hx
  rw [compare_div_mod q _ _ hq, Nat.add_comm _ x, Nat.add_comm _ y, Nat.add_mul_div_right _ _ hq,
    Nat.add_mul_div_right _ _ hq, Nat.div_eq_of_lt hx, Nat.div_eq_of_lt hy,
    Nat.add_mul_mod_self_right, Nat.add_mul_mod_self_right, Nat.mod_eq_of_lt hx,
    Nat.mod_eq_of_lt hy, Nat.zero_add, Nat.zero_add]

theorem compare_mul_right (a b : ℕ) (hq : 0 < q) : compare (a * q) (b * q) = compare a b := by
  have h := compare_mul_add a b hq hq
  rw [Nat.add_zero, Nat.add_zero] at h
  rw [h, Std.ReflOrd.compare_self, Ordering.then_eq]

theorem compare_neg (m n : ℤ) : compare (-m) (-n) = (compare m n).swap := by
  rw [← Std.OrientedOrd.eq_swap]
  rcases Int.lt_trichotomy n m with h | h | h
  · rw [compare_lt_iff_lt.2 h, compare_lt_iff_lt.2 (by omega)]
  · rw [compare_eq_iff_eq.2 h, compare_eq_iff_eq.2 (by omega)]
  · rw [compare_gt_iff_gt.2 h, compare_gt_iff_gt.2 (by omega)]

theorem compare_natCast (m n : ℕ) : compare (m : ℤ) (n : ℤ) = compare m n := by
  rw [Int.compare_eq_ite_lt, Nat.compare_eq_ite_lt]
  simp only [Int.ofNat_lt]

theorem compare_char_toNat (a b : Char) : compare a b = compare a.toNat b.toNat := by
  have hlt : a < b ↔ a.toNat < b.toNat := Iff.rfl
  simp only [compare, compareOfLessAndEq, hlt, Char.toNat_inj]

theorem compare_digit {a b : Char} (ha : a.isDigit = true) (hb : b.isDigit = true) :
    compare a b = compare (a.toNat - 48) (b.toNat - 48) := by
  have ha := isDigit_bounds ha
  have hb := isDigit_bounds hb
  rw [compare_char_toNat, Nat.compare_eq_ite_lt, Nat.compare_eq_ite_lt]
  congr 1
  · exact propext (by omega)
  · congr 1
    exact propext (by omega)

variable {t : List Char}

/-- **Digit strings of one length compare as the numbers they spell.** -/
theorem compare_digits_of_length_eq (hs : s.all Char.isDigit = true)
    (ht : t.all Char.isDigit = true) (hlen : s.length = t.length) :
    compare s t = compare (digitsValue s) (digitsValue t) := by
  induction s generalizing t with
  | nil =>
    rw [length_nil, eq_comm, length_eq_zero_iff] at hlen
    rw [hlen, digitsValue_nil, Std.ReflOrd.compare_self, Std.ReflOrd.compare_self]
  | cons a s ih =>
    obtain ⟨b, t, rfl⟩ := exists_cons_of_length_eq_add_one hlen.symm
    have hlen : s.length = t.length := by simpa using hlen
    rw [all_cons, Bool.and_eq_true] at hs ht
    have hst := digitsValue_lt ht.2
    rw [← hlen] at hst
    rw [compare_cons_cons, digitsValue_cons, digitsValue_cons, ← hlen,
      compare_mul_add _ _ (digitsValue_lt hs.2) hst, compare_digit hs.1 ht.1, ih hs.2 ht.2 hlen]

/-- A whole part as `trim_start_matches('0')` leaves it, `"0"` standing for nothing. -/
def NoLeadingZero (s : List Char) : Prop := s = ['0'] ∨ ∃ c r, s = c :: r ∧ c ≠ '0'

theorem noLeadingZero_trim (s : List Char) :
    NoLeadingZero (if s.dropWhile (· = '0') = [] then ['0'] else s.dropWhile (· = '0')) := by
  split_ifs with h
  · exact .inl rfl
  · obtain ⟨c, r, hcr⟩ := exists_cons_of_ne_nil h
    refine .inr ⟨c, r, hcr, fun hc => ?_⟩
    have hne := head_dropWhile_not (fun c => decide (c = '0')) h
    simp [hcr, hc] at hne

theorem pow_le_digitsValue {r : List Char} (hd : (c :: r).all Char.isDigit = true) (hc : c ≠ '0') :
    10 ^ r.length ≤ digitsValue (c :: r) := by
  rw [all_cons, Bool.and_eq_true] at hd
  have hb := isDigit_bounds hd.1
  have hne : c.toNat ≠ 48 := fun h => hc (Char.toNat_inj.1 h)
  rw [digitsValue_cons]
  have hmul : 1 * 10 ^ r.length ≤ (c.toNat - 48) * 10 ^ r.length :=
    Nat.mul_le_mul_right _ (by omega)
  omega

section

variable (hs : s.all Char.isDigit = true) (ht : t.all Char.isDigit = true)
  (hns : NoLeadingZero s) (hnt : NoLeadingZero t)
include hs ht hns hnt

theorem NoLeadingZero.lt_of_length_lt (hlen : s.length < t.length) :
    digitsValue s < digitsValue t := by
  have hpos : 0 < s.length := by
    rcases hns with rfl | ⟨c, r, rfl, -⟩ <;> simp
  rcases hnt with rfl | ⟨c, r, rfl, hc⟩
  · rw [length_singleton] at hlen
    omega
  · rw [length_cons] at hlen
    calc digitsValue s < 10 ^ s.length := digitsValue_lt hs
      _ ≤ 10 ^ r.length := Nat.pow_le_pow_right (by omega) (by omega)
      _ ≤ digitsValue (c :: r) := pow_le_digitsValue ht hc

/-- **Without leading zeros, length then characters is the order of the numbers.** -/
theorem compare_whole :
    (compare s.length t.length).then (compare s t) = compare (digitsValue s) (digitsValue t) := by
  rcases Nat.lt_trichotomy s.length t.length with h | h | h
  · rw [compare_lt_iff_lt.2 h, compare_lt_iff_lt.2 (hns.lt_of_length_lt hs ht hnt h)]
    rfl
  · rw [compare_eq_iff_eq.2 h, compare_digits_of_length_eq hs ht h]
    rfl
  · rw [compare_gt_iff_gt.2 h, compare_gt_iff_gt.2 (hnt.lt_of_length_lt ht hs hns h)]
    rfl

end

/-! ### Fixed point -/

/-- `whole.fraction` as an integer number of `10 ^ -scale` units. -/
def fixedPoint (scale : ℕ) (whole fraction : List Char) : ℕ :=
  digitsValue (whole ++ (fraction ++ List.replicate (scale - fraction.length) '0'))

/-- A fraction padded with zeros to `width` digits. -/
def padded (width : ℕ) (fraction : List Char) : List Char :=
  fraction ++ List.replicate (width - fraction.length) '0'

variable {width : ℕ}

theorem padded_length (h : fraction.length ≤ width) : (padded width fraction).length = width := by
  rw [padded, length_append, length_replicate]
  omega

theorem padded_all (width : ℕ) (h : fraction.all Char.isDigit = true) :
    (padded width fraction).all Char.isDigit = true := by
  rw [padded, all_append, h, Bool.true_and, all_replicate]
  split_ifs <;> rfl

theorem digitsValue_padded (h : fraction.length ≤ width) (hw : width ≤ scale) :
    digitsValue (padded scale fraction) =
      digitsValue (padded width fraction) * 10 ^ (scale - width) := by
  rw [padded, padded, digitsValue_append_zeros, digitsValue_append_zeros, Nat.mul_assoc,
    ← Nat.pow_add]
  congr 2
  omega

theorem fixedPoint_eq {whole : List Char} (h : fraction.length ≤ scale) :
    fixedPoint scale whole fraction =
      digitsValue whole * 10 ^ scale + digitsValue (padded scale fraction) := by
  rw [fixedPoint, digitsValue_append, ← padded, padded_length h]

variable {w w' f' : List Char}

/-- **Whole by length and characters, then fractions padded to a common width, is the
order of the scaled integers**, at every scale that holds both fractions. -/
theorem compare_fixedPoint (hw : w.all Char.isDigit = true) (hw' : w'.all Char.isDigit = true)
    (hf : f.all Char.isDigit = true) (hf' : f'.all Char.isDigit = true) (hn : NoLeadingZero w)
    (hn' : NoLeadingZero w') (hlen : f.length ≤ width) (hlen' : f'.length ≤ width)
    (hscale : width ≤ scale) :
    (compare w.length w'.length).then
        ((compare w w').then (compare (padded width f) (padded width f'))) =
      compare (fixedPoint scale w f) (fixedPoint scale w' f') := by
  have hlt : ∀ {g : List Char}, g.all Char.isDigit = true → g.length ≤ width →
      digitsValue (padded scale g) < 10 ^ scale := by
    intro g hg hgl
    have h := digitsValue_lt (padded_all scale hg)
    rwa [padded_length (hgl.trans hscale)] at h
  rw [fixedPoint_eq (hlen.trans hscale), fixedPoint_eq (hlen'.trans hscale),
    compare_mul_add _ _ (hlt hf hlen) (hlt hf' hlen'), digitsValue_padded hlen hscale,
    digitsValue_padded hlen' hscale, compare_mul_right _ _ (Nat.pow_pos (by omega)),
    ← Ordering.then_assoc, compare_whole hw hw' hn hn',
    compare_digits_of_length_eq (padded_all _ hf) (padded_all _ hf')
      (by rw [padded_length hlen, padded_length hlen'])]

theorem rdropWhile_padded (width : ℕ) (fraction : List Char) :
    (padded width fraction).rdropWhile (· = '0') = fraction.rdropWhile (· = '0') := by
  rw [padded]
  induction width - fraction.length with
  | zero => rw [replicate_zero, append_nil]
  | succ k ih =>
    rw [replicate_succ', ← append_assoc, rdropWhile_concat_pos _ _ _ (by simp), ih]

/-- A scaled integer has one spelling without leading and trailing zeros. -/
theorem fixedPoint_inj (hw : w.all Char.isDigit = true) (hw' : w'.all Char.isDigit = true)
    (hf : f.all Char.isDigit = true) (hf' : f'.all Char.isDigit = true) (hn : NoLeadingZero w)
    (hn' : NoLeadingZero w') (hlen : f.length ≤ scale) (hlen' : f'.length ≤ scale)
    (hr : f.rdropWhile (· = '0') = f) (hr' : f'.rdropWhile (· = '0') = f')
    (h : fixedPoint scale w f = fixedPoint scale w' f') : w = w' ∧ f = f' := by
  have hcmp := compare_fixedPoint hw hw' hf hf' hn hn' hlen hlen' le_rfl
  rw [h, Std.ReflOrd.compare_self, Ordering.then_eq_eq, Ordering.then_eq_eq] at hcmp
  refine ⟨Std.LawfulEqOrd.eq_of_compare hcmp.2.1, ?_⟩
  rw [← hr, ← hr', ← rdropWhile_padded scale f, ← rdropWhile_padded scale f',
    Std.LawfulEqOrd.eq_of_compare hcmp.2.2]

theorem eq_zero_of_digitsValue (hf : f.all Char.isDigit = true)
    (h : digitsValue f = 0) : ∀ c ∈ f, decide (c = '0') = true := by
  induction f with
  | nil => simp
  | cons c f ih =>
    rw [all_cons, Bool.and_eq_true] at hf
    rw [digitsValue_cons, Nat.add_eq_zero_iff, Nat.mul_eq_zero] at h
    have hc := isDigit_bounds hf.1
    have hc0 : c.toNat = 48 := by
      rcases h.1 with h | h
      · omega
      · exact absurd h (Nat.pow_pos (by omega)).ne'
    exact forall_mem_cons.2 ⟨decide_eq_true (Char.toNat_inj.1 hc0), ih hf.2 h.2⟩

/-- A number that is not spelled `0` is not zero: either the whole part starts with a
digit that counts or the fraction ends in one. -/
theorem fixedPoint_pos (hw : w.all Char.isDigit = true) (hf : f.all Char.isDigit = true)
    (hn : NoLeadingZero w) (hlen : f.length ≤ scale)
    (hz : ¬(w = ['0'] ∧ f.rdropWhile (· = '0') = [])) : 0 < fixedPoint scale w f := by
  rw [fixedPoint_eq hlen]
  by_cases h0 : w = ['0']
  · have hr : f.rdropWhile (· = '0') ≠ [] := fun h => hz ⟨h0, h⟩
    have hpos : 0 < digitsValue f :=
      Nat.pos_of_ne_zero fun h => hr (rdropWhile_eq_nil_iff.2 (eq_zero_of_digitsValue hf h))
    rw [padded, digitsValue_append_zeros]
    have : 0 < digitsValue f * 10 ^ (scale - f.length) :=
      Nat.mul_pos hpos (Nat.pow_pos (by omega))
    omega
  · rcases hn with h | ⟨c, r, rfl, hc⟩
    · exact absurd h h0
    · have hle := pow_le_digitsValue hw hc
      have hpos : 0 < digitsValue (c :: r) := lt_of_lt_of_le (Nat.pow_pos (by omega)) hle
      have : 0 < digitsValue (c :: r) * 10 ^ scale := Nat.mul_pos hpos (Nat.pow_pos (by omega))
      omega

end ChironDB.Codec
