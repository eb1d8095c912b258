/-
# Order-preserving prefix codes

A key made of several components is a concatenation, and concatenations compare
well only when the components do not run into each other.  `Codes o x y` says
that `x` and `y` are code words whose comparison is already settled to be `o`:
whatever follows them, `x ++ s` and `y ++ t` compare as `o`, and as `s` and `t`
where `o` is `.eq`.  Such verdicts compose along concatenation (`Codes.append`),
equal verdicts mean equal words (`Codes.eq_iff`), and no word is a proper prefix
of another (`Codes.eq_of_prefix`).

Three families of words are coded this way: words of one width
(`Codes.of_length_eq`), big-endian numbers (`compare_beBytes`, with the sign bit
flipped for two's complement, `compare_signedBytes`), and byte strings whose
zero bytes are escaped as `0 255` and which end in `0 0` (`Codes.escape`).
-/

import Mathlib.Data.Nat.Digits.Lemmas
import Mathlib.Data.List.Basic
import Mathlib.Order.Compare
import Mathlib.Tactic.Ring

namespace ChironDB.Codec

open List

/-- A byte string, as keys and stored values are. -/
abbrev Bytes := List UInt8

section Codes

variable {α : Type*} [Ord α]

/-- `x` and `y` are code words whose comparison is settled to be `o`, whatever
continues them. -/
def Codes (o : Ordering) (x y : List α) : Prop :=
  ∀ s t, compare (x ++ s) (y ++ t) = o.then (compare s t)

theorem compare_cons_cons (a b : α) (x y : List α) :
    compare (a :: x) (b :: y) = (compare a b).then (compare x y) := by
  rw [List.compare_eq_compareLex, List.compareLex_cons_cons]

theorem compare_append_self [Std.ReflOrd α] (x s t : List α) :
    compare (x ++ s) (x ++ t) = compare s t := by
  induction x with
  | nil => rfl
  | cons a x ih =>
    rw [cons_append, cons_append, compare_cons_cons, ih, Std.ReflOrd.compare_self]
    rfl

variable {o : Ordering} {x y : List α}

/-- The verdict of two code words is how they compare. -/
theorem Codes.compare_eq (h : Codes o x y) : compare x y = o := by
  have hnil := h [] []
  rw [append_nil, append_nil] at hnil
  rw [hnil]
  cases o <;> rfl

theorem Codes.refl [Std.ReflOrd α] (x : List α) : Codes .eq x x :=
  fun s t => compare_append_self x s t

/-- **Verdicts compose along concatenation.** -/
theorem Codes.append {o₁ o₂ : Ordering} {x₁ x₂ y₁ y₂ : List α} (h₁ : Codes o₁ x₁ y₁)
    (h₂ : Codes o₂ x₂ y₂) : Codes (o₁.then o₂) (x₁ ++ x₂) (y₁ ++ y₂) := by
  intro s t
  rw [append_assoc, append_assoc, h₁, h₂, Ordering.then_assoc]

theorem Codes.cons [Std.ReflOrd α] (a : α) (h : Codes o x y) :
    Codes o (a :: x) (a :: y) :=
  (Codes.refl [a]).append h

theorem Codes.of_head {a b : α} (h : compare a b ≠ .eq) (x y : List α) :
    Codes (compare a b) (a :: x) (b :: y) := by
  intro s t
  rw [cons_append, cons_append, compare_cons_cons]
  cases hab : compare a b with
  | lt | gt => rfl
  | eq => exact absurd hab h

theorem Codes.of_length_eq (h : x.length = y.length) :
    Codes (compare x y) x y := by
  induction x generalizing y with
  | nil =>
    obtain rfl := length_eq_zero_iff.1 h.symm
    exact fun _ _ => rfl
  | cons a x ih =>
    cases y with
    | nil => cases h
    | cons b y =>
      intro s t
      rw [cons_append, cons_append, compare_cons_cons, compare_cons_cons,
        ih (Nat.succ.inj h) s t, Ordering.then_assoc]

theorem Codes.eq_iff [Std.LawfulEqOrd α] (h : Codes o x y) : x = y ↔ o = .eq := by
  rw [← h.compare_eq, Std.LawfulEqOrd.compare_eq_iff_eq]

/-- **No code word is a proper prefix of another.** -/
theorem Codes.eq_of_prefix [Std.ReflOrd α] (h : Codes o x y) (hp : x <+: y) : x = y := by
  obtain ⟨z, rfl⟩ := hp
  have hz := h z []
  rw [append_nil, Std.ReflOrd.compare_self] at hz
  cases z with
  | nil => rw [append_nil]
  | cons c z => cases o <;> cases hz

theorem Codes.eq_of_prefix_right [Std.ReflOrd α] (h : Codes o x y) (hp : y <+: x) : x = y := by
  obtain ⟨z, rfl⟩ := hp
  have hz := h [] z
  rw [append_nil, Std.ReflOrd.compare_self] at hz
  cases z with
  | nil => rw [append_nil]
  | cons c z => cases o <;> cases hz

end Codes

/-! ### Fixed-width numbers -/

/-- The big-endian bytes of `n` modulo `256 ^ w`. -/
def beBytes : ℕ → ℕ → Bytes
  | 0, _ => []
  | w + 1, n => UInt8.ofNat (n / 256 ^ w) :: beBytes w n

@[simp] theorem beBytes_length (w n : ℕ) : (beBytes w n).length = w := by
  induction w with
  | zero => rfl
  | succ w ih => rw [beBytes, length_cons, ih]

/-- Numbers compare as their quotients, then as their remainders. -/
theorem compare_div_mod (q x y : ℕ) (hq : 0 < q) :
    compare x y = (compare (x / q) (y / q)).then (compare (x % q) (y % q)) := by
  have hx := Nat.div_add_mod x q
  have hy := Nat.div_add_mod y q
  have hxq := Nat.mod_lt x hq
  have hyq := Nat.mod_lt y hq
  rcases lt_trichotomy (x / q) (y / q) with h | h | h
  · have hle : q * (x / q + 1) ≤ q * (y / q) := Nat.mul_le_mul_left q h
    have hlt : x < y := by rw [Nat.mul_add] at hle; omega
    rw [compare_lt_iff_lt.2 h, compare_lt_iff_lt.2 hlt]
    rfl
  · rw [h] at hx
    rw [h, compare_eq_iff_eq.2 rfl, Ordering.then]
    rcases lt_trichotomy (x % q) (y % q) with h' | h' | h'
    · rw [compare_lt_iff_lt.2 h', compare_lt_iff_lt.2 (by omega)]
    · rw [compare_eq_iff_eq.2 h', compare_eq_iff_eq.2 (by omega)]
    · rw [compare_gt_iff_gt.2 h', compare_gt_iff_gt.2 (by omega)]
  · have hle : q * (y / q + 1) ≤ q * (x / q) := Nat.mul_le_mul_left q h
    have hlt : y < x := by rw [Nat.mul_add] at hle; omega
    rw [compare_gt_iff_gt.2 h, compare_gt_iff_gt.2 hlt]
    rfl

theorem compare_uint8_toNat (a b : UInt8) : compare a b = compare a.toNat b.toNat := by
  simp only [compare, compareOfLessAndEq, UInt8.lt_iff_toNat_lt, ← UInt8.toNat_inj]

theorem compare_uint8_ofNat (m n : ℕ) :
    compare (UInt8.ofNat m) (UInt8.ofNat n) = compare (m % 256) (n % 256) := by
  rw [compare_uint8_toNat, UInt8.toNat_ofNat', UInt8.toNat_ofNat']

/-- Big-endian words compare as the numbers they hold. -/
theorem compare_beBytes (w x y : ℕ) :
    compare (beBytes w x) (beBytes w y) = compare (x % 256 ^ w) (y % 256 ^ w) := by
  induction w with
  | zero => simp [beBytes, Nat.mod_one]
  | succ w ih =>
    have hw : 0 < 256 ^ w := Nat.pow_pos (by omega)
    rw [beBytes, beBytes, compare_cons_cons, ih, compare_uint8_ofNat,
      compare_div_mod (256 ^ w) (x % 256 ^ (w + 1)) (y % 256 ^ (w + 1)) hw, Nat.pow_succ,
      Nat.mod_mul_right_div_self, Nat.mod_mul_right_div_self, Nat.mod_mul_right_mod,
      Nat.mod_mul_right_mod]

theorem beBytes_congr {w m n : ℕ} (h : m % 256 ^ w = n % 256 ^ w) : beBytes w m = beBytes w n := by
  refine Std.LawfulEqOrd.eq_of_compare ?_
  rw [compare_beBytes, h]
  exact Std.ReflOrd.compare_self

/-- The bytes with the top bit of the first one flipped. -/
def flipSign : Bytes → Bytes
  | [] => []
  | b :: bs => (b ^^^ 0x80) :: bs

/-- Flipping the top bit of the first byte flips the top bit of the number. -/
theorem flipSign_beBytes (w n : ℕ) :
    flipSign (beBytes (w + 1) n) = beBytes (w + 1) (n ^^^ 2 ^ (8 * w + 7)) := by
  have h256 : (256 : ℕ) ^ w = 2 ^ (8 * w) := by rw [Nat.pow_mul]
  have hdiv : (n ^^^ 2 ^ (8 * w + 7)) / 256 ^ w = n / 256 ^ w ^^^ 128 := by
    rw [h256, Nat.xor_div_two_pow, Nat.pow_add, Nat.mul_div_cancel_left _ (Nat.two_pow_pos _)]
  have hmod : (n ^^^ 2 ^ (8 * w + 7)) % 256 ^ w = n % 256 ^ w := by
    rw [h256, Nat.xor_mod_two_pow, Nat.pow_add, Nat.mul_mod_right, Nat.xor_zero]
  rw [beBytes, beBytes, flipSign, hdiv, beBytes_congr hmod, UInt8.ofNat_xor]
  rfl

/-- **Two's complement with the top bit flipped counts up from the least value.** -/
theorem toNat_xor_top {w : ℕ} (x : BitVec (w + 1)) :
    ((x.toNat ^^^ 2 ^ w : ℕ) : ℤ) = x.toInt + 2 ^ w := by
  have htop : (BitVec.twoPow (w + 1) w).toNat = 2 ^ w := by
    rw [BitVec.toNat_twoPow, Nat.mod_eq_of_lt (Nat.pow_lt_pow_right (by omega) (by omega))]
  have hcons : BitVec.twoPow (w + 1) w = BitVec.cons true 0#w := by
    ext i
    simp
  have hlow := (x.setWidth w).isLt
  have hx : x.toNat = x.msb.toNat <<< w + (x.setWidth w).toNat := by
    rw [← BitVec.toNat_cons', BitVec.cons_msb_setWidth]
  have hxor : x.toNat ^^^ 2 ^ w = (!x.msb).toNat <<< w + (x.setWidth w).toNat := by
    rw [← htop, ← BitVec.toNat_xor, hcons]
    conv_lhs => rw [← BitVec.cons_msb_setWidth x]
    rw [BitVec.cons_xor_cons, BitVec.toNat_cons', BitVec.xor_zero, Bool.xor_true]
  rw [hxor, BitVec.toInt_eq_msb_cond, hx]
  cases x.msb
  · simp [Nat.shiftLeft_eq]; ring
  · simp [Nat.shiftLeft_eq]; ring

/-- Two's complement words with the sign bit flipped compare as the integers
they hold. -/
theorem compare_signedBytes (w : ℕ) (x y : BitVec (8 * w + 8)) :
    compare (flipSign (beBytes (w + 1) x.toNat)) (flipSign (beBytes (w + 1) y.toNat)) =
      compare x.toInt y.toInt := by
  have h256 : (256 : ℕ) ^ (w + 1) = 2 ^ (8 * w + 7 + 1) := by
    rw [show 8 * w + 7 + 1 = 8 * (w + 1) from by omega, Nat.pow_mul]
  have hlt : ∀ z : BitVec (8 * w + 8), z.toNat ^^^ 2 ^ (8 * w + 7) < 256 ^ (w + 1) := by
    intro z
    rw [h256]
    exact Nat.xor_lt_two_pow z.isLt (Nat.pow_lt_pow_right (by omega) (by omega))
  rw [flipSign_beBytes, flipSign_beBytes, compare_beBytes, Nat.mod_eq_of_lt (hlt x),
    Nat.mod_eq_of_lt (hlt y)]
  have hx := toNat_xor_top (w := 8 * w + 7) x
  have hy := toNat_xor_top (w := 8 * w + 7) y
  rcases lt_trichotomy x.toInt y.toInt with h | h | h
  · rw [compare_lt_iff_lt.2 h, compare_lt_iff_lt.2 (by omega)]
  · rw [compare_eq_iff_eq.2 h, compare_eq_iff_eq.2 (by omega)]
  · rw [compare_gt_iff_gt.2 h, compare_gt_iff_gt.2 (by omega)]

theorem flipSign_length (bs : Bytes) : (flipSign bs).length = bs.length := by
  cases bs <;> rfl

/-- **Two's complement with its sign bit flipped codes the order of the integers.** -/
theorem Codes.signedBytes (w : ℕ) (x y : BitVec (8 * w + 8)) :
    Codes (compare x.toInt y.toInt) (flipSign (beBytes (w + 1) x.toNat))
      (flipSign (beBytes (w + 1) y.toNat)) := by
  rw [← compare_signedBytes]
  refine Codes.of_length_eq ?_
  rw [flipSign_length, flipSign_length, beBytes_length, beBytes_length]

/-! ### Escaped byte strings -/

/-- Zero bytes become `0 255`, and the word ends in `0 0`. -/
def escape (bs : Bytes) : Bytes :=
  bs.flatMap (fun b => if b = 0 then [0, 255] else [b]) ++ [0, 0]

theorem escape_cons (b : UInt8) (bs : Bytes) :
    escape (b :: bs) = (if b = 0 then [0, 255] else [b]) ++ escape bs := by
  rw [escape, escape, flatMap_cons, append_assoc]

theorem zero_lt_byte {b : UInt8} (h : b ≠ 0) : compare 0 b = .lt := by
  rw [compare_uint8_toNat]
  refine compare_lt_iff_lt.2 (Nat.pos_of_ne_zero fun h0 => h ?_)
  exact UInt8.toNat_inj.1 h0

/-- The end marker sorts before every continuation. -/
theorem Codes.escape_nil_cons (b : UInt8) (bs : Bytes) :
    Codes .lt (escape []) (escape (b :: bs)) := by
  rw [escape_cons]
  split_ifs with h
  · exact Codes.cons 0 (Codes.of_head (a := (0 : UInt8)) (b := 255) (by decide) _ _)
  · have hb := zero_lt_byte h
    rw [← hb]
    exact Codes.of_head (by rw [hb]; decide) _ _

/-- **Escaped byte strings compare as the strings they hold**, whatever follows
them: an embedded zero is not mistaken for the end marker. -/
theorem Codes.escape (a b : Bytes) : Codes (compare a b) (escape a) (escape b) := by
  induction a generalizing b with
  | nil =>
    cases b with
    | nil => exact Codes.refl _
    | cons b bs => exact Codes.escape_nil_cons b bs
  | cons a as ih =>
    cases b with
    | nil =>
      have h := Codes.escape_nil_cons a as
      intro s t
      rw [Std.OrientedOrd.eq_swap (a := Codec.escape (a :: as) ++ s), h t s]
      rfl
    | cons b bs =>
      rw [compare_cons_cons, escape_cons, escape_cons]
      by_cases hab : a = b
      · subst hab
        rw [Std.ReflOrd.compare_self]
        exact (Codes.refl _).append (ih bs)
      · have hne : compare a b ≠ .eq := fun h => hab (Std.LawfulEqOrd.eq_of_compare h)
        have hthen : ∀ o, (compare a b).then o = compare a b := by
          intro o
          cases h : compare a b with
          | lt | gt => rfl
          | eq => exact absurd h hne
        rw [hthen]
        -- An escaped zero still starts with a zero, so the heads are `a` and `b`.
        split_ifs with ha hb hb
        · exact absurd (ha.trans hb.symm) hab
        · subst ha
          exact Codes.of_head hne _ _
        · subst hb
          exact Codes.of_head hne _ _
        · exact Codes.of_head hne _ _

/-! ### Words written letter by letter -/

/-- **A code in which the first letter can be read off is read off letter by letter.** -/
theorem flatMap_injective {α β : Type*} {f : α → List β} (hne : ∀ a, f a ≠ [])
    (hf : ∀ a b s t, f a ++ s = f b ++ t → a = b) :
    Function.Injective fun l : List α => l.flatMap f := by
  intro l
  induction l with
  | nil =>
    intro l' h
    cases l' with
    | nil => rfl
    | cons a l' => simp [hne] at h
  | cons a l ih =>
    intro l' h
    cases l' with
    | nil => simp [hne] at h
    | cons b l' =>
      simp only [flatMap_cons] at h
      obtain rfl := hf a b _ _ h
      rw [ih (append_cancel_left h)]

end ChironDB.Codec
