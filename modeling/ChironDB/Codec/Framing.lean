/-
# Little-endian numbers and cut concatenations

Facts about byte strings with a layout.  A number written little-endian in a fixed width reads
back (`ofLeBytes_leBytes`).  A field of a concatenation of pieces is found behind the pieces
before it (`field_flatten`).  And a log that is a concatenation of pieces, cut off
anywhere, is a concatenation of whole pieces and a proper beginning of the next one
(`exists_take_of_prefix_flatten`): that is all a torn tail can be.
-/

import ChironDB.Codec.PrefixCode

namespace ChironDB.Codec

open List

/-- The `w` little-endian bytes of `n`. -/
def leBytes : ℕ → ℕ → Bytes
  | 0, _ => []
  | w + 1, n => UInt8.ofNat n :: leBytes w (n / 256)

/-- The number that little-endian bytes denote. -/
def ofLeBytes : Bytes → ℕ
  | [] => 0
  | b :: bs => b.toNat + 256 * ofLeBytes bs

@[simp] theorem leBytes_length (w n : ℕ) : (leBytes w n).length = w := by
  induction w generalizing n with
  | zero => rfl
  | succ w ih => rw [leBytes, length_cons, ih]

/-- **A number that fits its width reads back.** -/
theorem ofLeBytes_leBytes (w n : ℕ) (h : n < 256 ^ w) : ofLeBytes (leBytes w n) = n := by
  induction w generalizing n with
  | zero =>
    rw [pow_zero, Nat.lt_one_iff] at h
    rw [h]
    rfl
  | succ w ih =>
    have hq : n / 256 < 256 ^ w := by
      rw [Nat.div_lt_iff_lt_mul (by decide), ← pow_succ]
      exact h
    have hb : (UInt8.ofNat n).toNat = n % 256 := UInt8.toNat_ofNat'
    rw [leBytes, ofLeBytes, ih _ hq, hb]
    omega

theorem leBytes_inj {w m n : ℕ} (hm : m < 256 ^ w) (hn : n < 256 ^ w)
    (h : leBytes w m = leBytes w n) : m = n := by
  rw [← ofLeBytes_leBytes w m hm, h, ofLeBytes_leBytes w n hn]

theorem leBytes_ofLeBytes (bytes : Bytes) : leBytes bytes.length (ofLeBytes bytes) = bytes := by
  induction bytes with
  | nil => rfl
  | cons b bs ih =>
    have hlt := b.toNat_lt
    have hhead : UInt8.ofNat (b.toNat + 256 * ofLeBytes bs) = b := by
      apply UInt8.toNat_inj.mp
      rw [UInt8.toNat_ofNat']
      omega
    have htail : (b.toNat + 256 * ofLeBytes bs) / 256 = ofLeBytes bs := by omega
    rw [length_cons, ofLeBytes, leBytes, hhead, htail, ih]

/-- Part of a byte string. -/
def field (bytes : Bytes) (offset width : ℕ) : Bytes := (bytes.drop offset).take width

/-- A piece of a concatenation stands behind those before it. -/
theorem field_flatten {pieces : List Bytes} {i : ℕ} {piece : Bytes} (h : pieces[i]? = some piece)
    {offset width : ℕ} (hoffset : (pieces.take i).flatten.length = offset)
    (hwidth : piece.length = width) : field pieces.flatten offset width = piece := by
  subst hoffset hwidth
  have hlt := (List.getElem?_eq_some_iff.mp h).1
  have hsplit : pieces.flatten =
      (pieces.take i).flatten ++ (piece ++ (pieces.drop (i + 1)).flatten) := by
    rw [← (List.getElem?_eq_some_iff.mp h).2, ← List.flatten_cons, List.getElem_cons_drop hlt,
      ← flatten_append, take_append_drop]
  rw [field, hsplit, drop_left, take_left]

theorem take_append_field (bytes : Bytes) (offset width : ℕ) :
    bytes.take offset ++ (field bytes offset width ++ bytes.drop (offset + width)) = bytes := by
  rw [field, ← drop_drop, take_append_drop, take_append_drop]

/-- **What a cut leaves.**  A beginning of a concatenation is some whole pieces and
a proper beginning of the piece after them, or all of the pieces. -/
theorem exists_take_of_prefix_flatten {α : Type*} {pieces : List (List α)} {cut : List α}
    (h : cut <+: pieces.flatten) :
    ∃ k torn, k ≤ pieces.length ∧ cut = (pieces.take k).flatten ++ torn ∧
      (torn = [] ∨ ∃ piece, pieces[k]? = some piece ∧ torn <+: piece ∧ torn ≠ piece) := by
  induction pieces generalizing cut with
  | nil => exact ⟨0, [], le_rfl, by simpa using h, .inl rfl⟩
  | cons piece pieces ih =>
    rw [flatten_cons] at h
    rcases le_total piece.length cut.length with hlen | hlen
    · -- The cut is behind the first piece.
      obtain ⟨rest, rfl⟩ := prefix_of_prefix_length_le (prefix_append _ _) h hlen
      obtain ⟨k, torn, hk, rfl, htorn⟩ := ih ((prefix_append_right_inj piece).mp h)
      exact ⟨k + 1, torn, by simpa using hk, by simp, by simpa using htorn⟩
    · have hcut := prefix_of_prefix_length_le h (prefix_append _ _) hlen
      by_cases heq : cut = piece
      · exact ⟨1, [], by simp, by simp [heq], .inl rfl⟩
      · exact ⟨0, cut, by simp, by simp, .inr ⟨piece, rfl, hcut, heq⟩⟩

end ChironDB.Codec
