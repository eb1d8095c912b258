/-
# Keys keep the order of their values

The bytes of a key compare as the values in it do, whatever is written after them.
One verdict for each type (`HasType.codes`) is composed along the columns of a key,
then along its identifiers; order, injectivity and prefix-freedom are read off the
composed verdict.
-/

import ChironDB.Relational.Decimal

namespace ChironDB.Relational

open Codec

/-- The types whose keys are claimed to follow `compare_values`: not the floats, vectors
and timestamps. -/
def RelationalType.isOrdered : RelationalType → Bool
  | .real | .float | .vector _ | .timestampUtc => false
  | _ => true

/-! ### Fixed-width parts -/

theorem be64_length (n : UInt64) : (be64 n).length = 8 := beBytes_length _ _

theorem compare_be64 (m n : UInt64) : compare (be64 m) (be64 n) = compare m.toNat n.toNat := by
  rw [be64, be64, compare_beBytes, Nat.mod_eq_of_lt (by simpa using m.toNat_lt),
    Nat.mod_eq_of_lt (by simpa using n.toNat_lt)]

theorem be64_injective : Function.Injective be64 := by
  intro m n h
  have hcmp := compare_be64 m n
  rw [h, Std.ReflOrd.compare_self, eq_comm, compare_eq_iff_eq] at hcmp
  exact UInt64.toNat_inj.1 hcmp

theorem codes_be64 (m n : UInt64) : Codes (compare m.toNat n.toNat) (be64 m) (be64 n) := by
  rw [← compare_be64]
  exact Codes.of_length_eq (by rw [be64_length, be64_length])

theorem compare_complement (m n : UInt64) :
    compare (~~~m).toNat (~~~n).toNat = compare n.toNat m.toNat := by
  have hm := m.toNat_lt
  have hn := n.toNat_lt
  rw [UInt64.toNat_not, UInt64.toNat_not, Nat.compare_eq_ite_lt, Nat.compare_eq_ite_lt]
  congr 1
  · exact propext (by simp only [UInt64.size]; omega)
  · congr 1
    exact propext (by simp only [UInt64.size]; omega)

theorem codes_sequence (m n : UInt64) :
    Codes (compare n.toNat m.toNat) (be64 (~~~m)) (be64 (~~~n)) := by
  rw [← compare_complement]
  exact codes_be64 _ _

theorem codes_int64 (m n : Int64) :
    Codes (compare m.toInt n.toInt) (be64 (m.toUInt64 ^^^ 0x8000000000000000))
      (be64 (n.toUInt64 ^^^ 0x8000000000000000)) := by
  have hflip : ∀ v : Int64, be64 (v.toUInt64 ^^^ 0x8000000000000000) =
      flipSign (beBytes 8 v.toBitVec.toNat) := fun v => by
    rw [flipSign_beBytes, be64, UInt64.toNat_xor]
    rfl
  rw [hflip, hflip]
  exact Codes.signedBytes 7 m.toBitVec n.toBitVec

theorem codes_date (m n : Int32) :
    Codes (compare m.toInt n.toInt) (beBytes 4 (m.toUInt32 ^^^ 0x80000000).toNat)
      (beBytes 4 (n.toUInt32 ^^^ 0x80000000).toNat) := by
  have hflip : ∀ v : Int32, beBytes 4 (v.toUInt32 ^^^ 0x80000000).toNat =
      flipSign (beBytes 4 v.toBitVec.toNat) := fun v => by
    rw [flipSign_beBytes, UInt32.toNat_xor]
    rfl
  rw [hflip, hflip]
  exact Codes.signedBytes 3 m.toBitVec n.toBitVec

theorem codes_signed128 {m n : ℤ} (hm : -2 ^ 127 ≤ m ∧ m < 2 ^ 127)
    (hn : -2 ^ 127 ≤ n ∧ n < 2 ^ 127) : Codes (compare m n) (signed128 m) (signed128 n) := by
  have hint : ∀ {z : ℤ}, -2 ^ 127 ≤ z ∧ z < 2 ^ 127 → (BitVec.ofInt 128 z).toInt = z := by
    intro z hz
    rw [BitVec.toInt_ofInt]
    exact Int.bmod_eq_of_le (by omega) (by omega)
  have h := Codes.signedBytes 15 (BitVec.ofInt 128 m) (BitVec.ofInt 128 n)
  rwa [hint hm, hint hn] at h

/-! ### One value -/

variable {x y : Bytes} {o : Ordering}

/-- Both keys carry the tag of the type, so what follows it decides. -/
theorem codes_tagged {tag : UInt8} {kx ky : Bytes} (hx : (.ok (tag :: kx) : Result Bytes) = .ok x)
    (hy : (.ok (tag :: ky) : Result Bytes) = .ok y) (h : Codes o kx ky) : Codes o x y := by
  cases hx
  cases hy
  exact h.cons tag

section

variable [Chrono]

/-- NULL before every value, values as `compare_values` has them. -/
def compareNullFirst (left right : RelationalValue) : Option Ordering :=
  match left, right with
  | .null, .null => some .eq
  | .null, _ => some .lt
  | _, .null => some .gt
  | left, right => compareValues left right

/-- Tuples column by column, the first difference deciding. -/
def compareTuple : List RelationalValue → List RelationalValue → Option Ordering
  | [], [] => some .eq
  | left :: lefts, right :: rights => do
    let first ← compareNullFirst left right
    let rest ← compareTuple lefts rights
    return first.then rest
  | _, _ => none

/-- Decimals: the key holds the scaled value, which is what `compare_decimal` compares. -/
theorem codes_decimal {precision scale : UInt8} {left right : String}
    (hl : validateDecimal left precision scale = .ok ())
    (hr : validateDecimal right precision scale = .ok ())
    (hx : encodeOrderedValue (.decimal precision scale) (.decimal left) = .ok x)
    (hy : encodeOrderedValue (.decimal precision scale) (.decimal right) = .ok y) :
    ∃ o, compareDecimal left right = some o ∧ Codes o x y := by
  obtain ⟨s, w, f, hl, hls⟩ := isDecimal_of_validate hl
  obtain ⟨s', w', f', hr, hrs⟩ := isDecimal_of_validate hr
  rw [encodeOrderedValue] at hx hy
  cases hm : scaledDecimal left scale with
  | error e => rw [hm] at hx; cases hx
  | ok m =>
    cases hn : scaledDecimal right scale with
    | error e => rw [hn] at hy; cases hy
    | ok n =>
      rw [hm] at hx
      rw [hn] at hy
      obtain ⟨rfl, hm⟩ := hl.scaledDecimal_eq hls hm
      obtain ⟨rfl, hn⟩ := hr.scaledDecimal_eq hrs hn
      refine ⟨_, compareDecimal_eq hl hr (hl.trimmed_length_le hls)
        (hr.trimmed_length_le hrs), codes_tagged hx hy (codes_signed128 ?_ ?_)⟩
      · exact ⟨hm.1.le, hm.2⟩
      · exact ⟨hn.1.le, hn.2⟩

variable {dataType : RelationalType}

/-- **The key of a value codes `compare_values`.** -/
theorem HasType.codes {left right : RelationalValue} (ht : dataType.isOrdered = true)
    (hl : HasType dataType left) (hr : HasType dataType right)
    (hx : encodeOrderedValue dataType left = .ok x)
    (hy : encodeOrderedValue dataType right = .ok y) :
    ∃ o, compareValues left right = some o ∧ Codes o x y := by
  cases hl with
  | boolean a =>
    obtain ⟨b⟩ := hr
    refine ⟨_, rfl, codes_tagged hx hy ?_⟩
    have h := Codes.of_length_eq (x := [if a then (1 : UInt8) else 0])
      (y := [if b then (1 : UInt8) else 0]) rfl
    cases a <;> cases b <;> exact h
  | smallInt | integer | bigInt =>
    cases hr
    exact ⟨_, rfl, codes_tagged hx hy (codes_int64 _ _)⟩
  | text | varchar | bytea | jsonb =>
    cases hr
    exact ⟨_, rfl, codes_tagged hx hy (Codes.escape _ _)⟩
  | uuid a =>
    cases hr with
    | uuid b =>
      refine ⟨_, rfl, codes_tagged hx hy (Codes.of_length_eq ?_)⟩
      rw [a.length_eq, b.length_eq]
  | date a day h =>
    cases hr with
    | date b day' h' =>
      simp only [encodeOrderedValue, h, h'] at hx hy
      refine ⟨compare day.toInt day'.toInt, ?_, codes_tagged hx hy (codes_date day day')⟩
      simp [compareValues, h, h']
  | decimal precision scale a h =>
    cases hr with
    | decimal _ _ b h' => exact codes_decimal h h' hx hy
  | recordRef namespaceName id h =>
    cases hr
    simp only [encodeOrderedValue, ne_eq, not_true_eq_false, if_false] at hx hy
    exact ⟨_, rfl, codes_tagged hx hy ((Codes.escape _ _).append (Codes.escape _ _))⟩
  | real | float | timestampUtc | vector => cases ht

theorem HasType.null_lt {value : RelationalValue} (ht : dataType.isOrdered = true)
    (h : HasType dataType value) (hy : encodeOrderedValue dataType value = .ok y) :
    ∃ tag k, y = tag :: k ∧ compare tagNull tag = .lt := by
  cases h with
  | date a day h =>
    simp only [encodeOrderedValue, h] at hy
    exact ⟨_, _, (Except.ok.inj hy).symm, by decide⟩
  | decimal precision scale a h =>
    obtain ⟨n, -, hy⟩ := bind_eq_ok.1 hy
    exact ⟨_, _, (Except.ok.inj hy).symm, by decide⟩
  | recordRef namespaceName id h =>
    simp only [encodeOrderedValue, ne_eq, not_true_eq_false, if_false] at hy
    exact ⟨_, _, (Except.ok.inj hy).symm, by decide⟩
  | boolean | smallInt | integer | bigInt | text | varchar | bytea | jsonb | uuid =>
    exact ⟨_, _, (Except.ok.inj hy).symm, by decide⟩
  | real | float | timestampUtc | vector => cases ht

theorem encodeOrderedValue_null (dataType : RelationalType) :
    encodeOrderedValue dataType .null = .ok [tagNull] := by
  cases dataType <;> rfl

/-- A value or NULL: NULL first, values as `compare_values` has them. -/
theorem codes_column {left right : RelationalValue} (ht : dataType.isOrdered = true)
    (hl : validateValue dataType left = .ok ()) (hr : validateValue dataType right = .ok ())
    (hx : encodeOrderedValue dataType left = .ok x)
    (hy : encodeOrderedValue dataType right = .ok y) :
    ∃ o, compareNullFirst left right = some o ∧ Codes o x y := by
  by_cases hln : left = .null <;> by_cases hrn : right = .null
  · subst hln hrn
    rw [encodeOrderedValue_null] at hx hy
    cases hx
    cases hy
    exact ⟨.eq, rfl, Codes.refl _⟩
  · subst hln
    rw [encodeOrderedValue_null] at hx
    cases hx
    obtain ⟨tag, k, rfl, hlt⟩ := (hasType_of_validate hr hrn).null_lt ht hy
    refine ⟨.lt, ?_, ?_⟩
    · cases right <;> first | rfl | exact absurd rfl hrn
    · have h := Codes.of_head (a := tagNull) (b := tag) (by rw [hlt]; decide) [] k
      rwa [hlt] at h
  · subst hrn
    rw [encodeOrderedValue_null] at hy
    cases hy
    obtain ⟨tag, k, rfl, hlt⟩ := (hasType_of_validate hl hln).null_lt ht hx
    have hgt : compare tag tagNull = .gt := by
      rw [Std.OrientedOrd.eq_swap, hlt]
      rfl
    refine ⟨.gt, ?_, ?_⟩
    · cases left <;> first | rfl | exact absurd rfl hln
    · have h := Codes.of_head (a := tag) (b := tagNull) (by rw [hgt]; decide) k []
      rwa [hgt] at h
  · obtain ⟨o, ho, hc⟩ :=
      (hasType_of_validate hl hln).codes ht (hasType_of_validate hr hrn) hx hy
    refine ⟨o, ?_, hc⟩
    rw [← ho]
    cases left <;> first | exact absurd rfl hln | cases right <;> first | rfl | exact absurd rfl hrn

/-! ### Tuples -/

/-- Values that `validate_value` accepts, column by column. -/
def ValidTuple (types : List RelationalType) (values : List RelationalValue) : Prop :=
  List.Forall₂ (fun dataType value => validateValue dataType value = .ok ()) types values

variable {types : List RelationalType} {left right : List RelationalValue}

omit [Chrono] in
/-- What an encoder that may refuse has written. -/
theorem of_refused_eq_ok {refused : Prop} [Decidable refused] {error : GaussError}
    {encode : Result Bytes} {frame : Bytes → Bytes}
    (h : (if refused then .error error else do
      let key ← encode
      return frame key) = .ok x) : ∃ key, encode = .ok key ∧ frame key = x := by
  split_ifs at h
  obtain ⟨key, hkey, h⟩ := bind_eq_ok.1 h
  exact ⟨key, hkey, Except.ok.inj h⟩

section

variable (ht : ∀ t ∈ types, t.isOrdered = true) (hl : ValidTuple types left)
  (hr : ValidTuple types right)
include ht hl hr

theorem codes_columns (hx : encodeColumns (types.zip left) = .ok x)
    (hy : encodeColumns (types.zip right) = .ok y) :
    ∃ o, compareTuple left right = some o ∧ Codes o x y := by
  -- The induction follows the columns; the verdicts of head and tail compose.
  induction types generalizing left right x y with
  | nil =>
    cases hl
    cases hr
    cases hx
    cases hy
    exact ⟨.eq, rfl, Codes.refl _⟩
  | cons dataType types ih =>
    obtain _ | @⟨_, l, _, left, hl, hls⟩ := hl
    obtain _ | @⟨_, r, _, right, hr, hrs⟩ := hr
    rw [List.zip_cons_cons, encodeColumns] at hx hy
    obtain ⟨kx, hkx, hx⟩ := bind_eq_ok.1 hx
    obtain ⟨xs, hxs, hx⟩ := bind_eq_ok.1 hx
    obtain ⟨ky, hky, hy⟩ := bind_eq_ok.1 hy
    obtain ⟨ys, hys, hy⟩ := bind_eq_ok.1 hy
    cases hx
    cases hy
    obtain ⟨o, ho, hc⟩ := codes_column (ht _ List.mem_cons_self) hl hr hkx hky
    obtain ⟨o', ho', hc'⟩ := ih (fun t h => ht t (List.mem_cons_of_mem _ h)) hls hrs hxs hys
    refine ⟨o.then o', ?_, hc.append hc'⟩
    rw [compareTuple, ho, ho']
    rfl

theorem codes_tuple (hx : encodeColumnTuple (types.zip left) = .ok x)
    (hy : encodeColumnTuple (types.zip right) = .ok y) :
    ∃ o, compareTuple left right = some o ∧ Codes o x y := by
  have hlen : (types.zip left).length = (types.zip right).length := by
    rw [List.length_zip, List.length_zip, ← hl.length_eq, ← hr.length_eq]
  obtain ⟨xs, hxs, rfl⟩ := of_refused_eq_ok hx
  obtain ⟨ys, hys, rfl⟩ := of_refused_eq_ok hy
  obtain ⟨o, ho, hc⟩ := codes_columns ht hl hr hxs hys
  refine ⟨o, ho, ?_⟩
  rw [hlen]
  exact (Codes.refl _).append hc

variable {indexId tableId r r' s s' : UInt64}

theorem codes_indexPrefix (hx : encodeIndexPrefixV1 indexId (types.zip left) = .ok x)
    (hy : encodeIndexPrefixV1 indexId (types.zip right) = .ok y) :
    ∃ o, compareTuple left right = some o ∧ Codes o x y := by
  obtain ⟨xs, hxs, rfl⟩ := of_refused_eq_ok hx
  obtain ⟨ys, hys, rfl⟩ := of_refused_eq_ok hy
  obtain ⟨o, ho, hc⟩ := codes_tuple ht hl hr hxs hys
  exact ⟨o, ho, (Codes.refl _).append hc⟩

theorem codes_indexKey (hx : encodeIndexKeyV1 indexId (types.zip left) r s = .ok x)
    (hy : encodeIndexKeyV1 indexId (types.zip right) r' s' = .ok y) :
    ∃ o, compareTuple left right = some o ∧
      Codes (o.then ((compare r.toNat r'.toNat).then (compare s'.toNat s.toNat))) x y := by
  obtain ⟨xs, hxs, rfl⟩ := of_refused_eq_ok hx
  obtain ⟨ys, hys, rfl⟩ := of_refused_eq_ok hy
  obtain ⟨o, ho, hc⟩ := codes_indexPrefix ht hl hr hxs hys
  refine ⟨o, ho, ?_⟩
  rw [← Ordering.then_assoc]
  exact (hc.append (codes_be64 r r')).append (codes_sequence s s')

theorem codes_primaryKey (hx : encodeRowKeyV1 tableId (.primary (types.zip left)) s = .ok x)
    (hy : encodeRowKeyV1 tableId (.primary (types.zip right)) s' = .ok y) :
    ∃ o, compareTuple left right = some o ∧ Codes (o.then (compare s'.toNat s.toNat)) x y := by
  obtain ⟨k, hk, rfl⟩ := of_refused_eq_ok hx
  obtain ⟨k', hk', rfl⟩ := of_refused_eq_ok hy
  obtain ⟨u, hu, hk⟩ := bind_eq_ok.1 hk
  obtain ⟨u', hu', hk'⟩ := bind_eq_ok.1 hk'
  cases hk
  cases hk'
  obtain ⟨o, ho, hc⟩ := codes_tuple ht hl hr hu hu'
  exact ⟨o, ho, ((Codes.refl _).append (hc.cons 1)).append (codes_sequence s s')⟩

end

theorem codes_hiddenKey (hx : encodeRowKeyV1 tableId (.hidden r) s = .ok x)
    (hy : encodeRowKeyV1 tableId (.hidden r') s' = .ok y) :
    Codes ((compare r.toNat r'.toNat).then (compare s'.toNat s.toNat)) x y := by
  obtain ⟨k, hk, rfl⟩ := of_refused_eq_ok hx
  obtain ⟨k', hk', rfl⟩ := of_refused_eq_ok hy
  rw [encodeRowIdentity] at hk hk'
  split_ifs at hk hk'
  cases hk
  cases hk'
  exact ((Codes.refl _).append ((codes_be64 r r').cons 0)).append (codes_sequence s s')

/-! ### Keys -/

/-- Keys that stand for what they are made of: they sort as it does, are equal exactly when it
is, and neither is a proper prefix of the other. -/
structure KeysFollow (order : Option Ordering) (x y : Bytes) : Prop where
  compare_eq : order = some (compare x y)
  eq_iff : x = y ↔ order = some .eq
  eq_of_isPrefix : x <+: y → x = y
  eq_of_isPrefix_right : y <+: x → x = y

omit [Chrono] in
theorem KeysFollow.of_codes (h : Codes o x y) : KeysFollow (some o) x y where
  compare_eq := by rw [h.compare_eq]
  eq_iff := by rw [h.eq_iff, Option.some.injEq]
  eq_of_isPrefix := h.eq_of_prefix
  eq_of_isPrefix_right := h.eq_of_prefix_right

/-- **Keys are order-preserving and prefix-free.**  Index prefixes sort as their tuples do,
NULL first and `compare_values` otherwise; full index keys break ties by ascending row id and
then by descending commit sequence; row keys of one table sort by primary key (or, without
one, by row id) and then by descending commit sequence. -/
theorem keys_follow_values (indexId tableId : UInt64) (types : List RelationalType)
    (left right : List RelationalValue) (ht : ∀ t ∈ types, t.isOrdered = true)
    (hl : ValidTuple types left) (hr : ValidTuple types right) :
    (∀ x y, encodeIndexPrefixV1 indexId (types.zip left) = .ok x →
      encodeIndexPrefixV1 indexId (types.zip right) = .ok y →
      KeysFollow (compareTuple left right) x y) ∧
    (∀ r r' s s' x y, encodeIndexKeyV1 indexId (types.zip left) r s = .ok x →
      encodeIndexKeyV1 indexId (types.zip right) r' s' = .ok y →
      KeysFollow ((compareTuple left right).map fun o =>
        o.then ((compare r.toNat r'.toNat).then (compare s'.toNat s.toNat))) x y) ∧
    (∀ s s' x y, encodeRowKeyV1 tableId (.primary (types.zip left)) s = .ok x →
      encodeRowKeyV1 tableId (.primary (types.zip right)) s' = .ok y →
      KeysFollow ((compareTuple left right).map fun o => o.then (compare s'.toNat s.toNat)) x y) ∧
    (∀ r r' s s' x y, encodeRowKeyV1 tableId (.hidden r) s = .ok x →
      encodeRowKeyV1 tableId (.hidden r') s' = .ok y →
      KeysFollow (some ((compare r.toNat r'.toNat).then (compare s'.toNat s.toNat))) x y) := by
  refine ⟨fun x y hx hy => ?_, fun r r' s s' x y hx hy => ?_, fun s s' x y hx hy => ?_,
    fun r r' s s' x y hx hy => ?_⟩
  · obtain ⟨o, ho, hc⟩ := codes_indexPrefix ht hl hr hx hy
    rw [ho]
    exact .of_codes hc
  · obtain ⟨o, ho, hc⟩ := codes_indexKey ht hl hr hx hy
    rw [ho]
    exact .of_codes hc
  · obtain ⟨o, ho, hc⟩ := codes_primaryKey ht hl hr hx hy
    rw [ho]
    exact .of_codes hc
  · exact .of_codes (codes_hiddenKey hx hy)

end

section

/-- A few texts, read and written as `chrono` does: two spellings of a date and of a time, a leap
second and the second after it. -/
abbrev sampleChrono : LawfulChrono where
  parseDate text :=
    if text = "2024-01-05" ∨ text = "2024-1-5" then some 738890 else none
  parseFromRfc3339 text :=
    if text = "2024-01-05T00:00:00Z" ∨ text = "2024-01-05T00:00:00.000000000Z" then
      some ⟨⟨738890, 0, 0⟩, 0⟩
    else if text = "2016-12-31T23:59:60.5Z" ∨ text = "2016-12-31T23:59:60.500000000Z" then
      some ⟨⟨736329, 86399, 1500000000⟩, 0⟩
    else if text = "2017-01-01T00:00:00.5Z" ∨ text = "2017-01-01T00:00:00.500000000Z" then
      some ⟨⟨736330, 0, 500000000⟩, 0⟩
    else none
  toRfc3339Nanos time :=
    if time = ⟨738890, 0, 0⟩ then "2024-01-05T00:00:00.000000000Z"
    else if time = ⟨736329, 86399, 1500000000⟩ then "2016-12-31T23:59:60.500000000Z"
    else "2017-01-01T00:00:00.500000000Z"
  jsonFloat32 _ := "0.0"
  parse_toRfc3339Nanos := by
    intro text time h
    split_ifs at h
    · cases h
      decide
    · cases h
      decide
    · cases h
      decide

attribute [local instance] sampleChrono

theorem keys_follow_values_sample :
    ∃ x y, encodeIndexPrefixV1 7 [(.decimal 5 2, .decimal "-1.5"), (.text, .null)] = .ok x ∧
      encodeIndexPrefixV1 7 [(.decimal 5 2, .decimal "-1.50"), (.text, .text "a")] = .ok y ∧
      KeysFollow (some .lt) x y :=
  ⟨_, _, rfl, rfl, (keys_follow_values 7 3 [.decimal 5 2, .text] [.decimal "-1.5", .null]
      [.decimal "-1.50", .text "a"] (by decide)
      (.cons (by decide) (.cons (by decide) .nil))
      (.cons (by decide) (.cons (by decide) .nil))).1 _ _ rfl rfl⟩

end

end ChironDB.Relational
