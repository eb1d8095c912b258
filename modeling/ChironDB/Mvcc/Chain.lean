/-
# Version chains

A chain is the history of one row: versions that hold from `begin` until `ended`, or
from `begin` on.  The edits of a chain at a sequence number touch the version that is
visible there: it is closed, replaced, or, when it began at that very sequence,
rewritten or removed in place.  `ChainOk` is what every mix of such edits keeps, and
snapshots below the sequence of an edit do not notice it.
-/

import Mathlib.Data.List.Basic
import Mathlib.Data.Nat.Basic
import Mathlib.Data.Option.Basic

namespace ChironDB.Mvcc

open List

/-- A version of a row: `values` hold from `begin` until `ended`. -/
structure Version (α : Type) where
  begin : ℕ
  ended : Option ℕ
  values : α
  deriving DecidableEq, Repr

/-- The versions of a row, oldest first. -/
abbrev Chain (α : Type) := List (Version α)

variable {α : Type}

/-- `begin <= snapshot && end.is_none_or(|end| snapshot < end)`. -/
def Version.covers (version : Version α) (snapshot : ℕ) : Bool :=
  version.begin ≤ snapshot && version.ended.all (snapshot < ·)

/-- A version outlives a frontier: `end.is_none_or(|end| end > frontier)`. -/
def outlives (frontier : ℕ) (version : Version α) : Bool := version.ended.all (frontier < ·)

/-- The newest version that covers a snapshot. -/
def visibleVersion (versions : Chain α) (snapshot : ℕ) : Option (Version α) :=
  versions.reverse.find? (·.covers snapshot)

/-- `rposition`: the position of the last element that satisfies `p`. -/
def rposition {β : Type} (p : β → Bool) : List β → Option ℕ
  | [] => none
  | x :: l =>
    match rposition p l with
    | some i => some (i + 1)
    | none => if p x then some 0 else none

/-- The position of the version visible at `sequence`. -/
def visiblePosition (versions : Chain α) (sequence : ℕ) : Option ℕ :=
  rposition (·.covers sequence) versions

/-- End the version at `position`: remove it when it began at `sequence`, close it otherwise. -/
def endAt (versions : Chain α) (position sequence : ℕ) : Chain α :=
  match versions[position]? with
  | none => versions
  | some version =>
    if version.begin = sequence then versions.eraseIdx position
    else versions.set position { version with ended := some sequence }

/-- Replace the version at `position`: in place when it began at `sequence`, by a new version
behind the closed one otherwise. -/
def replaceAt (versions : Chain α) (position sequence : ℕ) (values : α) : Chain α :=
  match versions[position]? with
  | none => versions
  | some version =>
    if version.begin = sequence then versions.set position { version with values }
    else versions.set position { version with ended := some sequence } ++ [⟨sequence, none, values⟩]

/-! ### Positions -/

variable {snapshot : ℕ} {v : Version α} {init : Chain α}

theorem covers_iff {version : Version α} :
    version.covers snapshot = true ↔
      version.begin ≤ snapshot ∧ ∀ e, version.ended = some e → snapshot < e := by
  unfold Version.covers
  cases version.ended <;> simp

theorem outlives_iff {frontier : ℕ} :
    outlives frontier v = true ↔ ∀ e, v.ended = some e → frontier < e := by
  unfold outlives
  cases v.ended <;> simp

theorem outlives_max {f g : ℕ} :
    outlives (max f g) v = (outlives f v && outlives g v) := by
  rw [Bool.eq_iff_iff, Bool.and_eq_true, outlives_iff, outlives_iff, outlives_iff]
  simp only [Nat.max_lt, imp_and, forall_and]

theorem rposition_eq_none {β : Type} {p : β → Bool} {l : List β} :
    rposition p l = none ↔ ∀ x ∈ l, p x = false := by
  induction l with
  | nil => simp [rposition]
  | cons x l ih =>
    rw [rposition, forall_mem_cons]
    cases hl : rposition p l with
    | some i =>
      have hnot : ¬∀ y ∈ l, p y = false := fun h => by
        rw [ih.2 h] at hl
        cases hl
      simp [hnot]
    | none => simpa using fun _ => ih.1 hl

theorem rposition_eq_some {β : Type} {p : β → Bool} {l : List β} {i : ℕ}
    (h : rposition p l = some i) :
    ∃ pre x post, l = pre ++ x :: post ∧ pre.length = i ∧ p x = true ∧ ∀ y ∈ post, p y = false := by
  induction l generalizing i with
  | nil => cases h
  | cons x l ih =>
    rw [rposition] at h
    cases hl : rposition p l with
    | some j =>
      rw [hl] at h
      obtain ⟨pre, y, post, rfl, hlen, hy, hpost⟩ := ih hl
      refine ⟨x :: pre, y, post, rfl, ?_, hy, hpost⟩
      have hj : j + 1 = i := Option.some.inj h
      rw [length_cons]
      omega
    | none =>
      rw [hl] at h
      by_cases hx : p x = true
      · have hi : 0 = i := by simpa [hx] using h
        exact ⟨[], x, l, rfl, hi, hx, rposition_eq_none.1 hl⟩
      · simp [hx] at h

/-! ### The invariant -/

/-- What the edits of a chain up to `sequence` keep: each version is closed before the next one
begins, no interval is empty, and nothing happens after `sequence`. -/
structure ChainOk (sequence : ℕ) (versions : Chain α) : Prop where
  closed_before : versions.Pairwise fun v w => ∃ e, v.ended = some e ∧ e ≤ w.begin
  begin_lt_ended : ∀ v ∈ versions, ∀ e, v.ended = some e → v.begin < e
  begin_le : ∀ v ∈ versions, v.begin ≤ sequence
  ended_le : ∀ v ∈ versions, ∀ e, v.ended = some e → e ≤ sequence

theorem ChainOk.nil (sequence : ℕ) : ChainOk sequence ([] : Chain α) :=
  ⟨.nil, by simp, by simp, by simp⟩

variable {versions : Chain α} {n : ℕ}

theorem ChainOk.mono {m : ℕ} (h : ChainOk m versions) (hmn : m ≤ n) :
    ChainOk n versions :=
  ⟨h.closed_before, h.begin_lt_ended, fun v hv => Nat.le_trans (h.begin_le v hv) hmn,
    fun v hv e he => Nat.le_trans (h.ended_le v hv e he) hmn⟩

theorem ChainOk.sublist {kept : Chain α} (h : ChainOk n versions)
    (hsub : kept.Sublist versions) : ChainOk n kept :=
  ⟨h.closed_before.sublist hsub, fun v hv => h.begin_lt_ended v (hsub.subset hv),
    fun v hv => h.begin_le v (hsub.subset hv), fun v hv => h.ended_le v (hsub.subset hv)⟩

theorem ChainOk.of_append {tail : Chain α} (h : ChainOk n (init ++ tail)) :
    ChainOk n init :=
  h.sublist (sublist_append_left init tail)

/-- A version may follow a chain that is closed before it begins. -/
theorem ChainOk.concat (h : ChainOk n init)
    (hclosed : ∀ u ∈ init, ∃ e, u.ended = some e ∧ e ≤ v.begin) (hv : v.begin ≤ n)
    (hended : ∀ e, v.ended = some e → v.begin < e ∧ e ≤ n) : ChainOk n (init ++ [v]) := by
  refine ⟨pairwise_append.2 ⟨h.closed_before, pairwise_singleton _ _, ?_⟩, ?_, ?_, ?_⟩
  · intro u hu w hw
    rw [mem_singleton.1 hw]
    exact hclosed u hu
  all_goals
    intro u hu
    rcases mem_append.1 hu with hu | hu
  · exact h.begin_lt_ended u hu
  · rw [mem_singleton.1 hu]
    exact fun e he => (hended e he).1
  · exact h.begin_le u hu
  · rw [mem_singleton.1 hu]
    exact hv
  · exact h.ended_le u hu
  · rw [mem_singleton.1 hu]
    exact fun e he => (hended e he).2

theorem ChainOk.closed_of_concat
    (h : ChainOk n (init ++ [v])) : ∀ u ∈ init, ∃ e, u.ended = some e ∧ e ≤ v.begin :=
  fun u hu => (pairwise_append.1 h.closed_before).2.2 u hu v (mem_singleton_self v)

/-- **At the newest sequence only the last version is visible, and it is open.** -/
theorem ChainOk.visiblePosition_eq_some {i : ℕ} (h : ChainOk n versions)
    (hi : visiblePosition versions n = some i) :
    ∃ init v, versions = init ++ [v] ∧ init.length = i ∧ v.ended = none := by
  obtain ⟨init, v, post, rfl, hlen, hv, -⟩ := rposition_eq_some hi
  have hopen : v.ended = none := by
    rcases he : v.ended with _ | e
    · rfl
    · have hlt := (covers_iff.1 hv).2 e he
      have hle := h.ended_le v (by simp) e he
      omega
  have hpost : post = [] := by
    rcases post with _ | ⟨w, post⟩
    · rfl
    · have hpair := (pairwise_append.1 h.closed_before).2.1
      obtain ⟨e, he, -⟩ := (pairwise_cons.1 hpair).1 w (by simp)
      rw [hopen] at he
      cases he
  exact ⟨init, v, by rw [hpost], hlen, hopen⟩

/-- When nothing is visible at the newest sequence, everything is closed by then. -/
theorem ChainOk.closed_of_visiblePosition_eq_none
    (h : ChainOk n versions) (hn : visiblePosition versions n = none) :
    ∀ u ∈ versions, ∃ e, u.ended = some e ∧ e ≤ n := by
  intro u hu
  rcases he : u.ended with _ | e
  · have hcov := rposition_eq_none.1 hn u hu
    rw [Bool.eq_false_iff] at hcov
    refine absurd (covers_iff.2 ⟨h.begin_le u hu, ?_⟩) hcov
    intro e hs
    rw [he] at hs
    cases hs
  · exact ⟨e, rfl, h.ended_le u hu e he⟩

/-! ### Visibility -/

theorem visibleVersion_eq_none :
    visibleVersion versions snapshot = none ↔ ∀ v ∈ versions, v.covers snapshot = false := by
  simp [visibleVersion, find?_eq_none]

theorem mem_of_visibleVersion
    (h : visibleVersion versions snapshot = some v) : v ∈ versions ∧ v.covers snapshot = true := by
  unfold visibleVersion at h
  have hcov := find?_some h
  exact ⟨mem_reverse.1 (mem_of_find?_eq_some h), hcov⟩

section

variable (h : ChainOk n versions)
include h

/-- Intervals do not overlap, so a snapshot has one version. -/
theorem ChainOk.eq_of_covers
    {u : Version α} (hu : u ∈ versions) (hv : v ∈ versions) (hcu : u.covers snapshot = true)
    (hcv : v.covers snapshot = true) : u = v := by
  have hlt : ∀ {x y : Version α}, (∃ e, x.ended = some e ∧ e ≤ y.begin) →
      x.covers snapshot = true → y.covers snapshot = true → False := by
    rintro x y ⟨e, he, hle⟩ hx hy
    have h1 := (covers_iff.1 hx).2 e he
    have h2 := (covers_iff.1 hy).1
    omega
  by_contra hne
  rcases mem_iff_getElem.1 hu with ⟨i, hi, rfl⟩
  rcases mem_iff_getElem.1 hv with ⟨j, hj, rfl⟩
  have hpair := pairwise_iff_getElem.1 h.closed_before
  rcases Nat.lt_trichotomy i j with hij | rfl | hij
  · exact hlt (hpair i j hi hj hij) hcu hcv
  · exact hne rfl
  · exact hlt (hpair j i hj hi hij) hcv hcu

/-- **At most one version is visible at any snapshot.** -/
theorem ChainOk.filter_covers_length_le
    (snapshot : ℕ) : (versions.filter (·.covers snapshot)).length ≤ 1 := by
  induction versions with
  | nil => simp
  | cons v versions ih =>
    have htail : ChainOk n versions := h.sublist (sublist_cons_self v versions)
    rw [filter_cons]
    split_ifs with hv
    · have hnone : versions.filter (·.covers snapshot) = [] := by
        refine filter_eq_nil_iff.2 fun u hu hcu => ?_
        obtain ⟨e, he, hle⟩ := (pairwise_cons.1 h.closed_before).1 u hu
        have h1 := (covers_iff.1 hv).2 e he
        have h2 := (covers_iff.1 hcu).1
        omega
      rw [hnone, length_singleton]
    · exact ih htail

theorem ChainOk.visibleVersion_eq_some :
    visibleVersion versions snapshot = some v ↔ v ∈ versions ∧ v.covers snapshot = true := by
  constructor
  · exact mem_of_visibleVersion
  · rintro ⟨hv, hcov⟩
    rcases hu : visibleVersion versions snapshot with _ | u
    · rw [visibleVersion_eq_none.1 hu v hv] at hcov
      cases hcov
    · obtain ⟨hmem, hcu⟩ := mem_of_visibleVersion hu
      rw [h.eq_of_covers hmem hv hcu hcov]

/-- Selecting the versions of a snapshot is reading it. -/
theorem ChainOk.filter_covers (snapshot : ℕ) :
    versions.filter (·.covers snapshot) = (visibleVersion versions snapshot).toList := by
  have hlen := h.filter_covers_length_le snapshot
  match hf : versions.filter (·.covers snapshot) with
  | [] =>
    have hnone : visibleVersion versions snapshot = none := visibleVersion_eq_none.2 fun v hv => by
      simpa using filter_eq_nil_iff.1 hf v hv
    rw [hf, hnone, Option.toList_none]
  | [v] =>
    have hv : v ∈ versions.filter (·.covers snapshot) := by simp [hf]
    rw [hf, h.visibleVersion_eq_some.2 (mem_filter.1 hv), Option.toList_some]
  | v :: w :: rest => simp [hf] at hlen

end

/-- The same version, or the version after it was closed at `n`. -/
def Version.ClosesTo (n : ℕ) (v w : Version α) : Prop :=
  w = v ∨ v.ended = none ∧ w = { v with ended := some n }

/-- Readers of a snapshot do not notice that a chain was edited at `n`. -/
def Unnoticed (n snapshot : ℕ) (versions edited : Chain α) : Prop :=
  Option.Rel (Version.ClosesTo n) (visibleVersion versions snapshot)
    (visibleVersion edited snapshot)

theorem Version.ClosesTo.refl (n : ℕ) (v : Version α) : v.ClosesTo n v := .inl rfl

theorem Version.ClosesTo.trans {u w : Version α} (huv : u.ClosesTo n v)
    (hvw : v.ClosesTo n w) : u.ClosesTo n w := by
  rcases hvw with rfl | ⟨hopen, rfl⟩
  · exact huv
  · rcases huv with rfl | ⟨-, rfl⟩
    · exact .inr ⟨hopen, rfl⟩
    · cases hopen

theorem Unnoticed.refl (n snapshot : ℕ) (versions : Chain α) :
    Unnoticed n snapshot versions versions := by
  unfold Unnoticed
  cases visibleVersion versions snapshot with
  | none => exact .none
  | some v => exact .some (.refl n v)

theorem Unnoticed.trans {u v w : Chain α} (huv : Unnoticed n snapshot u v)
    (hvw : Unnoticed n snapshot v w) : Unnoticed n snapshot u w := by
  unfold Unnoticed at *
  generalize visibleVersion v snapshot = seen at huv hvw
  generalize visibleVersion w snapshot = seen' at hvw ⊢
  cases hvw with
  | none => exact huv
  | some hvw =>
    generalize visibleVersion u snapshot = first at huv ⊢
    cases huv with
    | some huv => exact .some (huv.trans hvw)

/-! ### Edits -/

theorem getElem?_concat_length (init : Chain α) (v : Version α) :
    (init ++ [v])[init.length]? = some v := by
  rw [getElem?_append_right (Nat.le_refl _), Nat.sub_self]
  rfl

theorem endAt_concat (init : Chain α) (v : Version α) (n : ℕ) :
    endAt (init ++ [v]) init.length n =
      if v.begin = n then init else init ++ [{ v with ended := some n }] := by
  unfold endAt
  rw [getElem?_concat_length]
  simp only
  split_ifs
  · rw [eraseIdx_append_of_length_le (Nat.le_refl _), Nat.sub_self]
    simp
  · rw [set_append_right _ _ (Nat.le_refl _), Nat.sub_self]
    rfl

theorem replaceAt_concat (init : Chain α) (v : Version α) (n : ℕ) (values : α) :
    replaceAt (init ++ [v]) init.length n values =
      if v.begin = n then init ++ [{ v with values }]
      else init ++ [{ v with ended := some n }] ++ [⟨n, none, values⟩] := by
  unfold replaceAt
  rw [getElem?_concat_length]
  simp only
  split_ifs
  all_goals
    rw [set_append_right _ _ (Nat.le_refl _), Nat.sub_self]
    rfl

variable {n i : ℕ}

theorem ChainOk.close (h : ChainOk n (init ++ [v]))
    (hne : v.begin ≠ n) : ChainOk n (init ++ [{ v with ended := some n }]) := by
  have hle := h.begin_le v (by simp)
  refine h.of_append.concat h.closed_of_concat hle fun e he => ?_
  obtain rfl : n = e := Option.some.inj he
  simp only
  omega

/-- **Ending the visible version keeps the chain in order.** -/
theorem ChainOk.endAt (h : ChainOk n versions) (hi : visiblePosition versions n = some i) :
    ChainOk n (endAt versions i n) := by
  obtain ⟨init, v, rfl, rfl, -⟩ := h.visiblePosition_eq_some hi
  rw [endAt_concat]
  split_ifs with hv
  · exact h.of_append
  · exact h.close hv

/-- **Replacing the visible version keeps the chain in order.** -/
theorem ChainOk.replaceAt (h : ChainOk n versions) (hi : visiblePosition versions n = some i)
    (values : α) : ChainOk n (replaceAt versions i n values) := by
  obtain ⟨init, v, rfl, rfl, hopen⟩ := h.visiblePosition_eq_some hi
  rw [replaceAt_concat]
  split_ifs with hv
  · refine h.of_append.concat h.closed_of_concat (h.begin_le v (by simp)) fun e he => ?_
    rw [hopen] at he
    cases he
  · refine (h.close hv).concat (fun u hu => ?_) (Nat.le_refl n) (fun e he => by cases he)
    rcases mem_append.1 hu with hu | hu
    · obtain ⟨e, he, hle⟩ := h.closed_of_concat u hu
      exact ⟨e, he, Nat.le_trans hle (h.begin_le v (by simp))⟩
    · rw [mem_singleton.1 hu]
      exact ⟨n, rfl, Nat.le_refl n⟩

/-- **A row that is not visible may begin again.** -/
theorem ChainOk.push (h : ChainOk n versions) (hi : visiblePosition versions n = none)
    (values : α) : ChainOk n (versions ++ [⟨n, none, values⟩]) :=
  h.concat (h.closed_of_visiblePosition_eq_none hi) (Nat.le_refl n) fun e he => by cases he

/-! ### The newest snapshot -/

/-- An open version at the end of a chain is what every later snapshot sees. -/
theorem ChainOk.visible_last (h : ChainOk n (init ++ [v])) (hopen : v.ended = none)
    (hs : n ≤ snapshot) : visibleVersion (init ++ [v]) snapshot = some v := by
  have hmem : v ∈ init ++ [v] := mem_append_right _ mem_cons_self
  rw [h.visibleVersion_eq_some, covers_iff, hopen]
  exact ⟨hmem, Nat.le_trans (h.begin_le v hmem) hs, fun e he => by cases he⟩

theorem ChainOk.visible_replaceAt (h : ChainOk n versions)
    (hi : visiblePosition versions n = some i) (values : α) (hs : n ≤ snapshot) :
    (visibleVersion (Mvcc.replaceAt versions i n values) snapshot).map (·.values) =
      some values := by
  have hok := h.replaceAt hi values
  obtain ⟨init, v, rfl, rfl, hopen⟩ := h.visiblePosition_eq_some hi
  rw [replaceAt_concat] at hok ⊢
  split_ifs at hok ⊢ with hbegin
  · rw [hok.visible_last hopen hs]
    rfl
  · rw [hok.visible_last rfl hs]
    rfl

theorem ChainOk.visible_endAt (h : ChainOk n versions) (hi : visiblePosition versions n = some i)
    (hs : n ≤ snapshot) : visibleVersion (Mvcc.endAt versions i n) snapshot = none := by
  obtain ⟨init, v, rfl, rfl, hopen⟩ := h.visiblePosition_eq_some hi
  have hinit : ∀ w ∈ init, ∃ e ≤ n, w.ended = some e := fun w hw =>
    (h.closed_of_concat w hw).imp fun e he => ⟨h.ended_le w (mem_append_left _ hw) e he.1, he.1⟩
  have hclosed : ∀ w ∈ Mvcc.endAt (init ++ [v]) init.length n, ∃ e ≤ n, w.ended = some e := by
    rw [endAt_concat]
    split_ifs
    · exact hinit
    · exact forall_mem_append.mpr ⟨hinit, forall_mem_singleton.mpr ⟨n, Nat.le_refl n, rfl⟩⟩
  refine visibleVersion_eq_none.mpr fun w hw => Bool.eq_false_iff.mpr fun hcovers => ?_
  obtain ⟨e, hle, he⟩ := hclosed w hw
  have hlt := (covers_iff.mp hcovers).2 e he
  omega

/-! ### Older snapshots -/

/-- What a chain and its edit at `n` have in common: what began before `n` is still there, but
for an end at `n`, and nothing else began before `n`. -/
structure Edited (n : ℕ) (versions edited : Chain α) : Prop where
  kept : ∀ v ∈ versions, v.begin < n → ∃ w ∈ edited, v.ClosesTo n w
  known : ∀ w ∈ edited, w.begin < n → ∃ v ∈ versions, v.ClosesTo n w

theorem Version.ClosesTo.begin_eq {w : Version α} (h : v.ClosesTo n w) : w.begin = v.begin := by
  rcases h with rfl | ⟨-, rfl⟩ <;> rfl

theorem Version.ClosesTo.covers_eq {w : Version α} (h : v.ClosesTo n w)
    (hs : snapshot < n) : w.covers snapshot = v.covers snapshot := by
  rcases h with rfl | ⟨hopen, rfl⟩
  · rfl
  · simp [Version.covers, hopen, hs]

theorem Edited.trans {u v w : Chain α} (huv : Edited n u v) (hvw : Edited n v w) :
    Edited n u w := by
  constructor
  · intro x hx hn
    obtain ⟨y, hy, hxy⟩ := huv.kept x hx hn
    obtain ⟨z, hz, hyz⟩ := hvw.kept y hy (hxy.begin_eq ▸ hn)
    exact ⟨z, hz, hxy.trans hyz⟩
  · intro z hz hn
    obtain ⟨y, hy, hyz⟩ := hvw.known z hz hn
    obtain ⟨x, hx, hxy⟩ := huv.known y hy (hyz.begin_eq ▸ hn)
    exact ⟨x, hx, hxy.trans hyz⟩

theorem edited_last (last : Chain α) (hkept : v.begin < n → ∃ w ∈ last, v.ClosesTo n w)
    (hknown : ∀ w ∈ last, w.begin < n → v.ClosesTo n w) :
    Edited n (init ++ [v]) (init ++ last) := by
  constructor
  · intro u hu hn
    rcases mem_append.1 hu with hu | hu
    · exact ⟨u, mem_append_left _ hu, .refl n u⟩
    · obtain rfl := mem_singleton.1 hu
      obtain ⟨w, hw, hclose⟩ := hkept hn
      exact ⟨w, mem_append_right _ hw, hclose⟩
  · intro w hw hn
    rcases mem_append.1 hw with hw | hw
    · exact ⟨w, mem_append_left _ hw, .refl n w⟩
    · exact ⟨v, by simp, hknown w hw hn⟩

theorem edited_push (versions : Chain α) (values : α) :
    Edited n versions (versions ++ [⟨n, none, values⟩]) := by
  refine ⟨fun v hv _ => ⟨v, mem_append_left _ hv, .refl n v⟩, fun w hw hn => ?_⟩
  rcases mem_append.1 hw with hw | hw
  · exact ⟨w, hw, .refl n w⟩
  · rw [mem_singleton.1 hw] at hn
    exact absurd hn (Nat.lt_irrefl n)

/-- **Ending the visible version edits the chain.** -/
theorem ChainOk.edited_endAt (h : ChainOk n versions)
    (hi : visiblePosition versions n = some i) : Edited n versions (Mvcc.endAt versions i n) := by
  obtain ⟨init, v, rfl, rfl, hopen⟩ := h.visiblePosition_eq_some hi
  rw [endAt_concat]
  split_ifs with hv
  · have hlast : Edited n (init ++ [v]) (init ++ []) :=
      edited_last [] (fun hn => absurd hv (Nat.ne_of_lt hn)) fun w hw => by simp at hw
    rwa [append_nil] at hlast
  · exact edited_last _ (fun _ => ⟨_, mem_singleton_self _, .inr ⟨hopen, rfl⟩⟩)
      fun w hw _ => .inr ⟨hopen, mem_singleton.1 hw⟩

/-- **Replacing the visible version edits the chain.** -/
theorem ChainOk.edited_replaceAt (h : ChainOk n versions)
    (hi : visiblePosition versions n = some i) (values : α) :
    Edited n versions (Mvcc.replaceAt versions i n values) := by
  obtain ⟨init, v, rfl, rfl, hopen⟩ := h.visiblePosition_eq_some hi
  rw [replaceAt_concat]
  split_ifs with hv
  · refine edited_last _ (fun hn => absurd hv (Nat.ne_of_lt hn)) fun w hw hn => ?_
    rw [mem_singleton.1 hw] at hn
    exact absurd hv (Nat.ne_of_lt hn)
  · refine Edited.trans (edited_last _ (fun _ => ⟨_, mem_singleton_self _, .inr ⟨hopen, rfl⟩⟩)
      fun w hw _ => .inr ⟨hopen, mem_singleton.1 hw⟩) (edited_push _ values)

/-- **Readers below `n` do not notice an edit at `n`.** -/
theorem Edited.unnoticed {edited : Chain α} (h : Edited n versions edited)
    (hok : ChainOk n edited) (hs : snapshot < n) :
    Unnoticed n snapshot versions edited := by
  unfold Unnoticed
  cases hv : visibleVersion versions snapshot with
  | some v =>
    obtain ⟨hmem, hcov⟩ := mem_of_visibleVersion hv
    obtain ⟨w, hw, hclose⟩ := h.kept v hmem (by have := (covers_iff.1 hcov).1; omega)
    rw [hok.visibleVersion_eq_some.2 ⟨hw, (hclose.covers_eq hs).trans hcov⟩]
    exact .some hclose
  | none =>
    have hnone : visibleVersion edited snapshot = none := visibleVersion_eq_none.2 fun w hw => by
      rw [Bool.eq_false_iff]
      intro hcov
      obtain ⟨v, hmem, hclose⟩ := h.known w hw (by have := (covers_iff.1 hcov).1; omega)
      rw [hclose.covers_eq hs, visibleVersion_eq_none.1 hv v hmem] at hcov
      cases hcov
    rw [hnone]
    exact .none

theorem Unnoticed.values_eq {edited : Chain α} (h : Unnoticed n snapshot versions edited) :
    (visibleVersion edited snapshot).map (·.values) =
      (visibleVersion versions snapshot).map (·.values) := by
  rw [Unnoticed] at h
  generalize visibleVersion versions snapshot = old at h ⊢
  generalize visibleVersion edited snapshot = new at h ⊢
  cases h with
  | none => rfl
  | some hcloses => obtain rfl | ⟨-, rfl⟩ := hcloses <;> rfl

end ChironDB.Mvcc
