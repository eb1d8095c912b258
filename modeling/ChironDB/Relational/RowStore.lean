/-
# Rows

`chirondb-core/src/relational/rows.rs` and `rows/locator.rs`: the rows of a table are an
immutable base on disk, an overlay of changed version chains over it, and the ended
overlay versions that garbage collection hid before a checkpoint closed them on disk.

The locator file of a base orders addresses by row identity and begin; it is modelled by
the map from row identities to versions in that order, and loading an entry returns the
version it was built from.  Memory charges are not modelled: an admission that is refused
leaves the store as it was.
-/

import Mathlib
import ChironDB.Mvcc.Chain
import ChironDB.Relational.Value

namespace ChironDB.Relational

open List

open Std (ExtTreeMap)
open Mvcc (outlives)

/-- `RowValues`: the values of a row, column by column. -/
abbrev RowValues := List RelationalValue

/-- `RowVersion`. -/
abbrev RowVersion := Mvcc.Version RowValues

/-- `VersionChain`. -/
abbrev VersionChain := Mvcc.Chain RowValues

/-! ### The base on disk -/

/-- `DiskRows`. -/
structure DiskRows where
  entries : ExtTreeMap ℕ VersionChain
  sequence : ℕ
  nextRowId : ℕ
  minEnd : Option ℕ
  maxEnd : Option ℕ

variable {n : ℕ} {versions : VersionChain}

namespace DiskRows

/-- `prefix_cursor` of a row identity. -/
def prefixCursor (base : DiskRows) (id : ℕ) : VersionChain := base.entries.getD id []

/-- `contains`. -/
def contains (base : DiskRows) (id frontier : ℕ) : Bool :=
  (base.prefixCursor id).any (outlives frontier)

/-- `get`. -/
def get (base : DiskRows) (id frontier : ℕ) : VersionChain :=
  (base.prefixCursor id).filter (outlives frontier)

/-- The loop of `visible`: entries that begin after the snapshot end the search. -/
def firstVisible (frontier snapshot : ℕ) : VersionChain → Option RowVersion
  | [] => none
  | entry :: entries =>
    if snapshot < entry.begin then none
    else if entry.ended.all (fun ended => frontier < ended && snapshot < ended) then some entry
    else firstVisible frontier snapshot entries

/-- `visible`. -/
def visible (base : DiskRows) (id frontier snapshot : ℕ) : Option RowVersion :=
  firstVisible frontier snapshot (base.prefixCursor id)

/-- `scan`: rows that the overlay shadows are skipped. -/
def scan (base : DiskRows) (frontier : ℕ) (snapshot : Option ℕ)
    (shadow : ExtTreeMap ℕ VersionChain) : List (ℕ × VersionChain) :=
  base.entries.toList.filterMap fun (id, versions) =>
    let kept := versions.filter fun entry =>
      !shadow.contains id && outlives frontier entry && snapshot.all (entry.covers ·)
    if kept = [] then none else some (id, kept)

/-- `reclaimable`. -/
def reclaimable (base : DiskRows) (retained frontier : ℕ)
    (shadow : ExtTreeMap ℕ VersionChain) : ℕ :=
  if frontier ≤ retained ∨ base.maxEnd.all (· ≤ retained) ∨ base.minEnd.all (frontier < ·) then 0
  else
    (base.entries.toList.map fun (id, versions) =>
      (versions.filter fun entry => !shadow.contains id &&
        entry.ended.any fun ended => retained < ended && ended ≤ frontier).length).sum

/-- The search finds the version a reader above the frontier sees. -/
theorem firstVisible_eq_some {frontier snapshot : ℕ}
    (h : Mvcc.ChainOk n versions) {version : RowVersion} :
    firstVisible frontier snapshot versions = some version ↔
      version ∈ versions ∧ outlives frontier version = true ∧ version.covers snapshot = true := by
  induction versions with
  | nil => simp [firstVisible]
  | cons entry entries ih =>
    have htail := h.sublist (sublist_cons_self entry entries)
    have hlater : ∀ v ∈ entries, ∃ e, entry.ended = some e ∧ e ≤ v.begin :=
      (pairwise_cons.1 h.closed_before).1
    rw [firstVisible]
    split_ifs with hbegin hended
    · -- the later entries begin even later
      simp only [false_iff, not_and]
      intro hmem _ hcov
      have hle := (Mvcc.covers_iff.1 hcov).1
      rcases mem_cons.1 hmem with rfl | hmem
      · omega
      · obtain ⟨e, he, hlt⟩ := hlater _ hmem
        have := h.begin_lt_ended entry (by simp) e he
        omega
    · have hout : outlives frontier entry = true ∧ entry.covers snapshot = true := by
        unfold outlives Mvcc.Version.covers
        cases he : entry.ended with
        | none => simp; omega
        | some e =>
          simp [he] at hended
          simp [hended]
          omega
      constructor
      · rintro ⟨⟩
        exact ⟨by simp, hout⟩
      · rintro ⟨hmem, -, hcov⟩
        rw [h.eq_of_covers (by simp) hmem hout.2 hcov]
    · rw [ih htail]
      have hnot : ¬(outlives frontier entry = true ∧ entry.covers snapshot = true) := by
        rintro ⟨hout, hcov⟩
        apply hended
        cases he : entry.ended with
        | none => rfl
        | some e =>
          have := (Mvcc.covers_iff.1 hcov).2 e he
          simp [outlives, he] at hout
          simp
          omega
      constructor
      · rintro ⟨hmem, hrest⟩
        exact ⟨mem_cons_of_mem _ hmem, hrest⟩
      · rintro ⟨hmem, hrest⟩
        rcases mem_cons.1 hmem with rfl | hmem
        · exact absurd hrest hnot
        · exact ⟨hmem, hrest⟩

end DiskRows

/-! ### The store -/

/-- `RowStore`. -/
structure RowStore where
  base : Option DiskRows := none
  delta : ExtTreeMap ℕ VersionChain := ∅
  /-- Ended overlay versions awaiting durable projection. -/
  retired : ExtTreeMap ℕ VersionChain := ∅
  reclaimedBefore : ℕ := 0
  modifiedAt : ℕ := 0
  diskBase : Bool := false
  baseSequence : ℕ := 0

namespace RowStore

/-- `insert`. -/
def insert (rows : RowStore) (id : ℕ) (versions : VersionChain) : RowStore :=
  { rows with
    modifiedAt := versions.foldl
      (fun modifiedAt version => max (max modifiedAt version.begin) (version.ended.getD 0))
      rows.modifiedAt
    delta := rows.delta.insert id versions }

/-- `mark_modified`. -/
def markModified (rows : RowStore) (sequence : ℕ) : RowStore :=
  { rows with modifiedAt := max rows.modifiedAt sequence }

/-- `can_install_base`. -/
def canInstallBase (rows : RowStore) (sequence : ℕ) : Bool := rows.modifiedAt ≤ sequence

/-- `installed_sequence`. -/
def installedSequence (rows : RowStore) : Option ℕ :=
  if rows.diskBase then some rows.baseSequence else none

/-- `changed_row_ids`. -/
def changedRowIds (rows : RowStore) : List ℕ := rows.delta.keys ++ rows.retired.keys

/-- The versions of an overlay, each with its row. -/
def versionsOf (overlay : ExtTreeMap ℕ VersionChain) : List (ℕ × RowVersion) :=
  overlay.toList.flatMap fun (id, versions) => versions.map (id, ·)

/-- `checkpoint_delta`: what began or ended since the base. -/
def checkpointDelta (rows : RowStore) : List (ℕ × RowVersion) :=
  (versionsOf rows.delta ++ versionsOf rows.retired).filter fun (_, version) =>
    rows.baseSequence < version.begin || version.ended.any (rows.baseSequence < ·)

/-- `install_base`: a table that was modified after the checkpoint keeps its overlay. -/
def installBase (rows restored : RowStore) (sequence : ℕ) : RowStore :=
  if rows.canInstallBase sequence then
    { restored with reclaimedBefore := max restored.reclaimedBefore rows.reclaimedBefore }
  else rows

/-- `get`. -/
def get (rows : RowStore) (id : ℕ) : Option VersionChain :=
  match rows.delta[id]? with
  | some versions => if versions = [] then none else some versions
  | none =>
    match rows.base with
    | none => none
    | some base =>
      let versions := base.get id rows.reclaimedBefore
      if versions = [] then none else some versions

/-- `visible`. -/
def visible (rows : RowStore) (id snapshot : ℕ) : Option RowVersion :=
  match rows.delta[id]? with
  | some versions => Mvcc.visibleVersion versions snapshot
  | none => rows.base.bind fun base => base.visible id rows.reclaimedBefore snapshot

/-- `contains_key`. -/
def containsKey (rows : RowStore) (id : ℕ) : Bool :=
  match rows.delta[id]? with
  | some versions => versions ≠ []
  | none => rows.base.any fun base => base.contains id rows.reclaimedBefore

/-- The overlay side of `scan`. -/
def scanDelta (rows : RowStore) (snapshot : Option ℕ) : List (ℕ × VersionChain) :=
  rows.delta.toList.filterMap fun (id, versions) =>
    let versions := match snapshot with
      | some snapshot => (Mvcc.visibleVersion versions snapshot).toList
      | none => versions
    if versions = [] then none else some (id, versions)

/-- `scan`: base rows and overlay rows in the order of their identities. -/
def scan (rows : RowStore) (snapshot : Option ℕ) : List (ℕ × VersionChain) :=
  let base := match rows.base with
    | some base => base.scan rows.reclaimedBefore snapshot rows.delta
    | none => []
  base.merge (rows.scanDelta snapshot) fun left right => decide (left.1 < right.1)

/-- `iter`. -/
def iter (rows : RowStore) : List (ℕ × VersionChain) := rows.scan none

/-- The versions that `iter` lists, each with its row. -/
def allVersions (rows : RowStore) : List (ℕ × RowVersion) :=
  rows.iter.flatMap fun (id, versions) => versions.map (id, ·)

/-- `visible_rows`. -/
def visibleRows (rows : RowStore) (snapshot : ℕ) : List (ℕ × RowValues) :=
  (rows.scan (some snapshot)).filterMap fun (id, versions) =>
    versions.getLast?.map fun version => (id, version.values)

/-- `reclaimable`. -/
def reclaimable (rows : RowStore) (frontier : ℕ) : ℕ :=
  (match rows.base with
    | some base => base.reclaimable rows.reclaimedBefore frontier rows.delta
    | none => 0) +
  ((versionsOf rows.delta).filter fun (_, version) => version.ended.any (· ≤ frontier)).length

/-- One step of `reclaim_reserved`: the chain of one overlay row. -/
def reclaimRow (rows : RowStore) (frontier : ℕ) (id : ℕ) (versions : VersionChain) : RowStore :=
  if versions.any (fun version => version.ended.any (· ≤ frontier)) then
    let kept := versions.filter (outlives frontier)
    let retired := rows.retired.getD id [] ++ versions.filter fun version =>
      version.ended.any fun ended => ended ≤ frontier && rows.baseSequence < ended
    { rows with
      retired := if retired = [] then rows.retired else rows.retired.insert id retired
      -- an empty overlay must go on shadowing a row of the base
      delta := if kept = [] ∧ (rows.base.any fun base => base.contains id 0) = false then
          rows.delta.erase id
        else rows.delta.insert id kept }
  else rows

/-- `reclaim_reserved`. -/
def reclaimReserved (rows : RowStore) (frontier : ℕ) : RowStore :=
  rows.delta.toList.foldl (fun rows (id, versions) => rows.reclaimRow frontier id versions)
    { rows with reclaimedBefore := max rows.reclaimedBefore frontier }

/-- `reclaim`. -/
def reclaim (rows : RowStore) (frontier : ℕ) : RowStore :=
  if rows.delta.isEmpty then { rows with reclaimedBefore := max rows.reclaimedBefore frontier }
  else rows.reclaimReserved frontier

/-! ### What a store holds -/

/-- The versions of a row that readers of the store see. -/
def chain (rows : RowStore) (id : ℕ) : VersionChain :=
  match rows.delta[id]? with
  | some versions => versions
  | none => (rows.base.map fun base => base.get id rows.reclaimedBefore).getD []

/-- Every chain of the store is in order. -/
structure Ok (sequence : ℕ) (rows : RowStore) : Prop where
  delta_ok : ∀ (id : ℕ) versions, rows.delta[id]? = some versions → Mvcc.ChainOk sequence versions
  base_ok : ∀ base, rows.base = some base → ∀ id, Mvcc.ChainOk sequence (base.prefixCursor id)

/-- The entries of a row, as `prefix_cursor` reads them. -/
theorem filter_versionsOf (entries : ExtTreeMap ℕ VersionChain) (id : ℕ) :
    ((versionsOf entries).filter fun entry => entry.1 = id).map Prod.snd = entries.getD id [] := by
  have hrow : ∀ rows : List (ℕ × VersionChain), rows.Pairwise (fun a b => compare a.1 b.1 = .lt) →
      ((rows.flatMap fun (row, versions) => versions.map (row, ·)).filter
        fun entry => entry.1 = id).map Prod.snd = (rows.find? (·.1 = id)).elim [] Prod.snd := by
    intro rows hrows
    induction rows with
    | nil => rfl
    | cons head rows ih =>
      obtain ⟨row, versions⟩ := head
      obtain ⟨hhead, hrows⟩ := pairwise_cons.1 hrows
      rw [flatMap_cons, filter_append, map_append, ih hrows]
      by_cases hid : row = id
      · -- the later rows are not this one
        subst hid
        have hnone : rows.find? (·.1 = row) = none := by
          rw [find?_eq_none]
          intro other hmem
          have hlt := compare_lt_iff_lt.1 (hhead other hmem)
          simp only [decide_eq_true_eq]
          omega
        simp [hnone, filter_map, Function.comp_def]
      · simp [hid, filter_map, Function.comp_def]
  rw [versionsOf, hrow _ ExtTreeMap.ordered_keys_toList, ExtTreeMap.getD_eq_getD_getElem?]
  cases hfind : entries.toList.find? (·.1 = id) with
  | none =>
    have habsent : entries[id]? = none := by
      by_contra hsome
      obtain ⟨versions, hget⟩ := Option.ne_none_iff_exists'.1 hsome
      have hmem := ExtTreeMap.mem_toList_iff_getElem?_eq_some.2 hget
      simpa using find?_eq_none.1 hfind _ hmem
    rw [habsent]
    rfl
  | some found =>
    obtain ⟨row, versions⟩ := found
    obtain rfl : row = id := by simpa using find?_some hfind
    rw [ExtTreeMap.mem_toList_iff_getElem?_eq_some.1 (mem_of_find?_eq_some hfind)]
    rfl

theorem versionsOf_ordered (entries : ExtTreeMap ℕ VersionChain) :
    (versionsOf entries).Pairwise fun a b => a.1 ≤ b.1 := by
  rw [versionsOf, pairwise_flatMap]
  constructor
  · intro row _
    rw [pairwise_map]
    exact pairwise_of_forall fun _ _ => le_rfl
  · refine ExtTreeMap.ordered_keys_toList.imp ?_
    intro a b hlt x hx y hy
    obtain ⟨_, _, rfl⟩ := mem_map.1 hx
    obtain ⟨_, _, rfl⟩ := mem_map.1 hy
    exact (compare_lt_iff_lt.1 hlt).le

/-- Every chain of the base is in order. -/
def BaseOk (sequence : ℕ) (rows : RowStore) : Prop :=
  ∀ base, rows.base = some base → ∀ id, Mvcc.ChainOk sequence (base.prefixCursor id)

theorem get_eq (rows : RowStore) (id : ℕ) :
    rows.get id = if rows.chain id = [] then none else some (rows.chain id) := by
  unfold get chain
  cases rows.delta[id]? with
  | some versions => rfl
  | none => cases rows.base <;> simp

variable {rows : RowStore} {id : ℕ}

theorem get_eq_some :
    rows.get id = some versions ↔ versions = rows.chain id ∧ versions ≠ [] := by
  rw [get_eq]
  split_ifs with h
  · simp only [false_iff, not_and, not_not]
    rintro rfl
    exact h
  · simp only [Option.some.injEq]
    constructor
    · rintro rfl
      exact ⟨rfl, h⟩
    · rintro ⟨rfl, -⟩
      rfl

theorem Ok.chain_ok (h : Ok n rows) (id : ℕ) :
    Mvcc.ChainOk n (rows.chain id) := by
  unfold chain
  cases hd : rows.delta[id]? with
  | some versions => exact h.delta_ok id versions hd
  | none =>
    cases hb : rows.base with
    | none => exact .nil n
    | some base => exact (h.base_ok base hb id).sublist filter_sublist

theorem Ok.mono {m : ℕ} (h : Ok m rows) (hmn : m ≤ n) : Ok n rows :=
  ⟨fun id versions hd => (h.delta_ok id versions hd).mono hmn,
    fun base hb id => (h.base_ok base hb id).mono hmn⟩

theorem ok_default (n : ℕ) : Ok n {} :=
  ⟨fun id versions hd => by simp at hd, fun base hb => by cases hb⟩

theorem chain_insert (rows : RowStore) (id id' : ℕ) (versions : VersionChain) :
    (rows.insert id versions).chain id' = if id = id' then versions else rows.chain id' := by
  unfold chain insert
  simp only [ExtTreeMap.getElem?_insert, compare_eq_iff_eq]
  split_ifs <;> rfl

theorem Ok.insert (h : Ok n rows)
    (hv : Mvcc.ChainOk n versions) : Ok n (rows.insert id versions) := by
  refine ⟨fun id' versions' hd => ?_, h.base_ok⟩
  rw [RowStore.insert] at hd
  simp only [ExtTreeMap.getElem?_insert, compare_eq_iff_eq] at hd
  split_ifs at hd with hid
  · rwa [← Option.some.inj hd]
  · exact h.delta_ok id' versions' hd

theorem BaseOk.get_ok (h : BaseOk n rows) {base : DiskRows}
    (hb : rows.base = some base) (id : ℕ) : Mvcc.ChainOk n (base.get id rows.reclaimedBefore) :=
  (h base hb id).sublist filter_sublist

/-- **Reading a row** is reading its chain. -/
theorem BaseOk.visible_eq (h : BaseOk n rows) (id snapshot : ℕ) :
    rows.visible id snapshot = Mvcc.visibleVersion (rows.chain id) snapshot := by
  unfold visible chain
  cases hd : rows.delta[id]? with
  | some versions => rfl
  | none =>
    cases hb : rows.base with
    | none => rfl
    | some base =>
      have hok := h.get_ok hb id
      ext version
      change DiskRows.firstVisible _ _ _ = some version ↔
        Mvcc.visibleVersion (base.get id rows.reclaimedBefore) snapshot = some version
      rw [DiskRows.firstVisible_eq_some (h base hb id),
        Mvcc.ChainOk.visibleVersion_eq_some hok, DiskRows.get, mem_filter, and_assoc]

theorem Ok.visible_eq (h : Ok n rows) (id snapshot : ℕ) :
    rows.visible id snapshot = Mvcc.visibleVersion (rows.chain id) snapshot :=
  BaseOk.visible_eq h.base_ok id snapshot

/-- What a scan shows of a chain. -/
def shown (versions : VersionChain) : Option ℕ → VersionChain
  | none => versions
  | some snapshot => (Mvcc.visibleVersion versions snapshot).toList

theorem mem_scanDelta {snapshot : Option ℕ} :
    (id, versions) ∈ rows.scanDelta snapshot ↔
      id ∈ rows.delta ∧ versions ≠ [] ∧ versions = shown (rows.chain id) snapshot := by
  have hshown : ∀ chain : VersionChain, (match snapshot with
      | some snapshot => (Mvcc.visibleVersion chain snapshot).toList
      | none => chain) = shown chain snapshot := fun chain => by cases snapshot <;> rfl
  unfold scanDelta
  simp only [mem_filterMap, Prod.exists, hshown, ExtTreeMap.mem_toList_iff_getElem?_eq_some]
  constructor
  · rintro ⟨id', chain, hd, hif⟩
    split_ifs at hif with hnil
    obtain ⟨rfl, rfl⟩ := Prod.mk.inj (Option.some.inj hif)
    refine ⟨ExtTreeMap.mem_iff_isSome_getElem?.2 (by simp [hd]), hnil, ?_⟩
    rw [RowStore.chain, hd]
  · rintro ⟨hmem, hne, rfl⟩
    obtain ⟨chain, hd⟩ := Option.isSome_iff_exists.1 (ExtTreeMap.mem_iff_isSome_getElem?.1 hmem)
    have hchain : rows.chain id = chain := by rw [RowStore.chain, hd]
    refine ⟨id, chain, hd, ?_⟩
    rw [hchain] at hne ⊢
    rw [if_neg hne]

section

variable (h : BaseOk n rows)
include h

theorem BaseOk.mem_scanBase {base : DiskRows} (hb : rows.base = some base) {snapshot : Option ℕ} :
    (id, versions) ∈ base.scan rows.reclaimedBefore snapshot rows.delta ↔
      id ∉ rows.delta ∧ versions ≠ [] ∧ versions = shown (rows.chain id) snapshot := by
  -- what is kept of an unshadowed row
  have hkept : id ∉ rows.delta → (base.prefixCursor id).filter (fun entry =>
      !rows.delta.contains id && outlives rows.reclaimedBefore entry &&
        snapshot.all (entry.covers ·)) = shown (rows.chain id) snapshot := by
    intro hmem
    have hd : rows.delta[id]? = none := by simpa using hmem
    have hchain : rows.chain id = base.get id rows.reclaimedBefore := by
      rw [RowStore.chain, hd, hb]
      rfl
    have hok := h.get_ok hb id
    have hcontains : rows.delta.contains id = false := by
      rw [Bool.eq_false_iff]
      exact hmem
    rw [hchain, hcontains]
    cases snapshot with
    | none => simp [shown, DiskRows.get]
    | some snapshot =>
      rw [shown, ← hok.filter_covers, DiskRows.get, filter_filter]
      simp [Bool.and_comm]
  unfold DiskRows.scan
  simp only [mem_filterMap, Prod.exists, ExtTreeMap.mem_toList_iff_getElem?_eq_some]
  constructor
  · rintro ⟨id', chain, he, hif⟩
    split_ifs at hif with hnil
    obtain ⟨rfl, rfl⟩ := Prod.mk.inj (Option.some.inj hif)
    have hcursor : base.prefixCursor id' = chain := by
      rw [DiskRows.prefixCursor, ExtTreeMap.getD_eq_getD_getElem?, he, Option.getD_some]
    have hmem : id' ∉ rows.delta := fun hmem => hnil (by
      simp [hmem])
    refine ⟨hmem, hnil, ?_⟩
    rw [← hcursor, hkept hmem]
  · rintro ⟨hmem, hne, rfl⟩
    have hk := hkept hmem
    cases he : base.entries[id]? with
    | none =>
      rw [DiskRows.prefixCursor, ExtTreeMap.getD_eq_getD_getElem?, he] at hk
      exact absurd hk.symm (by simpa using hne)
    | some chain =>
      rw [DiskRows.prefixCursor, ExtTreeMap.getD_eq_getD_getElem?, he, Option.getD_some] at hk
      refine ⟨id, chain, he, ?_⟩
      rw [hk, if_neg hne]

/-- **A scan** shows every row, and of each what its chain shows. -/
theorem BaseOk.mem_scan {snapshot : Option ℕ}
    : (id, versions) ∈ rows.scan snapshot ↔
      versions ≠ [] ∧ versions = shown (rows.chain id) snapshot := by
  unfold scan
  rw [mem_merge, mem_scanDelta]
  cases hb : rows.base with
  | none =>
    have hempty : id ∉ rows.delta → shown (rows.chain id) snapshot = [] := fun hmem => by
      have hd : rows.delta[id]? = none := by simpa using hmem
      rw [RowStore.chain, hd, hb]
      cases snapshot <;> rfl
    simp only [not_mem_nil, false_or]
    constructor
    · exact fun h => h.2
    · rintro ⟨hne, rfl⟩
      exact ⟨by_contra fun hmem => hne (hempty hmem), hne, rfl⟩
  | some base =>
    rw [h.mem_scanBase hb]
    tauto

theorem BaseOk.mem_allVersions {v : RowVersion} :
    (id, v) ∈ rows.allVersions ↔ v ∈ rows.chain id := by
  simp only [allVersions, mem_flatMap, mem_map, Prod.exists, Prod.mk.injEq, iter, h.mem_scan, shown]
  constructor
  · rintro ⟨id', versions, ⟨-, rfl⟩, v', hv, rfl, rfl⟩
    exact hv
  · intro hv
    exact ⟨id, _, ⟨ne_nil_of_mem hv, rfl⟩, v, hv, rfl, rfl⟩

/-- **The visible rows** are those whose chain has a version at the snapshot. -/
theorem BaseOk.mem_visibleRows {snapshot : ℕ}
    {values : RowValues} : (id, values) ∈ rows.visibleRows snapshot ↔
      ∃ version, rows.visible id snapshot = some version ∧ version.values = values := by
  unfold visibleRows
  simp only [mem_filterMap, Prod.exists, h.mem_scan, shown, h.visible_eq]
  constructor
  · rintro ⟨id', versions, ⟨hne, rfl⟩, hlast⟩
    obtain ⟨version, hv, heq⟩ := Option.map_eq_some_iff.1 hlast
    obtain ⟨rfl, rfl⟩ := Prod.mk.inj heq
    cases hvis : Mvcc.visibleVersion (rows.chain id') snapshot with
    | none => simp [hvis] at hne
    | some w =>
      obtain rfl : w = version := by simpa [hvis] using hv
      exact ⟨w, rfl, rfl⟩
  · rintro ⟨version, hv, rfl⟩
    refine ⟨id, _, ⟨?_, rfl⟩, ?_⟩
    · simp [hv]
    · rw [hv]
      rfl

end

end RowStore

end ChironDB.Relational
