/-
# Readers of rows

Three ways lead to the rows of a `RowStore` (`relational/rows.rs`, `rows/locator.rs`): `visible`
seeks one row, `visible_rows` scans all of them, and `OrderedRowReader` serves a caller that asks
for one row after the other.  The ordered reader goes on with the cursor of its last call when the
next row is the physical neighbour, and seeks otherwise.  An answer found early leaves that cursor
inside the versions of its row, and the first entry of a later row is kept as pending.

The scan lists exactly the rows `visible` finds, and the ordered reader answers every sequence of
calls as `visible` does.  For the reader this needs no assumption
on the base: `OrderedReader.Follows` keeps that what the cursor has passed lies at or below the row
it was last asked for.
-/

import ChironDB.Relational.RowStore

namespace ChironDB.Relational

open List

open Std (ExtTreeMap)

namespace DiskRows

/-- The entries of the locator file: sorted by row identity, then by begin. -/
def locator (base : DiskRows) : List (ℕ × RowVersion) := RowStore.versionsOf base.entries

/-- `range_cursor_from` of a row identity. -/
def rangeCursorFrom (base : DiskRows) (id : ℕ) : List (ℕ × RowVersion) :=
  base.locator.dropWhile fun entry => entry.1 < id

end DiskRows

/-! ### The ordered reader -/

/-- `locator::OrderedReader`. -/
structure OrderedReader where
  rows : DiskRows
  cursor : Option (List (ℕ × RowVersion)) := none
  pending : Option (ℕ × RowVersion) := none
  previousId : Option ℕ := none

namespace OrderedReader

/-- The loop of `visible` over the pending entry and the cursor: its answer, and the entry
and the cursor it leaves. -/
def advance (id frontier snapshot : ℕ) : List (ℕ × RowVersion) →
    Option RowVersion × Option (ℕ × RowVersion) × List (ℕ × RowVersion)
  | [] => (none, none, [])
  | entry :: rest =>
    if entry.1 < id then advance id frontier snapshot rest
    else if id < entry.1 then (none, some entry, rest)
    else if snapshot < entry.2.begin then (none, none, rest)
    else if entry.2.ended.all (fun ended => frontier < ended && snapshot < ended) then
      (some entry.2, none, rest)
    else advance id frontier snapshot rest

/-- What the next call reads first: the pending entry, then the cursor. -/
def stream (reader : OrderedReader) : List (ℕ × RowVersion) :=
  reader.pending.toList ++ reader.cursor.getD []

/-- `visible`: only the row behind the last one goes on with the cursor. -/
def visible (reader : OrderedReader) (id frontier snapshot : ℕ) :
    Option RowVersion × OrderedReader :=
  let stream := if reader.previousId.map (· + 1) = some id then reader.stream
    else reader.rows.rangeCursorFrom id
  let (answer, pending, cursor) := advance id frontier snapshot stream
  (answer, { reader with cursor := some cursor, pending := pending, previousId := some id })

/-- What the reader has passed lies at or below the row of its last call. -/
def Follows (reader : OrderedReader) : Prop :=
  ∀ previous, reader.previousId = some previous →
    ∃ passed, reader.rows.locator = passed ++ reader.stream ∧ ∀ entry ∈ passed, entry.1 ≤ previous

/-- **The loop finds what the row's own entries give**, wherever in the file it starts. -/
theorem advance_fst (id frontier snapshot : ℕ) {entries : List (ℕ × RowVersion)}
    (hordered : entries.Pairwise fun a b => a.1 ≤ b.1) :
    (advance id frontier snapshot entries).1 = DiskRows.firstVisible frontier snapshot
      ((entries.filter fun entry => entry.1 = id).map Prod.snd) := by
  induction entries with
  | nil => rfl
  | cons entry rest ih =>
    obtain ⟨hhead, hrest⟩ := pairwise_cons.1 hordered
    rw [advance]
    split_ifs with hbelow habove hbegin hended
    · rw [filter_cons_of_neg (by simp; omega)]
      exact ih hrest
    · -- the row has no entry behind a later row
      have hnone : (entry :: rest).filter (fun entry => entry.1 = id) = [] := by
        rw [filter_eq_nil_iff]
        intro other hmem
        have : entry.1 ≤ other.1 := by
          rcases mem_cons.1 hmem with rfl | hmem
          · exact le_rfl
          · exact hhead other hmem
        simp only [decide_eq_true_eq]
        omega
      rw [hnone]
      rfl
    all_goals
      have hid : entry.1 = id := by omega
      rw [filter_cons_of_pos (by simpa using hid), map_cons, DiskRows.firstVisible]
    · rw [if_pos hbegin]
    · rw [if_neg hbegin, if_pos hended]
    · rw [if_neg hbegin, if_neg hended]
      exact ih hrest

/-- What the loop passes lies at or below its row. -/
theorem advance_passed (id frontier snapshot : ℕ) (entries : List (ℕ × RowVersion)) :
    ∃ passed, entries = passed ++ ((advance id frontier snapshot entries).2.1.toList ++
      (advance id frontier snapshot entries).2.2) ∧ ∀ entry ∈ passed, entry.1 ≤ id := by
  induction entries with
  | nil => exact ⟨[], rfl, by simp⟩
  | cons entry rest ih =>
    obtain ⟨passed, hpassed, hle⟩ := ih
    rw [advance]
    split_ifs with hbelow habove hbegin hended
    · refine ⟨entry :: passed, by rw [cons_append, ← hpassed], ?_⟩
      simp only [forall_mem_cons]
      exact ⟨hbelow.le, hle⟩
    · exact ⟨[], rfl, by simp⟩
    · exact ⟨[entry], rfl, by simp; omega⟩
    · exact ⟨[entry], rfl, by simp; omega⟩
    · refine ⟨entry :: passed, by rw [cons_append, ← hpassed], ?_⟩
      simp only [forall_mem_cons]
      exact ⟨by omega, hle⟩

/-- What a call reads is a rest of the file behind rows below its own. -/
theorem Follows.stream {reader : OrderedReader} (h : reader.Follows) (id : ℕ) :
    ∃ passed, reader.rows.locator = passed ++
        (if reader.previousId.map (· + 1) = some id then reader.stream
          else reader.rows.rangeCursorFrom id) ∧ ∀ entry ∈ passed, entry.1 < id := by
  split_ifs with hnext
  · obtain ⟨previous, hprevious, rfl⟩ := Option.map_eq_some_iff.1 hnext
    obtain ⟨passed, hpassed, hle⟩ := h previous hprevious
    exact ⟨passed, hpassed, fun entry hmem => Nat.lt_succ_of_le (hle entry hmem)⟩
  · refine ⟨reader.rows.locator.takeWhile fun entry => entry.1 < id,
      takeWhile_append_dropWhile.symm, ?_⟩
    intro entry hmem
    simpa using mem_takeWhile_imp hmem

/-- **One call answers as `DiskRows::visible`** and leaves a reader that follows. -/
theorem Follows.visible {reader : OrderedReader} (h : reader.Follows) (id frontier snapshot : ℕ) :
    (reader.visible id frontier snapshot).1 = reader.rows.visible id frontier snapshot ∧
      (reader.visible id frontier snapshot).2.rows = reader.rows ∧
      (reader.visible id frontier snapshot).2.Follows := by
  obtain ⟨passed, hpassed, hlt⟩ := h.stream id
  rw [OrderedReader.visible]
  generalize (if reader.previousId.map (· + 1) = some id then reader.stream
    else reader.rows.rangeCursorFrom id) = entries at hpassed ⊢
  have hordered : entries.Pairwise fun a b => a.1 ≤ b.1 := by
    have hfile := RowStore.versionsOf_ordered reader.rows.entries
    rw [← DiskRows.locator, hpassed] at hfile
    exact (pairwise_append.1 hfile).2.1
  refine ⟨?_, rfl, ?_⟩
  · have hskip : passed.filter (fun entry => entry.1 = id) = [] := by
      rw [filter_eq_nil_iff]
      intro entry hmem
      have := hlt entry hmem
      simp only [decide_eq_true_eq]
      omega
    have hrow := RowStore.filter_versionsOf reader.rows.entries id
    rw [← DiskRows.locator, hpassed, filter_append, hskip, nil_append] at hrow
    show (advance id frontier snapshot entries).1 = _
    rw [advance_fst id frontier snapshot hordered, hrow]
    rfl
  · rintro previous ⟨⟩
    obtain ⟨more, hmore, hle⟩ := advance_passed id frontier snapshot entries
    refine ⟨passed ++ more, ?_, ?_⟩
    · show reader.rows.locator = passed ++ more ++ _
      rw [append_assoc, hpassed]
      exact congrArg _ hmore
    · intro entry hmem
      rcases mem_append.1 hmem with hmem | hmem
      · exact (hlt entry hmem).le
      · exact hle entry hmem

end OrderedReader

/-- `OrderedRowReader`. -/
structure OrderedRowReader where
  store : RowStore
  disk : Option OrderedReader

namespace OrderedRowReader

/-- `visible`: a row of the overlay leaves the reader of the base where it is. -/
def visible (reader : OrderedRowReader) (id snapshot : ℕ) : Option RowVersion × OrderedRowReader :=
  match reader.store.delta[id]? with
  | some versions => (Mvcc.visibleVersion versions snapshot, reader)
  | none =>
    match reader.disk with
    | none => (none, reader)
    | some disk =>
      let (answer, disk) := disk.visible id reader.store.reclaimedBefore snapshot
      (answer, { reader with disk := some disk })

/-- The answers to a sequence of calls, each with its row and snapshot. -/
def answers (reader : OrderedRowReader) : List (ℕ × ℕ) → List (Option RowVersion)
  | [] => []
  | (id, snapshot) :: calls =>
    let (answer, reader) := reader.visible id snapshot
    answer :: reader.answers calls

/-- The reader of the base follows the file of the store's base. -/
def Follows (rows : RowStore) (reader : OrderedRowReader) : Prop :=
  reader.store = rows ∧ reader.disk.map OrderedReader.rows = rows.base ∧
    ∀ disk, reader.disk = some disk → disk.Follows

theorem Follows.visible {rows : RowStore} {reader : OrderedRowReader} (h : Follows rows reader)
    (id snapshot : ℕ) : (reader.visible id snapshot).1 = rows.visible id snapshot ∧
      Follows rows (reader.visible id snapshot).2 := by
  obtain ⟨rfl, hbase, hdisk⟩ := h
  rw [OrderedRowReader.visible, RowStore.visible, ← hbase]
  cases hd : reader.store.delta[id]? with
  | some versions => exact ⟨rfl, rfl, hbase, hdisk⟩
  | none =>
    cases hreader : reader.disk with
    | none => exact ⟨rfl, rfl, hbase, hdisk⟩
    | some disk =>
      obtain ⟨hanswer, hrows, hfollows⟩ :=
        (hdisk disk hreader).visible id reader.store.reclaimedBefore snapshot
      refine ⟨hanswer, rfl, ?_, ?_⟩
      · rw [← hbase, hreader]
        exact congrArg some hrows
      · rintro _ ⟨⟩
        exact hfollows

theorem Follows.answers {rows : RowStore} {reader : OrderedRowReader} (h : Follows rows reader)
    (calls : List (ℕ × ℕ)) :
    reader.answers calls = calls.map fun (id, snapshot) => rows.visible id snapshot := by
  induction calls generalizing reader with
  | nil => rfl
  | cons call calls ih =>
    obtain ⟨hanswer, hnext⟩ := h.visible call.1 call.2
    show (reader.visible call.1 call.2).1 :: (reader.visible call.1 call.2).2.answers calls = _
    rw [map_cons, ih hnext, hanswer]

end OrderedRowReader

/-! ### The scan -/

/-- Two ascending lists without a common row merge into an ascending one. -/
theorem ascending_merge {α : Type} {left right : List (ℕ × α)}
    (hleft : left.Pairwise fun a b => a.1 < b.1) (hright : right.Pairwise fun a b => a.1 < b.1)
    (hapart : ∀ a ∈ left, ∀ b ∈ right, a.1 ≠ b.1) :
    (left.merge right fun a b => decide (a.1 < b.1)).Pairwise fun a b => a.1 < b.1 := by
  induction left generalizing right with
  | nil => simpa using hright
  | cons a left ihl =>
    obtain ⟨ha, hleft⟩ := pairwise_cons.1 hleft
    induction right with
    | nil =>
      rw [merge_right]
      exact pairwise_cons.2 ⟨ha, hleft⟩
    | cons b right ihr =>
      obtain ⟨hb, hrest⟩ := pairwise_cons.1 hright
      have hne := hapart a mem_cons_self b mem_cons_self
      rw [cons_merge_cons]
      split_ifs with hlt
      · rw [decide_eq_true_eq] at hlt
        refine pairwise_cons.2 ⟨?_, ihl hleft hright fun x hx => hapart x (.tail _ hx)⟩
        intro x hx
        rcases mem_merge.1 hx with hx | hx
        · exact ha x hx
        · rcases mem_cons.1 hx with rfl | hx
          · exact hlt
          · exact hlt.trans (hb x hx)
      · rw [decide_eq_true_eq] at hlt
        refine pairwise_cons.2 ⟨?_, ihr hrest fun x hx y hy => hapart x hx y (.tail _ hy)⟩
        intro x hx
        rcases mem_merge.1 hx with hx | hx
        · rcases mem_cons.1 hx with rfl | hx
          · omega
          · have := ha x hx
            omega
        · exact hb x hx

namespace RowStore

/-- What rows of a map give in its order is in the order of the rows. -/
theorem ascending_filterMap {β : Type} (rows : ExtTreeMap ℕ VersionChain)
    (f : ℕ × VersionChain → Option (ℕ × β))
    (hf : ∀ row shown, f row = some shown → shown.1 = row.1) :
    (rows.toList.filterMap f).Pairwise fun a b => a.1 < b.1 := by
  rw [pairwise_filterMap]
  refine ExtTreeMap.ordered_keys_toList.imp ?_
  intro a b hlt x hx y hy
  rw [hf a x hx, hf b y hy]
  exact compare_lt_iff_lt.1 hlt

theorem ascending_scan (rows : RowStore) (snapshot : Option ℕ) :
    (rows.scan snapshot).Pairwise fun a b => a.1 < b.1 := by
  have hdelta : (rows.scanDelta snapshot).Pairwise fun a b => a.1 < b.1 := by
    refine ascending_filterMap _ _ fun row shown hshown => ?_
    dsimp only at hshown
    split_ifs at hshown
    rw [← Option.some.inj hshown]
  cases hb : rows.base with
  | none =>
    rw [scan, hb]
    exact ascending_merge .nil hdelta (by simp)
  | some base =>
    rw [scan, hb]
    refine ascending_merge ?_ hdelta ?_
    · refine ascending_filterMap _ _ fun row shown hshown => ?_
      dsimp only at hshown
      split_ifs at hshown
      rw [← Option.some.inj hshown]
    · -- the scan of the base skips what the overlay shadows
      rintro ⟨id, kept⟩ hkept ⟨other, versions⟩ hversions rfl
      have hmem := (mem_scanDelta.1 hversions).1
      obtain ⟨⟨row, chain⟩, -, hif⟩ := mem_filterMap.1 hkept
      dsimp only at hif
      split_ifs at hif with hnil
      obtain ⟨rfl, -⟩ := Prod.mk.inj (Option.some.inj hif)
      exact hnil (by simp [hmem])

/-- A scan at a snapshot shows one version of each row it lists. -/
theorem BaseOk.mem_scan_some {n : ℕ} {rows : RowStore} (h : BaseOk n rows) {snapshot id : ℕ}
    {versions : VersionChain} : (id, versions) ∈ rows.scan (some snapshot) ↔
      ∃ version, versions = [version] ∧ rows.visible id snapshot = some version := by
  rw [h.mem_scan, h.visible_eq, shown]
  cases Mvcc.visibleVersion (rows.chain id) snapshot with
  | none =>
    constructor
    · rintro ⟨hne, rfl⟩
      exact absurd rfl hne
    · rintro ⟨_, -, ⟨⟩⟩
  | some version =>
    constructor
    · rintro ⟨-, rfl⟩
      exact ⟨version, rfl, rfl⟩
    · rintro ⟨_, rfl, ⟨⟩⟩
      exact ⟨by simp, rfl⟩

/-- `ordered_reader`. -/
def orderedReader (rows : RowStore) : OrderedRowReader :=
  { store := rows, disk := rows.base.map fun base => { rows := base } }

/-- **Readers of rows agree.**  The scan lists the rows `visible` finds, with the version it finds,
once each and in the order of their identities; the ordered reader answers every sequence of calls
as `visible` does. -/
theorem row_readers_agree (rows : RowStore) (hbase : ∀ base, rows.base = some base →
      ∀ id, Mvcc.ChainOk base.sequence (base.prefixCursor id)) (snapshot : ℕ) :
    (rows.visibleRows snapshot).Pairwise (fun a b => a.1 < b.1) ∧
      (∀ id values, (id, values) ∈ rows.visibleRows snapshot ↔
        ∃ version, rows.visible id snapshot = some version ∧ version.values = values) ∧
      (∀ id versions, (id, versions) ∈ rows.scan (some snapshot) ↔
        ∃ version, versions = [version] ∧ rows.visible id snapshot = some version) ∧
      ∀ calls : List (ℕ × ℕ), rows.orderedReader.answers calls =
        calls.map fun (id, snapshot) => rows.visible id snapshot := by
  have hok : BaseOk ((rows.base.map DiskRows.sequence).getD 0) rows := by
    intro base hb id
    rw [hb]
    exact hbase base hb id
  refine ⟨?_, fun id values => hok.mem_visibleRows, fun id versions => hok.mem_scan_some,
    fun calls => ?_⟩
  · rw [visibleRows, pairwise_filterMap]
    refine (rows.ascending_scan (some snapshot)).imp ?_
    rintro ⟨a, va⟩ ⟨b, vb⟩ hlt x hx y hy
    obtain ⟨_, -, rfl⟩ := Option.map_eq_some_iff.1 hx
    obtain ⟨_, -, rfl⟩ := Option.map_eq_some_iff.1 hy
    exact hlt
  · refine OrderedRowReader.Follows.answers ⟨rfl, ?_, ?_⟩ calls
    · rw [orderedReader, Option.map_map]
      exact Option.map_id'
    · intro disk hdisk previous hprevious
      obtain ⟨base, -, rfl⟩ := Option.map_eq_some_iff.1 hdisk
      cases hprevious

/-- Row 1 of the base has two versions, row 3 has one, and the overlay holds row 2. -/
def exampleRows : RowStore :=
  { base := some {
      entries := ((∅ : ExtTreeMap ℕ VersionChain).insert 1 [⟨1, some 3, [.integer 10]⟩,
        ⟨3, none, [.integer 11]⟩]).insert 3 [⟨2, none, [.integer 30]⟩]
      sequence := 4, nextRowId := 4, minEnd := some 3, maxEnd := some 3 }
    delta := (∅ : ExtTreeMap ℕ VersionChain).insert 2 [⟨5, none, [.integer 20]⟩] }

theorem row_readers_agree_example :
    exampleRows.orderedReader.answers [(1, 2), (2, 5), (2, 4), (3, 2), (4, 2), (1, 3)] =
      [some ⟨1, some 3, [.integer 10]⟩, some ⟨5, none, [.integer 20]⟩, none,
        some ⟨2, none, [.integer 30]⟩, none, some ⟨3, none, [.integer 11]⟩] := by
  have hbase : ∀ base, exampleRows.base = some base →
      ∀ id, Mvcc.ChainOk base.sequence (base.prefixCursor id) := by
    rintro _ ⟨⟩ id
    rw [DiskRows.prefixCursor, ExtTreeMap.getD_insert, ExtTreeMap.getD_insert]
    split_ifs
    · exact ⟨by simp, by simp, by simp, by simp⟩
    · exact ⟨by simp, by simp, by simp, by simp⟩
    · exact .nil _
  rw [(row_readers_agree exampleRows hbase 2).2.2.2]
  decide +kernel

end RowStore

end ChironDB.Relational
