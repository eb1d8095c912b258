/-
# Tables

`TableState` of `chirondb-core/src/relational.rs` and the row edits: `set_index_row`,
`end_visible_row`, `replace_visible_row` and the insertion of `apply_batch`.
-/

import ChironDB.Relational.ScalarIndex

namespace ChironDB.Relational

open Codec
open Std (ExtTreeMap)

/-! ### Maps, entry by entry -/

section

variable {K V : Type} {cmp : K → K → Ordering} [Std.TransCmp cmp]

/-- Replace the values of a map one after the other, in the order of the keys. -/
def updateAll (f : K → V → Result V) (m : ExtTreeMap K V cmp) : Result (ExtTreeMap K V cmp) :=
  m.toList.foldlM (fun acc (k, v) => do return acc.insert k (← f k v)) m

end

/-! ### Index catalogs -/

/-- `IndexCatalog`. -/
abbrev IndexCatalog := ExtTreeMap (List String) ScalarIndex

/-- `IndexCatalog::new`. -/
def IndexCatalog.new (definition : TableDefinition) : Result IndexCatalog :=
  (indexSpecifications definition).foldlM (fun entries columns =>
    if entries.contains columns then return entries
    else do return entries.insert columns (← ScalarIndex.new definition columns)) ∅

/-- `TableState`; the directory of its files is left out. -/
structure TableState where
  definition : TableDefinition
  rows : RowStore
  nextRowId : ℕ
  indexes : IndexCatalog
  indexSegments : List IndexSegment
  indexSnapshot : ℕ

/-- The values of the columns of an index. -/
def indexValues (definition : TableDefinition) (columns : List String) (values : RowValues) :
    Result (List RelationalValue) :=
  columns.mapM fun column => do valueAt values (← columnIndex definition column)

namespace TableState

/-- `empty`. -/
def empty (definition : TableDefinition) : Result TableState := do
  let indexes ← IndexCatalog.new definition
  return ⟨definition, {}, 1, indexes, [], 0⟩

variable {table : TableState}

variable {versions : VersionChain}

section

variable [Chrono]

/-- `set_index_row`. -/
def setIndexRow (table : TableState) (rowId : ℕ) (values : RowValues) (present : Bool) :
    Result TableState := do
  let indexes ← updateAll (fun columns index => do
    index.set rowId (← indexValues table.definition columns values) present) table.indexes
  return { table with indexes }

/-- `index_row`. -/
def indexRow (table : TableState) (rowId : ℕ) (values : RowValues) : Result TableState :=
  table.setIndexRow rowId values true

/-- `unindex_row`. -/
def unindexRow (table : TableState) (rowId : ℕ) (values : RowValues) : Result TableState :=
  table.setIndexRow rowId values false

/-- The visible position of a row, or the errors of the row edits. -/
def visibleChain (table : TableState) (rowId sequence : ℕ) : Result (VersionChain × ℕ) :=
  match table.rows.get rowId with
  | none => .error (invalid s!"row {rowId} does not exist")
  | some versions =>
    match Mvcc.visiblePosition versions sequence with
    | none => .error (invalid s!"row {rowId} is not visible")
    | some position => .ok (versions, position)

/-- The values of the version at a position. -/
def valuesOf (versions : VersionChain) (position : ℕ) : RowValues :=
  ((versions[position]?).map (·.values)).getD []

/-- `end_visible_row`. -/
def endVisibleRow (table : TableState) (rowId sequence : ℕ) : Result TableState := do
  let (versions, position) ← table.visibleChain rowId sequence
  let table ← table.unindexRow rowId (valuesOf versions position)
  return { table with rows := table.rows.insert rowId (Mvcc.endAt versions position sequence) }

/-- `replace_visible_row`. -/
def replaceVisibleRow (table : TableState) (rowId sequence : ℕ) (values : RowValues) :
    Result TableState := do
  let (versions, position) ← table.visibleChain rowId sequence
  let table ← table.unindexRow rowId (valuesOf versions position)
  let table := { table with
    rows := table.rows.insert rowId (Mvcc.replaceAt versions position sequence values) }
  table.indexRow rowId values

/-- The insertion of one row by `apply_batch`. -/
def insertRow (table : TableState) (rowId sequence : ℕ) (values : RowValues) :
    Result TableState :=
  let versions := (table.rows.get rowId).getD [] ++ [⟨sequence, none, values⟩]
  let table := { table with
    nextRowId := max table.nextRowId (min (2 ^ 64 - 1) (rowId + 1))
    rows := table.rows.insert rowId versions }
  table.indexRow rowId values

/-! ### What the edits do -/

variable {table' : TableState} {rowId : ℕ}

/-- **`set_index_row`** changes the marks of the indexes and nothing else. -/
theorem setIndexRow_eq_ok {values : RowValues}
    {present : Bool} (h : table.setIndexRow rowId values present = .ok table') :
    ∃ indexes, table' = { table with indexes } ∧ updateAll (fun columns index => do
        index.set rowId (← indexValues table.definition columns values) present) table.indexes =
          .ok indexes := by
  obtain ⟨indexes, hidx, heq⟩ := bind_eq_ok.1 h
  exact ⟨indexes, (Except.ok.inj heq).symm, hidx⟩

theorem setIndexRow_rows {values : RowValues}
    {present : Bool} (h : table.setIndexRow rowId values present = .ok table') :
    table'.rows = table.rows := by
  obtain ⟨indexes, rfl, -⟩ := setIndexRow_eq_ok h
  rfl

variable {sequence : ℕ}

omit [Chrono] in
theorem visibleChain_eq_ok {position : ℕ}
    (h : table.visibleChain rowId sequence = .ok (versions, position)) :
    versions = table.rows.chain rowId ∧
      Mvcc.visiblePosition (table.rows.chain rowId) sequence = some position := by
  unfold visibleChain at h
  cases hget : table.rows.get rowId with
  | none => rw [hget] at h; cases h
  | some chain =>
    obtain ⟨rfl, -⟩ := RowStore.get_eq_some.1 hget
    rw [hget] at h
    cases hpos : Mvcc.visiblePosition (table.rows.chain rowId) sequence with
    | none => simp [hpos] at h
    | some i =>
      simp only [hpos] at h
      obtain ⟨rfl, rfl⟩ := Prod.mk.inj (Except.ok.inj h)
      exact ⟨rfl, rfl⟩

theorem endVisibleRow_eq_ok (h : table.endVisibleRow rowId sequence = .ok table') :
    ∃ position unindexed, Mvcc.visiblePosition (table.rows.chain rowId) sequence = some position ∧
      table.unindexRow rowId (valuesOf (table.rows.chain rowId) position) = .ok unindexed ∧
      table' = { unindexed with
        rows := table.rows.insert rowId
          (Mvcc.endAt (table.rows.chain rowId) position sequence) } := by
  obtain ⟨⟨versions, position⟩, hchain, h⟩ := bind_eq_ok.1 h
  obtain ⟨rfl, hpos⟩ := visibleChain_eq_ok hchain
  obtain ⟨unindexed, hun, heq⟩ := bind_eq_ok.1 h
  rw [setIndexRow_rows hun] at heq
  exact ⟨position, unindexed, hpos, hun, (Except.ok.inj heq).symm⟩

theorem replaceVisibleRow_eq_ok {values : RowValues}
    (h : table.replaceVisibleRow rowId sequence values = .ok table') :
    ∃ position unindexed, Mvcc.visiblePosition (table.rows.chain rowId) sequence = some position ∧
      table.unindexRow rowId (valuesOf (table.rows.chain rowId) position) = .ok unindexed ∧
      indexRow { unindexed with
        rows := table.rows.insert rowId
          (Mvcc.replaceAt (table.rows.chain rowId) position sequence values) } rowId values =
        .ok table' := by
  obtain ⟨⟨versions, position⟩, hchain, h⟩ := bind_eq_ok.1 h
  obtain ⟨rfl, hpos⟩ := visibleChain_eq_ok hchain
  obtain ⟨unindexed, hun, heq⟩ := bind_eq_ok.1 h
  rw [setIndexRow_rows hun] at heq
  exact ⟨position, unindexed, hpos, hun, heq⟩

end

/-! ### Runs of row edits -/

/-- The row edits of a batch. -/
inductive Edit
  | insert (rowId : ℕ) (values : RowValues)
  | replace (rowId : ℕ) (values : RowValues)
  | finish (rowId : ℕ)
  deriving DecidableEq, Repr

section

variable [Chrono]

/-- One edit at the sequence of its batch. -/
def edit (sequence : ℕ) (table : TableState) : Edit → Result TableState
  | .insert rowId values => table.insertRow rowId sequence values
  | .replace rowId values => table.replaceVisibleRow rowId sequence values
  | .finish rowId => table.endVisibleRow rowId sequence

/-- An inserted row is not visible yet, as when its identity was never used. -/
def Edit.isFresh (sequence : ℕ) (table : TableState) : Edit → Bool
  | .insert rowId _ => (table.rows.visible rowId sequence).isNone
  | .replace .. | .finish .. => true

/-- The edits of a batch, one after the other. -/
inductive Edits (sequence : ℕ) : TableState → List Edit → TableState → Prop
  | nil (table : TableState) : Edits sequence table [] table
  | cons {table next last : TableState} {e : Edit} {edits : List Edit}
      (hfresh : e.isFresh sequence table = true) (hedit : table.edit sequence e = .ok next)
      (hrest : Edits sequence next edits last) : Edits sequence table (e :: edits) last

/-- The tables that committed batches with increasing sequences make of an empty one. -/
inductive Committed (definition : TableDefinition) : ℕ → TableState → Prop
  | empty {table : TableState} (h : empty definition = .ok table) : Committed definition 0 table
  | batch {m n : ℕ} {table next : TableState} (edits : List Edit)
      (h : Committed definition m table) (hmn : m < n) (hedits : Edits n table edits next) :
      Committed definition n next

variable {n : ℕ}

variable {e : Edit} {next : TableState}

/-- The row store after an edit differs in one chain, which was pushed on, replaced or ended. -/
theorem edit_chain (hok : table.rows.Ok n) (hfresh : e.isFresh n table = true)
    (h : table.edit n e = .ok next) :
    ∃ rowId versions, next.rows = table.rows.insert rowId versions ∧ Mvcc.ChainOk n versions ∧
      Mvcc.Edited n (table.rows.chain rowId) versions := by
  have hchain := fun rowId => hok.chain_ok rowId
  cases e with
  | insert rowId values =>
    have hnone : Mvcc.visibleVersion (table.rows.chain rowId) n = none := by
      rw [← hok.visible_eq]
      simpa [Edit.isFresh] using hfresh
    have hpos := Mvcc.rposition_eq_none.2 (Mvcc.visibleVersion_eq_none.1 hnone)
    have hget : (table.rows.get rowId).getD [] = table.rows.chain rowId := by
      rw [RowStore.get_eq]
      split_ifs with hnil
      · rw [hnil, Option.getD_none]
      · rw [Option.getD_some]
    refine ⟨rowId, table.rows.chain rowId ++ [⟨n, none, values⟩], ?_,
      (hchain rowId).push hpos values, Mvcc.edited_push _ values⟩
    rw [setIndexRow_rows h, hget]
  | replace rowId values =>
    obtain ⟨position, unindexed, hpos, -, hidx⟩ := replaceVisibleRow_eq_ok h
    exact ⟨rowId, _, setIndexRow_rows hidx, (hchain rowId).replaceAt hpos values,
      (hchain rowId).edited_replaceAt hpos values⟩
  | finish rowId =>
    obtain ⟨position, unindexed, hpos, -, rfl⟩ := endVisibleRow_eq_ok h
    exact ⟨rowId, _, rfl, (hchain rowId).endAt hpos, (hchain rowId).edited_endAt hpos⟩

/-- **Step**: an edit keeps the chains in order and is not noticed below its sequence. -/
theorem Ok.edit (hok : table.rows.Ok n) (hfresh : e.isFresh n table = true)
    (h : table.edit n e = .ok next) :
    next.rows.Ok n ∧ ∀ snapshot < n, ∀ rowId,
      Mvcc.Unnoticed n snapshot (table.rows.chain rowId) (next.rows.chain rowId) := by
  obtain ⟨edited, versions, hrows, hversions, hedited⟩ := edit_chain hok hfresh h
  rw [hrows]
  refine ⟨hok.insert hversions, fun snapshot hs rowId => ?_⟩
  rw [RowStore.chain_insert]
  split_ifs with hid
  · rw [← hid]
    exact hedited.unnoticed hversions hs
  · exact .refl n snapshot _

/-- **Run of a batch**: any number of edits, of the same row or of others. -/
theorem Edits.ok {edits : List Edit} (h : Edits n table edits next) (hok : table.rows.Ok n) :
    next.rows.Ok n ∧ ∀ snapshot < n, ∀ rowId,
      Mvcc.Unnoticed n snapshot (table.rows.chain rowId) (next.rows.chain rowId) := by
  induction h with
  | nil table => exact ⟨hok, fun snapshot _ rowId => .refl n snapshot _⟩
  | cons hfresh hedit _ ih =>
    obtain ⟨hnext, hstep⟩ := Ok.edit hok hfresh hedit
    obtain ⟨hlast, hrest⟩ := ih hnext
    exact ⟨hlast, fun snapshot hs rowId =>
      (hstep snapshot hs rowId).trans (hrest snapshot hs rowId)⟩

/-- **Run**: the chains of every committed table are in order. -/
theorem Committed.ok {definition : TableDefinition}
    (h : Committed definition n table) : table.rows.Ok n := by
  induction h with
  | empty h =>
    obtain ⟨indexes, -, heq⟩ := bind_eq_ok.1 h
    cases heq
    exact RowStore.ok_default 0
  | batch edits _ hmn hedits ih => exact (hedits.ok (ih.mono hmn.le)).1

/-- A version chain is ordered by begin, its intervals are not empty and do not overlap, only
its last version may be open, and none begins after `sequence`. -/
structure InOrder (sequence : ℕ) (versions : VersionChain) : Prop where
  ordered : versions.Pairwise fun v w => v.begin < w.begin
  begin_lt_ended : ∀ v ∈ versions, ∀ e, v.ended = some e → v.begin < e
  disjoint : versions.Pairwise fun v w => ∃ e, v.ended = some e ∧ e ≤ w.begin
  closed : ∀ v ∈ versions.dropLast, v.ended ≠ none
  begin_le : ∀ v ∈ versions, v.begin ≤ sequence

omit [Chrono] in
theorem InOrder.of_chainOk (h : Mvcc.ChainOk n versions) : InOrder n versions := by
  refine ⟨?_, h.begin_lt_ended, h.closed_before, fun v hv => ?_, h.begin_le⟩
  · refine h.closed_before.imp_of_mem fun hv _ hclosed => ?_
    obtain ⟨e, he, hle⟩ := hclosed
    have hlt := h.begin_lt_ended _ hv e he
    omega
  · have hne : versions ≠ [] := fun hnil => by simp [hnil] at hv
    rw [← List.dropLast_append_getLast hne] at h
    obtain ⟨e, he, -⟩ := h.closed_of_concat v hv
    simp [he]

/-- **Chains and snapshots.** In every table that committed batches reach, every version chain
is in order and at most one version is visible at any snapshot; and the next batch, at
`m`, leaves `visible_version` at every snapshot below `m` with the same version of the
row, which it may at most have closed at `m`. -/
theorem committed_chains {definition : TableDefinition} {n : ℕ} {table : TableState}
    (h : Committed definition n table) :
    (∀ rowId, InOrder n (table.rows.chain rowId) ∧
      ∀ snapshot, ((table.rows.chain rowId).filter (·.covers snapshot)).length ≤ 1) ∧
    ∀ m edits next, n < m → Edits m table edits next → ∀ snapshot < m, ∀ rowId,
      Option.Rel (Mvcc.Version.ClosesTo m) (Mvcc.visibleVersion (table.rows.chain rowId) snapshot)
        (Mvcc.visibleVersion (next.rows.chain rowId) snapshot) := by
  have hok := h.ok
  refine ⟨fun rowId => ⟨.of_chainOk (hok.chain_ok rowId), fun snapshot => ?_⟩, ?_⟩
  · exact (hok.chain_ok rowId).filter_covers_length_le snapshot
  · intro m edits next hnm hedits snapshot hs rowId
    exact (hedits.ok (hok.mono hnm.le)).2 snapshot hs rowId

end

section

attribute [local instance] sampleChrono

/-- A table with an indexed primary key. -/
def accounts : TableDefinition where
  tableId := 1
  name := "accounts"
  columns := [⟨"id", .integer, false, none, none⟩, ⟨"owner", .text, true, none, none⟩]
  primaryKey := ["id"]
  primaryKeyIndexId := some 2

theorem committed_chains_accounts :
    ∃ table next, Committed accounts 2 table ∧
      Edits 3 table [.replace 1 [.integer 1, .text "b"], .finish 2] next ∧
      (table.rows.chain 1).length = 2 ∧
      Option.Rel (Mvcc.Version.ClosesTo 3) (Mvcc.visibleVersion (table.rows.chain 1) 2)
        (Mvcc.visibleVersion (next.rows.chain 1) 2) := by
  have hrun : ∃ table, Committed accounts 2 table ∧ ∃ next,
      Edits 3 table [.replace 1 [.integer 1, .text "b"], .finish 2] next ∧
      (table.rows.chain 1).length = 2 :=
    ⟨_, .batch [.replace 1 [.integer 1, .null]]
      (.batch [.insert 1 [.integer 1, .text "a"], .insert 2 [.integer 2, .null]]
        (.empty rfl) Nat.one_pos (.cons rfl rfl (.cons rfl rfl (.nil _)))) (Nat.lt_succ_self 1)
        (.cons rfl rfl (.nil _)), _, .cons rfl rfl (.cons rfl rfl (.nil _)), rfl⟩
  obtain ⟨table, hcommitted, next, hedits, hlength⟩ := hrun
  exact ⟨table, next, hcommitted, hedits, hlength,
    (committed_chains hcommitted).2 3 _ next (by decide) hedits 2 (by decide) 1⟩

end

/-! ### Tables as maps over time -/

/-- What an edit does to the rows, as a map from row identities to values. -/
def Edit.effect : Edit → (ℕ → Option RowValues) → ℕ → Option RowValues
  | .insert rowId values, rows | .replace rowId values, rows =>
    Function.update rows rowId (some values)
  | .finish rowId, rows => Function.update rows rowId none

/-- The rows that a reader of a snapshot sees. -/
def rowsAt (table : TableState) (snapshot rowId : ℕ) : Option RowValues :=
  (table.rows.visible rowId snapshot).map (·.values)

section

variable [Chrono] {next : TableState} {n snapshot : ℕ}

omit [Chrono] in
theorem rowsAt_insert {rowId : ℕ} (hok : table.rows.Ok n) (hnext : next.rows.Ok n)
    (hrows : next.rows = table.rows.insert rowId versions) :
    next.rowsAt snapshot = Function.update (table.rowsAt snapshot) rowId
      ((Mvcc.visibleVersion versions snapshot).map (·.values)) := by
  funext id
  rw [rowsAt, hnext.visible_eq, hrows, RowStore.chain_insert, Function.update_apply, rowsAt,
    hok.visible_eq]
  simp only [eq_comm]
  split_ifs <;> rfl

/-- **An edit does to the rows what it does to a map**, at every snapshot from its sequence on. -/
theorem rowsAt_edit {e : Edit} (hok : table.rows.Ok n) (hnext : next.rows.Ok n)
    (h : table.edit n e = .ok next) (hs : n ≤ snapshot) :
    next.rowsAt snapshot = e.effect (table.rowsAt snapshot) := by
  cases e with
  | insert rowId values =>
    have hrows := setIndexRow_rows h
    have hchain := hnext.chain_ok rowId
    rw [hrows, RowStore.chain_insert, if_pos rfl] at hchain
    rw [rowsAt_insert hok hnext hrows, hchain.visible_last rfl hs]
    rfl
  | replace rowId values =>
    obtain ⟨position, unindexed, hpos, -, hidx⟩ := replaceVisibleRow_eq_ok h
    rw [rowsAt_insert hok hnext (setIndexRow_rows hidx),
      (hok.chain_ok rowId).visible_replaceAt hpos values hs]
    rfl
  | finish rowId =>
    obtain ⟨position, unindexed, hpos, -, heq⟩ := endVisibleRow_eq_ok h
    rw [rowsAt_insert hok hnext (congrArg rows heq), (hok.chain_ok rowId).visible_endAt hpos hs]
    rfl

/-- The tables that edits make of an empty one, with the edits and the sequences of their batches,
the last one first. -/
inductive Recorded (definition : TableDefinition) : List (ℕ × Edit) → TableState → Prop
  | empty {table : TableState} (h : empty definition = .ok table) : Recorded definition [] table
  | edit {n : ℕ} {e : Edit} {past : List (ℕ × Edit)} {table next : TableState}
      (h : Recorded definition past table) (hn : ∀ edit ∈ past, edit.1 ≤ n)
      (hfresh : e.isFresh n table = true) (hedit : table.edit n e = .ok next) :
      Recorded definition ((n, e) :: past) next

variable {definition : TableDefinition} {past : List (ℕ × Edit)}

theorem Recorded.ok (h : Recorded definition past table) (hn : ∀ edit ∈ past, edit.1 ≤ n) :
    table.rows.Ok n := by
  induction h generalizing n with
  | empty h => exact (Committed.empty h).ok.mono (Nat.zero_le n)
  | edit h hpast hfresh hedit ih =>
    exact (Ok.edit (ih hpast) hfresh hedit).1.mono (hn _ List.mem_cons_self)

/-- **A table is a map with a history.**  Whatever batches were committed, a reader of any snapshot
sees the map that the edits up to it make of the empty one, also where a batch rewrites or removes
one row many times, and whatever later batches did. -/
theorem rowsAt_eq_replay (h : Recorded definition past table) (snapshot : ℕ) :
    table.rowsAt snapshot =
      (past.filter (·.1 ≤ snapshot)).foldr (fun edit => edit.2.effect) fun _ => none := by
  induction h with
  | empty h =>
    obtain ⟨indexes, -, heq⟩ := bind_eq_ok.1 h
    cases heq
    rfl
  | @edit n e past table next h hn hfresh hedit ih =>
    have hok := h.ok hn
    obtain ⟨hnext, hunnoticed⟩ := Ok.edit hok hfresh hedit
    by_cases hs : n ≤ snapshot
    · rw [rowsAt_edit hok hnext hedit hs, ih, List.filter_cons_of_pos (by simpa using hs)]
      rfl
    · rw [List.filter_cons_of_neg (by simpa using hs), ← ih]
      funext rowId
      rw [rowsAt, rowsAt, hnext.visible_eq, hok.visible_eq]
      exact (hunnoticed snapshot (Nat.not_le.mp hs) rowId).values_eq

end

section

attribute [local instance] sampleChrono

theorem rowsAt_eq_replay_accounts :
    ∃ table, Recorded accounts [(5, .finish 1), (2, .insert 1 [.integer 1, .null])] table ∧
      table.rowsAt 4 1 = some [.integer 1, .null] ∧ table.rowsAt 5 1 = none := by
  obtain ⟨table, h⟩ : ∃ table, Recorded accounts
      [(5, .finish 1), (2, .insert 1 [.integer 1, .null])] table :=
    ⟨_, .edit (.edit (.empty rfl) (by decide) rfl rfl) (by decide) rfl rfl⟩
  refine ⟨table, h, ?_, ?_⟩ <;> rw [rowsAt_eq_replay h] <;> rfl

end

end TableState

end ChironDB.Relational
