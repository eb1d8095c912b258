/-
# Garbage collection

`RowStore::reclaim` (`relational/rows.rs`) hides the versions that ended up to a frontier.  The
base is immutable, so the frontier is only remembered for it; the overlay loses its ended versions
at once.  Those that the base does not know to be ended are kept as retired until a checkpoint
writes them, and an overlay chain that becomes empty stays where the base still has the row.

`delta_reclaim` says what happens to each row, `built_of_build` what the base's own loading
checks; the last theorem puts the promises of garbage collection together.
-/

import ChironDB.Fault.Result
import ChironDB.Relational.RowStore

namespace ChironDB.Relational

open List

open Std (ExtTreeMap)
open Mvcc (outlives)

variable {base : DiskRows} {rows : RowStore}

namespace RowStore

/-- The retired versions of a row. -/
def retiredOf (rows : RowStore) (id : ℕ) : VersionChain := rows.retired.getD id []

/-! ### What `reclaim` does to a row -/

/-- What `reclaim` does not touch. -/
def frame (rows : RowStore) : Option DiskRows × ℕ × ℕ × ℕ × Bool :=
  (rows.base, rows.baseSequence, rows.reclaimedBefore, rows.modifiedAt, rows.diskBase)

section

variable {f id : ℕ} {versions : VersionChain}

theorem frame_reclaimRow (rows : RowStore) (f id : ℕ) (versions : VersionChain) :
    (rows.reclaimRow f id versions).frame = rows.frame := by
  unfold reclaimRow
  split_ifs <;> rfl

theorem reclaimRow_of_ne (rows : RowStore) (f : ℕ) (versions : VersionChain) {other : ℕ}
    (hne : id ≠ other) :
    (rows.reclaimRow f id versions).delta[other]? = rows.delta[other]? ∧
      (rows.reclaimRow f id versions).retired[other]? = rows.retired[other]? := by
  have hcompare : ¬compare id other = .eq := fun h => hne (Std.LawfulEqOrd.eq_of_compare h)
  unfold reclaimRow
  split_ifs with hany
  · constructor
    · simp only
      split_ifs
      · rw [ExtTreeMap.getElem?_erase, if_neg hcompare]
      · rw [ExtTreeMap.getElem?_insert, if_neg hcompare]
    · simp only
      split_ifs
      · rfl
      · rw [ExtTreeMap.getElem?_insert, if_neg hcompare]
  · exact ⟨rfl, rfl⟩

/-- What is hidden of a row but not yet settled in the base is retired. -/
theorem retiredOf_reclaimRow (rows : RowStore) (f id : ℕ) (versions : VersionChain) :
    (rows.reclaimRow f id versions).retiredOf id =
      rows.retiredOf id ++ versions.filter fun version =>
      version.ended.any fun ended => ended ≤ f && rows.baseSequence < ended := by
  unfold reclaimRow
  split_ifs with hany
  · unfold retiredOf
    simp only
    split_ifs with hnil
    · rw [hnil]
      exact (append_eq_nil_iff.1 hnil).1
    · rw [ExtTreeMap.getD_insert_self]
  · have hnil : versions.filter (fun version =>
        version.ended.any fun ended => ended ≤ f && rows.baseSequence < ended) = [] := by
      refine filter_eq_nil_iff.2 fun v hv hended => hany ?_
      refine any_eq_true.2 ⟨v, hv, ?_⟩
      cases he : v.ended with
      | none => simp [he] at hended
      | some e =>
        simp [he] at hended
        simp [hended]
    rw [hnil, append_nil]

theorem delta_reclaimRow (hd : rows.delta[id]? = some versions) :
    (rows.reclaimRow f id versions).delta[id]? = some (versions.filter (outlives f)) ∨
      (rows.reclaimRow f id versions).delta[id]? = none ∧ versions.filter (outlives f) = [] ∧
        (rows.base.any fun base => base.contains id 0) = false := by
  unfold reclaimRow
  split_ifs with hany
  · simp only
    split_ifs with hgone
    · right
      rw [ExtTreeMap.getElem?_erase_self]
      exact ⟨rfl, hgone⟩
    · left
      rw [ExtTreeMap.getElem?_insert_self]
  · left
    have hall : versions.filter (outlives f) = versions := by
      refine filter_eq_self.2 fun v hv => Mvcc.outlives_iff.2 fun e he => ?_
      by_contra hle
      exact hany (any_eq_true.2 ⟨v, hv, by simp [he]; omega⟩)
    rw [hd, hall]

end

/-- **The loop of `reclaim_reserved`** collects each row of the overlay once. -/
theorem foldl_reclaimRow (f : ℕ) (entries : List (ℕ × VersionChain))
    (hdistinct : entries.Pairwise fun a b => a.1 ≠ b.1) (rows : RowStore) :
    let out := entries.foldl (fun rows (id, versions) => rows.reclaimRow f id versions) rows
    out.frame = rows.frame ∧ ∀ id, ((∀ versions, (id, versions) ∉ entries) →
        out.delta[id]? = rows.delta[id]? ∧ out.retired[id]? = rows.retired[id]?) ∧
      ∀ versions, (id, versions) ∈ entries → rows.delta[id]? = some versions →
        (out.delta[id]? = some (versions.filter (outlives f)) ∨
          out.delta[id]? = none ∧ versions.filter (outlives f) = [] ∧
            (rows.base.any fun base => base.contains id 0) = false) ∧
        out.retiredOf id = rows.retiredOf id ++ versions.filter fun version =>
          version.ended.any fun ended => ended ≤ f && rows.baseSequence < ended := by
  induction entries generalizing rows with
  | nil => simp
  | cons entry entries ih =>
    obtain ⟨key, chain⟩ := entry
    obtain ⟨hhead, htail⟩ := pairwise_cons.1 hdistinct
    obtain ⟨hframe, hrest⟩ := ih htail (rows.reclaimRow f key chain)
    have hframe' := frame_reclaimRow rows f key chain
    refine ⟨hframe.trans hframe', fun id => ⟨fun hnot => ?_, fun versions hmem hd => ?_⟩⟩
    · have hne : key ≠ id := fun heq => hnot chain (by simp [heq])
      obtain ⟨h1, h2⟩ := (hrest id).1 fun versions hmem =>
        hnot versions (mem_cons_of_mem _ hmem)
      obtain ⟨h3, h4⟩ := reclaimRow_of_ne rows f chain hne
      exact ⟨h1.trans h3, h2.trans h4⟩
    · rcases mem_cons.1 hmem with heq | hmem
      · obtain ⟨rfl, rfl⟩ := Prod.mk.inj heq
        obtain ⟨h1, h2⟩ := (hrest id).1 fun other hother => hhead _ hother rfl
        refine ⟨?_, ?_⟩
        · simp only [foldl_cons, h1]
          exact delta_reclaimRow hd
        · rw [← retiredOf_reclaimRow rows f id versions]
          unfold retiredOf
          simp only [foldl_cons, ExtTreeMap.getD_eq_getD_getElem?, h2]
      · have hne : key ≠ id := hhead _ hmem
        obtain ⟨h3, h4⟩ := reclaimRow_of_ne rows f chain hne
        have hsame := (hrest id).2 versions hmem (h3.trans hd)
        have hbase : (rows.reclaimRow f key chain).base = rows.base :=
          congrArg Prod.fst hframe'
        have hsequence : (rows.reclaimRow f key chain).baseSequence = rows.baseSequence :=
          congrArg (fun frame => frame.2.1) hframe'
        have hretired : (rows.reclaimRow f key chain).retiredOf id = rows.retiredOf id := by
          unfold retiredOf
          rw [ExtTreeMap.getD_eq_getD_getElem?, ExtTreeMap.getD_eq_getD_getElem?, h4]
        rw [hbase, hsequence, hretired] at hsame
        exact hsame

theorem get_max (base : DiskRows) (id f g : ℕ) :
    base.get id (max f g) = (base.get id f).filter (outlives g) := by
  unfold DiskRows.get
  rw [filter_filter]
  exact filter_congr fun v _ => by rw [Mvcc.outlives_max, Bool.and_comm]

variable {id : ℕ}

theorem prefixCursor_of_not_contains {m : ℕ} (hok : Mvcc.ChainOk m (base.prefixCursor id))
    (h : base.contains id 0 = false) : base.prefixCursor id = [] := by
  refine eq_nil_iff_forall_not_mem.2 fun v hv => ?_
  have hnot := any_eq_false.1 h v hv
  exact hnot (Mvcc.outlives_iff.2 fun e he => by
    have := hok.begin_lt_ended v hv e he
    omega)

section

variable (rows : RowStore)

theorem distinct_keys_delta : rows.delta.toList.Pairwise fun a b => a.1 ≠ b.1 :=
  rows.delta.distinct_keys_toList.imp fun hne heq => hne (by
    rw [heq]
    exact Std.ReflCmp.compare_self)

theorem frame_reclaim (f : ℕ) : (rows.reclaim f).frame =
    (rows.base, rows.baseSequence, max rows.reclaimedBefore f, rows.modifiedAt, rows.diskBase) := by
  unfold reclaim
  split_ifs
  · rfl
  · exact (foldl_reclaimRow f rows.delta.toList rows.distinct_keys_delta
      { rows with reclaimedBefore := max rows.reclaimedBefore f }).1

@[simp] theorem base_reclaim (f : ℕ) : (rows.reclaim f).base = rows.base :=
  congrArg Prod.fst (frame_reclaim rows f)

@[simp] theorem baseSequence_reclaim (f : ℕ) :
    (rows.reclaim f).baseSequence = rows.baseSequence :=
  congrArg (fun frame => frame.2.1) (frame_reclaim rows f)

@[simp] theorem reclaimedBefore_reclaim (f : ℕ) :
    (rows.reclaim f).reclaimedBefore = max rows.reclaimedBefore f :=
  congrArg (fun frame => frame.2.2.1) (frame_reclaim rows f)

theorem delta_reclaim (f id : ℕ) :
    (rows.delta[id]? = none ∧ (rows.reclaim f).delta[id]? = none ∧
      (rows.reclaim f).retiredOf id = rows.retiredOf id) ∨
    ∃ versions, rows.delta[id]? = some versions ∧
      ((rows.reclaim f).delta[id]? = some (versions.filter (outlives f)) ∨
        (rows.reclaim f).delta[id]? = none ∧ versions.filter (outlives f) = [] ∧
          (rows.base.any fun base => base.contains id 0) = false) ∧
      (rows.reclaim f).retiredOf id = rows.retiredOf id ++ versions.filter fun version =>
        version.ended.any fun ended => ended ≤ f && rows.baseSequence < ended := by
  unfold reclaim
  split_ifs with hempty
  · left
    have hnone : rows.delta[id]? = none := by
      rw [ExtTreeMap.isEmpty_iff.1 hempty]
      simp
    exact ⟨hnone, hnone, rfl⟩
  · obtain ⟨-, hrows⟩ := foldl_reclaimRow f rows.delta.toList rows.distinct_keys_delta
      { rows with reclaimedBefore := max rows.reclaimedBefore f }
    cases hd : rows.delta[id]? with
    | none =>
      left
      obtain ⟨h1, h2⟩ := (hrows id).1 fun versions hmem => by
        rw [ExtTreeMap.mem_toList_iff_getElem?_eq_some.1 hmem] at hd
        cases hd
      refine ⟨rfl, h1.trans hd, ?_⟩
      unfold retiredOf
      rw [ExtTreeMap.getD_eq_getD_getElem?, ExtTreeMap.getD_eq_getD_getElem?]
      exact congrArg (Option.getD · []) h2
    | some versions =>
      right
      exact ⟨versions, rfl, (hrows id).2 versions
        (ExtTreeMap.mem_toList_iff_getElem?_eq_some.2 hd) hd⟩

end

variable {v : RowVersion}

theorem mem_versionsOf {overlay : ExtTreeMap ℕ VersionChain} :
    (id, v) ∈ versionsOf overlay ↔ ∃ versions, overlay[id]? = some versions ∧ v ∈ versions := by
  unfold versionsOf
  simp only [mem_flatMap, mem_map, Prod.exists, Prod.mk.injEq,
    ExtTreeMap.mem_toList_iff_getElem?_eq_some]
  constructor
  · rintro ⟨id', versions, hget, v', hv, rfl, rfl⟩
    exact ⟨versions, hget, hv⟩
  · rintro ⟨versions, hget, hv⟩
    exact ⟨id, versions, hget, v, hv, rfl, rfl⟩

theorem mem_retiredOf :
    v ∈ rows.retiredOf id ↔ ∃ versions, rows.retired[id]? = some versions ∧ v ∈ versions := by
  unfold retiredOf
  rw [ExtTreeMap.getD_eq_getD_getElem?]
  cases rows.retired[id]? <;> simp

/-! ### What the base records -/

end RowStore

variable {entry : ℕ × RowVersion}

namespace DiskRows

/-- What `decode` checks of an entry of the locator. -/
def validEntry (sequence nextRowId : ℕ) (entry : ℕ × RowVersion) : Bool :=
  entry.1 ≠ 0 && entry.1 < nextRowId && entry.2.begin ≠ 0 && entry.2.begin ≤ sequence &&
    entry.2.ended.all fun ended => entry.2.begin < ended && ended ≤ sequence

/-- What the last loop of `build` carries: the previous entry, the least and the greatest end. -/
abbrev BuildState := Option (ℕ × RowVersion) × Option ℕ × Option ℕ

/-- One round of the last loop of `build`. -/
def buildStep (sequence nextRowId : ℕ) (state : BuildState) (entry : ℕ × RowVersion) :
    Result BuildState :=
  let (previous, minEnd, maxEnd) := state
  if validEntry sequence nextRowId entry = false then
    .error (.segmentCorruption "relational-row-locator"
      "derived row locator has an invalid identity or interval")
  else if previous.any fun old => old.1 = entry.1 && old.2.ended.all (entry.2.begin < ·) then
    .error (invalid "relational checkpoint contains overlapping row versions")
  else
    match entry.2.ended with
    | none => .ok (some entry, minEnd, maxEnd)
    | some ended =>
      .ok (some entry, some (minEnd.elim ended (min · ended)),
        some (maxEnd.elim ended (max · ended)))

/-- `build`, from the entries that the row runs gave the locator. -/
def build (entries : ExtTreeMap ℕ VersionChain) (sequence nextRowId : ℕ) : Result DiskRows := do
  let (_, minEnd, maxEnd) ←
    (RowStore.versionsOf entries).foldlM (buildStep sequence nextRowId) (none, none, none)
  return { entries, sequence, nextRowId, minEnd, maxEnd }

/-- What `build` promises of a base. -/
structure Built (base : DiskRows) : Prop where
  chain_ok : ∀ id, Mvcc.ChainOk base.sequence (base.prefixCursor id)
  minEnd_le : ∀ entry ∈ RowStore.versionsOf base.entries, ∀ ended, entry.2.ended = some ended →
    ∃ least, base.minEnd = some least ∧ least ≤ ended
  le_maxEnd : ∀ entry ∈ RowStore.versionsOf base.entries, ∀ ended, entry.2.ended = some ended →
    ∃ greatest, base.maxEnd = some greatest ∧ ended ≤ greatest

/-- A valid entry that follows another one in the file begins when that one has ended, if both
are versions of one row. -/
def FollowsIn (sequence nextRowId : ℕ) (old entry : ℕ × RowVersion) : Prop :=
  old.1 ≤ entry.1 ∧ validEntry sequence nextRowId entry = true ∧
    (old.1 = entry.1 → ∃ ended, old.2.ended = some ended ∧ ended ≤ entry.2.begin)

variable {sequence nextRowId : ℕ}

theorem validEntry_interval (h : validEntry sequence nextRowId entry = true) :
    entry.2.begin ≤ sequence ∧ ∀ ended, entry.2.ended = some ended →
      entry.2.begin < ended ∧ ended ≤ sequence := by
  simp only [validEntry, Bool.and_eq_true, decide_eq_true_eq] at h
  refine ⟨h.1.2, fun ended hended => ?_⟩
  simpa [hended] using h.2

instance (sequence nextRowId : ℕ) : IsTrans (ℕ × RowVersion) (FollowsIn sequence nextRowId) where
  trans := by
    rintro a b c ⟨hab, hb, hclosed⟩ ⟨hbc, hc, hclosed'⟩
    refine ⟨hab.trans hbc, hc, fun hac => ?_⟩
    obtain ⟨ended, hended, hle⟩ := hclosed (by omega)
    obtain ⟨ended', hended', hle'⟩ := hclosed' (by omega)
    have := ((validEntry_interval hb).2 ended' hended').1
    exact ⟨ended, hended, by omega⟩

variable {state : BuildState}

/-- An end between the least and the greatest one. -/
def Between (ends : Option ℕ × Option ℕ) (ended : ℕ) : Prop :=
  (∃ least, ends.1 = some least ∧ least ≤ ended) ∧ ∃ most, ends.2 = some most ∧ ended ≤ most

/-- **What a round accepts**: a valid entry, behind the end of the version before it, whose end
is between the least and the greatest end from then on. -/
theorem buildStep_eq_ok {next : BuildState}
    (h : buildStep sequence nextRowId state entry = .ok next) :
    next.1 = some entry ∧ validEntry sequence nextRowId entry = true ∧
      (∀ old, state.1 = some old → old.1 = entry.1 →
        ∃ ended, old.2.ended = some ended ∧ ended ≤ entry.2.begin) ∧
      ∀ ended, (entry.2.ended = some ended ∨ Between state.2 ended) → Between next.2 ended := by
  obtain ⟨previous, minEnd, maxEnd⟩ := state
  rw [buildStep] at h
  dsimp only at h ⊢
  split_ifs at h with hvalid hoverlap
  have hbefore : ∀ old, previous = some old → old.1 = entry.1 →
      ∃ ended, old.2.ended = some ended ∧ ended ≤ entry.2.begin := by
    rintro old rfl hrow
    cases hended : old.2.ended with
    | none => simp [hrow, hended] at hoverlap
    | some ended => exact ⟨ended, rfl, by simpa [hrow, hended] using hoverlap⟩
  cases hended : entry.2.ended with
  | none =>
    rw [hended] at h
    cases h
    exact ⟨rfl, Bool.of_not_eq_false hvalid, hbefore, by simp⟩
  | some last =>
    rw [hended] at h
    cases h
    refine ⟨rfl, Bool.of_not_eq_false hvalid, hbefore, fun ended hor => ?_⟩
    rcases hor with ⟨⟨⟩⟩ | ⟨⟨least, rfl, hle⟩, most, rfl, hge⟩
    · cases minEnd <;> cases maxEnd <;> simp [Between]
    · simp [Between, hle, hge]

theorem foldlM_buildStep {entries : List (ℕ × RowVersion)} {final : BuildState}
    (hordered : entries.Pairwise fun a b => a.1 ≤ b.1)
    (h : entries.foldlM (buildStep sequence nextRowId) state = .ok final) :
    (∀ entry ∈ entries, validEntry sequence nextRowId entry = true) ∧
      entries.IsChain (FollowsIn sequence nextRowId) ∧
      (∀ old, state.1 = some old → ∀ entry, entries.head? = some entry → old.1 = entry.1 →
        ∃ ended, old.2.ended = some ended ∧ ended ≤ entry.2.begin) ∧
      ∀ ended, ((∃ entry ∈ entries, entry.2.ended = some ended) ∨ Between state.2 ended) →
        Between final.2 ended := by
  induction entries generalizing state with
  | nil =>
    cases h
    simp
  | cons entry entries ih =>
    obtain ⟨hhead, hordered⟩ := pairwise_cons.1 hordered
    rw [foldlM_cons, bind_eq_ok] at h
    obtain ⟨next, hstep, hrest⟩ := h
    obtain ⟨hnext, hvalid, hbefore, hends⟩ := buildStep_eq_ok hstep
    obtain ⟨hall, hchain, hfirst, hlast⟩ := ih hordered hrest
    refine ⟨?_, ?_, ?_, fun ended hor => hlast ended ?_⟩
    · simpa using ⟨hvalid, fun a b hmem => hall (a, b) hmem⟩
    · cases entries with
      | nil => exact .singleton entry
      | cons second entries =>
        exact .cons_cons ⟨hhead second mem_cons_self, hall second mem_cons_self,
          hfirst entry hnext second rfl⟩ hchain
    · rintro old hold _ ⟨⟩ hrow
      exact hbefore old hold hrow
    · rcases hor with ⟨other, hmem, hended⟩ | hstate
      · rcases mem_cons.1 hmem with rfl | hmem
        · exact .inr (hends ended (.inl hended))
        · exact .inl ⟨other, hmem, hended⟩
      · exact .inr (hends ended (.inr hstate))

/-- **A base that `build` returns** has its versions in order and knows its ends. -/
theorem built_of_build {entries : ExtTreeMap ℕ VersionChain}
    (h : build entries sequence nextRowId = .ok base) : base.Built := by
  rw [build, bind_eq_ok] at h
  obtain ⟨⟨previous, minEnd, maxEnd⟩, hloop, hbase⟩ := h
  cases hbase
  obtain ⟨hvalid, hchain, -, hends⟩ :=
    foldlM_buildStep (RowStore.versionsOf_ordered entries) hloop
  have hrow : ∀ id, ∀ v ∈ entries.getD id [], (id, v) ∈ RowStore.versionsOf entries := by
    intro id v hv
    rw [← RowStore.filter_versionsOf, mem_map] at hv
    obtain ⟨⟨row, v⟩, hmem, rfl⟩ := hv
    obtain ⟨hmem, hid⟩ := mem_filter.1 hmem
    rwa [← of_decide_eq_true hid]
  refine ⟨fun id => ⟨?_, ?_, ?_, ?_⟩,
    fun entry hmem ended hended => (hends ended (.inl ⟨entry, hmem, hended⟩)).1,
    fun entry hmem ended hended => (hends ended (.inl ⟨entry, hmem, hended⟩)).2⟩
  · show List.Pairwise _ (entries.getD id [])
    rw [← RowStore.filter_versionsOf, pairwise_map, pairwise_filter]
    refine (isChain_iff_pairwise.1 hchain).imp fun {a b} hfollows ha hb => hfollows.2.2 ?_
    rw [of_decide_eq_true ha, of_decide_eq_true hb]
  · intro v hv ended hended
    exact ((validEntry_interval (hvalid _ (hrow id v hv))).2 ended hended).1
  · exact fun v hv => (validEntry_interval (hvalid _ (hrow id v hv))).1
  · intro v hv ended hended
    exact ((validEntry_interval (hvalid _ (hrow id v hv))).2 ended hended).2

end DiskRows

namespace RowStore

/-! ### What readers see -/

section

variable (hbase : ∀ base, rows.base = some base → base.Built)
include hbase

/-- **Readers lose what ended up to the frontier.** -/
theorem chain_reclaim (f id : ℕ) :
    (rows.reclaim f).chain id = (rows.chain id).filter (outlives f) := by
  rcases delta_reclaim rows f id with ⟨hd, hd', -⟩ | ⟨versions, hd, hd' | ⟨hd', hnil, hgone⟩, -⟩
  · unfold chain
    rw [hd, hd', base_reclaim, reclaimedBefore_reclaim]
    cases rows.base with
    | none => rfl
    | some base => exact get_max base id rows.reclaimedBefore f
  · unfold chain
    rw [hd, hd']
  · unfold chain
    rw [hd, hd', base_reclaim, hnil]
    cases hb : rows.base with
    | none => rfl
    | some base =>
      rw [hb, Option.any_some] at hgone
      have hcursor := prefixCursor_of_not_contains ((hbase base hb).chain_ok id) hgone
      simp [DiskRows.get, hcursor]

theorem baseOk_of_built : BaseOk ((rows.base.map DiskRows.sequence).getD 0) rows := by
  intro base hb id
  rw [hb]
  exact (hbase base hb).chain_ok id

theorem baseOk_reclaim (f : ℕ) :
    BaseOk ((rows.base.map DiskRows.sequence).getD 0) (rows.reclaim f) :=
  fun base hb => baseOk_of_built hbase base (by rwa [base_reclaim] at hb)

/-- A snapshot at or above the frontier reads the same. -/
theorem visible_reclaim {f s : ℕ} (hs : f ≤ s) (id : ℕ) :
    (rows.reclaim f).visible id s = rows.visible id s := by
  have hfilter : ∀ versions : VersionChain,
      Mvcc.visibleVersion (versions.filter (outlives f)) s = Mvcc.visibleVersion versions s := by
    intro versions
    rw [Mvcc.visibleVersion, ← filter_reverse, find?_filter]
    congr 1
    funext v
    cases hcov : v.covers s with
    | false => simp
    | true =>
      have hout : outlives f v = true := Mvcc.outlives_iff.2 fun e he =>
        Nat.lt_of_le_of_lt hs ((Mvcc.covers_iff.1 hcov).2 e he)
      simp [hout]
  rw [(baseOk_reclaim hbase f).visible_eq, (baseOk_of_built hbase).visible_eq,
    chain_reclaim hbase, hfilter]

end

theorem getD_delta_reclaim (rows : RowStore) (f id : ℕ) :
    (rows.reclaim f).delta.getD id [] = (rows.delta.getD id []).filter (outlives f) := by
  rw [ExtTreeMap.getD_eq_getD_getElem?, ExtTreeMap.getD_eq_getD_getElem?]
  rcases delta_reclaim rows f id with ⟨hd, hd', -⟩ | ⟨versions, hd, hd' | ⟨hd', hnil, -⟩, -⟩
  · rw [hd, hd']
    rfl
  · rw [hd, hd']
    rfl
  · rw [hd, hd', Option.getD_some, hnil]
    rfl

/-- **The next checkpoint still closes what was hidden.** -/
theorem mem_checkpointDelta_reclaim (hdelta : ∀ (id : ℕ) versions, rows.delta[id]? = some versions →
      ∀ v ∈ versions, ∀ e, v.ended = some e → v.begin < e) (f : ℕ)
    (h : entry ∈ rows.checkpointDelta) : entry ∈ (rows.reclaim f).checkpointDelta := by
  obtain ⟨id, v⟩ := entry
  rw [checkpointDelta, mem_filter, mem_append] at h ⊢
  obtain ⟨hmem, hchanged⟩ := h
  refine ⟨?_, by simpa using hchanged⟩
  rw [mem_versionsOf, mem_versionsOf, ← mem_retiredOf] at hmem ⊢
  rcases delta_reclaim rows f id with ⟨hd, -, hretired⟩ | ⟨versions, hd, hkept, hretired⟩
  · rw [hretired]
    rcases hmem with ⟨_, hsome, -⟩ | hmem
    · rw [hd] at hsome
      cases hsome
    · exact .inr hmem
  · rw [hretired, mem_append]
    rcases hmem with ⟨_, hsome, hv⟩ | hmem
    · cases hd.symm.trans hsome
      cases hout : outlives f v with
      | true =>
        have hv' : v ∈ versions.filter (outlives f) := mem_filter.2 ⟨hv, hout⟩
        rcases hkept with hkept | ⟨-, hnil, -⟩
        · exact .inl ⟨_, hkept, hv'⟩
        · rw [hnil] at hv'
          cases hv'
      | false =>
        -- it has ended, and not before it began
        refine .inr (.inr (mem_filter.2 ⟨hv, ?_⟩))
        cases hended : v.ended with
        | none => simp [outlives, hended] at hout
        | some e =>
          have hlt := hdelta id versions hd v hv e hended
          simp [outlives, hended] at hout
          simp [hended] at hchanged
          simp only [Option.any_some, Bool.and_eq_true, decide_eq_true_eq]
          omega
    · exact .inr (.inl hmem)

/-! ### Counting -/

theorem not_outlives (f : ℕ) (v : RowVersion) : (!outlives f v) = v.ended.any (· ≤ f) := by
  rw [outlives]
  cases v.ended with
  | none => rfl
  | some ended =>
    rw [Bool.eq_iff_iff]
    simp

/-- A scan that keeps some versions of each row lists these versions. -/
theorem flatMap_kept (rows : List (ℕ × VersionChain)) (keep : ℕ → RowVersion → Bool) :
    (rows.filterMap fun (id, versions) =>
        let kept := versions.filter (keep id)
        if kept = [] then none else some (id, kept)).flatMap
      (fun (id, versions) => versions.map (id, ·)) =
      (rows.flatMap fun (id, versions) => versions.map (id, ·)).filter
        fun entry => keep entry.1 entry.2 := by
  induction rows with
  | nil => rfl
  | cons row rows ih =>
    obtain ⟨id, versions⟩ := row
    have hrow : (versions.map (id, ·)).filter (fun entry => keep entry.1 entry.2) =
        (versions.filter (keep id)).map (id, ·) := by
      rw [filter_map]
      rfl
    rw [filterMap_cons, flatMap_cons, filter_append, hrow, ← ih]
    dsimp only
    split_ifs with hnil
    · rw [hnil]
      rfl
    · rw [flatMap_cons]

theorem sum_length_filter (rows : List (ℕ × VersionChain)) (keep : ℕ → RowVersion → Bool) :
    (rows.map fun (id, versions) => (versions.filter (keep id)).length).sum =
      ((rows.flatMap fun (id, versions) => versions.map (id, ·)).filter
        fun entry => keep entry.1 entry.2).length := by
  induction rows with
  | nil => rfl
  | cons row rows ih =>
    obtain ⟨id, versions⟩ := row
    rw [map_cons, sum_cons, flatMap_cons, filter_append, length_append,
      ← ih, filter_map, length_map]
    rfl

/-- **The base counts** its versions that are neither shadowed nor hidden and end up to the
frontier; its least and greatest end only spare it the scan. -/
theorem reclaimable_base (h : base.Built) (retained f : ℕ) (shadow : ExtTreeMap ℕ VersionChain) :
    base.reclaimable retained f shadow = ((base.scan retained none shadow).flatMap
      (fun (id, versions) => versions.map (id, ·))).countP fun entry => !outlives f entry.2 := by
  have hscan := flatMap_kept base.entries.toList fun id entry =>
    !shadow.contains id && outlives retained entry
  have hended : ∀ entry : RowVersion, (!outlives f entry && outlives retained entry) =
      entry.ended.any fun ended => retained < ended && ended ≤ f := by
    intro entry
    rw [not_outlives, outlives]
    cases entry.ended with
    | none => rfl
    | some ended => rw [Option.all_some, Option.any_some, Option.any_some, Bool.and_comm]
  have hcount : ((base.scan retained none shadow).flatMap
      (fun (id, versions) => versions.map (id, ·))).countP (fun entry => !outlives f entry.2) =
      ((versionsOf base.entries).filter fun entry => !shadow.contains entry.1 &&
        entry.2.ended.any fun ended => retained < ended && ended ≤ f).length := by
    simp only [DiskRows.scan, Option.all_none, Bool.and_true]
    rw [hscan, countP_filter, countP_eq_length_filter]
    refine congrArg List.length (filter_congr fun entry _ => ?_)
    rw [← hended entry.2]
    cases shadow.contains entry.1 <;> simp
  rw [hcount, DiskRows.reclaimable]
  split_ifs with hskip
  · symm
    rw [length_eq_zero_iff, filter_eq_nil_iff]
    intro entry hmem hcounted
    rw [Bool.and_eq_true, Option.any_eq_true] at hcounted
    obtain ⟨-, ended, hsome, hbounds⟩ := hcounted
    rw [Bool.and_eq_true, decide_eq_true_eq, decide_eq_true_eq] at hbounds
    obtain ⟨least, hleast, hmin⟩ := h.minEnd_le entry hmem ended hsome
    obtain ⟨greatest, hgreatest, hmax⟩ := h.le_maxEnd entry hmem ended hsome
    rw [hleast, hgreatest, Option.all_some, Option.all_some, decide_eq_true_eq,
      decide_eq_true_eq] at hskip
    omega
  · exact sum_length_filter base.entries.toList fun id entry => !shadow.contains id &&
      entry.ended.any fun ended => retained < ended && ended ≤ f

/-- **`reclaimable` counts** the versions a scan lists that end up to the frontier. -/
theorem reclaimable_eq_countP (hbase : ∀ base, rows.base = some base → base.Built) (f : ℕ) :
    rows.reclaimable f = rows.allVersions.countP fun entry => !outlives f entry.2 := by
  have hdelta : (rows.scanDelta none).flatMap (fun row => row.2.map (row.1, ·)) =
      versionsOf rows.delta := by
    have h := flatMap_kept rows.delta.toList fun _ _ => true
    simpa [scanDelta, versionsOf] using h
  have hcount : ((versionsOf rows.delta).filter fun entry =>
      entry.2.ended.any (· ≤ f)).length =
      (versionsOf rows.delta).countP fun entry => !outlives f entry.2 := by
    rw [countP_eq_length_filter]
    refine congrArg List.length (filter_congr fun entry _ => ?_)
    rw [not_outlives]
  have hperm : ∀ base : List (ℕ × VersionChain),
      ((base.merge (rows.scanDelta none) fun left right => decide (left.1 < right.1)).flatMap
        (fun row => row.2.map (row.1, ·))).countP (fun entry => !outlives f entry.2) =
      (base.flatMap (fun row => row.2.map (row.1, ·))).countP (fun entry => !outlives f entry.2) +
      (versionsOf rows.delta).countP fun entry => !outlives f entry.2 := by
    intro base
    rw [((merge_perm_append _).flatMap_right _).countP_eq, flatMap_append, countP_append, hdelta]
  rw [reclaimable, allVersions, iter, scan, hperm, hcount]
  cases hb : rows.base with
  | none => rfl
  | some base =>
    dsimp only
    rw [reclaimable_base (hbase base hb)]

/-! ### Failures -/

/-- Where `reclaim` can fail: the admissions of memory before and after the loop, the copies of
a row's versions, and the lookup of a row in the base. -/
inductive ReclaimStep
  | reserve
  | copy (id : ℕ)
  | contains (id : ℕ)
  | settle
  deriving DecidableEq, Repr

/-- A step that fails as `faults` says. -/
def attempt (faults : ReclaimStep → Option GaussError) (step : ReclaimStep) : Result Unit :=
  match faults step with
  | some error => .error error
  | none => .ok ()

/-- One round of `reclaim_reserved`, with its failures. -/
def tryReclaimRow (faults : ReclaimStep → Option GaussError) (frontier : ℕ) (rows : RowStore)
    (row : ℕ × VersionChain) : Result RowStore := do
  if row.2.any fun version => version.ended.any (· ≤ frontier) then
    attempt faults (.copy row.1)
    if row.2.filter (outlives frontier) = [] then
      attempt faults (.contains row.1)
  return rows.reclaimRow frontier row.1 row.2

/-- `reclaim`: its result and the store it leaves.  The loop works on a candidate that only
takes the place of the store at the end. -/
def tryReclaim (faults : ReclaimStep → Option GaussError) (rows : RowStore) (frontier : ℕ) :
    Result Unit × RowStore :=
  if rows.delta.isEmpty then
    (.ok (), { rows with reclaimedBefore := max rows.reclaimedBefore frontier })
  else
    let candidate : Result RowStore := do
      attempt faults .reserve
      let candidate ← rows.delta.toList.foldlM (tryReclaimRow faults frontier)
        { rows with reclaimedBefore := max rows.reclaimedBefore frontier }
      attempt faults .settle
      return candidate
    match candidate with
    | .ok candidate => (.ok (), candidate)
    | .error error => (.error error, rows)

variable {faults : ReclaimStep → Option GaussError} {next : RowStore} {frontier : ℕ}

theorem tryReclaimRow_eq_ok {row : ℕ × VersionChain}
    (h : tryReclaimRow faults frontier rows row = .ok next) :
    next = rows.reclaimRow frontier row.1 row.2 := by
  rw [tryReclaimRow] at h
  split_ifs at h <;> simp only [Fault.eq_ok] at h
  · exact h.2.2.symm
  · exact h.2.symm
  · exact h.symm

theorem foldlM_tryReclaimRow {entries : List (ℕ × VersionChain)}
    (h : entries.foldlM (tryReclaimRow faults frontier) rows = .ok next) :
    next =
      entries.foldl (fun rows (id, versions) => rows.reclaimRow frontier id versions) rows := by
  induction entries generalizing rows with
  | nil => exact (Except.ok.inj h).symm
  | cons row entries ih =>
    rw [foldlM_cons, bind_eq_ok] at h
    obtain ⟨middle, hrow, hrest⟩ := h
    rw [foldl_cons, ih hrest, tryReclaimRow_eq_ok hrow]

/-- **A call collects or changes nothing.** -/
theorem tryReclaim_cases {result : Result Unit}
    (h : rows.tryReclaim faults frontier = (result, next)) :
    result = .ok () ∧ next = rows.reclaim frontier ∨
      (∃ error, result = .error error) ∧ next = rows := by
  rw [tryReclaim] at h
  rw [reclaim, reclaimReserved]
  split_ifs at h ⊢ with hempty
  · obtain ⟨rfl, rfl⟩ := Prod.mk.inj h
    exact .inl ⟨rfl, rfl⟩
  · dsimp only at h
    split at h
    · rename_i candidate hcandidate
      obtain ⟨rfl, rfl⟩ := Prod.mk.inj h
      simp only [Fault.eq_ok] at hcandidate
      obtain ⟨-, _, hloop, -, rfl⟩ := hcandidate
      exact .inl ⟨rfl, foldlM_tryReclaimRow hloop⟩
    · obtain ⟨rfl, rfl⟩ := Prod.mk.inj h
      exact .inr ⟨⟨_, rfl⟩, rfl⟩

/-- **Garbage collection is invisible and keeps what a checkpoint has to close.**  The base was
built by `build`, and no version of the overlay ends before it has begun. -/
theorem reclaim_invisible (rows : RowStore) (hbase : ∀ base, rows.base = some base → base.Built)
    (hdelta : ∀ (id : ℕ) versions, rows.delta[id]? = some versions →
      ∀ v ∈ versions, ∀ e, v.ended = some e → v.begin < e)
    (f : ℕ) (faults : ReclaimStep → Option GaussError) :
    (∀ error next, rows.tryReclaim faults f = (.error error, next) → next = rows) ∧
      ∀ next, rows.tryReclaim faults f = (.ok (), next) →
        (∀ id s, f ≤ s → next.visible id s = rows.visible id s) ∧
        (∀ (id : ℕ) versions, rows.delta[id]? = some versions →
          versions.filter (outlives f) = [] → ∀ s, next.visible id s = none) ∧
        (∀ id, next.delta.getD id [] = (rows.delta.getD id []).filter (outlives f)) ∧
        (∀ entry ∈ rows.checkpointDelta, entry ∈ next.checkpointDelta) ∧
        rows.reclaimable f =
          (rows.allVersions.filter fun entry => entry ∉ next.allVersions).length := by
  refine ⟨fun error next h => ?_, fun next h => ?_⟩
  · rcases tryReclaim_cases h with ⟨⟨⟩, -⟩ | ⟨-, hnext⟩
    exact hnext
  rcases tryReclaim_cases h with ⟨-, rfl⟩ | ⟨⟨_, ⟨⟩⟩, -⟩
  have hok := baseOk_of_built hbase
  have hok' := baseOk_reclaim hbase f
  refine ⟨fun id s hs => visible_reclaim hbase hs id, fun id versions hd hnil s => ?_,
    getD_delta_reclaim rows f, fun entry hmem => mem_checkpointDelta_reclaim hdelta f hmem, ?_⟩
  · have hchain : rows.chain id = versions := by rw [chain, hd]
    rw [hok'.visible_eq, chain_reclaim hbase, hchain, hnil]
    rfl
  · rw [reclaimable_eq_countP hbase, countP_eq_length_filter]
    refine congrArg List.length (filter_congr fun entry hmem => ?_)
    have hv := hok.mem_allVersions.1 hmem
    rw [Bool.eq_iff_iff, decide_eq_true_eq, hok'.mem_allVersions, chain_reclaim hbase, mem_filter]
    cases hout : outlives f entry.2 <;> simp [hv]

/-- A base at sequence 4, an overlay that closed row 1 at 6 and changed row 2 at 5. -/
def exampleEntries : ExtTreeMap ℕ VersionChain :=
  ((∅ : ExtTreeMap ℕ VersionChain).insert 1 [⟨1, none, [.integer 10]⟩]).insert 2
    [⟨2, some 4, [.integer 20]⟩, ⟨4, none, [.integer 21]⟩]

/-- The store over the base `build` makes of them. -/
def exampleStore : RowStore :=
  { base := (DiskRows.build exampleEntries 4 3).toOption
    delta := ((∅ : ExtTreeMap ℕ VersionChain).insert 1 [⟨1, some 6, [.integer 10]⟩]).insert 2
      [⟨4, some 5, [.integer 21]⟩, ⟨5, none, [.integer 22]⟩]
    modifiedAt := 6, diskBase := true, baseSequence := 4 }

theorem reclaim_invisible_closed_row :
    (exampleStore.tryReclaim (fun _ => none) 6).2.visible 1 7 = none ∧
      (exampleStore.tryReclaim (fun _ => none) 6).2.visible 2 7 = some ⟨5, none, [.integer 22]⟩ ∧
      (1, ⟨1, some 6, [.integer 10]⟩) ∈
        (exampleStore.tryReclaim (fun _ => none) 6).2.checkpointDelta ∧
      exampleStore.reclaimable 6 = 2 := by
  have hbase : ∀ base, exampleStore.base = some base → base.Built := by
    intro base hb
    have hbuild : DiskRows.build exampleEntries 4 3 = .ok base := by
      cases hresult : DiskRows.build exampleEntries 4 3 with
      | ok built =>
        rw [exampleStore, hresult] at hb
        rw [Option.some.inj hb]
      | error error =>
        rw [exampleStore, hresult] at hb
        cases hb
    exact DiskRows.built_of_build hbuild
  have hdelta : ∀ (id : ℕ) versions, exampleStore.delta[id]? = some versions →
      ∀ v ∈ versions, ∀ e, v.ended = some e → v.begin < e := by
    intro id versions hd
    rw [exampleStore] at hd
    simp only [ExtTreeMap.getElem?_insert] at hd
    split_ifs at hd
    · cases hd
      simp
    · cases hd
      simp
    · simp at hd
  obtain ⟨hvisible, hgone, -, hcheckpoint, -⟩ :=
    (reclaim_invisible exampleStore hbase hdelta 6 fun _ => none).2
      (exampleStore.tryReclaim (fun _ => none) 6).2 rfl
  refine ⟨?_, ?_, hcheckpoint _ ?_, ?_⟩
  · exact hgone 1 [⟨1, some 6, [.integer 10]⟩] (by decide +kernel) (by decide) 7
  · rw [hvisible 2 7 (by omega)]
    decide +kernel
  · decide +kernel
  · decide +kernel

end RowStore

end ChironDB.Relational
