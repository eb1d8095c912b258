/-
# Live and replayed authority

The operations of a live `CollectionAuthority` and the replay of the transactions they append are
written independently: the one plans, authorizes and installs, the other validates and applies.
Here the replay follows the live authority step by step.  `ReplaySecurity.view` is the replay
state that stands for a snapshot, and every successful operation whose content corresponds to its
bindings is a transaction that the replay accepts and that takes the view of the old snapshot to
the view of the new one.
-/

import ChironDB.Security.CollectionAuthority

namespace ChironDB.Security

open Tables Fault List

namespace ReplaySecurity

/-- The replay that stands for a snapshot. -/
def view (snapshot : PolicySnapshot) : ReplaySecurity :=
  ⟨{ snapshot.checkpoint with dataGeneration := snapshot.resources.generation },
    snapshot.resources.records, snapshot.resources.physical, snapshot.resources.metadataBytes⟩

end ReplaySecurity

open ReplaySecurity

section Live

variable [Planning] [GraphBatches]

/-- The identifiers of a content are those of a list of storage identities. -/
def Covers (ids : List String) (identities : List Uuid) : Prop :=
  (∀ id ∈ ids, ∃ uuid ∈ identities, Encoding.parseUuid id = some uuid) ∧
    ∀ uuid ∈ identities, ∃ id ∈ ids, Encoding.parseUuid id = some uuid

/-- **A successful operation with its corresponding content.**  A create writes the points of its
records; an update or a delete writes points of live resources and deletes those it retires; the
others touch no point. -/
inductive Operation (snapshot next : PolicySnapshot) (batch : ProtectedBatch) : Prop
  | create {context : AccessContext} {input : CreateRequest} {content : ProtectedContent}
      {outcome : Except Refusal Unit}
      (succeeds : createWithOptions snapshot context input content outcome = .ok (next, batch))
      (writes : Covers content.pointIds.1 (batch.security.bindings.map ResourceRecord.storageId))
      (deletes : content.pointIds.2 = [])
  | data {context : AccessContext} {retire : List PointKey} {drained : Result Unit}
      {content : ProtectedContent} {outcome : Except Refusal Unit}
      (succeeds : dataWithOptions snapshot context retire drained content outcome =
        .ok (next, batch))
      (writes : ∀ id ∈ content.pointIds.1, ∃ key record,
        Encoding.parseUuid id = some record.storageId ∧
          snapshot.resources.records.get key = some record ∧ record.retired = false ∧
          key ∉ retire)
      (deletes : Covers content.pointIds.2 (batch.security.bindings.map ResourceRecord.storageId))
  | schema {context : AccessContext} {expectedRevision : ℕ} {drained : Result Unit}
      {content : ProtectedContent} {outcome : Except Refusal Unit}
      (succeeds : schemaWithCommit snapshot context expectedRevision drained content outcome =
        .ok (next, batch))
      (pointless : content.pointIds = ([], []))
  | backfill {permit : Result Unit} {content : ProtectedContent} {outcome : Except Refusal Unit}
      (succeeds : graphBackfillWithCommit snapshot permit content outcome = .ok (next, batch))
      (pointless : content.pointIds = ([], []))
  | change {context : AccessContext} {expectedRevision : ℕ} {changed : List ResourceRecord}
      {interrupt : ℕ → Result Unit} {drained : Result Unit} {outcome : Except Refusal Unit}
      (succeeds : changeResources snapshot context expectedRevision changed interrupt drained
        outcome = .ok (next, batch))

/-- A run of successful operations, with the transactions they append. -/
inductive Run : PolicySnapshot → List ProtectedBatch → PolicySnapshot → Prop
  | done (snapshot : PolicySnapshot) : Run snapshot [] snapshot
  | step {snapshot next last : PolicySnapshot} {batch : ProtectedBatch}
      {batches : List ProtectedBatch} (operation : Operation snapshot next batch)
      (rest : Run next batches last) : Run snapshot (batch :: batches) last

/-- What holds of a snapshot between two operations. -/
structure Sound (snapshot : PolicySnapshot) : Prop where
  consistent : Consistent snapshot.resources.records snapshot.resources.physical
  capacity : checkCapacity snapshot.checkpoint.collection snapshot.checkpoint.incarnation
    snapshot.checkpoint.policy snapshot.resources.metadataBytes capacityLimit = .ok ()

/-! ## Content -/

omit [GraphBatches] in
theorem parseIds_of_parse {ids : List String}
    (h : ∀ id ∈ ids, ∃ uuid, Encoding.parseUuid id = some uuid) :
    ∃ uuids, parseIds ids = .ok (sortedKeys uuids) ∧
      ∀ uuid, uuid ∈ uuids ↔ ∃ id ∈ ids, Encoding.parseUuid id = some uuid := by
  induction ids with
  | nil => exact ⟨[], rfl, by simp⟩
  | cons id ids ih =>
    rw [forall_mem_cons] at h
    obtain ⟨first, hfirst⟩ := h.1
    obtain ⟨uuids, hparse, hmem⟩ := ih h.2
    rw [parseIds, bind_eq_ok] at hparse
    obtain ⟨parsed, hparsed, hsorted⟩ := hparse
    refine ⟨first :: parsed, ?_, fun uuid => ?_⟩
    · rw [parseIds, mapM_cons, parseId_eq_ok.mpr hfirst, hparsed]
      rfl
    · have hset : uuid ∈ parsed ↔ uuid ∈ uuids := by
        rw [← mem_sortedKeys, Except.ok.inj hsorted, mem_sortedKeys]
      rw [mem_cons, hset, hmem]
      simp [hfirst, eq_comm]

variable {delta : SecurityDelta} {batch : ProtectedBatch} {outcome : Except Refusal Unit}
  {context : AccessContext}

variable {content : ProtectedContent} {s : ReplaySecurity}

/-- The agreement of a content with the bindings, from facts about single identifiers. -/
theorem content_agrees
    (hwrites : ∀ id ∈ content.pointIds.1, ∃ uuid, Encoding.parseUuid id = some uuid ∧
      s.checkUpsert delta uuid = .ok ())
    (hcreated : ∀ uuid ∈ s.created delta, ∃ id ∈ content.pointIds.1,
      Encoding.parseUuid id = some uuid) {identities : List Uuid}
    (hretired : s.retired delta = sortedKeys identities)
    (hdeletes : Covers content.pointIds.2 identities)
    (hbound : ∀ uuid ∈ identities, s.checkDelete uuid = .ok ()) :
    ∃ upserts deletes, parseIds content.pointIds.1 = .ok upserts ∧
      parseIds content.pointIds.2 = .ok deletes ∧ s.created delta ⊆ upserts ∧
      s.retired delta = deletes ∧ (∀ id ∈ upserts, s.checkUpsert delta id = .ok ()) ∧
      ∀ id ∈ deletes, s.checkDelete id = .ok () := by
  obtain ⟨upserts, hupserts, hmem⟩ := parseIds_of_parse fun id hid =>
    (hwrites id hid).imp fun _ h => h.1
  obtain ⟨deletes, hdels, hmem'⟩ := parseIds_of_parse fun id hid =>
    (hdeletes.1 id hid).imp fun _ h => h.2
  have hsame : ∀ uuid, uuid ∈ identities ↔ uuid ∈ deletes := by
    intro uuid
    rw [hmem']
    constructor
    · exact hdeletes.2 uuid
    · rintro ⟨id, hid, hparse⟩
      obtain ⟨found, hfound, hparse'⟩ := hdeletes.1 id hid
      rw [hparse] at hparse'
      cases hparse'
      exact hfound
  refine ⟨sortedKeys upserts, sortedKeys deletes, hupserts, hdels, fun uuid huuid => ?_, ?_,
    fun uuid huuid => ?_, fun uuid huuid => ?_⟩
  · exact mem_sortedKeys.mpr ((hmem uuid).mpr (hcreated uuid huuid))
  · rw [hretired]
    exact sortedKeys_congr hsame
  · obtain ⟨id, hid, hparse⟩ := (hmem uuid).mp (mem_sortedKeys.mp huuid)
    obtain ⟨found, hfound, hcheck⟩ := hwrites id hid
    rw [hparse] at hfound
    cases hfound
    exact hcheck
  · exact hbound uuid ((hsame uuid).mpr (mem_sortedKeys.mp huuid))

/-! ## One operation -/

theorem append_eq_ok {u : Unit} (h : append batch outcome = .ok u) : batch.validate = .ok () := by
  rw [append] at h
  cases hvalid : batch.validate with
  | ok u => rfl
  | error refusal =>
    rw [hvalid] at h
    cases h

variable {changed : List ResourceRecord} {snapshot : PolicySnapshot} {metadataBytes : ℕ}

omit [GraphBatches] in
theorem planBytes_eq_ok (h : planBytes snapshot changed = .ok metadataBytes) :
    overlayBytes snapshot.resources.metadataBytes snapshot.resources.records changed =
        .ok metadataBytes ∧
      checkCapacity snapshot.checkpoint.collection snapshot.checkpoint.incarnation
        snapshot.checkpoint.policy metadataBytes capacityLimit = .ok () := by
  simp only [planBytes, eq_ok] at h
  obtain ⟨bytes, hbytes, hcapacity, rfl⟩ := h
  exact ⟨hbytes, hcapacity⟩

omit [GraphBatches] in
/-- An operation without bindings keeps the number of bytes. -/
theorem Sound.planBytes (hs : Sound snapshot) :
    planBytes snapshot [] = .ok snapshot.resources.metadataBytes := by
  simp only [Security.planBytes, overlayBytes, foldlM_nil, pure_bind, hs.capacity]
  rfl

section Step

variable {snapshot next : PolicySnapshot} {revision generation metadataBytes : ℕ}
  {bindings : List ResourceRecord}

/-- The transaction of an operation passes the checks of the replay. -/
theorem admissible_nextBatch
    (hvalid : (nextBatch snapshot revision generation bindings content).validate = .ok ())
    (hbytes : planBytes snapshot bindings = .ok metadataBytes)
    (hbindings : ∀ record ∈ bindings, (view snapshot).checkBinding
      (nextBatch snapshot revision generation bindings content).security record = .ok ())
    (hcontent : ∃ upserts deletes, parseIds content.pointIds.1 = .ok upserts ∧
      parseIds content.pointIds.2 = .ok deletes ∧
      (view snapshot).created (nextBatch snapshot revision generation bindings content).security ⊆
        upserts ∧
      (view snapshot).retired (nextBatch snapshot revision generation bindings content).security =
        deletes ∧
      (∀ id ∈ upserts, (view snapshot).checkUpsert
        (nextBatch snapshot revision generation bindings content).security id = .ok ()) ∧
      ∀ id ∈ deletes, (view snapshot).checkDelete id = .ok ())
    (hchains : revision ≠ snapshot.checkpoint.revision →
      ∀ start ∈ snapshot.resources.records.values ++ bindings, (view snapshot).checkOverlay
        (nextBatch snapshot revision generation bindings content).security start = .ok ()) :
    (view snapshot).Admissible (nextBatch snapshot revision generation bindings content)
      metadataBytes := by
  obtain ⟨hoverlay, hcapacity⟩ := planBytes_eq_ok hbytes
  exact ⟨hvalid, rfl, rfl, rfl, hbindings, hcontent,
    fun hchanged => hchains (of_decide_eq_true hchanged), hoverlay, hcapacity⟩

/-- The replay accepts an admissible transaction and reaches the view of the next snapshot. -/
theorem apply_view (hs : Sound snapshot)
    (h : (view snapshot).Admissible (nextBatch snapshot revision generation bindings content)
      metadataBytes)
    (hnext : (view snapshot).install
      (nextBatch snapshot revision generation bindings content).security metadataBytes =
        view next) :
    (apply (nextBatch snapshot revision generation bindings content)).run (view snapshot) =
        (.ok (), view next) ∧
      Sound next := by
  have hconsistent := h.consistent hs.consistent
  have hcapacity := h.capacity
  rw [hnext] at hconsistent
  have hrun : (apply (nextBatch snapshot revision generation bindings content)).run
      (view snapshot) = (.ok (), view next) := by
    rw [run_apply, verify_eq_ok.mpr h]
    dsimp only
    rw [hnext]
  rw [install_eq, view, view, ReplaySecurity.mk.injEq, SecurityCheckpoint.mk.injEq] at hnext
  obtain ⟨⟨-, hcollection, hincarnation, -, -, hpolicy, -⟩, -, -, hbytes⟩ := hnext
  refine ⟨hrun, hconsistent, ?_⟩
  rw [← hcollection, ← hincarnation, ← hpolicy, ← hbytes]
  exact hcapacity

omit [GraphBatches] in
theorem overlay_start (hs : Sound snapshot)
    (hkeys : (delta.bindings.map ResourceRecord.key).Nodup) {start : ResourceRecord}
    (hstart : start ∈ snapshot.resources.records.values ++ delta.bindings) :
    (view snapshot).overlay delta start.key =
      some (((updated delta).get start.key).getD start) := by
  rcases mem_append.mp hstart with hmem | hmem
  · obtain ⟨key, hget⟩ := TreeMap.mem_values.mp hmem
    cases hs.consistent.inverse.own hget
    rw [overlay]
    change ((updated delta).get start.key).or (snapshot.resources.records.get start.key) = _
    rw [hget]
    cases (updated delta).get start.key <;> rfl
  · have hupdated : (updated delta).get start.key = some start :=
      TreeMap.get_insertAll_of_mem hkeys hmem
    rw [overlay, hupdated]
    rfl

omit [Planning] [GraphBatches] in
theorem overlay_own (hinverse : Inverse s.records s.physical)
    (hkeys : (delta.bindings.map ResourceRecord.key).Nodup) :
    ∀ key record, s.overlay delta key = some record → record.key = key := by
  intro key record h
  rcases (overlay_eq_some hkeys).mp h with ⟨-, hkey⟩ | ⟨-, hget⟩
  · exact hkey
  · exact hinverse.own hget

omit [GraphBatches] in
/-- Sound chains pass the check of the replay. -/
theorem checkOverlay_of_sound (hs : Sound snapshot)
    (hkeys : (delta.bindings.map ResourceRecord.key).Nodup)
    (hsound : ∀ key record, (view snapshot).overlay delta key = some record →
      SoundChain ((view snapshot).overlay delta) key) :
    ∀ start ∈ snapshot.resources.records.values ++ delta.bindings,
      (view snapshot).checkOverlay delta start = .ok () := by
  intro start hstart
  have hown := overlay_own (s := view snapshot) hs.consistent.inverse hkeys
  have hget := overlay_start hs hkeys hstart
  have hkey := hown _ _ hget
  rw [checkOverlay, refuse_eq_ok, checkChain_iff hown (by rw [hkey]; exact hget), hkey]
  exact hsound _ _ hget

/-- A binding of a resource that is known and live. -/
def Known (snapshot : PolicySnapshot) (record : ResourceRecord) : Prop :=
  ∃ old, snapshot.resources.records.get record.key = some old ∧
    old.storageId = record.storageId ∧ old.retired = false

omit [Planning] [GraphBatches] in
theorem created_of_known (hknown : ∀ record ∈ delta.bindings, Known snapshot record) :
    (view snapshot).created delta = [] := by
  have hnone : (delta.bindings.filter fun record =>
      !(view snapshot).records.containsKey record.key) = [] := by
    rw [filter_eq_nil_iff]
    intro record hrecord
    obtain ⟨old, hold, -⟩ := hknown record hrecord
    rw [Bool.not_eq_true', Bool.not_eq_false, TreeMap.containsKey_iff]
    exact ⟨old, hold⟩
  rw [created, hnone]
  rfl

omit [GraphBatches] in
/-- Bindings of known resources leave the storage identities alone. -/
theorem physical_of_known (hs : Sound snapshot)
    (hknown : ∀ record ∈ bindings, Known snapshot record) :
    (bindings.foldl ReplaySecurity.bind (view snapshot)).physical =
      snapshot.resources.physical := by
  have hbound : ∀ record ∈ bindings,
      snapshot.resources.physical.get record.storageId = some record.key := by
    intro record hrecord
    obtain ⟨old, hold, hid, -⟩ := hknown record hrecord
    rw [← hid]
    exact hs.consistent.inverse.bound hold
  have hloop : ∀ (bindings : List ResourceRecord) (s : ReplaySecurity),
      (∀ record ∈ bindings, s.physical.get record.storageId = some record.key) →
        (bindings.foldl ReplaySecurity.bind s).physical = s.physical := by
    intro bindings
    induction bindings with
    | nil => exact fun s _ => rfl
    | cons record bindings ih =>
      intro s h
      rw [forall_mem_cons] at h
      have hsame : (s.bind record).physical = s.physical := TreeMap.insert_of_get h.1
      rw [foldl_cons, ih (s.bind record) (by rw [hsame]; exact h.2), hsame]
  exact hloop bindings (view snapshot) hbound

theorem install_known (hs : Sound snapshot) (hknown : ∀ record ∈ bindings, Known snapshot record)
    (hnext : view next = ⟨{ snapshot.checkpoint with revision, dataGeneration := generation },
        .insertAll ResourceRecord.key snapshot.resources.records bindings,
        snapshot.resources.physical, metadataBytes⟩) :
    (view snapshot).install (nextBatch snapshot revision generation bindings content).security
      metadataBytes = view next := by
  rw [hnext, install_eq, ReplaySecurity.mk.injEq]
  exact ⟨rfl, rfl, physical_of_known hs hknown, rfl⟩

theorem apply_pointless (hs : Sound snapshot)
    (hvalid : (nextBatch snapshot revision generation [] content).validate = .ok ())
    (hpoints : content.pointIds = ([], []))
    (hnext : view next = { view snapshot with
        checkpoint := { snapshot.checkpoint with revision, dataGeneration := generation } }) :
    (apply (nextBatch snapshot revision generation [] content)).run (view snapshot) =
        (.ok (), view next) ∧ Sound next := by
  refine apply_view hs (admissible_nextBatch hvalid hs.planBytes (by simp) ?_ fun _ => ?_) ?_
  · rw [hpoints]
    exact ⟨[], [], rfl, rfl, by simp [created, nextBatch, sortedKeys, sortedEntries], rfl, by simp,
      by simp⟩
  · have hkeys : ((nextBatch snapshot revision generation [] content).security.bindings.map
        ResourceRecord.key).Nodup := nodup_nil
    refine checkOverlay_of_sound hs hkeys fun key record hget => ?_
    have hsame : (view snapshot).overlay
        (nextBatch snapshot revision generation [] content).security =
          snapshot.resources.records.get := by
      funext key
      rfl
    rw [hsame] at hget ⊢
    exact hs.consistent.chains hget
  · rw [install_eq, hnext]
    rfl

end Step

variable {next : PolicySnapshot} {drained : Result Unit} {expectedRevision : ℕ}

theorem apply_schema (hs : Sound snapshot)
    (h : schemaWithCommit snapshot context expectedRevision drained content outcome =
      .ok (next, batch)) (hpoints : content.pointIds = ([], [])) :
    (apply batch).run (view snapshot) = (.ok (), view next) ∧ Sound next := by
  simp only [schemaWithCommit, eq_ok, fail_eq_ok, Prod.mk.injEq] at h
  obtain ⟨-, -, -, generation, -, revision, -, -, happend, rfl, rfl⟩ := h
  exact apply_pointless hs (append_eq_ok happend) hpoints rfl

theorem apply_backfill {permit : Result Unit} (hs : Sound snapshot)
    (h : graphBackfillWithCommit snapshot permit content outcome = .ok (next, batch))
    (hpoints : content.pointIds = ([], [])) :
    (apply batch).run (view snapshot) = (.ok (), view next) ∧ Sound next := by
  simp only [graphBackfillWithCommit, eq_ok, fail_eq_ok, Prod.mk.injEq] at h
  obtain ⟨-, generation, -, happend, rfl, rfl⟩ := h
  exact apply_pointless hs (append_eq_ok happend) hpoints rfl

variable {record : ResourceRecord}

omit [Planning] [GraphBatches] in
theorem checkBinding_of_known {old : ResourceRecord} (hold : s.records.get record.key = some old)
    (hid : old.storageId = record.storageId) (hlive : old.retired = false)
    (hchange : changedPolicy delta = true ∨ record = { old with retired := true }) :
    s.checkBinding delta record = .ok () := by
  rw [checkBinding, hold]
  simp only [seq_eq_ok, ensure_eq_ok, Bool.and_eq_true, Bool.or_eq_true, decide_eq_true_eq,
    Bool.not_eq_true']
  exact ⟨⟨hid, hlive⟩, hchange⟩

variable {revision : ℕ}

omit [GraphBatches] in
/-- What `change_resources` checks of a changed record. -/
theorem known_of_overlayChange {seen seen' : Finset PointKey}
    (h : overlayChange snapshot context revision seen record = .ok seen') :
    Known snapshot record ∧ record.retired = false := by
  simp only [overlayChange, eq_ok, Bool.not_eq_true'] at h
  obtain ⟨old, hold, ⟨⟨⟨⟨⟨hlive, hretired⟩, hid⟩, -⟩, -⟩, -⟩, -⟩ := h
  refine ⟨⟨old, ?_, hid, hlive⟩, hretired⟩
  cases hget : snapshot.resources.records.get record.key with
  | none => rw [hget] at hold; cases hold
  | some found => rw [hget] at hold; cases hold; rfl

theorem apply_change {interrupt : ℕ → Result Unit} (hs : Sound snapshot)
    (h : changeResources snapshot context expectedRevision changed interrupt drained outcome =
      .ok (next, batch)) :
    (apply batch).run (view snapshot) = (.ok (), view next) ∧ Sound next := by
  simp only [changeResources, eq_ok, fail_eq_ok, forM_eq_ok, successor_eq_ok, Prod.mk.injEq] at h
  obtain ⟨-, hexpected, -, -, revision, ⟨-, hrevision⟩, -, generation, -, seen, hseen,
    metadataBytes, hbytes, hchains, -, happend, rfl, rfl⟩ := h
  have hvalid := append_eq_ok happend
  have hkeys := (ProtectedBatch.valid_of_validate hvalid).keys
  have hchanged : revision ≠ snapshot.checkpoint.revision := by omega
  have hknown : ∀ record ∈ changed, Known snapshot record ∧ record.retired = false :=
    foldlM_forall (p := fun record => Known snapshot record ∧ record.retired = false)
      (fun _ _ _ => known_of_overlayChange) hseen
  refine apply_view hs (admissible_nextBatch hvalid hbytes (fun record hrecord => ?_) ?_
    fun _ => checkOverlay_of_sound hs hkeys fun key record hget => ?_) ?_
  · obtain ⟨⟨old, hold, hid, hlive⟩, -⟩ := hknown record hrecord
    exact checkBinding_of_known hold hid hlive (.inl (decide_eq_true hchanged))
  · have hnone : (view snapshot).retired (nextBatch snapshot revision generation changed
        .policy).security = sortedKeys [] := by
      rw [retired, filter_eq_nil_iff.mpr, map_nil]
      intro record hrecord
      simp [(hknown record hrecord).2]
    refine content_agrees (by simp [ProtectedContent.pointIds]) ?_ hnone ⟨by simp
      [ProtectedContent.pointIds], by simp⟩ (by simp)
    rw [created_of_known fun record hrecord => (hknown record hrecord).1]
    simp
  · -- The live check has started from the record that this one replaces, or from itself.
    obtain ⟨start, hstart⟩ : ∃ start, snapshot.resources.records.get key = some start := by
      rcases (overlay_eq_some hkeys).mp hget with ⟨hmem, rfl⟩ | ⟨-, hold⟩
      · exact (hknown record hmem).1.imp fun _ h => h.1
      · exact ⟨record, hold⟩
    cases hs.consistent.inverse.own hstart
    have hvalues := TreeMap.mem_values.mpr ⟨_, hstart⟩
    obtain ⟨index, hindex⟩ := mem_iff_getElem?.mp hvalues
    have hcheck := (seq_eq_ok.mp (hchains _ (mk_mem_zipIdx_iff_getElem?.mpr hindex))).2
    have hown := overlay_own (s := view snapshot) hs.consistent.inverse hkeys
    have hoverlay := overlay_start hs hkeys (mem_append_left _ hvalues)
    have hkey := hown _ _ hoverlay
    rw [← hkey]
    exact (checkChain_iff hown (by rw [hkey]; exact hoverlay)).mp hcheck
  · exact install_known hs (fun record hrecord => (hknown record hrecord).1) rfl

/-- A record that an operation retires. -/
def Retiring (snapshot : PolicySnapshot) (record : ResourceRecord) : Prop :=
  ∃ old, snapshot.resources.records.get record.key = some old ∧ old.retired = false ∧
    record = { old with retired := true }

omit [Planning] [GraphBatches] in
theorem Retiring.known (h : Retiring snapshot record) : Known snapshot record := by
  obtain ⟨old, hold, hlive, hsame⟩ := h
  exact ⟨old, hold, by rw [hsame], hlive⟩

omit [GraphBatches] in
theorem retiring_of_retireKey (hs : Sound snapshot) {retire : List PointKey} {limit : ℕ}
    {state : List ResourceRecord × ℕ}
    (h : retire.foldlM (retireKey snapshot context) ([], limit) = .ok state) :
    ∀ record ∈ state.1, record.key ∈ retire ∧ Retiring snapshot record := by
  refine foldlM_invariant (fun state : List ResourceRecord × ℕ =>
    ∀ record ∈ state.1, record.key ∈ retire ∧ Retiring snapshot record)
    (fun state key hkey state' hstate hstep => ?_) h (by simp)
  simp only [retireKey, eq_ok] at hstep
  obtain ⟨-, old, hold, hauthorized, -, rfl⟩ := hstep
  have hget : snapshot.resources.records.get key = some old := by
    cases hfound : snapshot.resources.records.get key with
    | none => rw [hfound] at hold; cases hold
    | some found => rw [hfound] at hold; cases hold; rfl
  cases hs.consistent.inverse.own hget
  exact forall_mem_append.mpr ⟨hstate, forall_mem_singleton.mpr
    ⟨hkey, old, hget, retired_of_authorizeResource hauthorized, rfl⟩⟩

section

variable {retire : List PointKey} (hs : Sound snapshot)
  (hwrites : ∀ id ∈ content.pointIds.1, ∃ key record,
    Encoding.parseUuid id = some record.storageId ∧
      snapshot.resources.records.get key = some record ∧ record.retired = false ∧ key ∉ retire)
include hs hwrites

/-- A transaction that retires resources passes the checks of the replay. -/
theorem admissible_retiring {generation : ℕ} {retired : List ResourceRecord}
    (hvalid : (nextBatch snapshot revision generation retired content).validate = .ok ())
    (hbytes : planBytes snapshot retired = .ok metadataBytes)
    (hretired : ∀ record ∈ retired, record.key ∈ retire ∧ Retiring snapshot record)
    (hdeletes : Covers content.pointIds.2 (retired.map ResourceRecord.storageId)) :
    (view snapshot).Admissible (nextBatch snapshot revision generation retired content)
      metadataBytes := by
  have hkeys := (ProtectedBatch.valid_of_validate hvalid).keys
  have hinverse := hs.consistent.inverse
  have hknown : ∀ record ∈ retired, Known snapshot record := fun record hrecord =>
    (hretired record hrecord).2.known
  refine admissible_nextBatch hvalid hbytes (fun record hrecord => ?_) ?_
    fun _ => checkOverlay_of_sound hs hkeys fun key record hget => ?_
  · obtain ⟨-, old, hold, hlive, hsame⟩ := hretired record hrecord
    exact checkBinding_of_known hold (by rw [hsame]) hlive (.inr hsame)
  · have hall : (view snapshot).retired (nextBatch snapshot revision generation retired
        content).security = sortedKeys (retired.map ResourceRecord.storageId) := by
      rw [ReplaySecurity.retired, filter_eq_self.mpr]
      · rfl
      intro record hrecord
      obtain ⟨-, old, hold, -, hsame⟩ := hretired record hrecord
      rw [Bool.and_eq_true, TreeMap.containsKey_iff]
      exact ⟨⟨old, hold⟩, by rw [hsame]⟩
    refine content_agrees (fun id hid => ?_) ?_ hall hdeletes fun uuid huuid => ?_
    · obtain ⟨key, record, hparse, hget, hlive, hkey⟩ := hwrites id hid
      refine ⟨record.storageId, hparse, ?_⟩
      have hoverlay : (view snapshot).overlay (nextBatch snapshot revision generation retired
          content).security key = some record := by
        refine (overlay_eq_some hkeys).mpr (.inr ⟨fun hmem => hkey ?_, hget⟩)
        obtain ⟨other, hother, rfl⟩ := mem_map.mp hmem
        exact (hretired other hother).1
      rw [checkUpsert, created_of_known hknown, if_neg not_mem_nil]
      have hphysical : (view snapshot).physical.get record.storageId = some key :=
        hinverse.bound hget
      simp [hphysical, hoverlay, hlive]
    · rw [created_of_known hknown]
      simp
    · obtain ⟨record, hrecord, rfl⟩ := mem_map.mp huuid
      obtain ⟨old, hold, hid, -⟩ := hknown record hrecord
      rw [checkDelete, ensure_eq_ok, TreeMap.containsKey_iff, ← hid]
      exact ⟨_, hinverse.bound hold⟩
  · -- Retirement keeps the parents.
    obtain ⟨old, hold⟩ : ∃ old, snapshot.resources.records.get key = some old := by
      rcases (overlay_eq_some hkeys).mp hget with ⟨hmem, rfl⟩ | ⟨-, hold⟩
      · exact (hknown record hmem).imp fun _ h => h.1
      · exact ⟨record, hold⟩
    refine (hs.consistent.chains hold).mono fun key before hbefore => ?_
    by_cases hkey : key ∈ retired.map ResourceRecord.key
    · obtain ⟨next, hnext, rfl⟩ := mem_map.mp hkey
      obtain ⟨-, other, hother, -, hsame⟩ := hretired next hnext
      cases hother.symm.trans hbefore
      exact ⟨next, (overlay_eq_some hkeys).mpr (.inl ⟨hnext, rfl⟩), by rw [hsame]⟩
    · exact ⟨before, (overlay_eq_some hkeys).mpr (.inr ⟨hkey, hbefore⟩), rfl⟩

theorem apply_data
    (h : dataWithOptions snapshot context retire drained content outcome = .ok (next, batch))
    (hdeletes : Covers content.pointIds.2 (batch.security.bindings.map ResourceRecord.storageId)) :
    (apply batch).run (view snapshot) = (.ok (), view next) ∧ Sound next := by
  simp only [dataWithOptions, eq_ok, fail_eq_ok] at h
  obtain ⟨-, -, state, hstate, metadataBytes, hbytes, generation, -, h⟩ := h
  have hretired := retiring_of_retireKey hs hstate
  have hknown : ∀ record ∈ state.1, Known snapshot record := fun record hrecord =>
    (hretired record hrecord).2.known
  split at h
  · simp only [eq_ok, fail_eq_ok, Prod.mk.injEq] at h
    obtain ⟨revision, -, -, happend, rfl, rfl⟩ := h
    exact apply_view hs (admissible_retiring hs hwrites (append_eq_ok happend) hbytes hretired
      hdeletes) (install_known hs hknown rfl)
  · simp only [eq_ok, Prod.mk.injEq] at h
    obtain ⟨happend, rfl, rfl⟩ := h
    exact apply_view hs (admissible_retiring hs hwrites (append_eq_ok happend) hbytes hretired
      hdeletes) (install_known hs hknown rfl)

end

/-- A record of a new resource. -/
structure Fresh (snapshot : PolicySnapshot) (record : ResourceRecord) : Prop where
  key : snapshot.resources.records.get record.key = none
  identity : snapshot.resources.physical.get record.storageId = none
  live : record.retired = false
  root : record.parent = none
  grants : record.grants = []

variable {draws rest : List Uuid}

omit [Planning] [GraphBatches] in
theorem drawFresh_eq_ok {taken : Uuid → Bool} {id : Uuid}
    (h : drawFresh taken draws = .ok (id, rest)) : taken id = false := by
  rw [drawFresh] at h
  split at h
  · cases h
  · next head tail hdrop =>
    cases h
    have hhead := head_dropWhile_not taken (l := draws) (by rw [hdrop]; exact cons_ne_nil _ _)
    simpa [hdrop] using hhead

variable {draft : Draft}

omit [GraphBatches] in
theorem chooseKey_eq_ok {explicit : Option String} {key : PointKey}
    (h : chooseKey snapshot context draft explicit = .ok (key, rest)) :
    keyTaken snapshot draft.created key = false := by
  cases explicit with
  | some id =>
    simp only [chooseKey, eq_ok, Bool.not_eq_true', Prod.mk.injEq] at h
    obtain ⟨hfree, rfl, -⟩ := h
    exact hfree
  | none =>
    simp only [chooseKey, eq_ok, Prod.mk.injEq] at h
    obtain ⟨⟨id, draws⟩, hdraw, rfl, -⟩ := h
    exact drawFresh_eq_ok hdraw

omit [GraphBatches] in
/-- The loop of `create_with_options` makes records of new resources. -/
theorem fresh_of_draftPoint {template : IngestTemplate} {ids : Option (List String)}
    {points : List (NewPoint × ℕ)}
    (h : points.foldlM (draftPoint snapshot context template ids) ⟨[], draws⟩ = .ok draft) :
    ∀ record ∈ draft.created, Fresh snapshot record := by
  refine foldlM_invariant (fun draft : Draft => ∀ record ∈ draft.created, Fresh snapshot record)
    (fun draft point _ draft' hdraft hstep => ?_) h (by simp)
  simp only [draftPoint, eq_ok] at hstep
  obtain ⟨⟨key, rest⟩, hkey, ⟨id, rest'⟩, hid, -, -, rfl⟩ := hstep
  have hkey := chooseKey_eq_ok hkey
  have hid := drawFresh_eq_ok hid
  rw [keyTaken, Bool.or_eq_false_iff, TreeMap.containsKey_eq_false_iff] at hkey
  rw [storageTaken, Bool.or_eq_false_iff, TreeMap.containsKey_eq_false_iff] at hid
  exact forall_mem_append.mpr
    ⟨hdraft, forall_mem_singleton.mpr ⟨hkey.1, hid.1, rfl, rfl, rfl⟩⟩

omit [Planning] [GraphBatches] in
theorem fresh_withReceipt {created : List ResourceRecord} (context : AccessContext)
    (request : Option (String × List UInt8)) (h : ∀ record ∈ created, Fresh snapshot record) :
    ∀ record ∈ withReceipt context request created, Fresh snapshot record := by
  cases created with
  | nil => exact h
  | cons first rest =>
    rw [forall_mem_cons] at h
    rw [withReceipt, forall_mem_cons]
    exact ⟨⟨h.1.key, h.1.identity, h.1.live, h.1.root, h.1.grants⟩, h.2⟩

omit [Planning] [GraphBatches] in
/-- The two installations of new records agree. -/
theorem insertCreated_foldl (created : List ResourceRecord) (index : ResourceIndex)
    (s : ReplaySecurity) (hrecords : s.records = index.records)
    (hphysical : s.physical = index.physical) :
    (created.foldl ReplaySecurity.bind s).records =
        (created.foldl ResourceIndex.insertCreated index).records ∧
      (created.foldl ReplaySecurity.bind s).physical =
        (created.foldl ResourceIndex.insertCreated index).physical := by
  induction created generalizing index s with
  | nil => exact ⟨hrecords, hphysical⟩
  | cons record created ih =>
    refine ih (index.insertCreated record) (s.bind record) ?_ ?_
    · rw [ReplaySecurity.bind, ResourceIndex.insertCreated, hrecords]
    · rw [ReplaySecurity.bind, ResourceIndex.insertCreated, hphysical]

theorem apply_create {input : CreateRequest} (hs : Sound snapshot)
    (h : createWithOptions snapshot context input content outcome = .ok (next, batch))
    (hwrites : Covers content.pointIds.1
      (batch.security.bindings.map ResourceRecord.storageId)) (hdeletes : content.pointIds.2 = []) :
    (apply batch).run (view snapshot) = (.ok (), view next) ∧ Sound next := by
  simp only [createWithOptions, eq_ok, fail_eq_ok, Prod.mk.injEq] at h
  obtain ⟨-, -, -, -, template, -, -, -, -, generation, -, draft, hdraft, -, metadataBytes, hbytes,
    happend, rfl, rfl⟩ := h
  have hvalid := append_eq_ok happend
  have hfresh := fresh_withReceipt context input.request (fresh_of_draftPoint hdraft)
  generalize withReceipt context input.request draft.created = created at *
  have hnew : (view snapshot).created (nextBatch snapshot snapshot.checkpoint.revision generation
      created content).security = sortedKeys (created.map ResourceRecord.storageId) := by
    rw [ReplaySecurity.created, filter_eq_self.mpr]
    · rfl
    intro record hrecord
    rw [Bool.not_eq_true', TreeMap.containsKey_eq_false_iff]
    exact (hfresh record hrecord).key
  have hnone : (view snapshot).retired (nextBatch snapshot snapshot.checkpoint.revision generation
      created content).security = sortedKeys [] := by
    rw [ReplaySecurity.retired, filter_eq_nil_iff.mpr, map_nil]
    intro record hrecord
    simp [(hfresh record hrecord).live]
  refine apply_view hs (admissible_nextBatch hvalid hbytes (fun record hrecord => ?_) ?_
    fun hchanged => absurd rfl hchanged) ?_
  · obtain ⟨hkey, hidentity, hlive, hroot, hgrants⟩ := hfresh record hrecord
    have hrecord : (view snapshot).records.get record.key = none := hkey
    have hphysical : (view snapshot).physical.containsKey record.storageId = false :=
      TreeMap.containsKey_eq_false_iff.mpr hidentity
    simp [checkBinding, hrecord, hphysical, hlive, hroot, hgrants]
  · refine content_agrees (fun id hid => ?_) (fun uuid huuid => ?_) hnone ⟨by simp [hdeletes],
      by simp⟩ (by simp)
    · obtain ⟨uuid, huuid, hparse⟩ := hwrites.1 id hid
      refine ⟨uuid, hparse, ?_⟩
      rw [checkUpsert, if_pos (by rw [hnew, mem_sortedKeys]; exact huuid)]
    · rw [hnew, mem_sortedKeys] at huuid
      exact hwrites.2 uuid huuid
  · obtain ⟨hrecords, hphysical⟩ := insertCreated_foldl created snapshot.resources
      (view snapshot) rfl rfl
    rw [install_eq, ← records_foldl]
    change (⟨_, (created.foldl ReplaySecurity.bind (view snapshot)).records,
      (created.foldl ReplaySecurity.bind (view snapshot)).physical, _⟩ : ReplaySecurity) = _
    rw [hrecords, hphysical]
    rfl

/-! ## Runs -/

/-- **Every successful operation is accepted.** -/
theorem apply_operation (hs : Sound snapshot) (h : Operation snapshot next batch) :
    (apply batch).run (view snapshot) = (.ok (), view next) ∧ Sound next := by
  cases h with
  | create succeeds writes deletes => exact apply_create hs succeeds writes deletes
  | data succeeds writes deletes => exact apply_data hs writes succeeds deletes
  | schema succeeds pointless => exact apply_schema hs succeeds pointless
  | backfill succeeds pointless => exact apply_backfill hs succeeds pointless
  | change succeeds => exact apply_change hs succeeds

/-- A run is accepted transaction by transaction. -/
theorem apply_run {last : PolicySnapshot} {batches : List ProtectedBatch}
    (hrun : Run snapshot batches last) (hs : Sound snapshot) :
    (batches.forM apply).run (view snapshot) = (.ok (), view last) := by
  induction hrun with
  | done => rfl
  | step operation _ ih =>
    obtain ⟨happly, hnext⟩ := apply_operation hs operation
    exact (run_bind_of_ok happly).trans (ih hnext)

omit [GraphBatches] in
/-- An admitted snapshot is sound, and replay starts from its view. -/
theorem sound_of_validate {checkpoint : SecurityCheckpoint}
    (h : PolicySnapshot.validate checkpoint = .ok snapshot) :
    Sound snapshot ∧ ofSnapshot snapshot = view snapshot := by
  obtain ⟨hindex, hcapacity, -, hheader⟩ := PolicySnapshot.validate_eq_ok h
  have hgeneration : snapshot.resources.generation = checkpoint.dataGeneration := by
    refine foldlM_invariant (fun index : ResourceIndex =>
      index.generation = checkpoint.dataGeneration) (fun index record _ next hkeeps hnext => ?_)
      hindex rfl
    obtain ⟨_, _, _, -, -, -, -, -, -, rfl⟩ := ResourceIndex.addRecord_eq_ok.mp hnext
    exact hkeeps
  refine ⟨⟨PolicySnapshot.validate_consistent h, by rw [hheader]; exact hcapacity⟩, ?_⟩
  rw [ofSnapshot, view, hheader, hgeneration]

/-- **Live and replayed authority agree.**  The replay that starts from the initial checkpoint
accepts every transaction of a run in order, and what it finishes with is the checkpoint of the
live authority. -/
theorem live_replayed {checkpoint : SecurityCheckpoint} {snapshot last : PolicySnapshot}
    {batches : List ProtectedBatch} (hstart : PolicySnapshot.validate checkpoint = .ok snapshot)
    (hrun : Run snapshot batches last) :
    ∃ start replayed, ReplaySecurity.new checkpoint = .ok start ∧
      (batches.forM apply).run start = (.ok (), replayed) ∧
      replayed.finish = last.toCheckpoint := by
  obtain ⟨hs, hview⟩ := sound_of_validate hstart
  refine ⟨ofSnapshot snapshot, view last, new_eq_ok.mpr ⟨snapshot, hstart, rfl⟩, ?_, rfl⟩
  rw [hview]
  exact apply_run hrun hs

end Live

/-! A collection in which a writer creates an article and deletes it again. -/

/-- Two identifiers, and records and templates of fixed lengths. -/
@[reducible] def newsroomPlanning : Planning where
  parseUuid id := if id = "seven" then some 7 else if id = "five" then some 5 else none
  recordLength _ := 300
  storedLength _ _ _ := 200
  formatUuid id := if id = 7 then "seven" else "five"
  templateLength _ := 100
  pointsLength _ := 100
  recordsLength _ := 100
  hasPointer _ _ := true

def newsTemplate : IngestTemplate := ⟨"press", .internal, .empty, .empty⟩

def newsroomCheckpoint : SecurityCheckpoint :=
  ⟨1, "articles", 1, 1, 1, ⟨∅, {.delete}, TreeMap.insert .empty "news" newsTemplate⟩, []⟩

def writer (action : Action) : AccessContext :=
  ⟨⟨"writer", "acme", true, ⟨"press", .internal⟩, [], ∅, []⟩, ∅, fun _ => true, "acme", action,
    true, .ok ()⟩

def newsroom : PolicySnapshot := ⟨newsroomCheckpoint, ⟨.empty, .empty, 1, 0, .empty⟩⟩

/-- The article is created under the drawn identifiers `five` and `seven`. -/
def newsroomCreate : Except Failure (PolicySnapshot × @ProtectedBatch noGraphs) :=
  @createWithOptions newsroomPlanning noGraphs newsroom (writer .create)
    ⟨"news", [⟨false, [], false, .object []⟩], none, none, [5, 7]⟩
    (@ProtectedContent.upsert noGraphs ["seven"]) (.ok ())

def newsroomDelete (snapshot : PolicySnapshot) :
    Except Failure (PolicySnapshot × @ProtectedBatch noGraphs) :=
  @dataWithOptions newsroomPlanning noGraphs snapshot (writer .delete) [⟨1, "acme", "five"⟩]
    (.ok ()) (@ProtectedContent.delete noGraphs ["seven"]) (.ok ())

theorem covers_article : @Covers newsroomPlanning ["seven"] [7] := by
  refine ⟨fun id hid => ⟨7, mem_singleton_self 7, ?_⟩,
    fun uuid huuid => ⟨"seven", mem_singleton_self _, ?_⟩⟩
  · rw [mem_singleton.mp hid]
    rfl
  · rw [mem_singleton.mp huuid]
    rfl

theorem newsroom_runs : (do
    let (created, creation) ← newsroomCreate
    let (_, deletion) ← newsroomDelete created
    pure ((@ProtectedBatch.security noGraphs creation).bindings.map ResourceRecord.storageId,
      (@ProtectedBatch.security noGraphs deletion).bindings.map ResourceRecord.storageId)) =
    .ok ([7], [7]) := by
  decide +kernel

theorem live_replayed_newsroom : ∃ batches last,
    @Run newsroomPlanning noGraphs newsroom batches last ∧ batches.length = 2 ∧ ∃ start replayed,
        @ReplaySecurity.new newsroomPlanning.toEncoding newsroomCheckpoint = .ok start ∧
        (batches.forM (@ReplaySecurity.apply newsroomPlanning.toEncoding noGraphs)).run start =
          (.ok (), replayed) ∧
        replayed.finish = last.toCheckpoint := by
  let := newsroomPlanning
  let := noGraphs
  have hruns := newsroom_runs
  simp only [eq_ok, Prod.mk.injEq] at hruns
  obtain ⟨⟨created, creation⟩, hcreate, ⟨last, deletion⟩, hdelete, hcreated, hdeleted⟩ := hruns
  have hrun : @Run newsroomPlanning noGraphs newsroom [creation, deletion] last := by
    refine .step (.create hcreate ?_ rfl)
      (.step (.data hdelete (forall_mem_nil _) ?_) (.done _))
    · rw [hcreated]
      exact covers_article
    · rw [hdeleted]
      exact covers_article
  exact ⟨_, last, hrun, rfl, @live_replayed newsroomPlanning noGraphs _ _ _ _ rfl hrun⟩

end ChironDB.Security
