/-
# One content for a version

The overlay store over any run: calls of its operations, failures of the file system in them, stops
of the process, and openings of what is left with any set of installed segments.  A version number
denotes one content, in the directories, in the store, and in the handles that were handed out.

That takes two things of the run.  A change must not meet a pending version that is on disk already,
because its publication failed behind the rename, or that a handle still holds: `install_pending`
keeps the number of a pending version.  And an opening must not drop a segment that has tombstones
without another change, because `open` compares with what is left of the loaded version and then
keeps its number.
-/

import ChironDB.Overlay.Store
import Mathlib.Data.List.MinMax
import Mathlib.Data.Set.Function

namespace ChironDB.Overlay

open Codec Fault List

/-- A change of visibility. -/
inductive Mutation
  | tombstonePoint (segment : String) (ordinal : UInt32)
  | reconcilePoints (points : SegmentOrdinalSet)
  | replaceEdges (edges : Finset UInt64)

namespace Mutation

def apply (store : OverlayStore) : Mutation → Result (Bool × OverlayStore)
  | .tombstonePoint segment ordinal => store.tombstonePoint segment ordinal
  | .reconcilePoints points => store.reconcilePoints points
  | .replaceEdges edges => store.replaceEdges edges

/-- It is not there already. -/
def changes (overlay : OverlaySet) : Mutation → Prop
  | .tombstonePoint segment ordinal => (segment, ordinal) ∉ overlay.pointTombstones
  | .reconcilePoints points => ¬ points ⊆ overlay.pointTombstones
  | .replaceEdges edges => edges ≠ overlay.edgeTombstones

/-- Its arguments are valid. -/
def Valid : Mutation → Prop
  | .tombstonePoint segment _ => segmentIdValid segment
  | .reconcilePoints _ => True
  | .replaceEdges edges => ∀ raw ∈ edges, edgeIdValid raw

end Mutation

structure World where
  disk : Disk
  /-- The store, while the process runs. -/
  store : Option OverlayStore
  /-- The versions that were handed out. -/
  handles : List OverlaySet

/-- A collection whose visibility was never written. -/
def World.start : World := ⟨⟨[], none⟩, none, []⟩

inductive Event
  | openStore (faults : Faults) (generation : UInt64) (installed : List String)
      (segmentBase : SegmentOrdinalSet) (mode : OverlayOpenMode)
  | mutate (mutation : Mutation)
  | stageCut (faults : Faults) (generation : UInt64) (points : SegmentOrdinalSet)
  | stagePending (faults : Faults)
  | publishPending (faults : Faults)
  /-- A reader takes the version in force. -/
  | handOut
  | crash

variable {version : ℕ} {dir : VersionDir} {world next : World} {event : Event}
  {points : List UInt32}

variable {disk : Disk} {events : List Event} {store : OverlayStore} {last : World} {nextVersion : ℕ}

section Machine

variable (crc : Bytes → UInt32) (roaring : Roaring)

/-- What a call with the store does to it and to the disk. -/
def World.withStore (world : World) (call : OverlayStore → Disk × OverlayStore × List OverlaySet) :
    Option World :=
  world.store.map fun store =>
    let (disk, store, handles) := call store
    ⟨disk, some store, handles⟩

def step (world : World) : Event → Option World
  | .openStore faults generation installed segmentBase mode =>
    if world.store.isSome then none
    else
      match OverlayStore.openStore crc roaring faults world.disk generation.toNat installed
          segmentBase mode with
      | (.ok store, disk) => some { world with disk, store := some store }
      | (.error _, disk) => some { world with disk }
  | .mutate mutation => world.withStore fun store =>
    match mutation.apply store with
    | .ok (_, store) => (world.disk, store, world.handles)
    | .error _ => (world.disk, store, world.handles)
  | .stageCut faults generation points => world.withStore fun store =>
    match store.stageCut crc roaring faults world.disk generation.toNat points with
    | (.ok cut, disk, store) => (disk, store, cut :: world.handles)
    | (.error _, disk, store) => (disk, store, world.handles)
  | .stagePending faults => world.withStore fun store =>
    match store.stagePending crc roaring faults world.disk with
    | (.ok staged, disk, store) => (disk, store, staged :: world.handles)
    | (.error _, disk, store) => (disk, store, world.handles)
  | .publishPending faults => world.withStore fun store =>
    let (_, disk, store) := store.publishPending crc roaring faults world.disk
    (disk, store, world.handles)
  | .handOut => world.withStore fun store =>
    (world.disk, store, store.current :: world.handles)
  | .crash => some { world with store := none, handles := [] }

def run (world : World) : List Event → Option World
  | [] => some world
  | event :: events => do
    let world ← step crc roaring world event
    run world events

/-- A content that is on disk. -/
def World.OnDisk (world : World) (overlay : OverlaySet) : Prop :=
  loadVersion crc roaring world.disk overlay.version = .ok overlay

/-- A content that its version number denotes. -/
def World.Denotes (world : World) (overlay : OverlaySet) : Prop :=
  world.OnDisk crc roaring overlay ∨ (∃ store ∈ world.store, store.current = overlay) ∨
    overlay ∈ world.handles

/-- **What a pending version allows**: any further change, and its publication on a working disk. -/
def World.Recovers (world : World) : Prop :=
  ∀ store ∈ world.store, store.dirty →
    (∀ mutation : Mutation, mutation.Valid → ∃ result, mutation.apply store = .ok result) ∧
      (store.current.Stageable roaring →
        (store.publishPending crc roaring .none world.disk).1 = .ok ())

/-- What is asked of a step. -/
def Orderly (world : World) : Event → Prop
  | .openStore _ generation installed segmentBase mode =>
    mode = .recover → ∀ loaded, loadCurrent crc roaring world.disk = .ok (some loaded) →
      loaded.generation = generation.toNat → (∀ p ∈ loaded.pointTombstones, p.1 ∈ installed) ∨
          ∃ p ∈ segmentBase, p ∉ loaded.pointTombstones ∨ p.1 ∉ installed
  | .mutate mutation => ∀ store ∈ world.store, store.dirty → mutation.changes store.current →
      world.disk.dir store.current.version = none ∧ store.current ∉ world.handles
  | _ => True

/-- Every step of a run is as asked. -/
def OrderlyRun (world : World) : List Event → Prop
  | [] => True
  | event :: events => Orderly crc roaring world event ∧
      ∀ next, step crc roaring world event = some next → OrderlyRun next events

/-! ## The invariant -/

/-- **A content that agrees with the disk**, where its version is there. -/
structure Agrees (disk : Disk) (nextVersion : ℕ) (overlay : OverlaySet) : Prop where
  fits : overlay.Fits
  fresh : overlay.version < nextVersion
  dir : ∀ dir, disk.dir overlay.version = some dir → encodeVersion crc roaring overlay = .ok dir

/-- Every directory was staged from a content of its version. -/
def Staged (disk : Disk) : Prop :=
  ∀ version dir, disk.dir version = some dir → ∃ overlay : OverlaySet,
    overlay.version = version ∧ overlay.Fits ∧ encodeVersion crc roaring overlay = .ok dir

/-- What is in memory. -/
structure Live (disk : Disk) (store : OverlayStore) (handles : List OverlaySet) : Prop where
  agrees : ∀ overlay ∈ store.current :: handles, Agrees crc roaring disk store.nextVersion overlay
  apart : Set.InjOn OverlaySet.version {overlay | overlay ∈ store.current :: handles}
  fresh : ∀ version dir, disk.dir version = some dir → version < store.nextVersion

structure Inv (world : World) : Prop where
  staged : Staged crc roaring world.disk
  idle : world.store = none → world.handles = []
  live : ∀ store ∈ world.store, Live crc roaring world.disk store world.handles

variable {crc roaring}

theorem Disk.dir_add (disk : Disk) (version : ℕ) (dir : VersionDir) (other : ℕ) :
    (disk.add version dir).dir other = if other = version then some dir else disk.dir other := by
  rw [Disk.dir, Disk.add, lookup_cons]
  by_cases h : other = version
  · simp [h]
  · rw [if_neg h, beq_false_of_ne h]
    rfl

theorem Disk.le_maximum (h : disk.dir version = some dir) : version ≤ disk.maximum := by
  obtain ⟨before, after, hsplit, -⟩ := lookup_eq_some_iff.mp h
  have hmem : version ∈ disk.versions.map Prod.fst := by
    rw [hsplit]
    simp
  exact le_max_of_le hmem le_rfl

/-- What staging a content does to the directories. -/
def Written (crc : Bytes → UInt32) (roaring : Roaring) (overlay : OverlaySet) (disk after : Disk) :
    Prop :=
  (∀ version, after.dir version = disk.dir version) ∨ disk.dir overlay.version = none ∧
    ∃ dir, encodeVersion crc roaring overlay = .ok dir ∧
      ∀ version, after.dir version = (disk.add overlay.version dir).dir version

variable {handles : List OverlaySet} {overlay : OverlaySet}

namespace Written

variable {disk after : Disk}

section

variable (h : Written crc roaring overlay disk after)
include h

/-- A directory of the disk afterwards was there or is the new one. -/
theorem cases (hdir : after.dir version = some dir) : disk.dir version = some dir ∨
      version = overlay.version ∧ encodeVersion crc roaring overlay = .ok dir := by
  rcases h with hsame | ⟨-, new, hnew, hadd⟩
  · exact .inl (hsame version ▸ hdir)
  · rw [hadd, Disk.dir_add] at hdir
    split at hdir
    · next heq =>
      cases hdir
      exact .inr ⟨heq, hnew⟩
    · exact .inl hdir

/-- **No directory changes.** -/
theorem keeps (hdir : disk.dir version = some dir) : after.dir version = some dir := by
  rcases h with hsame | ⟨hnone, new, -, hadd⟩
  · rw [hsame, hdir]
  · rw [hadd, Disk.dir_add, if_neg, hdir]
    rintro rfl
    rw [hnone] at hdir
    cases hdir

theorem staged (hstaged : Staged crc roaring disk) (hfits : overlay.Fits) :
    Staged crc roaring after := by
  intro version dir hdir
  rcases h.cases hdir with hold | ⟨rfl, hnew⟩
  · exact hstaged version dir hold
  · exact ⟨overlay, rfl, hfits, hnew⟩

theorem live (hlive : Live crc roaring disk store handles)
    (hmem : overlay ∈ store.current :: handles) :
    Live crc roaring after store handles where
  agrees other hother := by
    obtain ⟨hfits, hfresh, hdir⟩ := hlive.agrees other hother
    refine ⟨hfits, hfresh, fun dir hafter => ?_⟩
    rcases h.cases hafter with hold | ⟨heq, hnew⟩
    · exact hdir dir hold
    · rw [hlive.apart hother hmem heq]
      exact hnew
  apart := hlive.apart
  fresh version dir hafter := by
    rcases h.cases hafter with hold | ⟨rfl, -⟩
    · exact hlive.fresh version dir hold
    · exact (hlive.agrees overlay hmem).fresh

end

end Written

theorem stageVersion_written (faults : Faults) (disk : Disk) (overlay : OverlaySet) :
    Written crc roaring overlay disk (stageVersion crc roaring faults disk overlay).2 := by
  rw [stageVersion]
  split
  · exact .inl fun _ => rfl
  · next hnone =>
    rw [Option.not_isSome_iff_eq_none] at hnone
    cases hencode : encodeVersion crc roaring overlay with
    | error e => exact .inl fun _ => rfl
    | ok dir =>
      cases faults.staging with
      | done | unsynced => exact .inr ⟨hnone, dir, hencode, fun _ => rfl⟩
      | refused => exact .inl fun _ => rfl

theorem publish_written (faults : Faults) (disk : Disk) (overlay : OverlaySet) :
    Written crc roaring overlay disk (publish crc roaring faults disk overlay).2 := by
  have hstage := @stageVersion_written crc roaring faults disk overlay
  rw [publish]
  split
  · next e middle heq =>
    rw [heq] at hstage
    exact hstage
  · next middle heq =>
    rw [heq] at hstage
    cases faults.current with
    | done | refused | unsynced => exact hstage

/-! ### Memory -/

variable {after : OverlayStore}

namespace Live

section

variable (h : Live crc roaring disk store handles)
include h

theorem fits : store.current.Fits := (h.agrees _ mem_cons_self).fits

/-- Memory with nothing new in it. -/
theorem mono {kept : List OverlaySet} (hnext : after.nextVersion = store.nextVersion)
    (hsub : ∀ overlay ∈ after.current :: kept, overlay ∈ store.current :: handles) :
    Live crc roaring disk after kept where
  agrees overlay hmem := hnext ▸ h.agrees overlay (hsub overlay hmem)
  apart _ ha _ hb heq := h.apart (hsub _ ha) (hsub _ hb) heq
  fresh := hnext ▸ h.fresh

theorem handOut : Live crc roaring disk store (store.current :: handles) :=
  h.mono rfl fun other hother => by simpa using hother

/-- Memory with one new content in it. -/
theorem put {overlay : OverlaySet} {kept : List OverlaySet}
    (hnext : store.nextVersion ≤ after.nextVersion)
    (hnew : Agrees crc roaring disk after.nextVersion overlay)
    (hmem : ∀ other ∈ after.current :: kept, other = overlay ∨
      other ∈ store.current :: handles ∧ other.version ≠ overlay.version) :
    Live crc roaring disk after kept := by
  refine ⟨fun other hother => ?_, fun a ha b hb heq => ?_,
    fun version dir hdir => (h.fresh version dir hdir).trans_le hnext⟩
  · rcases hmem other hother with rfl | ⟨hother, -⟩
    · exact hnew
    · obtain ⟨hfits, hfresh, hdir⟩ := h.agrees other hother
      exact ⟨hfits, hfresh.trans_le hnext, hdir⟩
  · rcases hmem a ha with rfl | ⟨ha, hne⟩ <;> rcases hmem b hb with rfl | ⟨hb, hne'⟩
    · rfl
    · exact absurd heq.symm hne'
    · exact absurd heq hne
    · exact h.apart ha hb heq

/-- A content under the next number. -/
theorem allocate {overlay : OverlaySet} (hversion : overlay.version = store.nextVersion)
    (hfits : overlay.Fits) :
    Live crc roaring disk { store with nextVersion := store.nextVersion + 1 }
      (overlay :: handles) := by
  refine h.put (Nat.le_succ _) ⟨hfits, hversion ▸ Nat.lt_succ_self _,
    fun dir hdir => ?_⟩ fun other hother => ?_
  · have := h.fresh _ dir hdir
    omega
  · have hold : other ∈ store.current :: handles → other.version ≠ overlay.version :=
      fun hother => hversion ▸ (h.agrees other hother).fresh.ne
    simp only [mem_cons] at hother hold ⊢
    tauto

/-- A pending content that only the store knows is revised. -/
theorem revise {overlay : OverlaySet} (hversion : overlay.version = store.current.version)
    (hfits : overlay.Fits) (hdir : disk.dir store.current.version = none)
    (hhandles : store.current ∉ handles) :
    Live crc roaring disk { store with current := overlay } handles := by
  refine h.put le_rfl ⟨hfits, hversion ▸ (h.agrees _ mem_cons_self).fresh, fun dir hfound => ?_⟩
    fun other hother => (mem_cons.mp hother).imp_right fun hother =>
      ⟨mem_cons_of_mem _ hother, fun heq => ?_⟩
  · rw [hversion, hdir] at hfound
    cases hfound
  · have hsame := h.apart (mem_cons_of_mem _ hother) mem_cons_self (heq.trans hversion)
    exact hhandles (hsame ▸ hother)

end

end Live

/-! ### Operations -/

variable {changed : Bool} {mutation : Mutation}

theorem eq_or_of_change {there : Prop} [Decidable there] {install : Result OverlayStore}
    (h : (if there then pure (false, store) else do
      let next ← install
      pure (true, next)) = (.ok (changed, after) : Result (Bool × OverlayStore))) :
    after = store ∨ ¬ there ∧ install = .ok after := by
  split at h
  · cases h
    exact .inl rfl
  · next hnew =>
    simp only [eq_ok, Prod.mk.injEq] at h
    obtain ⟨next, hnext, -, rfl⟩ := h
    exact .inr ⟨hnew, hnext⟩

theorem Mutation.apply_cases (hfits : store.current.Fits)
    (h : mutation.apply store = .ok (changed, after)) :
    after = store ∨ mutation.changes store.current ∧ ∃ points edges,
      (∀ raw ∈ edges, edgeIdValid raw) ∧
        store.installPending store.current.generation points edges = .ok after := by
  cases mutation with
  | tombstonePoint segment ordinal =>
    simp only [Mutation.apply, OverlayStore.tombstonePoint, eq_ok] at h
    refine (eq_or_of_change h.2).imp_right fun hnew => ⟨?_, _, _, hfits.edges, hnew.2⟩
    simpa [SegmentOrdinalSet.contains, Mutation.changes] using hnew.1
  | reconcilePoints points =>
    exact (eq_or_of_change h).imp_right fun hnew =>
      ⟨fun hsub => hnew.1 (Finset.union_eq_left.mpr hsub), _, _, hfits.edges, hnew.2⟩
  | replaceEdges edges =>
    simp only [Mutation.apply, OverlayStore.replaceEdges, validateEdgeTombstones_eq_ok, eq_ok] at h
    exact (eq_or_of_change h.2).imp_right fun hnew => ⟨hnew.1, _, _, h.1, hnew.2⟩

/-- A change of a version that only the store knows keeps memory in order. -/
theorem Live.mutate (hlive : Live crc roaring disk store handles)
    (horderly : store.dirty → mutation.changes store.current →
      disk.dir store.current.version = none ∧ store.current ∉ handles)
    (h : mutation.apply store = .ok (changed, after)) : Live crc roaring disk after handles := by
  have hfits := hlive.fits
  rcases Mutation.apply_cases hfits h with rfl | ⟨hchanges, points, edges, hedges, hinstall⟩
  · exact hlive
  rw [OverlayStore.installPending] at hinstall
  split at hinstall
  · next hdirty =>
    cases hinstall
    obtain ⟨hdir, hhandles⟩ := horderly hdirty hchanges
    have hrevised : Live crc roaring disk { store with current :=
        ⟨store.current.version, store.current.generation, points, edges⟩ } handles :=
      hlive.revise rfl ⟨hfits.version, hfits.generation, hedges⟩ hdir hhandles
    exact hrevised.mono rfl fun _ hmem => hmem
  · simp only [eq_ok] at hinstall
    obtain ⟨hnext, rfl⟩ := hinstall
    have hversion : store.nextVersion < 2 ^ 64 := by omega
    have hallocated : Live crc roaring disk { store with nextVersion := store.nextVersion + 1 }
        (⟨store.nextVersion, store.current.generation, points, edges⟩ :: handles) :=
      hlive.allocate rfl ⟨hversion, hfits.generation, hedges⟩
    refine hallocated.mono rfl fun other hother => ?_
    rcases mem_cons.mp hother with rfl | hother
    · exact mem_cons_of_mem _ mem_cons_self
    · exact mem_cons_of_mem _ (mem_cons_of_mem _ hother)

theorem Live.publishPending (hlive : Live crc roaring disk store handles) (faults : Faults) :
    Written crc roaring store.current disk (store.publishPending crc roaring faults disk).2.1 ∧
      Live crc roaring (store.publishPending crc roaring faults disk).2.1
        (store.publishPending crc roaring faults disk).2.2 handles := by
  have hwritten := @publish_written crc roaring faults disk store.current
  have hafter := hwritten.live hlive mem_cons_self
  rw [OverlayStore.publishPending]
  generalize publish crc roaring faults disk store.current = out at *
  obtain ⟨_ | _, after⟩ := out
  all_goals split
  · exact ⟨.inl fun _ => rfl, hlive⟩
  · exact ⟨hwritten, hafter⟩
  · exact ⟨.inl fun _ => rfl, hlive⟩
  · exact ⟨hwritten, hafter.mono rfl fun _ hmem => hmem⟩

/-- What a call that hands out a staged version does to the disk and to memory. -/
def Stages (crc : Bytes → UInt32) (roaring : Roaring) (disk : Disk) (handles : List OverlaySet)
    (out : Result OverlaySet × Disk × OverlayStore) : Prop :=
  ∃ cut : OverlaySet, cut.Fits ∧ Written crc roaring cut disk out.2.1 ∧
    (∀ staged, out.1 = .ok staged → staged = cut) ∧
      Live crc roaring out.2.1 out.2.2 (cut :: handles)

theorem Live.stagePending (hlive : Live crc roaring disk store handles) (faults : Faults) :
    Stages crc roaring disk handles (store.stagePending crc roaring faults disk) := by
  have hwritten := @stageVersion_written crc roaring faults disk store.current
  have hafter := (hwritten.live hlive mem_cons_self).handOut
  refine ⟨store.current, hlive.fits, ?_⟩
  rw [OverlayStore.stagePending]
  generalize stageVersion crc roaring faults disk store.current = out at *
  obtain ⟨_ | _, disk⟩ := out
  · exact ⟨hwritten, (fun _ h => by cases h), hafter⟩
  · dsimp only
    split
    · exact ⟨hwritten, (fun _ h => by cases h), hafter⟩
    · exact ⟨hwritten, (fun _ h => by cases h; rfl), hafter.mono rfl fun _ hmem => hmem⟩

variable {generation : UInt64}

theorem Live.prepareGeneration (hlive : Live crc roaring disk store handles)
    {points : SegmentOrdinalSet} {cut : OverlaySet}
    (h : store.prepareGeneration generation.toNat points = .ok (cut, after)) :
    Live crc roaring disk after (cut :: handles) := by
  simp only [OverlayStore.prepareGeneration, OverlayStore.prepareReplacementGeneration, eq_ok,
    Prod.mk.injEq] at h
  obtain ⟨-, hnext, rfl, rfl⟩ := h
  have hversion : store.nextVersion < 2 ^ 64 := by omega
  exact hlive.allocate rfl ⟨hversion, generation.toNat_lt, hlive.fits.edges⟩

theorem Live.stageCut (hlive : Live crc roaring disk store handles) (faults : Faults)
    (generation : UInt64) (points : SegmentOrdinalSet) : Stages crc roaring disk handles
      (store.stageCut crc roaring faults disk generation.toNat points) := by
  rw [OverlayStore.stageCut]
  split
  · exact ⟨store.current, hlive.fits, .inl fun _ => rfl, (fun _ h => by cases h), hlive.handOut⟩
  · next cut after hprepare =>
    have hprepared := hlive.prepareGeneration hprepare
    have hmem : cut ∈ after.current :: cut :: handles :=
      mem_cons_of_mem _ mem_cons_self
    have hwritten := @stageVersion_written crc roaring faults disk cut
    have hafter := hwritten.live hprepared hmem
    refine ⟨cut, (hprepared.agrees cut hmem).fits, ?_⟩
    generalize stageVersion crc roaring faults disk cut = out at *
    obtain ⟨_ | _, disk⟩ := out
    · exact ⟨hwritten, (fun _ h => by cases h), hafter⟩
    · refine ⟨hwritten, fun staged h => ?_, hafter⟩
      obtain ⟨-, -, rfl⟩ := map_eq_ok.mp h
      rfl

/-! ### Opening -/

theorem loadVersion_eq_ok :
    loadVersion crc roaring disk version = .ok overlay ↔
      ∃ dir, disk.dir version = some dir ∧ decodeVersion crc roaring version dir = .ok overlay := by
  rw [loadVersion]
  cases disk.dir version with
  | none | some => simp [bind, Except.bind]

theorem Agrees.load (lawful : roaring.Lawful) (h : Agrees crc roaring disk nextVersion overlay)
    (hdir : disk.dir overlay.version = some dir) :
    loadVersion crc roaring disk overlay.version = .ok overlay :=
  loadVersion_eq_ok.mpr
    ⟨dir, hdir, decodeVersion_encodeVersion crc lawful h.fits (h.dir dir hdir)⟩

theorem Staged.load (lawful : roaring.Lawful) (h : Staged crc roaring disk)
    (hload : loadVersion crc roaring disk version = .ok overlay) :
    overlay.version = version ∧ overlay.Fits ∧ ∃ dir, disk.dir version = some dir ∧
      encodeVersion crc roaring overlay = .ok dir := by
  obtain ⟨dir, hdir, hdecode⟩ := loadVersion_eq_ok.mp hload
  obtain ⟨staged, rfl, hfits, hencode⟩ := h version dir hdir
  rw [decodeVersion_encodeVersion crc lawful hfits hencode, Except.ok.injEq] at hdecode
  subst hdecode
  exact ⟨rfl, hfits, dir, hdir, hencode⟩

theorem Staged.loadCurrent (lawful : roaring.Lawful) (h : Staged crc roaring disk)
    (hload : loadCurrent crc roaring disk = .ok (some overlay)) :
    loadVersion crc roaring disk overlay.version = .ok overlay := by
  rw [Overlay.loadCurrent] at hload
  split at hload
  · cases hload
  · obtain ⟨found, hversion, heq⟩ := map_eq_ok.mp hload
    cases heq
    rwa [(h.load lawful hversion).1]

theorem live_opened (hnext : store.nextVersion = disk.maximum + 1 ∨
      store.nextVersion = disk.maximum + 2)
    (hcurrent : Agrees crc roaring disk store.nextVersion store.current) :
    Live crc roaring disk store [] := by
  refine ⟨fun overlay hmem => mem_singleton.mp hmem ▸ hcurrent, fun a ha b hb _ => ?_,
    fun version dir hdir => ?_⟩
  · rw [mem_singleton.mp ha, mem_singleton.mp hb]
  · have := Disk.le_maximum hdir
    omega

/-- A version that is to be published when a store opens. -/
theorem live_fresh {points : SegmentOrdinalSet} {edges : Finset UInt64}
    (hedges : ∀ raw ∈ edges, edgeIdValid raw)
    (h : OverlayStore.found.fresh generation.toNat (disk.maximum + 1) points edges = .ok store) :
    Live crc roaring disk store [] := by
  simp only [OverlayStore.found.fresh, eq_ok] at h
  obtain ⟨hnext, rfl⟩ := h
  have hversion : disk.maximum + 1 < 2 ^ 64 := by omega
  refine live_opened (.inr rfl) ⟨⟨hversion, generation.toNat_lt, hedges⟩, Nat.lt_succ_self _,
    fun dir hdir => ?_⟩
  have := Disk.le_maximum hdir
  dsimp only at this
  omega

variable {installed : List String} {loaded : OverlaySet} {segmentBase : SegmentOrdinalSet}

/-- Where nothing is to be published, the loaded version was kept as it is. -/
theorem retained_of_orderly (horderly : (∀ p ∈ loaded.pointTombstones, p.1 ∈ installed) ∨
      ∃ p ∈ segmentBase, p ∉ loaded.pointTombstones ∨ p.1 ∉ installed)
    (hsame : loaded.pointTombstones.retainSegments (fun segment => decide (segment ∈ installed)) =
      (loaded.pointTombstones.retainSegments fun segment => decide (segment ∈ installed)).unionWith
        segmentBase) :
    loaded.pointTombstones.retainSegments (fun segment => decide (segment ∈ installed)) =
      loaded.pointTombstones := by
  rcases horderly with hall | ⟨p, hp, hout⟩
  · exact Finset.filter_true_of_mem fun p hp => decide_eq_true (hall p hp)
  · have hmem := Finset.union_eq_left.mp hsame.symm hp
    rw [SegmentOrdinalSet.retainSegments, Finset.mem_filter, decide_eq_true_eq] at hmem
    exact absurd hmem (by tauto)

theorem live_loaded (hfits : loaded.Fits) (hdir : disk.dir loaded.version = some dir)
    (hencode : encodeVersion crc roaring loaded = .ok dir) :
    Live crc roaring disk ⟨loaded, false, disk.maximum + 1⟩ [] := by
  refine live_opened (.inl rfl) ⟨hfits, Nat.lt_succ_of_le (Disk.le_maximum hdir),
    fun other hother => ?_⟩
  cases hdir.symm.trans hother
  exact hencode

variable {faults : Faults} {mode : OverlayOpenMode}

/-- **Opening** a disk whose directories were staged. -/
theorem live_recovered (lawful : roaring.Lawful) (hstaged : Staged crc roaring disk)
    (horderly : mode = .recover → ∀ loaded, loadCurrent crc roaring disk = .ok (some loaded) →
      loaded.generation = generation.toNat → (∀ p ∈ loaded.pointTombstones, p.1 ∈ installed) ∨
        ∃ p ∈ segmentBase, p ∉ loaded.pointTombstones ∨ p.1 ∉ installed)
    (h : OverlayStore.recovered crc roaring faults disk generation.toNat installed segmentBase
      mode = .ok store) : Live crc roaring disk store [] := by
  simp only [OverlayStore.recovered, nextOverlayVersion, eq_ok] at h
  obtain ⟨-, next, ⟨-, rfl⟩, h⟩ := h
  have hnone : ∀ raw ∈ (∅ : Finset UInt64), edgeIdValid raw := by simp
  cases mode with
  | resetToSegmentBase => exact live_fresh hnone h
  | recover =>
    simp only [eq_ok] at h
    obtain ⟨loaded, hloaded, h⟩ := h
    cases loaded with
    | none => exact live_fresh hnone h
    | some loaded =>
      obtain ⟨-, hfits, dir, hdir, hencode⟩ :=
        hstaged.load lawful (hstaged.loadCurrent lawful hloaded)
      simp only [OverlayStore.found] at h
      split at h
      · next hgeneration =>
        split at h
        · next hsame =>
          cases h
          have hkept := retained_of_orderly (horderly rfl loaded hloaded hgeneration) hsame
          rw [← hsame, hkept, hkept, ← hgeneration]
          exact live_loaded hfits hdir hencode
        · exact live_fresh hfits.edges h
      · exact live_fresh hnone h

/-! ### Steps and runs -/

theorem inv_start : Inv crc roaring World.start where
  staged _ _ h := by cases h
  idle _ := rfl
  live _ h := by cases h

theorem Written.inv (hwritten : Written crc roaring overlay world.disk disk)
    (h : Inv crc roaring world) (hfits : overlay.Fits)
    (hlive : Live crc roaring disk store handles) :
    Inv crc roaring ⟨disk, some store, handles⟩ where
  staged := hwritten.staged h.staged hfits
  idle h := by cases h
  live _ h := by
    cases h
    exact hlive

/-- What a step does to a world in order: it stays so, and no directory changes. -/
def Advances (crc : Bytes → UInt32) (roaring : Roaring) (world next : World) : Prop :=
  Inv crc roaring next ∧ ∃ overlay, Written crc roaring overlay world.disk next.disk

/-- A call with the store keeps the invariant when it keeps memory in order and writes to the disk
what fits. -/
theorem Inv.withStore (h : Inv crc roaring world)
    {call : OverlayStore → Disk × OverlayStore × List OverlaySet}
    (hstep : world.withStore call = some next)
    (hcall : ∀ store ∈ world.store, Live crc roaring world.disk store world.handles →
      ∃ overlay : OverlaySet, overlay.Fits ∧ Written crc roaring overlay world.disk (call store).1 ∧
        Live crc roaring (call store).1 (call store).2.1 (call store).2.2) :
    Advances crc roaring world next := by
  obtain ⟨store, hstore, rfl⟩ := Option.map_eq_some_iff.mp hstep
  obtain ⟨overlay, hfits, hwritten, hlive⟩ := hcall store hstore (h.live store hstore)
  exact ⟨hwritten.inv h hfits hlive, overlay, hwritten⟩

theorem Inv.stages (h : Inv crc roaring world)
    {call : OverlayStore → Result OverlaySet × Disk × OverlayStore}
    (hstep : (world.withStore fun store => match call store with
      | (.ok cut, disk, store) => (disk, store, cut :: world.handles)
      | (.error _, disk, store) => (disk, store, world.handles)) = some next)
    (hcall : ∀ store, Live crc roaring world.disk store world.handles →
      Stages crc roaring world.disk world.handles (call store)) :
    Advances crc roaring world next := by
  refine h.withStore hstep fun store _ hlive => ?_
  obtain ⟨cut, hfits, hwritten, hresult, hafter⟩ := hcall store hlive
  refine ⟨cut, hfits, ?_⟩
  generalize call store = out at *
  obtain ⟨e | staged, disk, after⟩ := out
  · refine ⟨hwritten, hafter.mono rfl fun other hother => ?_⟩
    rcases mem_cons.mp hother with rfl | hother
    · exact mem_cons_self
    · exact mem_cons_of_mem _ (mem_cons_of_mem _ hother)
  · obtain rfl := hresult staged rfl
    exact ⟨hwritten, hafter⟩

section

variable (lawful : roaring.Lawful)
include lawful

theorem Inv.openStore (h : Inv crc roaring world)
    (hclosed : world.store = none) (horderly : Orderly crc roaring world
      (.openStore faults generation installed segmentBase mode))
    (hstep : (match OverlayStore.openStore crc roaring faults world.disk generation.toNat installed
        segmentBase mode with
      | (.ok store, disk) => some { world with disk, store := some store }
      | (.error _, disk) => some { world with disk }) = some next) :
    Advances crc roaring world next := by
  rw [OverlayStore.openStore] at hstep
  cases hrecovered : OverlayStore.recovered crc roaring faults world.disk generation.toNat
      installed segmentBase mode with
  | error e =>
    rw [hrecovered] at hstep
    cases hstep
    exact ⟨h, ⟨0, 0, ∅, ∅⟩, .inl fun _ => rfl⟩
  | ok store =>
    rw [hrecovered] at hstep
    dsimp only at hstep
    have hlive := live_recovered lawful h.staged horderly hrecovered
    have hfits := hlive.fits
    obtain ⟨hwritten, hafter⟩ := hlive.publishPending faults
    generalize store.publishPending crc roaring faults world.disk = out at *
    obtain ⟨result, disk, after⟩ := out
    cases result with
    | error e =>
      cases hstep
      exact ⟨⟨hwritten.staged h.staged hfits, h.idle,
        fun _ hsome => by rw [hclosed] at hsome; cases hsome⟩, _, hwritten⟩
    | ok u =>
      cases hstep
      rw [h.idle hclosed]
      exact ⟨hwritten.inv h hfits hafter, _, hwritten⟩

/-- **One step keeps the invariant and the directories.** -/
theorem Inv.step (h : Inv crc roaring world) (horderly : Orderly crc roaring world event)
    (hstep : step crc roaring world event = some next) : Advances crc roaring world next := by
  cases event with
  | openStore faults generation installed segmentBase mode =>
    rw [Overlay.step] at hstep
    split at hstep
    · cases hstep
    · next hclosed =>
      exact h.openStore lawful (Option.not_isSome_iff_eq_none.mp hclosed) horderly hstep
  | mutate mutation =>
    refine h.withStore hstep fun store hstore hlive => ⟨store.current, hlive.fits, ?_⟩
    cases happly : mutation.apply store with
    | error e => exact ⟨.inl fun _ => rfl, hlive⟩
    | ok result => exact ⟨.inl fun _ => rfl, hlive.mutate (horderly store hstore) happly⟩
  | stageCut faults generation points =>
    exact h.stages hstep fun store hlive => hlive.stageCut faults generation points
  | stagePending faults => exact h.stages hstep fun store hlive => hlive.stagePending faults
  | publishPending faults =>
    rw [Overlay.step] at hstep
    exact h.withStore hstep fun store _ hlive => ⟨_, hlive.fits, hlive.publishPending faults⟩
  | handOut =>
    rw [Overlay.step] at hstep
    exact h.withStore hstep fun store _ hlive =>
      ⟨store.current, hlive.fits, .inl fun _ => rfl, hlive.handOut⟩
  | crash =>
    cases hstep
    exact ⟨⟨h.staged, fun _ => rfl, fun _ hnone => by cases hnone⟩, ⟨0, 0, ∅, ∅⟩, .inl fun _ => rfl⟩

/-- **A run keeps the invariant and the directories.** -/
theorem Inv.run (h : Inv crc roaring world) (horderly : OrderlyRun crc roaring world events)
    (hrun : run crc roaring world events = some last) :
    Inv crc roaring last ∧ ∀ version dir, world.disk.dir version = some dir →
      last.disk.dir version = some dir := by
  induction events generalizing world with
  | nil =>
    cases hrun
    exact ⟨h, fun _ _ hdir => hdir⟩
  | cons event events ih =>
    simp only [Overlay.run, Option.bind_eq_bind, Option.bind_eq_some_iff] at hrun
    obtain ⟨next, hstep, hrest⟩ := hrun
    obtain ⟨hnext, overlay, hwritten⟩ := h.step lawful horderly.1 hstep
    obtain ⟨hlast, hkeeps⟩ := ih hnext (horderly.2 next hstep) hrest
    exact ⟨hlast, fun version dir hdir => hkeeps version dir (hwritten.keeps hdir)⟩

/-! ### What the invariant gives -/

omit lawful in
theorem Inv.onDisk_or_mem (h : Inv crc roaring world) (hb : world.Denotes crc roaring overlay) :
    world.OnDisk crc roaring overlay ∨
      ∃ store ∈ world.store, overlay ∈ store.current :: world.handles := by
  rcases hb with hb | ⟨store, hstore, rfl⟩ | hb
  · exact .inl hb
  · exact .inr ⟨store, hstore, mem_cons_self⟩
  · cases hstore : world.store with
    | none =>
      rw [h.idle hstore] at hb
      cases hb
    | some store => exact .inr ⟨store, rfl, mem_cons_of_mem _ hb⟩

/-- A content in memory is the one on disk. -/
theorem Inv.onDisk_eq (h : Inv crc roaring world)
    {a b : OverlaySet} (ha : world.OnDisk crc roaring a) (hb : world.Denotes crc roaring b)
    (heq : a.version = b.version) : a = b := by
  obtain ⟨dir, hdir, -⟩ := loadVersion_eq_ok.mp ha
  have hload : world.OnDisk crc roaring b := by
    rcases h.onDisk_or_mem hb with hb | ⟨store, hstore, hmem⟩
    · exact hb
    · exact ((h.live store hstore).agrees b hmem).load lawful (heq ▸ hdir)
  rw [World.OnDisk, heq] at ha
  rw [World.OnDisk, ha, Except.ok.injEq] at hload
  exact hload

/-- **A version number denotes one content.** -/
theorem Inv.injOn (h : Inv crc roaring world) :
    Set.InjOn OverlaySet.version {overlay | world.Denotes crc roaring overlay} := by
  intro a ha b hb heq
  rcases h.onDisk_or_mem ha with hdisk | ⟨store, hstore, hmem⟩
  · exact h.onDisk_eq lawful hdisk hb heq
  rcases h.onDisk_or_mem hb with hdisk | ⟨other, hother, hmem'⟩
  · exact (h.onDisk_eq lawful hdisk ha heq.symm).symm
  cases Option.mem_unique hstore hother
  exact (h.live store hstore).apart hmem hmem' heq

end

theorem change_ok {there : Prop} [Decidable there] {generation : ℕ} {points : SegmentOrdinalSet}
    {edges : Finset UInt64} (hdirty : store.dirty = true) :
    ∃ result, (if there then pure (false, store) else do
      let next ← store.installPending generation points edges
      pure (true, next) : Result (Bool × OverlayStore)) = .ok result := by
  rw [OverlayStore.installPending, if_pos hdirty]
  split <;> exact ⟨_, rfl⟩

theorem Mutation.apply_of_dirty (hdirty : store.dirty = true) (hvalid : mutation.Valid) :
    ∃ result, mutation.apply store = .ok result := by
  cases mutation with
  | tombstonePoint segment ordinal =>
    have hsegment : validateSegmentId segment = .ok () := ensure_eq_ok.mpr hvalid
    rw [Mutation.apply, OverlayStore.tombstonePoint, hsegment]
    exact change_ok hdirty
  | reconcilePoints points => exact change_ok hdirty
  | replaceEdges edges =>
    rw [Mutation.apply, OverlayStore.replaceEdges, validateEdgeTombstones_eq_ok.mpr hvalid]
    exact change_ok hdirty

/-- A content that agrees with the disk is staged there by a working disk. -/
theorem stageVersion_none (lawful : roaring.Lawful)
    (hagrees : Agrees crc roaring disk nextVersion overlay)
    (hstageable : overlay.Stageable roaring) :
    (stageVersion crc roaring .none disk overlay).1 = .ok () := by
  rw [stageVersion]
  split
  · next hsome =>
    obtain ⟨dir, hdir⟩ := Option.isSome_iff_exists.mp hsome
    simp only [eq_ok]
    exact ⟨rfl, overlay, hagrees.load lawful hdir, rfl, rfl⟩
  · obtain ⟨dir, hencode⟩ := encodeVersion_ok crc hstageable
    rw [hencode]
    rfl

theorem Inv.recovers (lawful : roaring.Lawful) (h : Inv crc roaring world) :
    world.Recovers crc roaring := by
  intro store hstore hdirty
  refine ⟨fun mutation hvalid => Mutation.apply_of_dirty hdirty hvalid, fun hstageable => ?_⟩
  have hstage := stageVersion_none lawful
    ((h.live store hstore).agrees store.current mem_cons_self) hstageable
  rw [OverlayStore.publishPending, hdirty, publish]
  generalize stageVersion crc roaring .none world.disk store.current = out at *
  obtain ⟨result, disk⟩ := out
  cases hstage
  rfl

end Machine

/-- **Versions are immutable**, in every run in which no change meets a pending version that is on
disk or handed out, and no opening drops tombstones of the version it keeps. -/
theorem versions_immutable {crc : Bytes → UInt32} {roaring : Roaring} (lawful : roaring.Lawful)
    {before after : List Event} {middle world : World}
    (hbefore : run crc roaring .start before = some middle)
    (hafter : run crc roaring middle after = some world)
    (horderlyBefore : OrderlyRun crc roaring .start before)
    (horderlyAfter : OrderlyRun crc roaring middle after) :
    Set.InjOn OverlaySet.version {overlay | world.Denotes crc roaring overlay} ∧
      (∀ a b, middle.OnDisk crc roaring a → world.Denotes crc roaring b →
        a.version = b.version → a = b) ∧
      world.Recovers crc roaring := by
  obtain ⟨hmiddle, -⟩ := Inv.run lawful inv_start horderlyBefore hbefore
  obtain ⟨hworld, hkeeps⟩ := hmiddle.run lawful horderlyAfter hafter
  refine ⟨hworld.injOn lawful, fun a b ha hb heq => ?_, hworld.recovers lawful⟩
  obtain ⟨dir, hdir, hdecode⟩ := loadVersion_eq_ok.mp ha
  exact hworld.onDisk_eq lawful (loadVersion_eq_ok.mpr ⟨dir, hkeeps _ dir hdir, hdecode⟩) hb heq

variable {crc : Bytes → UInt32} {roaring : Roaring}

/-- A pending version whose number is that of another content is never published. -/
theorem publishPending_refused {found : OverlaySet} (hdirty : store.dirty = true)
    (hload : loadVersion crc roaring disk store.current.version = .ok found)
    (hne : found ≠ store.current) :
    (store.publishPending crc roaring .none disk).1 =
      .error (.segmentCorruption "refusing to overwrite a different overlay version") := by
  obtain ⟨dir, hdir, -⟩ := loadVersion_eq_ok.mp hload
  have hstage : stageVersion crc roaring .none disk store.current =
      (.error (.segmentCorruption "refusing to overwrite a different overlay version"), disk) := by
    rw [stageVersion, hdir, hload]
    simp [ensure, Faults.none, bind, Except.bind, hne]
  rw [OverlayStore.publishPending, hdirty, publish, hstage]
  rfl

/-! ### Runs -/

/-- The numbers of a set, one after another. -/
noncomputable def listing {α : Type} (code : α → Bytes) (set : Finset α) : Bytes :=
  set.toList.flatMap code

variable {α : Type} {code : α → Bytes}

theorem listing_injective (hne : ∀ a, code a ≠ [])
    (hcode : ∀ a b s t, code a ++ s = code b ++ t → a = b) : Function.Injective (listing code) := by
  intro a b h
  have hlist := flatMap_injective hne hcode h
  ext x
  rw [← Finset.mem_toList, hlist, Finset.mem_toList]

theorem listing_length {width : ℕ} (hcode : ∀ a, (code a).length = width) (set : Finset α) :
    (listing code set).length = set.card * width := by
  rw [listing, length_flatMap, map_congr_left (fun a _ => hcode a), map_const',
    sum_replicate_nat, Finset.length_toList]

/-- Bitmaps as lists of numbers. -/
noncomputable def exampleRoaring : Roaring where
  serialize := listing fun n => leBytes 4 n.toNat
  deserialize := Function.partialInv (listing fun n => leBytes 4 n.toNat)
  serializeTreemap := listing fun n => leBytes 8 n.toNat
  deserializeTreemap := Function.partialInv (listing fun n => leBytes 8 n.toNat)

theorem exampleRoaring_lawful : exampleRoaring.Lawful where
  bitmap := Function.partialInv_left (listing_injective (by simp [leBytes]) fun a b s t h =>
    UInt32.toNat_inj.mp (leBytes_inj a.toNat_lt b.toNat_lt (append_inj h (by simp)).1))
  treemap := Function.partialInv_left (listing_injective (by simp [leBytes]) fun a b s t h =>
    UInt64.toNat_inj.mp (leBytes_inj a.toNat_lt b.toNat_lt (append_inj h (by simp)).1))

/-- A version with some points of one segment. -/
def exampleOverlay (version : ℕ) (points : List UInt32) : OverlaySet :=
  ⟨version, 1, (points.map fun ordinal => ("a", ordinal)).toFinset, ∅⟩

theorem exampleOverlay_segments {segment : String}
    (h : segment ∈ (exampleOverlay version points).pointTombstones.segments) : segment = "a" := by
  simp only [exampleOverlay, SegmentOrdinalSet.segments, Finset.mem_image, mem_toFinset,
    mem_map] at h
  obtain ⟨p, ⟨ordinal, -, rfl⟩, rfl⟩ := h
  rfl

theorem exampleOverlay_stageable (version : ℕ)
    (hshort : points.length ≤ 2) : (exampleOverlay version points).Stageable exampleRoaring := by
  have hcard : (exampleOverlay version points).pointTombstones.card ≤ 2 :=
    (toFinset_card_le _).trans (by simpa using hshort)
  refine ⟨?_, fun segment hsegment => ?_, fun segment _ => ?_, ?_⟩
  · exact (Finset.card_image_le.trans hcard).trans (by decide)
  · rw [exampleOverlay_segments hsegment]
    decide +kernel
  · have hle : ((exampleOverlay version points).pointTombstones.bitmap segment).card ≤ 2 :=
      (Finset.card_image_le.trans (Finset.card_filter_le _ _)).trans hcard
    have hlength : (exampleRoaring.serialize
        ((exampleOverlay version points).pointTombstones.bitmap segment)).length = _ :=
      listing_length (fun _ => leBytes_length 4 _) _
    rw [hlength, artifactHeaderBytes, maxOverlayFileBytes]
    omega
  · have hlength : (exampleRoaring.serializeTreemap
        (exampleOverlay version points).edgeTombstones).length = _ :=
      listing_length (fun _ => leBytes_length 8 _) _
    rw [hlength, show (exampleOverlay version points).edgeTombstones = ∅ from rfl]
    decide

theorem exampleOverlay_fits (h : version < 2 ^ 64) (points : List UInt32) :
    (exampleOverlay version points).Fits :=
  ⟨h, show 1 < _ by decide, fun _ hraw => by cases hraw⟩

/-- Checksums play no part in the runs. -/
def exampleCrc : Bytes → UInt32 := fun _ => 0

theorem exampleOverlay_encodes (version : ℕ) (hshort : points.length ≤ 2) :
    ∃ dir, encodeVersion exampleCrc exampleRoaring (exampleOverlay version points) = .ok dir :=
  encodeVersion_ok exampleCrc (exampleOverlay_stageable version hshort)

theorem step_exampleOpen
    (hdir : encodeVersion exampleCrc exampleRoaring (exampleOverlay 1 []) = .ok dir) :
    step exampleCrc exampleRoaring .start (.openStore .none 1 ["a"] ∅ .recover) =
      some ⟨⟨[(1, dir)], some 1⟩, some ⟨exampleOverlay 1 [], false, 2⟩, []⟩ := by
  have hoverlay : (⟨1, 1, ∅, ∅⟩ : OverlaySet) = exampleOverlay 1 [] := rfl
  simp [step, World.start, OverlayStore.openStore, OverlayStore.recovered, nextOverlayVersion,
    Disk.maximum, loadCurrent, OverlayStore.found, OverlayStore.found.fresh, ensure, Faults.none,
    SegmentOrdinalSet.retainSegments, OverlayStore.publishPending, publish, stageVersion, Disk.dir,
    bind, Except.bind, pure, Except.pure, hoverlay, hdir, Disk.add]
  rfl

/-- The store behind a new tombstone. -/
def exampleTombstoned (version nextVersion : ℕ) (points : List UInt32) (dirty : Bool) :
    OverlayStore :=
  if dirty then ⟨exampleOverlay version points, true, nextVersion⟩
  else ⟨exampleOverlay nextVersion points, true, nextVersion + 1⟩

theorem step_exampleTombstone {dirty : Bool} {ordinal : UInt32} (hnew : ordinal ∉ points)
    (hnext : nextVersion + 1 < 2 ^ 64) :
    step exampleCrc exampleRoaring
        ⟨disk, some ⟨exampleOverlay version points, dirty, nextVersion⟩, []⟩
        (.mutate (.tombstonePoint "a" ordinal)) =
      some ⟨disk, some (exampleTombstoned version nextVersion (ordinal :: points) dirty), []⟩ := by
  have hvalid : validateSegmentId "a" = .ok () := by decide +kernel
  have hcontains : (exampleOverlay version points).pointTombstones.contains "a" ordinal =
      false := by
    simp [SegmentOrdinalSet.contains, exampleOverlay, hnew]
  have hinsert : insert ("a", ordinal) (exampleOverlay version points).pointTombstones =
      (exampleOverlay version (ordinal :: points)).pointTombstones := by
    simp [exampleOverlay]
  have happly : (Mutation.tombstonePoint "a" ordinal).apply
      ⟨exampleOverlay version points, dirty, nextVersion⟩ =
        .ok (true, exampleTombstoned version nextVersion (ordinal :: points) dirty) := by
    rw [Mutation.apply, OverlayStore.tombstonePoint, hvalid]
    dsimp only
    rw [hcontains, hinsert]
    cases dirty with
    | true => rfl
    | false =>
      simp only [OverlayStore.installPending, ensure, hnext]
      rfl
  rw [step, World.withStore, Option.map_some]
  dsimp only
  rw [happly]

/-- A publication in which the file system refuses to stage, or to replace `CURRENT`. -/
theorem step_examplePublish {versions : List (ℕ × VersionDir)} {current : Option ℕ}
    (hdir : encodeVersion exampleCrc exampleRoaring (exampleOverlay version points) = .ok dir)
    (hnew : (⟨versions, current⟩ : Disk).dir version = none) (nextVersion : ℕ) (faults : Faults) :
    step exampleCrc exampleRoaring
        ⟨⟨versions, current⟩, some ⟨exampleOverlay version points, true, nextVersion⟩, []⟩
        (.publishPending faults) =
      some ⟨⟨if faults.staging = .refused then versions else (version, dir) :: versions,
          if faults.staging = .done ∧ faults.current ≠ .refused then some version else current⟩,
        some ⟨exampleOverlay version points,
          ¬(faults.staging = .done ∧ faults.current = .done), nextVersion⟩, []⟩ := by
  have hversion : (exampleOverlay version points).version = version := rfl
  obtain ⟨read, staging, verify, replacing⟩ := faults
  rw [step, World.withStore, Option.map_some]
  simp only [OverlayStore.publishPending, publish, stageVersion, hversion, hnew, hdir,
    Option.isSome_none, Bool.not_true, Bool.false_eq_true, if_false]
  cases staging <;> cases replacing <;> rfl

theorem run_cons (h : step crc roaring world event = some next)
    (hrest : run crc roaring next events = some last) :
    run crc roaring world (event :: events) = some last := by
  rw [run, h]
  exact hrest

/-- A run whose steps are as asked. -/
structure Goes (world : World) (events : List Event) (last : World) : Prop where
  run : run exampleCrc exampleRoaring world events = some last
  orderly : OrderlyRun exampleCrc exampleRoaring world events

theorem Goes.cons (h : Orderly exampleCrc exampleRoaring world event)
    (hstep : step exampleCrc exampleRoaring world event = some next)
    (hrest : Goes next events last) : Goes world (event :: events) last where
  run := run_cons hstep hrest.run
  orderly := ⟨h, fun other hother => by
    rw [hstep, Option.some.injEq] at hother
    exact hother ▸ hrest.orderly⟩

theorem load_example (hversion : version < 2 ^ 64)
    (hdir : encodeVersion exampleCrc exampleRoaring (exampleOverlay version points) = .ok dir)
    (hfound : disk.dir version = some dir) :
    loadVersion exampleCrc exampleRoaring disk version = .ok (exampleOverlay version points) :=
  loadVersion_eq_ok.mpr ⟨dir, hfound, decodeVersion_encodeVersion exampleCrc
    exampleRoaring_lawful (exampleOverlay_fits hversion points) hdir⟩

/-- A run in which a version cannot be staged at first, changes, and is published. -/
theorem versions_immutable_retry : ∃ middle world, run exampleCrc exampleRoaring .start
        [.openStore .none 1 ["a"] ∅ .recover, .mutate (.tombstonePoint "a" 0)] = some middle ∧
      run exampleCrc exampleRoaring middle
        [.publishPending { Faults.none with staging := .refused },
          .mutate (.tombstonePoint "a" 1), .publishPending .none] = some world ∧
      Set.InjOn OverlaySet.version {overlay | world.Denotes exampleCrc exampleRoaring overlay} := by
  obtain ⟨first, hfirst⟩ := exampleOverlay_encodes 1 (show ([] : List UInt32).length ≤ 2 by decide)
  obtain ⟨second, hsecond⟩ := exampleOverlay_encodes 2 (show [(0 : UInt32)].length ≤ 2 by decide)
  obtain ⟨third, hthird⟩ := exampleOverlay_encodes 2 (show [(1 : UInt32), 0].length ≤ 2 by decide)
  have hbefore : Goes .start [.openStore .none 1 ["a"] ∅ .recover, .mutate (.tombstonePoint "a" 0)]
      ⟨⟨[(1, first)], some 1⟩, some ⟨exampleOverlay 2 [0], true, 3⟩, []⟩ := by
    refine .cons (fun _ _ h => by cases h) (step_exampleOpen hfirst)
      (.cons (fun store hstore hdirty => ?_) (step_exampleTombstone (by simp) (by decide))
        ⟨rfl, trivial⟩)
    cases hstore
    cases hdirty
  have hafter : Goes ⟨⟨[(1, first)], some 1⟩, some ⟨exampleOverlay 2 [0], true, 3⟩, []⟩
      [.publishPending { Faults.none with staging := .refused },
        .mutate (.tombstonePoint "a" 1), .publishPending .none]
      ⟨⟨[(2, third), (1, first)], some 2⟩, some ⟨exampleOverlay 2 [1, 0], false, 3⟩, []⟩ := by
    refine .cons trivial (step_examplePublish hsecond rfl 3 _) (.cons (fun store hstore _ _ => ?_)
      (step_exampleTombstone (by decide) (by decide)) (.cons trivial
        (step_examplePublish hthird rfl 3 _) ⟨rfl, trivial⟩))
    cases hstore
    exact ⟨rfl, not_mem_nil⟩
  exact ⟨_, _, hbefore.run, hafter.run, (versions_immutable exampleRoaring_lawful hbefore.run
    hafter.run hbefore.orderly hafter.orderly).1⟩

theorem not_injOn_of_store (overlay : OverlaySet) (hstore : world.store = some store)
    (hdisk : world.OnDisk exampleCrc exampleRoaring overlay)
    (hversion : overlay.version = store.current.version) (hne : overlay ≠ store.current) :
    ¬ Set.InjOn OverlaySet.version {overlay | world.Denotes exampleCrc exampleRoaring overlay} :=
  fun hinj => hne (hinj (.inl hdisk) (.inr (.inl ⟨store, hstore, rfl⟩)) hversion)

/-- **A version with two contents.**  `CURRENT` cannot be replaced, and the next tombstone keeps the
number of the version that is on disk; no retry succeeds after that.  And an opening without the
segment keeps the number of the version that it cuts down. -/
theorem version_reused :
    (∃ world store, run exampleCrc exampleRoaring .start
        [.openStore .none 1 ["a"] ∅ .recover, .mutate (.tombstonePoint "a" 0),
          .publishPending { Faults.none with current := .refused },
          .mutate (.tombstonePoint "a" 1)] = some world ∧ world.store = some store ∧
      ¬ Set.InjOn OverlaySet.version {overlay | world.Denotes exampleCrc exampleRoaring overlay} ∧
      (store.publishPending exampleCrc exampleRoaring .none world.disk).1 =
        .error (.segmentCorruption "refusing to overwrite a different overlay version")) ∧
    ∃ world, run exampleCrc exampleRoaring .start
        [.openStore .none 1 ["a"] ∅ .recover, .mutate (.tombstonePoint "a" 0),
          .publishPending .none, .crash, .openStore .none 1 [] ∅ .recover] = some world ∧
      ¬ Set.InjOn OverlaySet.version
        {overlay | world.Denotes exampleCrc exampleRoaring overlay} := by
  obtain ⟨first, hfirst⟩ := exampleOverlay_encodes 1 (show ([] : List UInt32).length ≤ 2 by decide)
  obtain ⟨second, hsecond⟩ := exampleOverlay_encodes 2 (show [(0 : UInt32)].length ≤ 2 by decide)
  have hload : ∀ current, loadVersion exampleCrc exampleRoaring
      ⟨[(2, second), (1, first)], current⟩ 2 = .ok (exampleOverlay 2 [0]) :=
    fun current => load_example (by decide) hsecond rfl
  have hpending : step exampleCrc exampleRoaring
      ⟨⟨[(1, first)], some 1⟩, some ⟨exampleOverlay 1 [], false, 2⟩, []⟩
      (.mutate (.tombstonePoint "a" 0)) =
        some ⟨⟨[(1, first)], some 1⟩, some ⟨exampleOverlay 2 [0], true, 3⟩, []⟩ :=
    step_exampleTombstone (by simp) (by decide)
  refine ⟨⟨⟨⟨[(2, second), (1, first)], some 1⟩, some ⟨exampleOverlay 2 [1, 0], true, 3⟩, []⟩,
    _, ?_, rfl, not_injOn_of_store (exampleOverlay 2 [0]) rfl (hload _) rfl (by decide), ?_⟩,
    ⟨⟨⟨[(2, second), (1, first)], some 2⟩, some ⟨exampleOverlay 2 [], false, 3⟩, []⟩, ?_,
      not_injOn_of_store (exampleOverlay 2 [0]) rfl (hload _) rfl (by decide)⟩⟩
  · exact run_cons (step_exampleOpen hfirst) (run_cons hpending (run_cons
      (step_examplePublish hsecond rfl 3 _)
        (run_cons (step_exampleTombstone (by decide) (by decide)) rfl)))
  · exact publishPending_refused rfl (hload _) (by decide)
  · have hreopen : step exampleCrc exampleRoaring
        ⟨⟨[(2, second), (1, first)], some 2⟩, none, []⟩ (.openStore .none 1 [] ∅ .recover) =
          some ⟨⟨[(2, second), (1, first)], some 2⟩, some ⟨exampleOverlay 2 [], false, 3⟩, []⟩ := by
      simp [step, OverlayStore.openStore, OverlayStore.recovered, nextOverlayVersion,
        Disk.maximum, loadCurrent, hload, OverlayStore.found, ensure, Faults.none,
        SegmentOrdinalSet.retainSegments, SegmentOrdinalSet.unionWith, OverlayStore.publishPending,
        bind, Except.bind, pure, Except.pure, Except.map]
      rfl
    exact run_cons (step_exampleOpen hfirst) (run_cons hpending (run_cons
      (step_examplePublish hsecond rfl 3 _) (run_cons rfl (run_cons hreopen rfl))))

end ChironDB.Overlay
