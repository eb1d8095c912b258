/-
# Revocation is a barrier

`active` counts the calls of `enter` that have added to it and the permits that exist, so
once a load of it reads zero no permit exists, and since the epoch was closed before, none
is given later: the second load of `enter` comes after its addition (`Silent`,
`Inv.silent_of_active_eq_zero`).  An update reads `active` after it has closed the epoch
it found current, under the mutex of its authority, and replaces that epoch only then, so
every epoch that is no longer current is silent.
-/

import ChironDB.Security.Epoch

namespace ChironDB.Security

open Concurrent List

/-- What a task has added to `active` and not yet taken back. -/
def weight (e : ℕ) : Task → ℕ
  | .reload e' | .retract e' | .permit e' => if e' = e then 1 else 0
  | .update call => if call.lease ≠ .none ∧ call.job.identity = e then 1 else 0
  | _ => 0

/-- A task is a permit of the epoch, or holds one as its lease. -/
def Holds (e : ℕ) : Task → Prop
  | .permit e' => e' = e
  | .update call => call.lease = .granted ∧ call.job.identity = e
  | _ => False

/-- A task has the mutex of the authority. -/
def critical (a : ℕ) : Task → ℕ
  | .update call => if call.stage ≠ .locking ∧ call.job.authority = a then 1 else 0
  | _ => 0

/-- The epoch is closed, and no permit of it exists. -/
def Silent (p : Pool Shared Task) (e : ℕ) : Prop :=
  (p.shared.epochs e).closed = true ∧ ∀ task ∈ p.tasks, ¬ Holds e task

/-- The epochs and authorities that a task refers to exist. -/
def InRange (s : Shared) : Task → Prop
  | .load e | .add e | .reload e | .retract e | .permit e | .close e | .drain e | .poll e
  | .drained e _ => e < s.count
  | .update call => call.job.identity < s.count ∧ call.job.authority < s.size ∧ call.old < s.count
  | .updated job old _ => job.authority < s.size ∧ old < s.count

/-- The stages in which the update has found its epoch current, under the mutex. -/
def Stage.checked : Stage → Bool
  | .locking | .checking | .releasing _ => false
  | _ => true

/-- The stages before the update takes its lease. -/
def Stage.unleased : Stage → Bool
  | .locking | .checking | .leasing | .leaseAdd => true
  | _ => false

/-- The stages in which the update has closed the old epoch. -/
def Stage.shut : Stage → Bool
  | .polling | .persisting | .auditing | .installing | .releasing (.failed _) => true
  | _ => false

/-- The stages in which the update has drained the old epoch. -/
def Stage.drained : Stage → Bool
  | .persisting | .auditing | .installing | .releasing (.ok _) => true
  | _ => false

/-- The revision that the update is about to return. -/
def Stage.result : Stage → Option ℕ
  | .releasing (.ok revision) => some revision
  | _ => none

/-- What an update knows at each stage. -/
structure Knows (p : Pool Shared Task) (call : Running) : Prop where
  lease : call.stage.unleased = true → call.lease = .none
  pending : call.stage = .leaseReload → call.lease ≠ .none
  found : call.stage.checked = true → (p.shared.authorities call.job.authority).current = call.old ∧
      (p.shared.epochs call.old).revision = call.job.expected
  shut : call.stage.shut = true → (p.shared.epochs call.old).closed = true
  drained : call.stage.drained = true → Silent p call.old
  result : ∀ revision, call.stage.result = some revision → call.job.expected < revision ∧
    revision ≤ (p.shared.epochs (p.shared.authorities call.job.authority).current).revision

/-- What a call warrants at its end, and what it knows before. -/
def Warrants (p : Pool Shared Task) : Task → Prop
  | .poll e => (p.shared.epochs e).closed = true
  | .drained e (.ok ()) => Silent p e
  | .update call => Knows p call
  | .updated job old (.ok revision) => Silent p old ∧ job.expected < revision ∧
      revision ≤ (p.shared.epochs (p.shared.authorities job.authority).current).revision
  | .updated _ old (.failed _) => (p.shared.epochs old).closed = true
  | _ => True

/-- What holds in every state. -/
structure Inv (p : Pool Shared Task) : Prop where
  active : ∀ e, (p.shared.epochs e).active = Pool.weigh (weight e) p.tasks
  locked : ∀ a, (p.shared.authorities a).locked.toNat = Pool.weigh (critical a) p.tasks
  range : ∀ task ∈ p.tasks, InRange p.shared task
  warrants : ∀ task ∈ p.tasks, Warrants p task
  owned : ∀ e < p.shared.count, (p.shared.epochs e).authority < p.shared.size
  current : ∀ a < p.shared.size, (p.shared.authorities a).current < p.shared.count ∧
    (p.shared.epochs (p.shared.authorities a).current).authority = a
  retired : ∀ e < p.shared.count,
    e ≠ (p.shared.authorities (p.shared.epochs e).authority).current → Silent p e ∧
      (p.shared.epochs e).revision <
        (p.shared.epochs (p.shared.authorities (p.shared.epochs e).authority).current).revision
  fresh : ∀ e, p.shared.count ≤ e → (p.shared.epochs e).active = 0

variable {p : Pool Shared Task}

/-- A call that has not closed anything knows what its checks found, if it is past them. -/
theorem Knows.of_open {call : Running} (hlease : call.stage.unleased = true → call.lease = .none)
    (hpending : call.stage = .leaseReload → call.lease ≠ .none)
    (hfound : call.stage.checked = true →
      (p.shared.authorities call.job.authority).current = call.old ∧
        (p.shared.epochs call.old).revision = call.job.expected) (hshut : call.stage.shut = false)
    (hdrained : call.stage.drained = false) (hresult : call.stage.result = none) :
    Knows p call where
  lease := hlease
  pending := hpending
  found := hfound
  shut := fun h => absurd (hshut.symm.trans h) (by decide)
  drained := fun h => absurd (hdrained.symm.trans h) (by decide)
  result := fun revision h => absurd (hresult.symm.trans h) (by simp)

theorem Knows.of_refused {call : Running} {error : SecurityError}
    (hstage : call.stage = .releasing (.refused error)) : Knows p call := by
  refine .of_open ?_ ?_ ?_ ?_ ?_ ?_ <;> rw [hstage] <;> simp [Stage.unleased, Stage.checked,
    Stage.shut, Stage.drained, Stage.result]

variable {e : ℕ}

theorem weight_of_holds {task : Task} (h : Holds e task) : weight e task = 1 := by
  cases task with
  | permit e' => exact if_pos h
  | update call =>
    refine if_pos ⟨?_, h.2⟩
    rw [h.1]
    decide
  | _ => exact h.elim

/-- **Nothing is counted, so no permit exists.** -/
theorem Inv.silent_of_active_eq_zero (h : Inv p) (hclosed : (p.shared.epochs e).closed = true)
    (hzero : (p.shared.epochs e).active = 0) : Silent p e := by
  refine ⟨hclosed, fun task hmem hholds => ?_⟩
  have hle := Pool.weight_le_weigh (weight e) hmem
  rw [weight_of_holds hholds, ← h.active e, hzero] at hle
  omega

theorem inv_initial (revisions : ℕ → ℕ) (n : ℕ) : Inv (initial revisions n) where
  active := fun _ => rfl
  locked := fun _ => rfl
  range := fun task hmem => absurd hmem (Multiset.notMem_zero task)
  warrants := fun task hmem => absurd hmem (Multiset.notMem_zero task)
  owned := fun _ he => he
  current := fun _ ha => ⟨ha, rfl⟩
  retired := fun _ _ hne => absurd rfl hne
  fresh := fun _ _ => rfl

/-! ## Steps that replace no epoch -/

/-- The pool behind a step of one task. -/
abbrev behind (s : Shared) (left : List Task) (rest : Multiset Task) : Pool Shared Task :=
  ⟨s, (left : Multiset Task) + rest⟩

/-- The epochs and authorities stay, and what is closed stays closed. -/
structure Keeps (s s' : Shared) : Prop where
  count : s'.count = s.count
  size : s'.size = s.size
  current : ∀ a, (s'.authorities a).current = (s.authorities a).current
  revision : ∀ e, (s'.epochs e).revision = (s.epochs e).revision
  authority : ∀ e, (s'.epochs e).authority = (s.epochs e).authority
  closed : ∀ e, (s.epochs e).closed = true → (s'.epochs e).closed = true

section Steps

variable {s s' : Shared} {task : Task} {left : List Task} {rest : Multiset Task}

variable {p' : Pool Shared Task}

theorem Warrants.keep (h : Warrants p task) (hkeeps : Keeps p.shared p'.shared)
    (hsilent : ∀ e, Silent p e → Silent p' e) : Warrants p' task := by
  cases task with
  | poll e => exact hkeeps.closed e h
  | drained e result =>
    cases result with
    | ok value => exact hsilent e h
    | error error => trivial
  | updated job old outcome =>
    cases outcome with
    | ok revision =>
      obtain ⟨hold, hlt, hle⟩ := h
      refine ⟨hsilent old hold, hlt, ?_⟩
      rw [hkeeps.current, hkeeps.revision]
      exact hle
    | refused error => trivial
    | failed error => exact hkeeps.closed old h
  | update call =>
    replace h : Knows p call := h
    refine ⟨h.lease, h.pending, fun hstage => ?_, fun hstage => hkeeps.closed _ (h.shut hstage),
      fun hstage => hsilent _ (h.drained hstage), fun revision hstage => ?_⟩
    · rw [hkeeps.current, hkeeps.revision]
      exact h.found hstage
    · rw [hkeeps.current, hkeeps.revision]
      exact h.result revision hstage
  | _ => trivial

/-- A silent epoch stays silent: a permit is given only where the epoch is open. -/
theorem Silent.step (hclosed : ∀ e, (s.epochs e).closed = true → (s'.epochs e).closed = true)
    (hholds : ∀ e, ∀ t ∈ left, Holds e t → Holds e task ∨ (s.epochs e).closed = false)
    (h : Silent ⟨s, task ::ₘ rest⟩ e) : Silent (behind s' left rest) e := by
  refine ⟨hclosed e h.1, fun t hmem ht => ?_⟩
  rcases Multiset.mem_add.mp hmem with hmem | hmem
  · rcases hholds e t (Multiset.mem_coe.mp hmem) ht with hold | hopen
    · exact h.2 task (Multiset.mem_cons_self task rest) hold
    · rw [h.1] at hopen
      cases hopen
  · exact h.2 t (Multiset.mem_cons_of_mem hmem) ht

variable {t : Task}

/-- A task weighs nothing on the epochs that do not exist yet. -/
theorem weight_eq_zero_of_le (h : InRange s t) (he : s.count ≤ e) : weight e t = 0 := by
  cases t with
  | reload e' | retract e' | permit e' =>
    exact if_neg fun heq => absurd h (by rw [heq, InRange]; omega)
  | update call => exact if_neg fun hc => absurd h.1 (by omega)
  | _ => rfl

variable {next : Task}

section

variable (h : Inv ⟨s, task ::ₘ rest⟩)
include h

/-- **A step that replaces no epoch** and keeps the counts. -/
theorem Inv.keep (hkeeps : Keeps s s')
    (hactive : ∀ e, (s'.epochs e).active + weight e task =
      (s.epochs e).active + (left.map (weight e)).sum)
    (hlocked : ∀ a, (s'.authorities a).locked.toNat + critical a task =
      (s.authorities a).locked.toNat + (left.map (critical a)).sum)
    (hholds : ∀ e, ∀ t ∈ left, Holds e t → Holds e task ∨ (s.epochs e).closed = false)
    (hrange : ∀ t ∈ left, InRange s t)
    (hwarrants : (∀ t, Warrants ⟨s, task ::ₘ rest⟩ t → Warrants (behind s' left rest) t) →
      ∀ t ∈ left, Warrants (behind s' left rest) t) : Inv (behind s' left rest) := by
  have hsilent : ∀ e, Silent ⟨s, task ::ₘ rest⟩ e → Silent (behind s' left rest) e :=
    fun e => Silent.step hkeeps.closed hholds
  have hkept : ∀ t, Warrants ⟨s, task ::ₘ rest⟩ t → Warrants (behind s' left rest) t :=
    fun t ht => ht.keep hkeeps hsilent
  have hmem : ∀ t ∈ (left : Multiset Task) + rest, t ∈ left ∨ t ∈ rest := fun t ht =>
    (Multiset.mem_add.mp ht).imp_left Multiset.mem_coe.mp
  have hin : ∀ t, InRange s t → InRange s' t := by
    intro t ht
    cases t <;> simp only [InRange, hkeeps.count, hkeeps.size] at ht ⊢ <;> exact ht
  refine ⟨fun e => ?_, fun a => ?_, fun t ht => ?_, fun t ht => ?_, fun e he => ?_, fun a ha => ?_,
    fun e he hne => ?_, fun e he => ?_⟩
  · have hold := h.active e
    rw [Pool.weigh_cons] at hold
    rw [Pool.weigh_add]
    linarith [hactive e]
  · have hold := h.locked a
    rw [Pool.weigh_cons] at hold
    rw [Pool.weigh_add]
    linarith [hlocked a]
  · rcases hmem t ht with ht | ht
    · exact hin t (hrange t ht)
    · exact hin t (h.range t (Multiset.mem_cons_of_mem ht))
  · rcases hmem t ht with ht | ht
    · exact hwarrants hkept t ht
    · exact hkept t (h.warrants t (Multiset.mem_cons_of_mem ht))
  · simp only [hkeeps.authority, hkeeps.size]
    exact h.owned e (hkeeps.count ▸ he)
  · simp only [hkeeps.current, hkeeps.count, hkeeps.authority]
    exact h.current a (hkeeps.size ▸ ha)
  · simp only [hkeeps.authority, hkeeps.current, hkeeps.revision] at hne ⊢
    exact (h.retired e (hkeeps.count ▸ he) hne).imp_left (hsilent e)
  · have hle : s.count ≤ e := hkeeps.count ▸ he
    have hzero : (s.epochs e).active = 0 := h.fresh e hle
    have hnone : (left.map (weight e)).sum = 0 := sum_eq_zero fun n hn => by
      obtain ⟨t, ht, rfl⟩ := mem_map.mp hn
      exact weight_eq_zero_of_le (hrange t ht) hle
    have hstep := hactive e
    change (s'.epochs e).active = 0
    omega

/-- The same when the task goes on as one task. -/
theorem Inv.turn (hkeeps : Keeps s s')
    (hactive : ∀ e, (s'.epochs e).active + weight e task = (s.epochs e).active + weight e next)
    (hlocked : ∀ a, (s'.authorities a).locked.toNat + critical a task =
      (s.authorities a).locked.toNat + critical a next)
    (hholds : ∀ e, Holds e next → Holds e task ∨ (s.epochs e).closed = false)
    (hrange : InRange s next)
    (hwarrants : (∀ t, Warrants ⟨s, task ::ₘ rest⟩ t → Warrants (behind s' [next] rest) t) →
      Warrants (behind s' [next] rest) next) : Inv (behind s' [next] rest) := by
  refine h.keep hkeeps (fun e => ?_) (fun a => ?_)
    (fun e => forall_mem_singleton.mpr (hholds e)) (forall_mem_singleton.mpr hrange)
    fun hkept => forall_mem_singleton.mpr (hwarrants hkept)
  · rw [map_singleton, sum_singleton]
    exact hactive e
  · rw [map_singleton, sum_singleton]
    exact hlocked a

/-- The same when the task ends. -/
theorem Inv.leave (hkeeps : Keeps s s')
    (hactive : ∀ e, (s'.epochs e).active + weight e task = (s.epochs e).active)
    (hlocked : ∀ a, (s'.authorities a).locked = (s.authorities a).locked)
    (hcritical : ∀ a, critical a task = 0) : Inv (behind s' [] rest) :=
  h.keep hkeeps hactive (fun a => by rw [hlocked, hcritical]; rfl) nofun nofun nofun

end

/-! ### What the operations change -/

section

variable (s : Shared)

theorem Keeps.refl : Keeps s s :=
  ⟨rfl, rfl, fun _ => rfl, fun _ => rfl, fun _ => rfl, fun _ h => h⟩

theorem epochs_setEpoch (e : ℕ) (epoch : Epoch) (e' : ℕ) :
    (s.setEpoch e epoch).epochs e' = if e' = e then epoch else s.epochs e' :=
  Function.update_apply _ _ _ _

theorem authorities_setAuthority (a : ℕ) (authority : Authority) (a' : ℕ) :
    (s.setAuthority a authority).authorities a' = if a' = a then authority else s.authorities a' :=
  Function.update_apply _ _ _ _

/-- An epoch changes only in what it counts, or is closed. -/
theorem Keeps.setEpoch (e : ℕ) {epoch : Epoch} (hrevision : epoch.revision = (s.epochs e).revision)
    (hauthority : epoch.authority = (s.epochs e).authority)
    (hclosed : (s.epochs e).closed = true → epoch.closed = true) :
    Keeps s (s.setEpoch e epoch) := by
  refine ⟨rfl, rfl, fun _ => rfl, ?_, ?_, ?_⟩ <;> intro e' <;> rw [epochs_setEpoch] <;> split
  all_goals first
    | next heq => rw [heq]; assumption
    | simp

theorem Keeps.setAuthority (a : ℕ) {authority : Authority}
    (hcurrent : authority.current = (s.authorities a).current) :
    Keeps s (s.setAuthority a authority) := by
  refine ⟨rfl, rfl, fun a' => ?_, fun _ => rfl, fun _ => rfl, fun _ h => h⟩
  rw [authorities_setAuthority]
  split
  · next heq => rw [hcurrent, heq]
  · rfl

theorem close_active (e e' : ℕ) :
    ((s.close e).epochs e').active = (s.epochs e').active := by
  rw [Shared.close, epochs_setEpoch]
  split
  · next heq => rw [heq]
  · rfl

theorem close_closed (e : ℕ) : ((s.close e).epochs e).closed = true := by
  rw [Shared.close, epochs_setEpoch, if_pos rfl]

theorem fetchAdd_active (e e' : ℕ) :
    ((s.fetchAdd e).epochs e').active = (s.epochs e').active + if e = e' then 1 else 0 := by
  rw [Shared.fetchAdd, epochs_setEpoch]
  split <;> simp_all [eq_comm]

theorem fetchSub_active (e e' : ℕ) :
    ((s.fetchSub e).epochs e').active = (s.epochs e').active - if e = e' then 1 else 0 := by
  rw [Shared.fetchSub, epochs_setEpoch]
  split <;> simp_all [eq_comm]

theorem lock_locked (a a' : ℕ) :
    ((s.lock a).authorities a').locked = (decide (a = a') || (s.authorities a').locked) := by
  rw [Shared.lock, authorities_setAuthority]
  split <;> simp_all [eq_comm]

theorem unlock_locked (a a' : ℕ) :
    ((s.unlock a).authorities a').locked = (!decide (a = a') && (s.authorities a').locked) := by
  rw [Shared.unlock, authorities_setAuthority]
  split <;> simp_all [eq_comm]

end

theorem Inv.launch (h : Inv ⟨s, rest⟩) (hweight : ∀ e, weight e task = 0)
    (hcritical : ∀ a, critical a task = 0) (hholds : ∀ e, ¬ Holds e task)
    (hrange : InRange s task) (hwarrants : ∀ p, Warrants p task) : Inv ⟨s, task ::ₘ rest⟩ := by
  have hsilent : ∀ e, Silent ⟨s, rest⟩ e → Silent ⟨s, task ::ₘ rest⟩ e := by
    intro e he
    refine ⟨he.1, fun t ht => ?_⟩
    rcases Multiset.mem_cons.mp ht with rfl | ht
    · exact hholds e
    · exact he.2 t ht
  refine ⟨?_, ?_, ?_, ?_, h.owned, h.current, ?_, h.fresh⟩
  · intro e
    rw [Pool.weigh_cons, hweight, Nat.zero_add]
    exact h.active e
  · intro a
    rw [Pool.weigh_cons, hcritical, Nat.zero_add]
    exact h.locked a
  · intro t ht
    rcases Multiset.mem_cons.mp ht with rfl | ht
    · exact hrange
    · exact h.range t ht
  · intro t ht
    rcases Multiset.mem_cons.mp ht with rfl | ht
    · exact hwarrants _
    · exact (h.warrants t ht).keep (.refl s) hsilent
  · intro e he hne
    obtain ⟨hold, hlt⟩ := h.retired e he hne
    exact ⟨hsilent e hold, hlt⟩

section

variable (h : Inv ⟨s, task ::ₘ rest⟩)
include h

theorem Inv.pass (hweight : ∀ e, weight e next = weight e task)
    (hcritical : ∀ a, critical a next = critical a task)
    (hholds : ∀ e, Holds e next → Holds e task ∨ (s.epochs e).closed = false)
    (hrange : InRange s next)
    (hwarrants : (∀ t, Warrants ⟨s, task ::ₘ rest⟩ t → Warrants (behind s [next] rest) t) →
      Warrants (behind s [next] rest) next) : Inv (behind s [next] rest) :=
  h.turn (.refl s) (fun e => by rw [hweight]) (fun a => by rw [hcritical]) hholds hrange hwarrants

theorem Inv.weight_le_active (e : ℕ) : weight e task ≤ (s.epochs e).active := by
  have hactive := h.active e
  rw [Pool.weigh_cons] at hactive
  exact hactive ▸ Nat.le_add_right _ _

/-- A task that was counted takes its count back and ends. -/
theorem Inv.release (hweight : ∀ e', weight e' task = if e = e' then 1 else 0)
    (hcritical : ∀ a, critical a task = 0) : Inv (behind (s.fetchSub e) [] rest) := by
  refine h.leave (.setEpoch s e rfl rfl id) (fun e' => ?_) (fun _ => rfl) hcritical
  have hle := h.weight_le_active e'
  rw [fetchSub_active]
  rw [hweight] at hle ⊢
  exact Nat.sub_add_cancel hle

end

/-! ## Each call, step by step -/

variable {choice : Choice}

theorem Inv.advance_enter (h : Inv ⟨s, task ::ₘ rest⟩)
    (htask : task = .load e ∨ task = .add e ∨ task = .reload e ∨ task = .retract e ∨
      task = .permit e) (hadvance : advance s task choice = some (s', left)) :
    Inv (behind s' left rest) := by
  have hrange := h.range _ (Multiset.mem_cons_self task rest)
  rcases htask with rfl | rfl | rfl | rfl | rfl
  · rw [advance] at hadvance
    split at hadvance <;> cases hadvance
    · exact h.leave (.refl s) (fun _ => rfl) (fun _ => rfl) fun _ => rfl
    · exact h.pass (fun _ => rfl) (fun _ => rfl) nofun hrange fun _ => trivial
  · cases hadvance
    exact h.turn (.setEpoch s e rfl rfl id) (fun e' => fetchAdd_active s e e') (fun _ => rfl) nofun
      hrange fun _ => trivial
  · rw [advance] at hadvance
    split at hadvance <;> cases hadvance
    · exact h.pass (fun _ => rfl) (fun _ => rfl) nofun hrange fun _ => trivial
    · next hopen =>
      refine h.pass (fun _ => rfl) (fun _ => rfl) (fun e' he => .inr ?_) hrange fun _ => trivial
      cases (he : e = e')
      exact Bool.eq_false_iff.mpr hopen
  · cases hadvance
    exact h.release (fun _ => rfl) fun _ => rfl
  · cases hadvance
    exact h.release (fun _ => rfl) fun _ => rfl

theorem Inv.advance_drain (h : Inv ⟨s, task ::ₘ rest⟩)
    (htask : task = .close e ∨ task = .drain e ∨ task = .poll e)
    (hadvance : advance s task choice = some (s', left)) : Inv (behind s' left rest) := by
  have hmem := Multiset.mem_cons_self task rest
  have hrange := h.range _ hmem
  rcases htask with rfl | rfl | rfl
  · cases hadvance
    exact h.leave (.setEpoch s e rfl rfl fun _ => rfl) (close_active s e) (fun _ => rfl)
      fun _ => rfl
  · cases hadvance
    exact h.turn (.setEpoch s e rfl rfl fun _ => rfl) (close_active s e) (fun _ => rfl) nofun hrange
      fun _ => close_closed s e
  · have hclosed : (s.epochs e).closed = true := h.warrants _ hmem
    simp only [advance] at hadvance
    split at hadvance
    · next hzero =>
      cases hadvance
      exact h.pass (fun _ => rfl) (fun _ => rfl) nofun hrange fun hkept =>
        hkept (.drained e (.ok ())) (h.silent_of_active_eq_zero hclosed hzero)
    · cases choice <;> cases hadvance
      · exact h.pass (fun _ => rfl) (fun _ => rfl) nofun hrange fun _ => hclosed
      · exact h.pass (fun _ => rfl) (fun _ => rfl) nofun hrange fun _ => trivial

section Update

variable {call : Running}

section

variable (h : Inv ⟨s, .update call ::ₘ rest⟩)
include h

theorem Inv.inRange : InRange s (.update call) :=
  h.range _ (Multiset.mem_cons_self _ _)

theorem Inv.knows : Knows ⟨s, .update call ::ₘ rest⟩ call :=
  h.warrants _ (Multiset.mem_cons_self _ _)

/-- **An update goes on under its mutex.** -/
theorem Inv.move (next : Running) (hkeeps : Keeps s s')
    (hactive : ∀ e, (s'.epochs e).active + weight e (.update call) =
      (s.epochs e).active + weight e (.update next))
    (hlocked : ∀ a, (s'.authorities a).locked = (s.authorities a).locked)
    (hjob : next.job = call.job) (hold : next.old < s.count) (hfrom : call.stage ≠ .locking)
    (hto : next.stage ≠ .locking)
    (hholds : ∀ e, Holds e (.update next) → Holds e (.update call) ∨ (s.epochs e).closed = false)
    (hknows : Knows (behind s' [.update next] rest) call →
      Knows (behind s' [.update next] rest) next) : Inv (behind s' [.update next] rest) := by
  refine h.turn hkeeps hactive (fun a => ?_) hholds ?_
    fun hkept => hknows (hkept (.update call) h.knows)
  · simp [critical, hjob, hfrom, hto, hlocked]
  · exact ⟨hjob ▸ h.inRange.1, hjob ▸ h.inRange.2.1, hold⟩

/-- The same where it touches nothing and keeps its lease. -/
theorem Inv.moveTo (stage : Stage) (hfrom : call.stage ≠ .locking) (hto : stage ≠ .locking)
    (hknows : Knows (behind s [call.moveTo stage] rest) call →
      Knows (behind s [call.moveTo stage] rest) { call with stage := stage }) :
    Inv (behind s [call.moveTo stage] rest) :=
  h.move { call with stage := stage } (.refl s) (fun _ => rfl) (fun _ => rfl) rfl
    h.inRange.2.2 hfrom hto (fun _ => .inl) hknows

theorem Inv.refuse (error : SecurityError) (hfrom : call.stage ≠ .locking) :
    Inv (behind s [call.refuse error] rest) :=
  h.moveTo _ hfrom nofun fun _ => .of_refused rfl

theorem Inv.abort (error : SecurityError) (hfrom : call.stage ≠ .locking)
    (hshut : call.stage.shut = true) : Inv (behind s [call.abort error] rest) :=
  h.moveTo _ hfrom nofun fun hknows =>
    ⟨nofun, nofun, nofun, fun _ => hknows.shut hshut, nofun, nofun⟩

end

/-- A call at the first stage may go on to the second: it knows no more there than before. -/
def Stage.leadsTo (stage next : Stage) : Bool :=
  stage ≠ .locking && next ≠ .locking && next ≠ .leaseReload && stage.checked &&
    (next.unleased ≤ stage.unleased) && (next.shut ≤ stage.shut) &&
    (next.drained ≤ stage.drained) && next.result.isNone

section

variable (h : Inv ⟨s, .update call ::ₘ rest⟩)
include h

theorem Inv.proceed {stage : Stage} (next : Stage) (hstage : call.stage = stage)
    (hleads : stage.leadsTo next = true) : Inv (behind s [call.moveTo next] rest) := by
  subst hstage
  simp only [Stage.leadsTo, Bool.and_eq_true, decide_eq_true_eq, Option.isNone_iff_eq_none] at hleads
  obtain ⟨⟨⟨⟨⟨⟨⟨hfrom, hto⟩, hpending⟩, hchecked⟩, hunleased⟩, hshut⟩, hdrained⟩, hresult⟩ := hleads
  exact h.moveTo _ hfrom hto fun hknows => ⟨fun hnext => hknows.lease (hunleased hnext),
    fun hnext => absurd hnext hpending, fun _ => hknows.found hchecked,
    fun hnext => hknows.shut (hshut hnext), fun hnext => hknows.drained (hdrained hnext),
    fun _ hnext => absurd (hresult.symm.trans hnext) nofun⟩

theorem Inv.lock (hstage : call.stage = .locking)
    (hfree : ¬ (s.authorities call.job.authority).locked = true) :
    Inv (behind (s.lock call.job.authority) [call.moveTo .checking] rest) := by
  have hlease := h.knows.lease (by rw [hstage]; rfl)
  refine h.turn (.setAuthority s _ rfl) (fun _ => rfl) (fun a => ?_) (fun _ => .inl)
    h.inRange fun _ => ?_
  · rw [lock_locked]
    by_cases ha : call.job.authority = a
    · subst ha
      simp [critical, Running.moveTo, hstage, hfree]
    · simp [critical, Running.moveTo, ha]
  · exact .of_open (fun _ => hlease) nofun nofun rfl rfl rfl

section

variable (hstage : call.stage = .checking)
include hstage

theorem Inv.found (stage : Stage)
    (hrevision : call.job.expected = (s.epochs (s.authorities call.job.authority).current).revision)
    (hto : stage = .preparing ∨ stage = .leasing) :
    Inv (behind s [{ call with old := (s.authorities call.job.authority).current }.moveTo stage]
      rest) := by
  have hlease := h.knows.lease (by rw [hstage]; rfl)
  refine h.move _ (.refl s) (fun _ => rfl) (fun _ => rfl) rfl (h.current _ h.inRange.2.1).1
    (by simp [hstage]) ?_ (fun _ => .inl) fun _ => ?_
  · rcases hto with rfl | rfl <;> simp
  · refine .of_open (fun _ => hlease) ?_ (fun _ => ⟨rfl, hrevision.symm⟩) ?_ ?_ ?_ <;>
      rcases hto with rfl | rfl <;> first | rfl | nofun

theorem Inv.refuse_check (error : SecurityError) :
    Inv (behind s [{ call with old := (s.authorities call.job.authority).current }.refuse error]
      rest) := by
  exact h.move _ (.refl s) (fun _ => rfl) (fun _ => rfl) rfl (h.current _ h.inRange.2.1).1
    (by simp [hstage]) nofun (fun _ => .inl) fun _ => .of_refused rfl

theorem Inv.check : Inv (behind s [call.check s] rest) := by
  rw [Running.check]
  cases call.job.kind with
  | change =>
    dsimp only
    split
    · exact h.refuse_check hstage _
    · next hfound =>
      rw [not_or, not_not] at hfound
      exact h.found hstage _ hfound.1 (.inl rfl)
  | changeResources =>
    dsimp only
    split
    · exact h.refuse_check hstage _
    · split
      · exact h.refuse_check hstage _
      · next hfound => exact h.found hstage _ (not_not.mp hfound) (.inr rfl)
  | install =>
    dsimp only
    split
    · exact h.refuse_check hstage _
    · next hfound => exact h.found hstage _ (not_not.mp hfound) (.inl rfl)

end

theorem Inv.leaseAdd (hstage : call.stage = .leaseAdd) :
    Inv (behind (s.fetchAdd call.job.identity)
      [{ call with lease := .pending }.moveTo .leaseReload] rest) := by
  have hlease := h.knows.lease (by rw [hstage]; rfl)
  refine h.move _ (.setEpoch s _ rfl rfl id) (fun e => ?_) (fun _ => rfl) rfl h.inRange.2.2
    (by simp [hstage]) nofun nofun fun hknows => ?_
  · rw [fetchAdd_active]
    simp [weight, hlease]
  · exact .of_open nofun nofun (fun _ => hknows.found (by rw [hstage]; rfl)) rfl rfl rfl

/-- The lease is granted, since the second load sees the epoch open. -/
theorem Inv.grantLease (hstage : call.stage = .leaseReload)
    (hopen : ¬ (s.epochs call.job.identity).closed = true) :
    Inv (behind s [{ call with lease := .granted }.moveTo .preparing] rest) := by
  have hlease := h.knows.pending hstage
  refine h.move _ (.refl s) (fun e => ?_) (fun _ => rfl) rfl h.inRange.2.2 (by simp [hstage]) nofun
    (fun e he => .inr ?_) fun hknows => ?_
  · simp [weight, hlease]
  · rw [← show call.job.identity = e from he.2]
    exact Bool.eq_false_iff.mpr hopen
  · exact .of_open nofun nofun (fun _ => hknows.found (by rw [hstage]; rfl)) rfl rfl rfl

theorem Inv.closeOld (hstage : call.stage = .closing) :
    Inv (behind (s.close call.old) [call.moveTo .polling] rest) := by
  refine h.move _ (.setEpoch s _ rfl rfl fun _ => rfl) (fun e => ?_) (fun _ => rfl) rfl
    h.inRange.2.2 (by simp [hstage]) nofun (fun _ => .inl) fun hknows => ?_
  · rw [close_active]
    rfl
  · exact ⟨nofun, nofun, fun _ => hknows.found (by rw [hstage]; rfl),
      fun _ => close_closed s call.old, nofun, nofun⟩

/-- **The old epoch is drained.** -/
theorem Inv.drainOld (hstage : call.stage = .polling) (hzero : (s.epochs call.old).active = 0) :
    Inv (behind s [call.moveTo .persisting] rest) := by
  have hsilent := h.silent_of_active_eq_zero (h.knows.shut (by rw [hstage]; rfl)) hzero
  refine h.turn (.refl s) (fun _ => rfl) (fun a => ?_) (fun _ => .inl) h.inRange fun hkept => ?_
  · simp [critical, Running.moveTo, hstage]
  · have hknows := hkept (.update call) h.knows
    exact ⟨nofun, nofun, fun _ => hknows.found (by rw [hstage]; rfl),
      fun _ => hknows.shut (by rw [hstage]; rfl),
      fun _ => hkept (.drained call.old (.ok ())) hsilent, nofun⟩

theorem Inv.dropLease (hlocking : call.stage ≠ .locking) (hstage : call.stage ≠ .leaseReload)
    (hlease : call.lease ≠ .none) :
    Inv (behind (s.fetchSub call.job.identity) [.update { call with lease := .none }] rest) := by
  refine h.move _ (.setEpoch s _ rfl rfl id) (fun e => ?_) (fun _ => rfl) rfl h.inRange.2.2 hlocking
    hlocking nofun fun hknows => ?_
  · have hle := h.weight_le_active e
    rw [fetchSub_active]
    simp only [weight, hlease, ne_eq, not_false_eq_true, true_and, not_true, false_and,
      if_false] at *
    omega
  · exact ⟨fun _ => rfl, fun hc => absurd hc hstage, hknows.found, hknows.shut, hknows.drained,
      hknows.result⟩

end

theorem Inv.critical_le (h : Inv ⟨s, task ::ₘ rest⟩) (a : ℕ) :
    critical a task ≤ (s.authorities a).locked.toNat := by
  have hlocked := h.locked a
  rw [Pool.weigh_cons] at hlocked
  exact hlocked ▸ Nat.le_add_right _ _

theorem Inv.unlock (h : Inv ⟨s, .update call ::ₘ rest⟩) {outcome : Outcome}
    (hstage : call.stage = .releasing outcome) (hlease : call.lease = .none) :
    Inv (behind (s.unlock call.job.authority) [.updated call.job call.old outcome] rest) := by
  refine h.turn (.setAuthority s _ rfl) (fun e => ?_) (fun a => ?_) nofun h.inRange.2
    fun hkept => ?_
  · simp [weight, hlease]
    rfl
  · have hle := h.critical_le a
    have hbound := Bool.toNat_le (s.authorities a).locked
    rw [unlock_locked]
    by_cases ha : call.job.authority = a
    · simp [critical, hstage, ha] at hle ⊢
      omega
    · simp [critical, ha]
  · have hknows := hkept (.update call) h.knows
    cases outcome with
    | ok revision =>
      exact ⟨hknows.drained (by rw [hstage]; rfl), hknows.result revision (by rw [hstage]; rfl)⟩
    | refused error => trivial
    | failed error => exact hknows.shut (by rw [hstage]; rfl)

/-! ## The step that replaces an epoch -/

/-- The memory when the update has replaced the epoch. -/
def Running.installed (call : Running) (s : Shared) : Shared :=
  s.install call.job.authority (call.job.expected + 1)

/-- The update when it has replaced the epoch. -/
def Running.done (call : Running) : Task :=
  call.moveTo (.releasing (.ok (call.job.expected + 1)))

section

variable (call : Running)

theorem installed_epochs (he : e < s.count) :
    (call.installed s).epochs e = s.epochs e :=
  Function.update_of_ne (Nat.ne_of_lt he) _ _

theorem installed_new (s : Shared) :
    (call.installed s).epochs s.count = .new (call.job.expected + 1) call.job.authority :=
  Function.update_self _ _ _

theorem installed_current (s : Shared) (b : ℕ) :
    ((call.installed s).authorities b).current =
      if b = call.job.authority then s.count else (s.authorities b).current := by
  change (Function.update s.authorities _ _ b).current = _
  rw [Function.update_apply]
  split <;> rfl

theorem installed_locked (s : Shared) (b : ℕ) :
    ((call.installed s).authorities b).locked = (s.authorities b).locked := by
  change (Function.update s.authorities _ _ b).locked = _
  rw [Function.update_apply]
  split
  · next heq => rw [heq]
  · rfl

theorem installed_active (h : (s.epochs s.count).active = 0) (e : ℕ) :
    ((call.installed s).epochs e).active = (s.epochs e).active := by
  change (Function.update s.epochs s.count _ e).active = _
  rw [Function.update_apply]
  split
  · next heq => rw [heq, h, Epoch.new]
  · rfl

end

section

variable (h : Inv ⟨s, .update call ::ₘ rest⟩)
include h

theorem Inv.critical_eq_zero (hstage : call.stage ≠ .locking) (ht : t ∈ rest) :
    critical call.job.authority t = 0 := by
  have hlocked : (s.authorities call.job.authority).locked.toNat = _ := h.locked call.job.authority
  have hown : critical call.job.authority (.update call) = 1 := if_pos ⟨hstage, rfl⟩
  rw [Pool.weigh_cons, hown] at hlocked
  have hbound := Bool.toNat_le (s.authorities call.job.authority).locked
  have hle := Pool.weight_le_weigh (critical call.job.authority) ht
  omega

/-- The epoch that the update has found is current, at the revision it expects. -/
theorem Inv.found_current (hchecked : call.stage.checked = true) :
    (s.authorities call.job.authority).current = call.old ∧
      (s.epochs call.old).revision = call.job.expected :=
  h.knows.found hchecked

/-- The epoch of an authority whose mutex is not held stays current. -/
theorem Inv.current_installed {b : ℕ} (hb : b < s.size) (hne : b ≠ call.job.authority) :
    (call.installed s).epochs ((call.installed s).authorities b).current =
      s.epochs (s.authorities b).current := by
  rw [installed_current, if_neg hne, installed_epochs call (h.current b hb).1]

/-- What the other calls know stays true when the epoch of an authority is replaced: none of
them has its mutex. -/
theorem Warrants.install (hstage : call.stage = .installing) (ht : t ∈ rest)
    (hsilent : ∀ e < s.count, Silent ⟨s, .update call ::ₘ rest⟩ e →
      Silent (behind (call.installed s) left rest) e) :
    Warrants (behind (call.installed s) left rest) t := by
  have hmem : t ∈ Task.update call ::ₘ rest := Multiset.mem_cons_of_mem ht
  have hold := h.warrants t hmem
  have hrange : InRange s t := h.range t hmem
  have hfound := h.found_current (by rw [hstage]; rfl)
  have hcritical := h.critical_eq_zero (by rw [hstage]; simp) ht
  have hclosed : ∀ e < s.count, (s.epochs e).closed = true →
      ((call.installed s).epochs e).closed = true := fun e he hc => by
    rwa [installed_epochs call he]
  cases t with
  | poll e => exact hclosed e hrange hold
  | drained e result =>
    cases result with
    | ok value => exact hsilent e hrange hold
    | error error => trivial
  | updated job old outcome =>
    cases outcome with
    | ok revision =>
      obtain ⟨hsil, hlt, hle⟩ := hold
      refine ⟨hsilent old hrange.2 hsil, hlt, ?_⟩
      by_cases heq : job.authority = call.job.authority
      · simp only [heq, hfound] at hle
        simp only [installed_current, if_pos heq, installed_new, Epoch.new]
        omega
      · simpa only [h.current_installed hrange.1 heq] using hle
    | refused error => trivial
    | failed error => exact hclosed old hrange.2 hold
  | update other =>
    replace hold : Knows _ other := hold
    have hother : other.stage ≠ .locking → other.job.authority ≠ call.job.authority := by
      intro hne heq
      simp [critical, hne, heq] at hcritical
    refine ⟨hold.lease, hold.pending, fun hc => ?_, fun hc => hclosed _ hrange.2.2 (hold.shut hc),
      fun hc => hsilent _ hrange.2.2 (hold.drained hc), fun revision hc => ?_⟩
    · have hne := hother fun heq => by simp [heq, Stage.checked] at hc
      simp only [installed_current, if_neg hne, installed_epochs call hrange.2.2]
      exact hold.found hc
    · have hne := hother fun heq => by simp [heq, Stage.result] at hc
      simp only [h.current_installed hrange.2.1 hne]
      exact hold.result revision hc
  | _ => trivial

end

theorem Silent.installed (he : e < s.count) (hs : Silent ⟨s, .update call ::ₘ rest⟩ e) :
    Silent (behind (call.installed s) [call.done] rest) e := by
  refine ⟨?_, fun t ht => ?_⟩
  · simp only [installed_epochs call he]
    exact hs.1
  · rcases Multiset.mem_add.mp ht with ht | ht
    · rw [mem_singleton.mp (Multiset.mem_coe.mp ht)]
      exact hs.2 (.update call) (Multiset.mem_cons_self _ _)
    · exact hs.2 t (Multiset.mem_cons_of_mem ht)

/-- **The epoch of an authority is replaced**, once it is drained. -/
theorem Inv.install (h : Inv ⟨s, .update call ::ₘ rest⟩) (hstage : call.stage = .installing) :
    Inv (behind (call.installed s) [call.done] rest) := by
  have hfound := h.found_current (by rw [hstage]; rfl)
  have hdrained := Silent.installed h.inRange.2.2 (h.knows.drained (by rw [hstage]; rfl))
  have hcases : ∀ t ∈ (([call.done] : List Task) : Multiset Task) + rest,
      t = call.done ∨ t ∈ rest := fun t ht =>
    (Multiset.mem_add.mp ht).imp_left fun hl => mem_singleton.mp (Multiset.mem_coe.mp hl)
  have hin : ∀ t, InRange s t → InRange (call.installed s) t := by
    intro t hin
    have hcount : (call.installed s).count = s.count + 1 := rfl
    have hsize : (call.installed s).size = s.size := rfl
    cases t <;> simp only [InRange, hcount, hsize] at hin ⊢ <;> omega
  refine ⟨fun e => ?_, fun a => ?_, fun t ht => ?_, fun t ht => ?_, fun e he => ?_, fun a ha => ?_,
    fun e he hne => ?_, fun e he => ?_⟩
  · have hactive := h.active e
    rw [Pool.weigh_cons] at hactive
    rw [Pool.weigh_add, map_singleton, sum_singleton]
    exact (installed_active call (h.fresh _ le_rfl) e).trans hactive
  · have hlocked := h.locked a
    have hcritical : critical a call.done = critical a (.update call) := by
      simp [critical, Running.done, Running.moveTo, hstage]
    rw [Pool.weigh_cons] at hlocked
    rw [Pool.weigh_add, map_singleton, sum_singleton, hcritical, ← hlocked]
    exact congrArg Bool.toNat (installed_locked call s a)
  · rcases hcases t ht with rfl | ht
    · exact hin _ h.inRange
    · exact hin _ (h.range t (Multiset.mem_cons_of_mem ht))
  · rcases hcases t ht with rfl | ht
    · refine ⟨nofun, nofun, nofun, nofun, fun _ => hdrained, fun revision hc => ?_⟩
      cases hc
      simp [installed_current, installed_new, Epoch.new]
    · exact Warrants.install h hstage ht fun e he => Silent.installed he
  · rcases Nat.lt_succ_iff_lt_or_eq.mp he with hlt | rfl
    · simp only [installed_epochs call hlt]
      exact h.owned e hlt
    · simp only [installed_new]
      exact h.inRange.2.1
  · simp only [installed_current]
    split
    · next heq =>
      rw [installed_new, heq]
      exact ⟨Nat.lt_succ_self _, rfl⟩
    · obtain ⟨hlt, hauthority⟩ := h.current a ha
      rw [installed_epochs call hlt]
      exact ⟨Nat.lt_succ_of_lt hlt, hauthority⟩
  · rcases Nat.lt_succ_iff_lt_or_eq.mp he with hlt | rfl
    · simp only [installed_epochs call hlt, installed_current] at hne ⊢
      by_cases heq : (s.epochs e).authority = call.job.authority
      · rw [if_pos heq, installed_new]
        by_cases hcurrent : e = (s.authorities (s.epochs e).authority).current
        · have hcall : e = call.old := by
            rw [hcurrent, heq]
            exact hfound.1
          rw [hcall]
          exact ⟨hdrained, hfound.2.trans_lt (Nat.lt_succ_self _)⟩
        · obtain ⟨hs, hr⟩ := h.retired e hlt hcurrent
          simp only [heq, hfound] at hr
          exact ⟨Silent.installed hlt hs, Nat.lt_succ_of_lt hr⟩
      · rw [if_neg heq] at hne ⊢
        rw [installed_epochs call (h.current _ (h.owned e hlt)).1]
        exact (h.retired e hlt hne).imp_left (Silent.installed hlt)
    · simp [installed_new, installed_current, Epoch.new] at hne
  · have hle : s.count + 1 ≤ e := he
    have hfresh := h.fresh e (by change s.count ≤ e; omega)
    exact (installed_active call (h.fresh _ le_rfl) e).trans hfresh

/-! ## Every step -/

theorem Inv.advance_update (h : Inv ⟨s, .update call ::ₘ rest⟩)
    (hadvance : call.advance s choice = some (s', left)) : Inv (behind s' left rest) := by
  unfold Running.advance at hadvance
  cases hstage : call.stage
  all_goals simp only [hstage] at hadvance
  case locking =>
    split at hadvance <;> cases hadvance
    next hfree => exact h.lock hstage hfree
  case checking =>
    cases choice <;> cases hadvance
    · exact h.check hstage
    · exact h.refuse _ (by simp [hstage])
  case leasing =>
    split at hadvance <;> cases hadvance
    · exact h.refuse _ (by simp [hstage])
    · exact h.proceed _ hstage rfl
  case leaseReload =>
    split at hadvance <;> cases hadvance
    · exact h.refuse _ (by simp [hstage])
    · next hopen => exact h.grantLease hstage hopen
  case preparing =>
    cases choice <;> cases hadvance
    · exact h.proceed _ hstage rfl
    · exact h.refuse _ (by simp [hstage])
  case polling =>
    split at hadvance
    · next hzero =>
      cases hadvance
      exact h.drainOld hstage hzero
    · cases choice <;> cases hadvance
      · exact h.proceed _ hstage rfl
      · exact h.abort _ (by simp [hstage]) (by rw [hstage]; rfl)
  case persisting =>
    cases choice <;> cases hadvance
    · split <;> exact h.proceed _ hstage rfl
    · exact h.abort _ (by simp [hstage]) (by rw [hstage]; rfl)
  case auditing =>
    cases choice <;> cases hadvance
    · exact h.proceed _ hstage rfl
    · exact h.abort _ (by simp [hstage]) (by rw [hstage]; rfl)
  case releasing outcome =>
    split at hadvance <;> cases hadvance
    · next hlease => exact h.unlock hstage hlease
    · next hlease =>
      have hdropped := h.dropLease (by simp [hstage]) (by simp [hstage]) hlease
      rw [hstage] at hdropped
      exact hdropped
  all_goals cases hadvance
  case leaseAdd => exact h.leaseAdd hstage
  case closing => exact h.closeOld hstage
  case installing => exact h.install hstage

end Update

/-- **Every step keeps the invariant.** -/
theorem Inv.step (h : Inv p) (hstep : p.Step machine p') : Inv p' := by
  obtain ⟨s, tasks⟩ := p
  cases hstep with
  | @launch task hlaunch =>
    change Security.launch s task = true at hlaunch
    cases task with
    | load e | close e | drain e =>
      have he : e < s.count := of_decide_eq_true hlaunch
      exact h.launch (fun _ => rfl) (fun _ => rfl) (fun _ hh => hh) he fun _ => trivial
    | update call =>
      obtain ⟨hstage, hlease, hold, hactor, hidentity, hauthority⟩ := of_decide_eq_true hlaunch
      refine h.launch (fun e => if_neg fun hc => hc.1 hlease)
        (fun a => if_neg fun hc => hc.1 hstage) (fun e hh => ?_)
        ⟨hidentity, hauthority, hold ▸ hactor⟩ fun q => ?_
      · exact absurd (hlease.symm.trans hh.1) (by simp)
      · refine ⟨fun _ => hlease, ?_, ?_, ?_, ?_, ?_⟩ <;> rw [hstage] <;> simp [Stage.checked,
          Stage.shut, Stage.drained, Stage.result]
    | _ => cases hlaunch
  | @step task choice shared left rest htasks hadvance =>
    change tasks = task ::ₘ rest at htasks
    change Security.advance s task choice = some (shared, left) at hadvance
    subst htasks
    cases task with
    | load e => exact h.advance_enter (.inl rfl) hadvance
    | add e => exact h.advance_enter (.inr (.inl rfl)) hadvance
    | reload e => exact h.advance_enter (.inr (.inr (.inl rfl))) hadvance
    | retract e => exact h.advance_enter (.inr (.inr (.inr (.inl rfl)))) hadvance
    | permit e => exact h.advance_enter (.inr (.inr (.inr (.inr rfl)))) hadvance
    | close e => exact h.advance_drain (.inl rfl) hadvance
    | drain e => exact h.advance_drain (.inr (.inl rfl)) hadvance
    | poll e => exact h.advance_drain (.inr (.inr rfl)) hadvance
    | update call => exact h.advance_update hadvance
    | drained | updated => cases hadvance

theorem returned_step (hstep : p.Step machine p') (hdone : ∀ s choice, advance s task choice = none)
    (h : task ∈ p.tasks) : task ∈ p'.tasks := by
  cases hstep with
  | launch hlaunch => exact Multiset.mem_cons_of_mem h
  | @step other choice shared left rest htasks hadvance =>
    rw [htasks] at h
    rcases Multiset.mem_cons.mp h with rfl | h
    · exact absurd ((hdone p.shared choice).symm.trans hadvance) (by simp)
    · exact Multiset.mem_add.mpr (.inr h)

end Steps

/-! ## Runs -/

/-- **Revocation is a barrier.**  In every run of any number of calls, from the moment on at
which `close_and_drain` has returned `Ok` no permit of the epoch exists; from the moment on
at which an update has returned a new revision no permit of an older revision of that
authority exists; and where draining or persisting has failed the old epoch is closed from
then on. -/
theorem revocation_is_barrier (revisions : ℕ → ℕ) (n : ℕ) {events later : List (Event Task Choice)}
    {p q : Pool Shared Task} (hp : (initial revisions n).run machine events = some p)
    (hq : p.run machine later = some q) :
    (∀ e, .drained e (.ok ()) ∈ p.tasks → ∀ task ∈ q.tasks, ¬ Holds e task) ∧
    (∀ job old revision, .updated job old (.ok revision) ∈ p.tasks →
      ∀ e < q.shared.count, (q.shared.epochs e).authority = job.authority →
        (q.shared.epochs e).revision < revision → ∀ task ∈ q.tasks, ¬ Holds e task) ∧
    ∀ job old error, .updated job old (.failed error) ∈ p.tasks →
      (q.shared.epochs old).closed = true := by
  have hinv : Inv q := Pool.run_invariant (fun _ _ h hstep => h.step hstep) later
    (Pool.run_invariant (fun _ _ h hstep => h.step hstep) events (inv_initial revisions n) hp) hq
  have hstays : ∀ {task : Task}, (∀ s choice, advance s task choice = none) → task ∈ p.tasks →
      task ∈ q.tasks := by
    intro task hdone h
    exact @Pool.run_invariant _ _ _ _ machine p q (fun c => task ∈ c.tasks)
      (fun _ _ hmem hstep => returned_step hstep hdone hmem) later h hq
  refine ⟨fun e he => ?_, fun job old revision hu e he hauthority hlt => ?_,
    fun job old error hu => ?_⟩
  · have hsilent : Silent q e := hinv.warrants _ (hstays (fun _ _ => rfl) he)
    exact hsilent.2
  · obtain ⟨-, -, hle⟩ := hinv.warrants _ (hstays (fun _ _ => rfl) hu)
    have hne : e ≠ (q.shared.authorities (q.shared.epochs e).authority).current := by
      intro heq
      rw [hauthority] at heq
      rw [← heq] at hle
      omega
    exact (hinv.retired e he hne).1.2
  · exact hinv.warrants _ (hstays (fun _ _ => rfl) hu)
/-- A permit is given, an update waits for it, and once it is dropped the update returns. -/
def revocation : List (Event Task Choice) :=
  let job : Job := ⟨.change, 0, 7, 0, 0⟩
  let take (stage : Stage) : Event Task Choice := .step (.update ⟨job, stage, 0, .none⟩) .go
  [.launch (.load 0), .step (.load 0) .go, .step (.add 0) .go, .step (.reload 0) .go,
    .launch (.update ⟨job, .locking, 0, .none⟩), take .locking, take .checking, take .preparing,
    take .closing, take .polling, .step (.permit 0) .go, take .polling, take .persisting,
    take .auditing, take .installing, take (.releasing (.ok 8))]

theorem revocation_is_barrier_revocation :
    ∃ p, (initial (fun _ => 7) 1).run machine revocation = some p ∧
      .updated ⟨.change, 0, 7, 0, 0⟩ 0 (.ok 8) ∈ p.tasks ∧ ∀ task ∈ p.tasks, ¬ Holds 0 task := by
  obtain ⟨p, hrun, hmem, hcount, hauthority, hrevision⟩ :
      ∃ p, (initial (fun _ => 7) 1).run machine revocation = some p ∧
        .updated ⟨.change, 0, 7, 0, 0⟩ 0 (.ok 8) ∈ p.tasks ∧ 0 < p.shared.count ∧
          (p.shared.epochs 0).authority = 0 ∧ (p.shared.epochs 0).revision < 8 :=
    ⟨_, rfl, by decide, by decide, by decide, by decide⟩
  have hlater : p.run machine [] = some p := rfl
  exact ⟨p, hrun, hmem, (revocation_is_barrier (fun _ => 7) 1 hrun hlater).2.1 _ 0 8 hmem 0 hcount
    hauthority hrevision⟩

end ChironDB.Security
