/-
# Pools of tasks over shared memory

Any number of threads work on one memory.  A thread that runs one call after another is,
for what the memory can become, a sequence of tasks: a task is a call at some point of its
code, and in one atomic step it changes the memory and goes on to another point, ends, or
leaves several tasks behind.  A `Machine` says what the tasks do and which may be started,
a `Pool` is the memory with all the tasks that are under way, and a run takes their steps
in any order.

Besides the invariant rule (`Pool.run_invariant`) there is one for counters
(`Pool.weigh`): the sum over all tasks of a weight changes in a step by what the one
task weighed and by what it leaves behind.
-/

import Mathlib

namespace ChironDB.Concurrent

/-- What a task does in one atomic step, given what the world chooses, and which tasks may
be started. -/
structure Machine (σ τ κ : Type) where
  advance : σ → τ → κ → Option (σ × List τ)
  launch : σ → τ → Bool

/-- The memory and the tasks under way. -/
structure Pool (σ τ : Type) where
  shared : σ
  tasks : Multiset τ

inductive Event (τ κ : Type)
  | launch (task : τ)
  | step (task : τ) (choice : κ)

variable {σ τ κ : Type} [DecidableEq τ] {m : Machine σ τ κ} {p p' : Pool σ τ}

namespace Pool

/-- One event of a pool. -/
def step (m : Machine σ τ κ) (p : Pool σ τ) : Event τ κ → Option (Pool σ τ)
  | .launch task =>
    if m.launch p.shared task then some { p with tasks := task ::ₘ p.tasks } else none
  | .step task choice =>
    if task ∈ p.tasks then
      (m.advance p.shared task choice).map fun next =>
        ⟨next.1, (next.2 : Multiset τ) + p.tasks.erase task⟩
    else none

/-- A run of a pool. -/
def run (m : Machine σ τ κ) (p : Pool σ τ) : List (Event τ κ) → Option (Pool σ τ)
  | [] => some p
  | event :: rest => (p.step m event).bind fun p' => p'.run m rest

/-- What an event can do: it starts a task, or one task takes a step and the others wait. -/
inductive Step (m : Machine σ τ κ) (p : Pool σ τ) : Pool σ τ → Prop
  | launch {task : τ} (hlaunch : m.launch p.shared task = true) :
      Step m p ⟨p.shared, task ::ₘ p.tasks⟩
  | step {task : τ} {choice : κ} {shared : σ} {left : List τ} {rest : Multiset τ}
      (htasks : p.tasks = task ::ₘ rest)
      (hadvance : m.advance p.shared task choice = some (shared, left)) :
      Step m p ⟨shared, (left : Multiset τ) + rest⟩

theorem step_task {task : τ} {choice : κ} (h : p.step m (.step task choice) = some p') :
    ∃ shared left rest, p.tasks = task ::ₘ rest ∧
      m.advance p.shared task choice = some (shared, left) ∧
      p' = ⟨shared, (left : Multiset τ) + rest⟩ := by
  rw [Pool.step] at h
  split at h
  · next hmem =>
    obtain ⟨⟨shared, left⟩, hadvance, heq⟩ := Option.map_eq_some_iff.mp h
    cases heq
    exact ⟨shared, left, _, (Multiset.cons_erase hmem).symm, hadvance, rfl⟩
  · cases h

theorem Step.of_step {event : Event τ κ} (h : p.step m event = some p') : Step m p p' := by
  cases event with
  | launch task =>
    rw [Pool.step] at h
    split at h
    · next hlaunch =>
      cases h
      exact .launch hlaunch
    · cases h
  | step task choice =>
    obtain ⟨shared, left, rest, htasks, hadvance, rfl⟩ := step_task h
    exact .step htasks hadvance

/-- **The invariant rule**, where a step may use that its event is one of the run's. -/
theorem run_invariant_of_mem (Inv : Pool σ τ → Prop) (events : List (Event τ κ))
    (hstep : ∀ event ∈ events, ∀ q q', Inv q → q.step m event = some q' → Inv q')
    (h : Inv p) (hrun : p.run m events = some p') : Inv p' := by
  induction events generalizing p with
  | nil =>
    cases hrun
    exact h
  | cons event rest ih =>
    obtain ⟨q, hq, hrest⟩ := Option.bind_eq_some_iff.mp hrun
    obtain ⟨hfirst, hothers⟩ := List.forall_mem_cons.1 hstep
    exact ih hothers (hfirst p q h hq) hrest

/-- **The invariant rule.** -/
theorem run_invariant {Inv : Pool σ τ → Prop} (hstep : ∀ q q', Inv q → Step m q q' → Inv q')
    (events : List (Event τ κ)) (h : Inv p) (hrun : p.run m events = some p') : Inv p' :=
  run_invariant_of_mem Inv events (fun _ _ q q' hq heq => hstep q q' hq (.of_step heq)) h hrun

/-- The numbers that tasks have drawn from a counter are all different, and behind it. -/
structure Numbered (number : τ → Option ℕ) (next : ℕ) (tasks : Multiset τ) : Prop where
  nodup : (tasks.filterMap number).Nodup
  le : ∀ n ∈ tasks.filterMap number, n ≤ next

namespace Numbered

variable {number : τ → Option ℕ} {next : ℕ} {task task' : τ} {rest : Multiset τ}

omit [DecidableEq τ] in
/-- A task goes on under its number. -/
theorem keep (h : Numbered number next (task ::ₘ rest)) (hsame : number task' = number task) :
    Numbered number next (task' ::ₘ rest) := by
  have heq : (task' ::ₘ rest).filterMap number = (task ::ₘ rest).filterMap number := by
    rw [Multiset.filterMap_cons, Multiset.filterMap_cons, hsame]
  exact ⟨heq ▸ h.nodup, heq ▸ h.le⟩

omit [DecidableEq τ] in
theorem drop (h : Numbered number next (task ::ₘ rest)) : Numbered number next rest := by
  obtain ⟨hnodup, hle⟩ := h
  rw [Multiset.filterMap_cons] at hnodup hle
  exact ⟨(Multiset.nodup_add.1 hnodup).2.1, fun n hn => hle n (Multiset.mem_add.2 (.inr hn))⟩

omit [DecidableEq τ] in
/-- A task without a number comes in. -/
theorem cons_none (h : Numbered number next rest) (hnone : number task = none) :
    Numbered number next (task ::ₘ rest) := by
  obtain ⟨hnodup, hle⟩ := h
  rw [← Multiset.filterMap_cons_none task rest hnone] at hnodup hle
  exact ⟨hnodup, hle⟩

omit [DecidableEq τ] in
/-- A task draws the next number. -/
theorem draw (h : Numbered number next rest) (hdrawn : number task = some (next + 1)) :
    Numbered number (next + 1) (task ::ₘ rest) := by
  refine ⟨?_, ?_⟩ <;> rw [Multiset.filterMap_cons_some number task rest hdrawn]
  · exact Multiset.nodup_cons.2 ⟨fun hmem => absurd (h.le _ hmem) (by omega), h.nodup⟩
  · intro n hn
    rcases Multiset.mem_cons.1 hn with rfl | hn
    · exact le_rfl
    · exact (h.le n hn).trans (Nat.le_succ next)

omit [DecidableEq τ] in
theorem ne_of_mem (h : Numbered number next (task ::ₘ rest)) {n : ℕ} (hn : number task = some n)
    (hmem : task' ∈ rest) : number task' ≠ some n := by
  obtain ⟨hnodup, -⟩ := h
  rw [Multiset.filterMap_cons_some number task rest hn, Multiset.nodup_cons] at hnodup
  exact fun hsame => hnodup.1 ((Multiset.mem_filterMap number rest).2 ⟨task', hmem, hsame⟩)

end Numbered

/-- What all tasks together weigh. -/
def weigh (weight : τ → ℕ) (tasks : Multiset τ) : ℕ := (tasks.map weight).sum

omit [DecidableEq τ] in
@[simp] theorem weigh_cons (weight : τ → ℕ) (task : τ) (tasks : Multiset τ) :
    weigh weight (task ::ₘ tasks) = weight task + weigh weight tasks := by
  rw [weigh, Multiset.map_cons, Multiset.sum_cons, weigh]

omit [DecidableEq τ] in
theorem weigh_add (weight : τ → ℕ) (left : List τ) (tasks : Multiset τ) :
    weigh weight ((left : Multiset τ) + tasks) = (left.map weight).sum + weigh weight tasks := by
  rw [weigh, Multiset.map_add, Multiset.sum_add, Multiset.map_coe, Multiset.sum_coe, weigh]

omit [DecidableEq τ] in
theorem weight_le_weigh (weight : τ → ℕ) {task : τ} {tasks : Multiset τ} (h : task ∈ tasks) :
    weight task ≤ weigh weight tasks :=
  Multiset.single_le_sum (fun _ _ => Nat.zero_le _) _ (Multiset.mem_map_of_mem weight h)

end Pool
end ChironDB.Concurrent
