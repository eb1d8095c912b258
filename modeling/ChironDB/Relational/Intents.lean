/-
# Transaction intents

The `IntentManager` of `chirondb-core/src/relational/intents.rs`.  A transaction asks for all the
keys it wants at once; its requests are brought into canonical form, it is queued, and it is
granted all of them when it is at the front of the queue and nobody else holds one of them in its
way.  A call leaves the queue by a grant, by cancellation or by its deadline; the guard it gets
releases the requests it was granted.

The queue and the holders are under one mutex, which a call gives up only where it waits on the
condition variable, so its steps are: take an owner number, take a ticket, push the waiter and try
once, and try again after each wake-up.  Cancellation, the deadline and the time-out of a wait are
what the world chooses.  No step of a call panics, so the mutex is never poisoned.  The two
counters count calls and are not modelled to wrap around.
-/

import Mathlib.Data.Finset.Basic
import ChironDB.Concurrent.Pool
import ChironDB.Tables.Sorted

namespace ChironDB.Relational.Intents

open Tables Concurrent List

/-- `IntentMode`. -/
inductive IntentMode
  | shared
  | exclusive
  deriving DecidableEq

/-- `IntentRequest`; a key is one of any ordered type. -/
structure IntentRequest (K : Type) where
  key : K
  mode : IntentMode
  deriving DecidableEq

/-- `Holders`. -/
structure Holders where
  shared : Finset ℕ := ∅
  exclusive : Option ℕ := none
  deriving DecidableEq

/-- `Waiter`. -/
structure Waiter (K : Type) where
  ticket : ℕ
  owner : ℕ
  requests : List (IntentRequest K)
  deriving DecidableEq

variable {K : Type} [LinearOrder K]

/-- `IntentInner`: what all calls share. -/
structure IntentInner (K : Type) [LinearOrder K] where
  holders : TreeMap K Holders := .empty
  waiters : List (Waiter K) := []
  nextOwner : ℕ := 0
  nextTicket : ℕ := 0

/-! ### Requests -/

/-- One request of `canonicalize`. -/
def canonicalizeOne (canonical : TreeMap K IntentMode) (request : IntentRequest K) :
    TreeMap K IntentMode :=
  match canonical.get request.key with
  | some mode =>
    canonical.insert request.key (if request.mode = .exclusive then .exclusive else mode)
  | none => canonical.insert request.key request.mode

/-- `canonicalize`. -/
def canonicalize (requests : List (IntentRequest K)) : List (IntentRequest K) :=
  (requests.foldl canonicalizeOne .empty).entries.map fun entry => ⟨entry.1, entry.2⟩

/-- `available`. -/
def available (holders : TreeMap K Holders) (owner : ℕ) (requests : List (IntentRequest K)) :
    Bool :=
  requests.all fun request =>
    match holders.get request.key with
    | none => true
    | some holders =>
      match request.mode with
      | .shared => holders.exclusive.all (· = owner)
      | .exclusive =>
        holders.exclusive.all (· = owner) && ∀ holder ∈ holders.shared, holder = owner

/-- One request of `grant`. -/
def grantOne (owner : ℕ) (holders : TreeMap K Holders) (request : IntentRequest K) :
    TreeMap K Holders :=
  let entry := (holders.get request.key).getD {}
  holders.insert request.key <| match request.mode with
    | .shared => { entry with shared := insert owner entry.shared }
    | .exclusive => { entry with exclusive := some owner }

/-- `grant`. -/
def grant (holders : TreeMap K Holders) (owner : ℕ) (requests : List (IntentRequest K)) :
    TreeMap K Holders :=
  requests.foldl (grantOne owner) holders

/-- What `IntentGuard::drop` leaves of the holders of one key. -/
def leave (owner : ℕ) (holders : Holders) : IntentMode → Holders
  | .shared => { holders with shared := holders.shared.erase owner }
  | .exclusive =>
    if holders.exclusive = some owner then { holders with exclusive := none } else holders

/-- One request of a guard that is dropped. -/
def releaseOne (owner : ℕ) (holders : TreeMap K Holders) (request : IntentRequest K) :
    TreeMap K Holders :=
  match holders.get request.key with
  | none => holders
  | some entry =>
    let entry := leave owner entry request.mode
    if entry.shared = ∅ ∧ entry.exclusive = none then holders.remove request.key
    else holders.insert request.key entry

/-- The loop of `IntentGuard::drop`. -/
def release (holders : TreeMap K Holders) (owner : ℕ) (requests : List (IntentRequest K)) :
    TreeMap K Holders :=
  requests.foldl (releaseOne owner) holders

/-! ### Calls -/

/-- Why `acquire` fails. -/
inductive AcquireError
  | canceled
  | waitExceeded
  deriving DecidableEq

/-- A call of `acquire` at some point of its code, and what comes of it. -/
inductive Task (K : Type)
  | calling (requests : List (IntentRequest K))
  | numbered (owner : ℕ) (requests : List (IntentRequest K))
  | ticketed (waiter : Waiter K)
  | waiting (waiter : Waiter K)
  | guard (owner : ℕ) (requests : List (IntentRequest K))
  | failed (error : AcquireError)
  deriving DecidableEq

/-- What the world decides in one pass of the loop. -/
structure Choice where
  canceled : Bool
  expired : Bool
  timedOut : Bool

/-- `state.waiters.retain(|waiter| waiter.ticket != ticket)`. -/
def withdraw (inner : IntentInner K) (ticket : ℕ) : IntentInner K :=
  { inner with waiters := inner.waiters.filter (·.ticket ≠ ticket) }

/-- One pass of the loop of `acquire`, up to the wait. -/
def attempt (inner : IntentInner K) (waiter : Waiter K) (choice : Choice) :
    IntentInner K × List (Task K) :=
  if choice.canceled then (withdraw inner waiter.ticket, [.failed .canceled])
  else if (inner.waiters.head?.any (·.ticket = waiter.ticket)) ∧
      available inner.holders waiter.owner waiter.requests then
    ({ inner with
        waiters := inner.waiters.tail
        holders := grant inner.holders waiter.owner waiter.requests },
      [.guard waiter.owner waiter.requests])
  else if choice.expired then (withdraw inner waiter.ticket, [.failed .waitExceeded])
  else (inner, [.waiting waiter])

/-- `acquire` up to its next wait, and the drop of a guard. -/
def advance (inner : IntentInner K) (task : Task K) (choice : Choice) :
    Option (IntentInner K × List (Task K)) :=
  match task with
  | .calling requests =>
    let requests := canonicalize requests
    let owner := inner.nextOwner + 1
    some ({ inner with nextOwner := owner },
      [if requests = [] then .guard owner requests else .numbered owner requests])
  | .numbered owner requests =>
    let ticket := inner.nextTicket + 1
    some ({ inner with nextTicket := ticket }, [.ticketed ⟨ticket, owner, requests⟩])
  | .ticketed waiter =>
    some (attempt { inner with waiters := inner.waiters ++ [waiter] } waiter choice)
  | .waiting waiter =>
    if choice.timedOut ∧ choice.expired then
      some (withdraw inner waiter.ticket, [.failed .waitExceeded])
    else some (attempt inner waiter choice)
  | .guard owner requests =>
    some ({ inner with holders := release inner.holders owner requests }, [])
  | .failed _ => none

/-- Any number of calls, of any requests. -/
def machine (K : Type) [LinearOrder K] : Machine (IntentInner K) (Task K) Choice where
  advance := advance
  launch _ task := match task with
    | .calling _ => true
    | _ => false

/-! ### The canonical requests -/

variable {requests : List (IntentRequest K)}

theorem ascending_canonicalize (requests : List (IntentRequest K)) :
    ((canonicalize requests).map (·.key)).Pairwise (· < ·) := by
  rw [canonicalize, map_map, pairwise_map]
  exact (requests.foldl canonicalizeOne .empty).ascending

/-! ### Who holds what -/

/-- The owner holds a key in a mode. -/
def Holds (holders : TreeMap K Holders) (owner : ℕ) (request : IntentRequest K) : Prop :=
  match request.mode with
  | .shared => owner ∈ ((holders.get request.key).getD {}).shared
  | .exclusive => ((holders.get request.key).getD {}).exclusive = some owner

/-- Nobody holds the key exclusively. -/
def Unlocked (holders : TreeMap K Holders) (key : K) : Prop :=
  ∀ owner, ¬Holds holders owner ⟨key, .exclusive⟩

variable {request : IntentRequest K}

theorem holds_congr {left right : TreeMap K Holders}
    (h : left.get request.key = right.get request.key) (owner : ℕ) :
    Holds left owner request ↔ Holds right owner request := by
  rw [Holds, Holds, h]

variable {holders : TreeMap K Holders}

theorem holds_grantOne (h : Unlocked holders request.key) (owner other : ℕ)
    (asked : IntentRequest K) :
    Holds (grantOne owner holders request) other asked ↔
      other = owner ∧ asked = request ∨ Holds holders other asked := by
  obtain ⟨key, mode⟩ := request
  obtain ⟨key', mode'⟩ := asked
  by_cases hkey : key' = key
  · subst hkey
    have hnone := h other
    cases mode <;> cases mode' <;>
      simp_all [Holds, grantOne, eq_comm]
  · have hother : (grantOne owner holders ⟨key, mode⟩).get key' = holders.get key' := by
      rw [grantOne, TreeMap.get_insert, if_neg hkey]
    rw [holds_congr hother]
    simp [hkey]

theorem holds_grant (hkeys : (requests.map (·.key)).Nodup)
    (h : ∀ request ∈ requests, Unlocked holders request.key) (owner other : ℕ)
    (asked : IntentRequest K) :
    Holds (grant holders owner requests) other asked ↔
      other = owner ∧ asked ∈ requests ∨ Holds holders other asked := by
  induction requests generalizing holders with
  | nil => simp [grant]
  | cons request requests ih =>
    obtain ⟨hfresh, hkeys⟩ := nodup_cons.1 hkeys
    obtain ⟨hfirst, hrest⟩ := forall_mem_cons.1 h
    have hone := holds_grantOne hfirst owner
    have hunlocked : ∀ r ∈ requests, Unlocked (grantOne owner holders request) r.key := by
      intro r hr o ho
      rcases (hone o _).1 ho with ⟨-, heq⟩ | ho
      · exact hfresh (mem_map.2 ⟨r, hr, (congrArg IntentRequest.key heq :)⟩)
      · exact hrest r hr o ho
    rw [grant, foldl_cons, ← grant, ih hkeys hunlocked, hone, mem_cons]
    tauto

/-- An entry that nobody is left in reads like none. -/
theorem getD_releaseOne (owner : ℕ) (holders : TreeMap K Holders) (request : IntentRequest K) :
    ((releaseOne owner holders request).get request.key).getD {} =
      leave owner ((holders.get request.key).getD {}) request.mode := by
  rw [releaseOne]
  rcases hentry : holders.get request.key with _ | entry
  · cases request.mode <;> simp [leave, hentry]
  · dsimp only [Option.getD_some]
    generalize leave owner entry request.mode = left
    obtain ⟨shared, exclusive⟩ := left
    split
    · next hempty =>
      obtain ⟨rfl, rfl⟩ := hempty
      simp [TreeMap.get_remove]
    · simp

theorem get_releaseOne_of_ne {owner : ℕ} {key : K} (h : key ≠ request.key) :
    (releaseOne owner holders request).get key = holders.get key := by
  rw [releaseOne]
  split
  · rfl
  · dsimp only
    split
    · rw [TreeMap.get_remove, if_neg h]
    · rw [TreeMap.get_insert, if_neg h]

theorem holds_releaseOne (holders : TreeMap K Holders) (request : IntentRequest K)
    (owner other : ℕ) (asked : IntentRequest K) :
    Holds (releaseOne owner holders request) other asked ↔
      Holds holders other asked ∧ ¬(other = owner ∧ asked = request) := by
  obtain ⟨key, mode⟩ := asked
  by_cases hkey : key = request.key
  · subst hkey
    rw [Holds, Holds, getD_releaseOne]
    obtain ⟨key, mode'⟩ := request
    cases mode <;> cases mode' <;> simp [leave, and_comm]
    · split <;> rfl
    · split
      · next hown =>
        rw [hown]
        simp [eq_comm]
      · next hother => exact ⟨fun h => ⟨fun heq => hother (heq ▸ h), h⟩, And.right⟩
  · rw [holds_congr (get_releaseOne_of_ne hkey)]
    have hne : ⟨key, mode⟩ ≠ request := fun h => hkey (congrArg IntentRequest.key h)
    simp [hne]

theorem holds_release (holders : TreeMap K Holders) (owner other : ℕ) (asked : IntentRequest K) :
    Holds (release holders owner requests) other asked ↔
      Holds holders other asked ∧ ¬(other = owner ∧ asked ∈ requests) := by
  induction requests generalizing holders with
  | nil => simp [release]
  | cons request requests ih =>
    rw [release, foldl_cons, ← release, ih, holds_releaseOne, mem_cons]
    tauto

/-- What an owner that holds nothing yet is granted is in nobody's way. -/
theorem available_spec {owner : ℕ} (hnone : ∀ request, ¬Holds holders owner request)
    (h : available holders owner requests = true) :
    ∀ request ∈ requests, ∀ other mode, Holds holders other ⟨request.key, mode⟩ →
      mode = .shared ∧ request.mode = .shared := by
  intro request hmem other mode hholds
  have hone := all_eq_true.1 h request hmem
  have hshared := hnone ⟨request.key, .shared⟩
  have hexclusive := hnone ⟨request.key, .exclusive⟩
  rcases hentry : holders.get request.key with _ | entry
  · cases mode <;> simp [Holds, hentry] at hholds
  · simp only [Holds, hentry, Option.getD_some] at hone hshared hexclusive hholds
    cases mode <;> cases hmode : request.mode <;> simp_all
    exact hshared (hone.2 other hholds ▸ hholds)

/-! ### The invariant -/

namespace Task

/-- The owner number of a call. -/
def owner? : Task K → Option ℕ
  | .numbered owner _ | .guard owner _ => some owner
  | .ticketed waiter | .waiting waiter => some waiter.owner
  | .calling _ | .failed _ => none

/-- The ticket of a call that has one and may be queued. -/
def ticket? : Task K → Option ℕ
  | .ticketed waiter | .waiting waiter => some waiter.ticket
  | _ => none

/-- The task is a guard of the owner that was granted the request. -/
def Grants : Task K → ℕ → IntentRequest K → Prop
  | .guard owner requests, other, request => other = owner ∧ request ∈ requests
  | _, _, _ => False

/-- The requests of the task are those of one of the calls, in canonical form. -/
def Canonical (calls : Set (List (IntentRequest K))) : Task K → Prop
  | .calling asked => asked ∈ calls
  | .numbered _ requests | .guard _ requests => ∃ asked ∈ calls, requests = canonicalize asked
  | .ticketed waiter | .waiting waiter => ∃ asked ∈ calls, waiter.requests = canonicalize asked
  | .failed _ => True

end Task

/-- What holds of the manager and its calls after any number of steps. -/
structure Inv (calls : Set (List (IntentRequest K))) (inner : IntentInner K)
    (tasks : Multiset (Task K)) : Prop where
  owners : Pool.Numbered Task.owner? inner.nextOwner tasks
  tickets : Pool.Numbered Task.ticket? inner.nextTicket tasks
  canonical : ∀ task ∈ tasks, task.Canonical calls
  queue : ∀ waiter, waiter ∈ inner.waiters ↔ .waiting waiter ∈ tasks
  queued : inner.waiters.Nodup
  holds : ∀ owner request,
    Holds inner.holders owner request ↔ ∃ task ∈ tasks, task.Grants owner request
  exclusive : ∀ owner other key mode, Holds inner.holders owner ⟨key, .exclusive⟩ →
    Holds inner.holders other ⟨key, mode⟩ → other = owner ∧ mode = .exclusive

variable {waiters : List (Waiter K)} {task : Task K} {calls : Set (List (IntentRequest K))}
  {rest : Multiset (Task K)} {waiter : Waiter K}

namespace Inv

variable {inner : IntentInner K} {asked requests : List (IntentRequest K)} {owner : ℕ}

theorem call (h : Inv calls inner rest) (hasked : asked ∈ calls) :
    Inv calls inner (.calling asked ::ₘ rest) where
  owners := h.owners.cons_none rfl
  tickets := h.tickets.cons_none rfl
  canonical := by
    simpa [Task.Canonical, hasked] using h.canonical
  queue := by simpa using h.queue
  queued := h.queued
  holds := by simpa [Task.Grants] using h.holds
  exclusive := h.exclusive

/-- A call draws its owner number; one that asks for nothing has its guard at once. -/
theorem number (h : Inv calls inner (.calling asked ::ₘ rest)) :
    Inv calls { inner with nextOwner := inner.nextOwner + 1 }
      ((if canonicalize asked = [] then .guard (inner.nextOwner + 1) (canonicalize asked)
        else .numbered (inner.nextOwner + 1) (canonicalize asked)) ::ₘ rest) := by
  obtain ⟨howners, htickets, hcanonical, hqueue, hqueued, hholds, hexclusive⟩ := h
  have hasked : asked ∈ calls := hcanonical _ (Multiset.mem_cons_self _ _)
  have hrest : ∀ task ∈ rest, task.Canonical calls := fun task hmem =>
    hcanonical task (Multiset.mem_cons_of_mem hmem)
  split
  · next hnothing =>
    refine ⟨howners.drop.draw rfl, htickets.keep rfl, ?_, ?_, hqueued, ?_, hexclusive⟩
    · exact Multiset.forall_mem_cons.2 ⟨⟨asked, hasked, rfl⟩, hrest⟩
    · simpa using hqueue
    · simpa [Task.Grants, hnothing] using hholds
  · refine ⟨howners.drop.draw rfl, htickets.keep rfl, ?_, ?_, hqueued, ?_, hexclusive⟩
    · exact Multiset.forall_mem_cons.2 ⟨⟨asked, hasked, rfl⟩, hrest⟩
    · simpa using hqueue
    · simpa [Task.Grants] using hholds

theorem ticket (h : Inv calls inner (.numbered owner requests ::ₘ rest)) :
    Inv calls { inner with nextTicket := inner.nextTicket + 1 }
      (.ticketed ⟨inner.nextTicket + 1, owner, requests⟩ ::ₘ rest) where
  owners := h.owners.keep rfl
  tickets := h.tickets.drop.draw rfl
  canonical := by simpa [Task.Canonical] using h.canonical
  queue := by simpa using h.queue
  queued := h.queued
  holds := by simpa [Task.Grants] using h.holds
  exclusive := h.exclusive

/-- A call joins the queue at its end. -/
theorem enqueue (h : Inv calls inner (.ticketed waiter ::ₘ rest)) :
    Inv calls { inner with waiters := inner.waiters ++ [waiter] } (.waiting waiter ::ₘ rest) where
  owners := h.owners.keep rfl
  tickets := h.tickets.keep rfl
  canonical := by simpa [Task.Canonical] using h.canonical
  queue other := by
    have hother := h.queue other
    simp_all [or_comm]
  queued := by
    rw [nodup_append_comm, singleton_append, nodup_cons]
    refine ⟨fun hmem => ?_, h.queued⟩
    have hwaiting : Task.waiting waiter ∈ rest := by simpa using (h.queue waiter).1 hmem
    exact h.tickets.ne_of_mem rfl hwaiting rfl
  holds := by simpa [Task.Grants] using h.holds
  exclusive := h.exclusive

/-- A call leaves the queue without a guard. -/
theorem withdraw (h : Inv calls inner (.waiting waiter ::ₘ rest)) (error : AcquireError) :
    Inv calls (Intents.withdraw inner waiter.ticket) (.failed error ::ₘ rest) where
  owners := h.owners.drop.cons_none rfl
  tickets := h.tickets.drop.cons_none rfl
  canonical := by
    have hcanonical := h.canonical
    simp_all [Task.Canonical]
  queue other := by
    have hothers : .waiting other ∈ rest → other.ticket ≠ waiter.ticket := fun hmem heq =>
      h.tickets.ne_of_mem rfl hmem (congrArg some heq)
    have hother := h.queue other
    simp only [Multiset.mem_cons, Task.waiting.injEq] at hother
    simp only [Intents.withdraw, mem_filter, hother, decide_eq_true_eq, Multiset.mem_cons,
      reduceCtorEq, false_or]
    constructor
    · rintro ⟨rfl | hmem, hne⟩
      · exact absurd rfl hne
      · exact hmem
    · exact fun hmem => ⟨.inr hmem, hothers hmem⟩
  queued := h.queued.filter _
  holds := by simpa [Task.Grants, Intents.withdraw] using h.holds
  exclusive := h.exclusive

theorem not_grants (h : Inv calls inner (task ::ₘ rest)) (howner : task.owner? = some owner)
    {other : Task K} (hmem : other ∈ rest) (request : IntentRequest K) :
    ¬other.Grants owner request := by
  intro hgrants
  cases other with
  | guard _ requests => exact h.owners.ne_of_mem howner hmem (congrArg some hgrants.1.symm)
  | calling | numbered | ticketed | waiting | failed => exact hgrants

theorem holds_nothing (h : Inv calls inner (.waiting waiter ::ₘ rest)) (request : IntentRequest K) :
    ¬Holds inner.holders waiter.owner request := by
  rw [h.holds]
  rintro ⟨task, hmem, hgrants⟩
  rcases Multiset.mem_cons.1 hmem with rfl | hmem
  · exact hgrants
  · exact h.not_grants rfl hmem request hgrants

/-- The call at the front of the queue is granted all it asks for. -/
theorem grant (h : Inv calls inner (.waiting waiter ::ₘ rest))
    (hfront : inner.waiters = waiter :: waiters)
    (havailable : available inner.holders waiter.owner waiter.requests = true) :
    Inv calls { inner with
        waiters := waiters
        holders := Intents.grant inner.holders waiter.owner waiter.requests }
      (.guard waiter.owner waiter.requests ::ₘ rest) := by
  have hfree := available_spec h.holds_nothing havailable
  obtain ⟨howners, htickets, hcanonical, hqueue, hqueued, hholds, hexclusive⟩ := h
  have hkeys : (waiter.requests.map (·.key)).Nodup := by
    obtain ⟨asked, -, heq⟩ := hcanonical _ (Multiset.mem_cons_self _ _)
    exact heq ▸ (ascending_canonicalize asked).imp ne_of_lt
  have hunlocked : ∀ request ∈ waiter.requests, Unlocked inner.holders request.key :=
    fun request hmem other hother => by simpa using hfree request hmem other _ hother
  have hgranted := holds_grant hkeys hunlocked waiter.owner
  rw [hfront] at hqueue hqueued
  obtain ⟨hfirst, hqueued⟩ := nodup_cons.1 hqueued
  refine ⟨howners.keep rfl, htickets.drop.cons_none rfl, ?_, ?_, hqueued, ?_, ?_⟩
  · simpa [Task.Canonical] using hcanonical
  · intro other
    have hne : Task.waiting waiter ∉ rest := fun hmem => htickets.ne_of_mem rfl hmem rfl
    have hother := hqueue other
    by_cases heq : other = waiter
    · subst heq
      simp [hfirst, hne]
    · simpa [heq] using hother
  · intro other request
    rw [hgranted, hholds]
    simp [Task.Grants]
  · intro first second key mode hexcl hboth
    rcases (hgranted _ _).1 hexcl with ⟨rfl, hmem⟩ | hexcl <;>
      rcases (hgranted _ _).1 hboth with ⟨rfl, hmem'⟩ | hboth
    · have hsame := inj_on_of_nodup_map hkeys hmem' hmem rfl
      exact ⟨rfl, congrArg IntentRequest.mode hsame⟩
    · exact absurd (hfree _ hmem _ _ hboth).2 (by simp)
    · exact absurd (hfree _ hmem' _ _ hexcl).1 (by simp)
    · exact hexclusive _ _ _ _ hexcl hboth

theorem release (h : Inv calls inner (.guard owner requests ::ₘ rest)) :
    Inv calls { inner with holders := Intents.release inner.holders owner requests } rest where
  owners := h.owners.drop
  tickets := h.tickets.drop
  canonical task hmem := h.canonical task (Multiset.mem_cons_of_mem hmem)
  queue := by simpa using h.queue
  queued := h.queued
  holds other request := by
    have hothers : ∀ task ∈ rest, ¬task.Grants owner request := fun task hmem =>
      h.not_grants rfl hmem request
    rw [holds_release, h.holds]
    constructor
    · rintro ⟨⟨task, hmem, hgrants⟩, hnot⟩
      rcases Multiset.mem_cons.1 hmem with rfl | hmem
      · exact absurd hgrants hnot
      · exact ⟨task, hmem, hgrants⟩
    · rintro ⟨task, hmem, hgrants⟩
      refine ⟨⟨task, Multiset.mem_cons_of_mem hmem, hgrants⟩, fun hself => ?_⟩
      exact hothers task hmem (hself.1 ▸ hgrants)
  exclusive first second key mode hexcl hboth :=
    h.exclusive first second key mode ((holds_release ..).1 hexcl).1 ((holds_release ..).1 hboth).1

/-- The waiter whose ticket is at the front is the call's own. -/
theorem front (h : Inv calls inner (.waiting waiter ::ₘ rest))
    (hfront : inner.waiters.head?.any (·.ticket = waiter.ticket) = true) :
    inner.waiters = waiter :: inner.waiters.tail := by
  rcases hwaiters : inner.waiters with _ | ⟨first, waiters⟩
  · simp [hwaiters] at hfront
  · have hticket : first.ticket = waiter.ticket := by simpa [hwaiters] using hfront
    have hmem : Task.waiting first ∈ Task.waiting waiter ::ₘ rest := by
      rw [← h.queue, hwaiters]
      exact mem_cons_self
    rcases Multiset.mem_cons.1 hmem with heq | hmem
    · cases heq
      rfl
    · exact absurd (congrArg some hticket) (h.tickets.ne_of_mem rfl hmem)

end Inv

/-- How one step may change the queue: a call may join it at its end and calls may leave it, in
whose places the others move up; and a guard that has come up is that of the call that was at its
front. -/
def InOrder (waiters waiters' : List (Waiter K)) (tasks tasks' : Multiset (Task K)) : Prop :=
  ∃ joined : List (Waiter K), joined.length ≤ 1 ∧ waiters'.Sublist (waiters ++ joined) ∧
    ∀ owner requests, .guard owner requests ∈ tasks' → .guard owner requests ∈ tasks ∨
      requests = [] ∨ ∃ ticket, waiters ++ joined = ⟨ticket, owner, requests⟩ :: waiters'

omit [LinearOrder K] in
/-- A step that neither lets a call join the queue nor grants anything. -/
theorem InOrder.of_sublist {waiters' : List (Waiter K)} {left : List (Task K)}
    {rest : Multiset (Task K)} (h : waiters'.Sublist waiters)
    (hleft : ∀ owner requests, .guard owner requests ∈ left → requests = []) :
    InOrder waiters waiters' (task ::ₘ rest) (left + rest) := by
  refine ⟨[], Nat.zero_le 1, by simpa using h, fun owner requests hmem => ?_⟩
  rcases Multiset.mem_add.1 hmem with hmem | hmem
  · exact .inr (.inl (hleft owner requests hmem))
  · exact .inl (Multiset.mem_cons_of_mem hmem)

section Steps

variable {inner inner' : IntentInner K} {left : List (Task K)} {choice : Choice}

/-- **One pass of the loop** of a call that is in the queue. -/
theorem inv_attempt (h : Inv calls inner (.waiting waiter ::ₘ rest))
    (hattempt : attempt inner waiter choice = (inner', left)) :
    Inv calls inner' (left + rest) ∧ inner'.waiters.Sublist inner.waiters ∧
      ∀ owner requests, .guard owner requests ∈ left →
        ∃ ticket, inner.waiters = ⟨ticket, owner, requests⟩ :: inner'.waiters := by
  rw [attempt] at hattempt
  split at hattempt
  · cases hattempt
    exact ⟨by simpa using h.withdraw .canceled, filter_sublist, by simp⟩
  · split at hattempt
    · next hgrant =>
      cases hattempt
      have hfront := h.front hgrant.1
      refine ⟨by simpa using h.grant hfront hgrant.2, tail_sublist _, ?_⟩
      intro owner requests hmem
      cases mem_singleton.1 hmem
      exact ⟨waiter.ticket, hfront⟩
    · split at hattempt <;> cases hattempt
      · exact ⟨by simpa using h.withdraw .waitExceeded, filter_sublist, by simp⟩
      · exact ⟨by simpa using h, List.Sublist.refl _, by simp⟩

/-- **One step** of a call or of a guard. -/
theorem inv_advance (h : Inv calls inner (task ::ₘ rest))
    (hadvance : advance inner task choice = some (inner', left)) :
    Inv calls inner' (left + rest) ∧
      InOrder inner.waiters inner'.waiters (task ::ₘ rest) (left + rest) := by
  -- the pass of a call that is already queued, or that has just joined
  have hpass : ∀ (waiter : Waiter K) (joined : List (Waiter K)), joined.length ≤ 1 →
      Inv calls { inner with waiters := inner.waiters ++ joined } (.waiting waiter ::ₘ rest) →
      attempt { inner with waiters := inner.waiters ++ joined } waiter choice = (inner', left) →
      Inv calls inner' (left + rest) ∧
        InOrder inner.waiters inner'.waiters (task ::ₘ rest) (left + rest) := by
    intro waiter joined hjoined hinv hattempt
    obtain ⟨hinv, hsublist, hguard⟩ := inv_attempt hinv hattempt
    refine ⟨hinv, joined, hjoined, hsublist, fun owner requests hmem => ?_⟩
    rcases Multiset.mem_add.1 hmem with hmem | hmem
    · exact .inr (.inr (hguard owner requests hmem))
    · exact .inl (Multiset.mem_cons_of_mem hmem)
  cases task with
  | calling asked =>
    cases hadvance
    refine ⟨h.number, .of_sublist (List.Sublist.refl _) fun owner requests hmem => ?_⟩
    split at hmem
    · next hnothing =>
      cases mem_singleton.1 hmem
      exact hnothing
    · simp at hmem
  | numbered owner requests =>
    cases hadvance
    exact ⟨h.ticket, .of_sublist (List.Sublist.refl _) (by simp)⟩
  | ticketed waiter => exact hpass waiter [waiter] le_rfl h.enqueue (Option.some.inj hadvance)
  | waiting waiter =>
    rw [advance] at hadvance
    split at hadvance
    · cases hadvance
      exact ⟨h.withdraw .waitExceeded, .of_sublist filter_sublist (by simp)⟩
    · refine hpass waiter [] (Nat.zero_le 1) ?_ ?_
      · simpa using h
      · simpa using Option.some.inj hadvance
  | guard owner requests =>
    cases hadvance
    exact ⟨by simpa using h.release, .of_sublist (List.Sublist.refl _) (by simp)⟩
  | failed => cases hadvance

end Steps

/-! ### Every run -/

/-- What the calls of a run ask for. -/
def called (events : List (Event (Task K) Choice)) : Set (List (IntentRequest K)) :=
  { asked | .launch (.calling asked) ∈ events }

/-- A key that is held exclusively is held by nobody else; a live guard holds exactly its requests,
which are those of its call in canonical form; only live guards hold anything; and the queue is of
the calls that wait, which hold nothing. -/
structure Safe (calls : Set (List (IntentRequest K))) (p : Pool (IntentInner K) (Task K)) :
    Prop where
  exclusive : ∀ key owner, Holds p.shared.holders owner ⟨key, .exclusive⟩ →
    ∀ other mode, Holds p.shared.holders other ⟨key, mode⟩ → other = owner ∧ mode = .exclusive
  guards : ∀ owner requests, .guard owner requests ∈ p.tasks →
    (∃ asked ∈ calls, requests = canonicalize asked) ∧
      ∀ request, Holds p.shared.holders owner request ↔ request ∈ requests
  holders : ∀ owner request, Holds p.shared.holders owner request →
    ∃ requests, .guard owner requests ∈ p.tasks
  queue : ∀ waiter, waiter ∈ p.shared.waiters ↔ .waiting waiter ∈ p.tasks
  waiting : ∀ waiter, .waiting waiter ∈ p.tasks →
    ∀ request, ¬Holds p.shared.holders waiter.owner request

variable {p : Pool (IntentInner K) (Task K)}

theorem Inv.safe (h : Inv calls p.shared p.tasks) : Safe calls p where
  exclusive key owner hexcl other mode := h.exclusive owner other key mode hexcl
  guards owner requests hmem := by
    refine ⟨h.canonical _ hmem, fun request => ?_⟩
    obtain ⟨rest, hrest⟩ := Multiset.exists_cons_of_mem hmem
    rw [hrest] at h
    rw [h.holds]
    constructor
    · rintro ⟨task, htask, hgrants⟩
      rcases Multiset.mem_cons.1 htask with rfl | htask
      · exact hgrants.2
      · exact absurd hgrants (h.not_grants rfl htask request)
    · exact fun hrequest => ⟨_, Multiset.mem_cons_self _ _, rfl, hrequest⟩
  holders owner request hholds := by
    obtain ⟨task, hmem, hgrants⟩ := (h.holds owner request).1 hholds
    cases task with
    | guard other requests =>
      obtain ⟨rfl, -⟩ := hgrants
      exact ⟨requests, hmem⟩
    | calling | numbered | ticketed | waiting | failed => exact hgrants.elim
  queue := h.queue
  waiting waiter hmem := by
    obtain ⟨rest, hrest⟩ := Multiset.exists_cons_of_mem hmem
    rw [hrest] at h
    exact h.holds_nothing

/-- The manager before the first call. -/
def idle (K : Type) [LinearOrder K] : Pool (IntentInner K) (Task K) := ⟨{}, 0⟩

theorem inv_idle (calls : Set (List (IntentRequest K))) :
    Inv calls (idle K).shared (idle K).tasks := by
  have hholds : ∀ owner request, ¬Holds (idle K).shared.holders owner request := by
    rintro owner ⟨key, mode⟩
    cases mode <;> simp [idle, Holds]
  refine ⟨⟨?_, ?_⟩, ⟨?_, ?_⟩, ?_, ?_, ?_, ?_, ?_⟩ <;> simp [idle] at hholds ⊢
  · exact hholds
  · exact fun owner other key mode hexcl => absurd hexcl (hholds owner _)

/-- **One event** of a pool of calls. -/
theorem inv_step {p' : Pool (IntentInner K) (Task K)} {event : Event (Task K) Choice}
    (h : Inv calls p.shared p.tasks) (hstep : p.step (machine K) event = some p') :
    ((∀ asked, event = .launch (.calling asked) → asked ∈ calls) → Inv calls p'.shared p'.tasks) ∧
      InOrder p.shared.waiters p'.shared.waiters p.tasks p'.tasks := by
  cases event with
  | launch task =>
    rw [Pool.step] at hstep
    split at hstep
    · next hlaunch =>
      cases hstep
      cases task with
      | calling asked =>
        refine ⟨fun hcalls => h.call (hcalls asked rfl), [], Nat.zero_le 1, by simp, ?_⟩
        exact fun owner requests hmem => .inl (by simpa using hmem)
      | numbered | ticketed | waiting | guard | failed => cases hlaunch
    · cases hstep
  | step task choice =>
    obtain ⟨inner', left, rest, htasks, hadvance, rfl⟩ := Pool.step_task hstep
    rw [htasks] at h ⊢
    exact ⟨fun _ => (inv_advance h hadvance).1, (inv_advance h hadvance).2⟩

/-- **Any run of any number of calls** keeps the invariant. -/
theorem inv_run {events : List (Event (Task K) Choice)}
    (hrun : (idle K).run (machine K) events = some p) : Inv (called events) p.shared p.tasks := by
  refine Pool.run_invariant_of_mem (fun p => Inv (called events) p.shared p.tasks) events ?_ ?_ hrun
  · intro event hmem q q' hq hstep
    refine (inv_step hq hstep).1 fun asked heq => ?_
    subst heq
    exact hmem
  · exact inv_idle _

/-- **The intent manager is safe** in every state that calls, grants, time-outs, cancellations and
drops of guards can lead to, and in every step from there the queue keeps its order and only the
call at its front is granted what it asked for. -/
theorem intents_safe (events : List (Event (Task K) Choice)) (p : Pool (IntentInner K) (Task K))
    (hrun : (idle K).run (machine K) events = some p) :
    Safe (called events) p ∧ ∀ event p', p.step (machine K) event = some p' →
      InOrder p.shared.waiters p'.shared.waiters p.tasks p'.tasks :=
  ⟨(inv_run hrun).safe, fun _ _ hstep => (inv_step (inv_run hrun) hstep).2⟩

/-- One call asks for a key twice and gets it; another waits for the key behind it, and is there
when the guard is dropped. -/
def handover : List (Event (Task ℕ) Choice) :=
  let go : Choice := ⟨false, false, false⟩
  let writer : List (IntentRequest ℕ) := [⟨7, .exclusive⟩]
  let reader : List (IntentRequest ℕ) := [⟨7, .shared⟩]
  [.launch (.calling [⟨7, .shared⟩, ⟨7, .exclusive⟩]), .launch (.calling reader),
    .step (.calling [⟨7, .shared⟩, ⟨7, .exclusive⟩]) go, .step (.calling reader) go,
    .step (.numbered 1 writer) go, .step (.numbered 2 reader) go,
    .step (.ticketed ⟨1, 1, writer⟩) go, .step (.ticketed ⟨2, 2, reader⟩) go,
    .step (.guard 1 writer) go, .step (.waiting ⟨2, 2, reader⟩) go]

theorem intents_safe_handover : ∃ p, (idle ℕ).run (machine ℕ) handover = some p ∧
    Task.guard 2 [⟨7, .shared⟩] ∈ p.tasks ∧ Safe (called handover) p := by
  have hlast : ((idle ℕ).run (machine ℕ) handover).any
      (fun p => Task.guard 2 [⟨7, .shared⟩] ∈ p.tasks) = true := by decide +kernel
  obtain ⟨hsome, hguard⟩ := (Option.any_eq_true_iff_get _ _).1 hlast
  have hrun := (Option.some_get hsome).symm
  exact ⟨_, hrun, of_decide_eq_true hguard, (intents_safe handover _ hrun).1⟩

/-! ### No deadlock -/

/-- A call or a guard goes on, without a cancellation or a deadline. -/
def Goes (p p' : Pool (IntentInner K) (Task K)) : Prop :=
  ∃ task, p.step (machine K) (.step task ⟨false, false, false⟩) = some p'

theorem available_of_free (h : ∀ owner request, ¬Holds holders owner request) (owner : ℕ)
    (requests : List (IntentRequest K)) : available holders owner requests = true := by
  rw [available, all_eq_true]
  intro request _
  cases hget : holders.get request.key with
  | none => rfl
  | some entry =>
    have hshared : ∀ holder, holder ∉ entry.shared := fun holder hmem =>
      h holder ⟨request.key, .shared⟩ (by simpa [Holds, hget] using hmem)
    have hexclusive : ∀ holder, entry.exclusive ≠ some holder := fun holder heq =>
      h holder ⟨request.key, .exclusive⟩ (by simpa [Holds, hget] using heq)
    rw [← Option.eq_none_iff_forall_ne_some] at hexclusive
    cases request.mode <;> simp [hshared, hexclusive]

namespace Inv

theorem goes (h : Inv calls p.shared p.tasks) (hmem : task ∈ p.tasks) {inner : IntentInner K}
    {left : List (Task K)}
    (hadvance : advance p.shared task ⟨false, false, false⟩ = some (inner, left)) :
    Goes p ⟨inner, left + p.tasks.erase task⟩ ∧ Inv calls inner (left + p.tasks.erase task) := by
  have hstep : p.step (machine K) (.step task ⟨false, false, false⟩) =
      some ⟨inner, left + p.tasks.erase task⟩ := by
    rw [Pool.step, if_pos hmem, show (machine K).advance = advance from rfl, hadvance]
    rfl
  exact ⟨⟨task, hstep⟩, (inv_step h hstep).1 (by rintro _ ⟨⟩)⟩

/-- All guards can be dropped while the queue waits. -/
theorem dropGuards (h : Inv calls p.shared p.tasks) :
    ∃ p', Relation.ReflTransGen Goes p p' ∧ Inv calls p'.shared p'.tasks ∧
      p'.shared.waiters = p.shared.waiters ∧
        ∀ owner requests, .guard owner requests ∉ p'.tasks := by
  induction hcard : p.tasks.card generalizing p with
  | zero =>
    rw [Multiset.card_eq_zero] at hcard
    exact ⟨p, .refl, h, rfl, by simp [hcard]⟩
  | succ n ih =>
    by_cases hguard : ∃ owner requests, .guard owner requests ∈ p.tasks
    · obtain ⟨owner, requests, hmem⟩ := hguard
      obtain ⟨hdrop, hinv⟩ := h.goes hmem rfl
      obtain ⟨p', hgoes, hrest⟩ := @ih ⟨_, _⟩ hinv
        (by simp [Multiset.card_erase_of_mem hmem, hcard])
      exact ⟨p', .head hdrop hgoes, hrest⟩
    · exact ⟨p, .refl, h, rfl, fun owner requests hmem => hguard ⟨owner, requests, hmem⟩⟩

/-- The calls of the queue can be granted one after the other. -/
theorem reaches_guard (h : Inv calls p.shared p.tasks) (hmem : waiter ∈ p.shared.waiters) :
    ∃ p', Relation.ReflTransGen Goes p p' ∧ .guard waiter.owner waiter.requests ∈ p'.tasks := by
  induction hqueue : p.shared.waiters generalizing p with
  | nil =>
    rw [hqueue] at hmem
    cases hmem
  | cons first rest ih =>
    obtain ⟨q, hgoes, hq, hwaiters, hnone⟩ := h.dropGuards
    rw [hqueue] at hmem hwaiters
    have hfree := available_of_free (fun owner request hholds => by
      obtain ⟨task, htask, hgrants⟩ := (hq.holds owner request).mp hholds
      cases task with
      | guard => exact hnone _ _ htask
      | _ => exact hgrants) first.owner first.requests
    have hadvance : advance q.shared (.waiting first) ⟨false, false, false⟩ =
        some (⟨Intents.grant q.shared.holders first.owner first.requests, rest,
          q.shared.nextOwner, q.shared.nextTicket⟩, [.guard first.owner first.requests]) := by
      simp [advance, attempt, hwaiters, hfree]
    obtain ⟨hgrant, hinv⟩ := hq.goes ((hq.queue first).mp (hwaiters ▸ mem_cons_self)) hadvance
    rcases mem_cons.mp hmem with rfl | hlater
    · exact ⟨_, hgoes.tail hgrant, by simp⟩
    · obtain ⟨p', hgoes', hguard⟩ := @ih ⟨_, _⟩ hinv hlater rfl
      exact ⟨p', (hgoes.tail hgrant).trans hgoes', hguard⟩

end Inv

end ChironDB.Relational.Intents
