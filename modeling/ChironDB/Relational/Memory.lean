/-
# Memory that is reserved

`relational/memory.rs`: what retains memory holds a `Charge`, and a charge that is not empty points
at a lease, which holds its bytes and the bytes of its own allocation in a pool.  Clones of a charge
share one lease.  A charge that asks for another size changes its lease when it is the only one that
points at it, and takes out a new one otherwise; a lease gives its bytes back when the last charge
lets go of it.

The pool counts what is held and nothing else: `reservations_balance`.
-/

import ChironDB.Fault.Result
import ChironDB.Relational.Value

namespace ChironDB.Relational.Memory

open Fault List

inductive PoolKind
  | retained | storage | history
  deriving DecidableEq, Repr

structure Pool where
  capacity : UInt64
  used : ℕ
  kind : PoolKind
  deriving DecidableEq, Repr

namespace Pool

variable (self : Pool)

/-- What `acquire` refuses with. -/
def exhausted : GaussError :=
  .resourceExhausted (match self.kind with
    | .history => "SQL transaction history memory is full; release savepoints or roll back " ++
        "transactions"
    | .storage => "relational storage memory is full; release readers or retry after maintenance"
    | .retained => "relational retained memory is full; release old transactions or retry after " ++
        "checkpoint")

def acquire (bytes : ℕ) : Result Pool := do
  ensure (self.used + bytes < 2 ^ 64 && self.used + bytes ≤ self.capacity.toNat) self.exhausted
  pure { self with used := self.used + bytes }

/-- `fetch_sub` wraps around. -/
def release (bytes : ℕ) : Pool := { self with used := (self.used + 2 ^ 64 - bytes) % 2 ^ 64 }

/-- What a lease that changes its size asks of its pool. -/
def resize (before after : ℕ) : Result Pool :=
  if before < after then self.acquire (after - before)
  else if after < before then .ok (self.release (before - after))
  else .ok self

end Pool

structure Lease where
  bytes : ℕ
  root : ℕ
  /-- The strong count of its `Arc`: how many charges point at it. -/
  strong : ℕ
  deriving DecidableEq, Repr

/-- `LEASE_ROOT_BYTES`: three words, the two counts of an `Arc` and an allowance. -/
def leaseRootBytes : ℕ := 24 + 2 * 8 + 32

/-- What a lease releases when it is dropped. -/
def Lease.total (self : Lease) : ℕ := (self.bytes + self.root) % 2 ^ 64

/-- `sql_overloaded`. -/
def sqlOverloaded : GaussError :=
  .resourceExhausted "SQL memory budget is exhausted; retry later"

/-- A charge, by the place of the lease that it points at. -/
abbrev Charge := Option ℕ

/-- A pool, its leases, and how many charges there are without a lease. -/
structure World where
  pool : Pool
  leases : List Lease
  empty : ℕ
  deriving DecidableEq, Repr

namespace World

def new (capacity : UInt64) (kind : PoolKind) : World := ⟨⟨capacity, 0, kind⟩, [], 0⟩

variable (self : World)

/-- A charge lets go of its lease, which is dropped when it was the last one. -/
def letGo : Charge → World
  | none => { self with empty := self.empty - 1 }
  | some place => match self.leases[place]? with
    | none => self
    | some lease =>
      if lease.strong = 1 then { self with
        pool := self.pool.release lease.total
        leases := self.leases.eraseIdx place }
      else { self with leases := self.leases.set place { lease with strong := lease.strong - 1 } }

/-- A charge takes out a lease of its own and lets go of the one it had. -/
def fork (charge : Charge) (bytes : ℕ) : World × Result Unit :=
  if 2 ^ 64 ≤ bytes + leaseRootBytes then (self, .error sqlOverloaded)
  else match self.pool.acquire (bytes + leaseRootBytes) with
    | .error error => (self, .error error)
    | .ok pool =>
      let after := letGo { self with pool := pool } charge
      ({ after with leases := ⟨bytes, leaseRootBytes, 1⟩ :: after.leases }, .ok ())

/-- `Charge::prepare`. -/
def prepare (charge : Charge) (bytes : ℕ) : World × Result Unit :=
  if bytes = 0 then
    let after := self.letGo charge
    ({ after with empty := after.empty + 1 }, .ok ())
  -- `Arc::get_mut`
  else match charge.filter fun place => self.leases[place]?.any (·.strong = 1) with
    | none => self.fork charge bytes
    | some place => match self.leases[place]? with
      | none => (self, .ok ())
      | some lease => match self.pool.resize lease.bytes bytes with
        | .error error => (self, .error error)
        | .ok pool => ({ self with
            pool := pool
            leases := self.leases.set place { lease with bytes := bytes } }, .ok ())

/-- A clone points at the same lease. -/
def clone : Charge → World
  | none => { self with empty := self.empty + 1 }
  | some place => match self.leases[place]? with
    | none => self
    | some lease => { self with
        leases := self.leases.set place { lease with strong := lease.strong + 1 } }

/-- There is such a charge. -/
def has : Charge → Bool
  | none => 0 < self.empty
  | some place => place < self.leases.length

/-- How many charges there are. -/
def charges : ℕ := self.empty + (self.leases.map Lease.strong).sum

end World

/-- What happens to the charges of a pool. -/
inductive Operation
  | create
  | prepare (charge : Charge) (bytes : ℕ)
  | clone (charge : Charge)
  | drop (charge : Charge)

def World.step (self : World) : Operation → World
  | .create => { self with empty := self.empty + 1 }
  | .prepare charge bytes => if self.has charge then (self.prepare charge bytes).1 else self
  | .clone charge => if self.has charge then self.clone charge else self
  | .drop charge => if self.has charge then self.letGo charge else self

def World.run (self : World) (operations : List Operation) : World :=
  operations.foldl World.step self

/-! ## What is held -/

/-- The sum of bytes and root over the leases. -/
def held (leases : List Lease) : ℕ := (leases.map fun lease => lease.bytes + lease.root).sum

section

variable {leases : List Lease} {place : ℕ} {lease : Lease} (h : leases[place]? = some lease)
include h

theorem held_eraseIdx : held leases = lease.bytes + lease.root + held (leases.eraseIdx place) := by
  obtain ⟨hlt, rfl⟩ := List.getElem?_eq_some_iff.mp h
  exact ((getElem_cons_eraseIdx_perm hlt).symm.map _).sum_eq

theorem held_set (other : Lease) :
    held (leases.set place other) = other.bytes + other.root + held (leases.eraseIdx place) := by
  obtain ⟨hlt, -⟩ := List.getElem?_eq_some_iff.mp h
  exact ((set_perm_cons_eraseIdx hlt other).map _).sum_eq

end

/-- **The pool counts what is held**, and some bytes that are not yet, and every lease has a
charge. -/
structure World.Balanced (coming : ℕ) (world : World) : Prop where
  used : world.pool.used = coming + held world.leases
  capacity : world.pool.used ≤ world.pool.capacity.toNat
  live : ∀ lease ∈ world.leases, 0 < lease.strong

namespace World.Balanced

variable {world : World} {coming bytes place : ℕ} {pool pool' : Pool} {lease : Lease}

theorem release_eq (h : bytes ≤ pool.used) (hcapacity : pool.used ≤ pool.capacity.toNat) :
    pool.release bytes = { pool with used := pool.used - bytes } := by
  have hword := pool.capacity.toNat_lt
  rw [Pool.release, show pool.used + 2 ^ 64 - bytes = pool.used - bytes + 2 ^ 64 by omega,
    Nat.add_mod_right, Nat.mod_eq_of_lt (by omega)]

theorem acquire_eq_ok (h : pool.acquire bytes = .ok pool') :
    pool' = { pool with used := pool.used + bytes } ∧
      pool.used + bytes ≤ pool.capacity.toNat := by
  simp only [Pool.acquire, eq_ok] at h
  exact ⟨h.2.symm, h.1.2⟩

theorem resize_eq_ok {before after : ℕ} (h : pool.resize before after = .ok pool')
    (hbefore : before ≤ pool.used) (hcapacity : pool.used ≤ pool.capacity.toNat) :
    pool'.used + before = pool.used + after ∧ pool'.used ≤ pool'.capacity.toNat := by
  unfold Pool.resize at h
  split at h
  · obtain ⟨rfl, hle⟩ := acquire_eq_ok h
    exact ⟨by dsimp only; omega, hle⟩
  · split at h
    · cases h
      rw [release_eq (by omega) hcapacity]
      exact ⟨by dsimp only; omega, (Nat.sub_le _ _).trans hcapacity⟩
    · cases h
      exact ⟨by omega, hcapacity⟩

section

variable (h : world.Balanced coming)
include h

/-- A lease changes, and the pool with it. -/
theorem set {other : Lease} (hlease : world.leases[place]? = some lease)
    (hroot : other.root = lease.root) (hlive : 0 < other.strong)
    (hused : pool.used + lease.bytes = world.pool.used + other.bytes)
    (hcapacity : pool.used ≤ pool.capacity.toNat) :
    World.Balanced coming ⟨pool, world.leases.set place other, world.empty⟩ := by
  have hheld := h.used.trans (congrArg _ (held_eraseIdx hlease))
  have hset := held_set hlease other
  refine ⟨?_, hcapacity, fun one hmem => ?_⟩
  · dsimp only
    omega
  · obtain hmem | rfl := mem_or_eq_of_mem_set hmem
    · exact h.live one hmem
    · exact hlive

theorem letGo (charge : Charge) : (world.letGo charge).Balanced coming := by
  cases charge with
  | none => exact ⟨h.used, h.capacity, h.live⟩
  | some place =>
    rw [World.letGo]
    split
    · exact h
    · next lease hlease =>
      split
      · have hheld := h.used.trans (congrArg _ (held_eraseIdx hlease))
        have hcapacity := h.capacity
        have hword := world.pool.capacity.toNat_lt
        have htotal : lease.total = lease.bytes + lease.root := Nat.mod_eq_of_lt (by omega)
        rw [release_eq (by omega) hcapacity]
        exact ⟨by dsimp only; omega, (Nat.sub_le _ _).trans hcapacity,
          fun other hother => h.live other (mem_of_mem_eraseIdx hother)⟩
      · next hshared =>
        have hlive := h.live lease (mem_of_getElem? hlease)
        exact h.set hlease rfl (Nat.sub_pos_of_lt (by omega)) rfl h.capacity

end

section

variable (h : world.Balanced 0)
include h

theorem fork (charge : Charge) : (world.fork charge bytes).1.Balanced 0 := by
  rw [World.fork]
  split
  · exact h
  · split
    · exact h
    · next pool hpool =>
      obtain ⟨rfl, hcapacity⟩ := acquire_eq_ok hpool
      have hacquired : World.Balanced (bytes + leaseRootBytes) { world with
          pool := { world.pool with used := world.pool.used + (bytes + leaseRootBytes) } } :=
        ⟨(Nat.add_comm _ _).trans (congrArg _ (h.used.trans (Nat.zero_add _))), hcapacity, h.live⟩
      have hafter := hacquired.letGo charge
      exact ⟨hafter.used.trans (Nat.zero_add _).symm, hafter.capacity,
        forall_mem_cons.mpr ⟨Nat.one_pos, hafter.live⟩⟩

theorem prepare (charge : Charge) : (world.prepare charge bytes).1.Balanced 0 := by
  rw [World.prepare]
  split
  · have hafter := h.letGo charge
    exact ⟨hafter.used, hafter.capacity, hafter.live⟩
  · split
    · exact h.fork charge
    · split
      · exact h
      · next lease hlease =>
        split
        · exact h
        · next hpool =>
          have hheld := h.used.trans (congrArg _ (held_eraseIdx hlease))
          obtain ⟨hused, hcapacity⟩ := resize_eq_ok hpool (by omega) h.capacity
          exact h.set hlease rfl (h.live lease (mem_of_getElem? hlease)) hused hcapacity

theorem clone (charge : Charge) : (world.clone charge).Balanced 0 := by
  cases charge with
  | none => exact ⟨h.used, h.capacity, h.live⟩
  | some place =>
    rw [World.clone]
    split
    · exact h
    · next lease hlease => exact h.set hlease rfl (Nat.succ_pos _) rfl h.capacity

theorem step (operation : Operation) : (world.step operation).Balanced 0 := by
  cases operation with
  | create => exact ⟨h.used, h.capacity, h.live⟩
  | prepare charge bytes => exact iteInduction (fun _ => h.prepare charge) fun _ => h
  | clone charge => exact iteInduction (fun _ => h.clone charge) fun _ => h
  | drop charge => exact iteInduction (fun _ => h.letGo charge) fun _ => h

end

theorem run (h : world.Balanced 0) (operations : List Operation) :
    (world.run operations).Balanced 0 := by
  induction operations generalizing world with
  | nil => exact h
  | cons operation operations ih => exact ih (h.step operation)

end World.Balanced

/-- A request that is refused changes nothing. -/
theorem prepare_refused {world : World} {charge : Charge} {bytes : ℕ} {error : GaussError}
    (h : (world.prepare charge bytes).2 = .error error) :
    (world.prepare charge bytes).1 = world := by
  revert h
  unfold World.prepare World.fork
  repeat' split
  all_goals first | exact fun _ => rfl | rintro ⟨⟩

/-- **Reservations balance.**  After any operations on the charges of a pool its counter is the sum
of bytes and root over the leases, and within the capacity; a request that is refused changes
nothing; and when all charges are dropped there is no lease and the counter is zero. -/
theorem reservations_balance (capacity : UInt64) (kind : PoolKind) (operations : List Operation) :
    ∃ world, (World.new capacity kind).run operations = world ∧
      world.pool.used = held world.leases ∧ world.pool.used ≤ world.pool.capacity.toNat ∧
      (∀ charge bytes error, (world.prepare charge bytes).2 = .error error →
        (world.prepare charge bytes).1 = world) ∧
      (world.charges = 0 → world.leases = [] ∧ world.pool.used = 0) := by
  have hnew : (World.new capacity kind).Balanced 0 :=
    ⟨rfl, Nat.zero_le _, forall_mem_nil _⟩
  have hrun := hnew.run operations
  have hused := hrun.used.trans (Nat.zero_add _)
  refine ⟨_, rfl, hused, hrun.capacity, fun _ _ _ => prepare_refused, fun hnone => ?_⟩
  have hempty : ((World.new capacity kind).run operations).leases = [] := by
    rw [World.charges, Nat.add_eq_zero_iff, List.sum_eq_zero_iff_forall_eq_nat] at hnone
    refine eq_nil_iff_forall_not_mem.mpr fun lease hmem => ?_
    exact (hrun.live lease hmem).ne' (hnone.2 _ (mem_map_of_mem hmem))
  exact ⟨hempty, by rw [hused, hempty]; rfl⟩

end ChironDB.Relational.Memory
