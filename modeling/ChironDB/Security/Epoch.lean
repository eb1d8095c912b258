/-
# Epochs and the updates that close them

`Epoch` of `security/identity.rs`, and the three updates that replace the epoch of an
authority: `IdentityAuthority::change`, `CollectionAuthority::change_resources` and
`CollectionAuthority::install` (`security/identity.rs`, `security/context.rs`).  A call is
a task that goes through its atomic operations one by one.  Loads, stores, additions and
subtractions on the two atomics of an epoch are steps of their own, and so are taking the
`update` mutex and writing `current`; what lies between (edits, validation, the audit
record, the durable write) is one step that succeeds or fails as the world chooses, since
nothing of it reads or changes an epoch.

A permit exists from the moment `enter` returns it until it is dropped.  Within `enter`
there is an object for a moment that is not returned when the second load sees the epoch
closed; it is counted in `active` but it is not a permit.
-/

import ChironDB.Concurrent.Pool
import ChironDB.Security.Types

namespace ChironDB.Security

/-- `authority` is the authority that made the epoch; nothing reads it. -/
structure Epoch where
  revision : ℕ
  closed : Bool
  active : ℕ
  authority : ℕ
  deriving DecidableEq, Repr

/-- `Epoch::new`. -/
def Epoch.new (revision authority : ℕ) : Epoch := ⟨revision, false, 0, authority⟩

/-- The epoch that is current, and whether the `update` mutex is taken. -/
structure Authority where
  current : ℕ
  locked : Bool
  deriving DecidableEq, Repr

/-- The epochs made so far are those below `count`, the authorities those below `size`. -/
structure Shared where
  epochs : ℕ → Epoch
  count : ℕ
  authorities : ℕ → Authority
  size : ℕ

namespace Shared

def setEpoch (s : Shared) (e : ℕ) (epoch : Epoch) : Shared :=
  { s with epochs := Function.update s.epochs e epoch }

def setAuthority (s : Shared) (a : ℕ) (authority : Authority) : Shared :=
  { s with authorities := Function.update s.authorities a authority }

/-- `closed.store(true)`. -/
def close (s : Shared) (e : ℕ) : Shared := s.setEpoch e { s.epochs e with closed := true }

/-- `active.fetch_add(1)`. -/
def fetchAdd (s : Shared) (e : ℕ) : Shared :=
  s.setEpoch e { s.epochs e with active := (s.epochs e).active + 1 }

/-- `active.fetch_sub(1)`. -/
def fetchSub (s : Shared) (e : ℕ) : Shared :=
  s.setEpoch e { s.epochs e with active := (s.epochs e).active - 1 }

def lock (s : Shared) (a : ℕ) : Shared := s.setAuthority a { s.authorities a with locked := true }

def unlock (s : Shared) (a : ℕ) : Shared :=
  s.setAuthority a { s.authorities a with locked := false }

/-- `*self.current.write() = ...` with a new epoch. -/
def install (s : Shared) (a revision : ℕ) : Shared :=
  { s with
    epochs := Function.update s.epochs s.count (.new revision a)
    count := s.count + 1
    authorities := Function.update s.authorities a { s.authorities a with current := s.count } }

end Shared

inductive Update
  | change
  | changeResources
  | install
  deriving DecidableEq, Repr

/-- A call of an update.  `actor` is the epoch of the actor, or of the snapshot of the
context; `identity` is the identity epoch of the context, on which `change_resources`
holds a lease. -/
structure Job where
  kind : Update
  authority : ℕ
  expected : ℕ
  actor : ℕ
  identity : ℕ
  deriving DecidableEq, Repr

/-- How an update ends: it returns the new revision, it is refused before it closes anything,
or draining, persisting or completing the audit record fails. -/
inductive Outcome
  | ok (revision : ℕ)
  | refused (error : SecurityError)
  | failed (error : SecurityError)
  deriving DecidableEq, Repr

inductive Stage
  | locking
  | checking
  | leasing
  | leaseAdd
  | leaseReload
  | preparing
  | closing
  | polling
  | persisting
  | auditing
  | installing
  | releasing (outcome : Outcome)
  deriving DecidableEq

/-- The lease of an update: not taken, taken but not yet granted, granted. -/
inductive Lease
  | none
  | pending
  | granted
  deriving DecidableEq, Repr

/-- A call of an update at some stage; from its checks on `old` is the epoch it found current. -/
structure Running where
  job : Job
  stage : Stage
  old : ℕ
  lease : Lease
  deriving DecidableEq

/-- The calls, each at some point of its code. -/
inductive Task
  | load (e : ℕ)
  | add (e : ℕ)
  | reload (e : ℕ)
  | retract (e : ℕ)
  | permit (e : ℕ)
  | close (e : ℕ)
  | drain (e : ℕ)
  | poll (e : ℕ)
  | drained (e : ℕ) (result : Except SecurityError Unit)
  | update (call : Running)
  | updated (job : Job) (old : ℕ) (outcome : Outcome)
  deriving DecidableEq

/-- What the world chooses where the outcome of a step is not decided by the memory. -/
inductive Choice
  | go
  | fail (error : SecurityError)
  deriving DecidableEq, Repr

namespace Running

/-- The call goes on. -/
def moveTo (call : Running) (stage : Stage) : Task := .update { call with stage := stage }

/-- The call returns an error before it has closed the epoch. -/
def refuse (call : Running) (error : SecurityError) : Task :=
  call.moveTo (.releasing (.refused error))

/-- The call returns an error after it has closed the epoch. -/
def abort (call : Running) (error : SecurityError) : Task :=
  call.moveTo (.releasing (.failed error))

/-- The first checks, on what `current` holds.  `change` and `change_resources` ask that the
actor or the context is of the current epoch, `install` does not. -/
def check (call : Running) (s : Shared) : Task :=
  let current := (s.authorities call.job.authority).current
  let checked := { call with old := current }
  match call.job.kind with
  | .change =>
    if call.job.expected ≠ (s.epochs current).revision ∨ call.job.actor ≠ current then
      checked.refuse .conflict
    else checked.moveTo .preparing
  | .changeResources =>
    if call.job.actor ≠ current then checked.refuse .forbidden
    else if call.job.expected ≠ (s.epochs current).revision then checked.refuse .conflict
    else checked.moveTo .leasing
  | .install =>
    if call.job.expected ≠ (s.epochs current).revision then checked.refuse .conflict
    else checked.moveTo .preparing

/-- One step of an update. -/
def advance (s : Shared) (call : Running) (choice : Choice) : Option (Shared × List Task) :=
  match call.stage with
  | .locking =>
    if (s.authorities call.job.authority).locked then none
    else some (s.lock call.job.authority, [call.moveTo .checking])
  | .checking =>
    match choice with
    | .go => some (s, [call.check s])
    | .fail error => some (s, [call.refuse error])
  | .leasing =>
    if (s.epochs call.job.identity).closed then some (s, [call.refuse .conflict])
    else some (s, [call.moveTo .leaseAdd])
  | .leaseAdd =>
    some (s.fetchAdd call.job.identity, [{ call with lease := .pending }.moveTo .leaseReload])
  | .leaseReload =>
    if (s.epochs call.job.identity).closed then some (s, [call.refuse .conflict])
    else some (s, [{ call with lease := .granted }.moveTo .preparing])
  | .preparing =>
    match choice with
    | .go => some (s, [call.moveTo .closing])
    | .fail error => some (s, [call.refuse error])
  | .closing => some (s.close call.old, [call.moveTo .polling])
  | .polling =>
    if (s.epochs call.old).active = 0 then some (s, [call.moveTo .persisting])
    else
      match choice with
      | .go => some (s, [call.moveTo .polling])
      | .fail _ => some (s, [call.abort .unavailable])
  | .persisting =>
    match choice with
    | .go => some (s, [call.moveTo (if call.job.kind = .change then .auditing else .installing)])
    | .fail error => some (s, [call.abort error])
  | .auditing =>
    match choice with
    | .go => some (s, [call.moveTo .installing])
    | .fail _ => some (s, [call.abort .unavailable])
  | .installing =>
    some (s.install call.job.authority (call.job.expected + 1),
      [call.moveTo (.releasing (.ok (call.job.expected + 1)))])
  | .releasing outcome =>
    if call.lease = .none then
      some (s.unlock call.job.authority, [.updated call.job call.old outcome])
    else
      some (s.fetchSub call.job.identity, [.update { call with lease := .none }])

end Running

/-- One atomic step of a call: of `Epoch::enter`, of the drop of a permit, of `Epoch::close`, of
`Epoch::close_and_drain`, or of an update. -/
def advance (s : Shared) (task : Task) (choice : Choice) : Option (Shared × List Task) :=
  match task with
  | .load e => if (s.epochs e).closed then some (s, []) else some (s, [.add e])
  | .add e => some (s.fetchAdd e, [.reload e])
  | .reload e => if (s.epochs e).closed then some (s, [.retract e]) else some (s, [.permit e])
  | .retract e => some (s.fetchSub e, [])
  | .permit e => some (s.fetchSub e, [])
  | .close e => some (s.close e, [])
  | .drain e => some (s.close e, [.poll e])
  | .poll e =>
    if (s.epochs e).active = 0 then some (s, [.drained e (.ok ())])
    else
      match choice with
      | .go => some (s, [.poll e])
      | .fail _ => some (s, [.drained e (.error .unavailable)])
  | .drained _ _ => none
  | .update call => call.advance s choice
  | .updated _ _ _ => none

/-- The calls that may be started: on epochs and authorities that exist. -/
def launch (s : Shared) : Task → Bool
  | .load e | .close e | .drain e => e < s.count
  | .update call =>
    call.stage = .locking ∧ call.lease = .none ∧ call.old = call.job.actor ∧
      call.job.actor < s.count ∧ call.job.identity < s.count ∧ call.job.authority < s.size
  | _ => false

/-- The epochs under any number of callers. -/
def machine : Concurrent.Machine Shared Task Choice := ⟨advance, launch⟩

/-- `n` authorities, each at a revision of its own. -/
def initial (revisions : ℕ → ℕ) (n : ℕ) : Concurrent.Pool Shared Task where
  shared :=
    { epochs := fun e => .new (revisions e) e
      count := n
      authorities := fun a => ⟨a, false⟩
      size := n }
  tasks := 0

end ChironDB.Security
