/-
# Security contracts

The data types of `chirondb-types/src/security.rs` that the security code reads: actions,
classifications, property rules, ingest templates, collection policies and resource records.
A `BTreeSet` is a finite set, and a `BTreeMap` lists its entries in key order.
-/

import ChironDB.Tables.Sorted
import Mathlib

namespace ChironDB.Security

open Tables

inductive SecurityError
  | forbidden
  | notFound
  | conflict
  | unavailable
  | budgetExceeded
  | invalid (message : String)
  deriving DecidableEq, Repr

/-- `SECURITY_VERSION`. -/
def securityVersion : ℕ := 1

/-- `MAX_INHERITANCE_DEPTH`. -/
def maxInheritanceDepth : ℕ := 16

/-- `MAX_POLICY_GRANTS`. -/
def maxPolicyGrants : ℕ := 1024

/-- A UUID as a number; zero is the nil UUID. -/
abbrev Uuid : Type := Fin (2 ^ 128)

instance neZero_uuid : NeZero (2 ^ 128) := inferInstance

instance lawfulBEq_uuid : LawfulBEq Uuid := inferInstance

inductive Action
  | read | search | create | ingest | update | delete | graphRead | graphWrite | traverse
  | schema | collectionCreate | collectionDrop | maintain | observe | identityManage
  | policyManage | labelsManage | grantsManage | export | snapshot | restore
  deriving DecidableEq, Repr

/-- `Action::is_data`. -/
def Action.isData : Action → Bool
  | .read | .search | .create | .ingest | .update | .delete | .graphRead | .graphWrite
  | .traverse | .export => true
  | _ => false

/-- `Action::is_resource`. -/
def Action.isResource (action : Action) : Bool :=
  action.isData || action = .labelsManage || action = .grantsManage

inductive Classification
  | public' | internal | confidential | restricted
  deriving DecidableEq, Repr

/-- The rank of a classification, which orders them. -/
def Classification.rank : Classification → ℕ
  | .public' => 0
  | .internal => 1
  | .confidential => 2
  | .restricted => 3

theorem Classification.rank_injective : Function.Injective Classification.rank := by
  intro left right h
  cases left <;> cases right <;> first | rfl | cases h

instance : LinearOrder Classification :=
  LinearOrder.lift' Classification.rank Classification.rank_injective

/-- A point is named by its collection incarnation, its tenant and its id. -/
structure PointKey where
  collection : Uuid
  tenant : String
  id : String
  deriving DecidableEq, Repr

/-- The fields of a key in the order in which keys are compared. -/
def PointKey.fields (key : PointKey) : Uuid ×ₗ String ×ₗ String :=
  toLex (key.collection, toLex (key.tenant, key.id))

theorem PointKey.fields_injective : Function.Injective PointKey.fields := by
  intro left right h
  cases left
  cases right
  cases h
  rfl

instance : LinearOrder PointKey := LinearOrder.lift' PointKey.fields PointKey.fields_injective

structure SubjectAttributes where
  department : String
  clearance : Classification
  deriving DecidableEq

structure ScopeGrant where
  tenants : Finset String
  collections : Finset String
  actions : Finset Action
  deriving DecidableEq

structure PrincipalRecord where
  id : String
  tenant : String
  enabled : Bool
  attributes : SubjectAttributes
  grants : List ScopeGrant
  installationActions : Finset Action
  delegation : List ScopeGrant
  deriving DecidableEq

inductive Subject
  | principal (id : String)
  | group (id : String)
  | department (id : String)
  | owner
  deriving DecidableEq, Repr

inductive Effect
  | permit | deny
  deriving DecidableEq, Repr

structure ObjectGrant where
  subject : Subject
  effect : Effect
  actions : Finset Action
  inherit : Bool
  deriving DecidableEq

inductive PropertyAction
  | read | query | write | export
  deriving DecidableEq, Repr

structure PropertyRule where
  classification : Classification
  actions : Finset PropertyAction
  deriving DecidableEq

structure ResourceLabels where
  owner : String
  department : String
  classification : Classification
  quarantined : Bool
  deriving DecidableEq

structure Representation where
  sourceFields : Finset String
  classification : Classification
  deriving DecidableEq

structure IngestTemplate where
  department : String
  classification : Classification
  properties : TreeMap String PropertyRule
  representations : TreeMap String Representation
  deriving DecidableEq

structure CollectionPolicy where
  departmentActions : Finset Action
  ownerActions : Finset Action
  templates : TreeMap String IngestTemplate
  deriving DecidableEq

structure CreateReceipt where
  principal : String
  requestId : String
  requestDigest : List UInt8
  ids : List String
  deriving DecidableEq

structure ResourceRecord where
  key : PointKey
  storageId : Uuid
  labels : ResourceLabels
  properties : TreeMap String PropertyRule
  representations : TreeMap String Representation
  grants : List ObjectGrant
  parent : Option PointKey
  revision : ℕ
  retired : Bool
  createReceipt : Option CreateReceipt
  deriving DecidableEq

end ChironDB.Security
