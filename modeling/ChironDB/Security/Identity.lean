/-
# The identity authority

The state of `security/identity.rs` and the checks that accept it: principals with their grants and
delegation, groups, roles with their members, and the credentials of either kind.  A store that was
bootstrapped has no installation; one that was onboarded names the administrator of its own.
-/

import ChironDB.Security.Resource

namespace ChironDB.Security

open Tables Fault

/-- `MAX_GROUP_DEPTH`. -/
def maxGroupDepth : ℕ := 8

/-- `MAX_GROUP_EXPANSION`. -/
def maxGroupExpansion : ℕ := 4096

structure RoleCollectionGrant where
  collection : String
  incarnation : Uuid
  actions : Finset Action
  deriving DecidableEq

structure RoleTableGrant where
  table : String
  tableId : ℕ
  incarnation : Uuid
  actions : Finset Action
  deriving DecidableEq

structure RoleRecord where
  id : Uuid
  name : String
  tenant : String
  retired : Bool
  grants : List RoleCollectionGrant
  tableGrants : List RoleTableGrant
  installationActions : Finset Action
  deriving DecidableEq

inductive GroupMember
  | principal (id : String)
  | group (id : String)
  deriving DecidableEq

/-- A group; its members come in order. -/
structure GroupRecord where
  id : String
  tenant : String
  members : List GroupMember
  deriving DecidableEq

structure Credential where
  principal : String
  sha256 : List UInt8
  revoked : Bool
  deriving DecidableEq

structure SqlCredential where
  principal : String
  salt : List UInt8
  storedKey : List UInt8
  serverKey : List UInt8
  iterations : ℕ
  revoked : Bool
  deriving DecidableEq

structure Installation where
  id : Uuid
  tenant : String
  adminId : String
  deriving DecidableEq

/-- `IdentityState`; the roles of a member are kept in order. -/
structure IdentityState where
  version : ℕ
  installation : Option Installation
  revision : ℕ
  principals : TreeMap String PrincipalRecord
  groups : TreeMap String GroupRecord
  credentials : TreeMap String Credential
  sqlCredentials : TreeMap String SqlCredential
  scramDecoyKey : Option (List UInt8)
  userNames : TreeMap String String
  retiredUsers : Finset String
  roles : TreeMap Uuid RoleRecord
  memberships : TreeMap String (List Uuid)
  deriving DecidableEq

/-! ## Validation -/

def validScope (grant : ScopeGrant) : Bool :=
  grant.tenants ≠ ∅ && grant.collections ≠ ∅ && grant.actions ≠ ∅ &&
    decide (∀ id ∈ grant.tenants, identifier id = true) &&
    decide (∀ id ∈ grant.collections, (identifier id && !id.toList.contains ':') = true)

def validatePrincipal (principal : PrincipalRecord) : Result Unit := do
  ensure (identifier principal.id && identifier principal.tenant &&
      identifier principal.attributes.department)
    (.invalid "invalid principal identity or attributes")
  ensure (principal.grants.length ≤ maxPolicyGrants &&
    principal.delegation.length ≤ maxPolicyGrants) .budgetExceeded
  ensure (decide (∀ action ∈ principal.installationActions, action.isData = false))
    (.invalid "data access must name exact tenant and collection scopes")
  (principal.grants ++ principal.delegation).forM fun grant =>
    ensure (validScope grant) (.invalid "grants require nonempty exact scopes")

section Groups

variable (groups : TreeMap String GroupRecord) (principals : TreeMap String PrincipalRecord)

/-- The checks on one member, with the height reached so far; `visit` visits a group below. -/
def visitMember (tenant : String)
    (visit : String → TreeMap String ℕ → Result (ℕ × TreeMap String ℕ))
    (state : ℕ × TreeMap String ℕ) : GroupMember → Result (ℕ × TreeMap String ℕ)
  | .principal id => do
    ensure ((principals.get id).any fun principal => principal.tenant = tenant)
      (.invalid "unknown or cross-tenant group member")
    pure state
  | .group id => do
    ensure ((groups.get id).any fun child => child.tenant = tenant)
      (.invalid "unknown or cross-tenant group member")
    let (height, heights) ← visit id state.2
    pure (max state.1 (1 + height), heights)

/-- The visit of a group: `room` is what is left of `MAX_GROUP_DEPTH`, and `heights` are those of
the groups that have been visited. -/
def visitGroup (tenant : String) :
    ℕ → List String → String → TreeMap String ℕ → Result (ℕ × TreeMap String ℕ)
  | 0, _, _, _ => .error .budgetExceeded
  | room + 1, path, id, heights =>
    match heights.get id with
    | some height =>
      if room + 1 < height then .error .budgetExceeded else .ok (height, heights)
    | none => do
      ensure (id ∉ path) (.invalid "group cycle")
      match groups.get id with
      | none => .error (.invalid "unknown group")
      | some group => do
        ensure (group.tenant = tenant && group.id = id && identifier id)
          (.invalid "group identity or tenant mismatch")
        ensure (group.members.length ≤ maxGroupExpansion) .budgetExceeded
        let (height, heights) ← group.members.foldlM (visitMember groups principals tenant
          (visitGroup tenant room (id :: path))) (1, heights)
        pure (height, heights.insert id height)

def validateGroups : Result Unit := do
  let _ ← groups.entries.foldlM (fun heights entry => do
    let (_, heights) ← visitGroup groups principals entry.2.tenant maxGroupDepth [] entry.1 heights
    pure heights) (.empty : TreeMap String ℕ)

end Groups

/-- The checks on one scope of a role, with the scopes met so far. -/
def validateRoleScope (seen : List (String × Uuid)) (grant : RoleCollectionGrant) :
    Result (List (String × Uuid)) := do
  ensure (grant.incarnation ≠ 0 && identifier grant.collection &&
      !grant.collection.toList.contains ':' && grant.actions ≠ ∅ &&
      .identityManage ∉ grant.actions && (grant.collection, grant.incarnation) ∉ seen)
    (.invalid "invalid role collection scope")
  pure ((grant.collection, grant.incarnation) :: seen)

def tableAction : Action → Bool
  | .read | .create | .update | .delete => true
  | _ => false

/-- The checks on one table of a role, with the tables met so far. -/
def validateRoleTable (seen : List (ℕ × Uuid)) (grant : RoleTableGrant) :
    Result (List (ℕ × Uuid)) := do
  ensure (grant.tableId ≠ 0 && grant.incarnation ≠ 0 && grant.table ≠ "" &&
      byteLength grant.table ≤ 128 && grant.actions ≠ ∅ &&
      decide (∀ action ∈ grant.actions, tableAction action = true) &&
      (grant.tableId, grant.incarnation) ∉ seen)
    (.invalid "invalid role table scope")
  pure ((grant.tableId, grant.incarnation) :: seen)

def validateRole (role : RoleRecord) : Result Unit := do
  ensure (role.id ≠ 0 && identifier role.name && identifier role.tenant &&
      role.grants.length + role.tableGrants.length ≤ maxPolicyGrants &&
      decide (∀ action ∈ role.installationActions,
        action.isData = false ∧ action ≠ .identityManage))
    (.invalid "invalid role or nondelegable action")
  let _ ← role.grants.foldlM validateRoleScope []
  let _ ← role.tableGrants.foldlM validateRoleTable []

namespace IdentityState

variable (state : IdentityState)

/-- The loop over the user names, with the users met so far. -/
def checkUserName (live : List String) (entry : String × String) : Result (List String) := do
  ensure (identifier entry.1 && state.principals.containsKey entry.2 &&
      entry.2 ∉ state.retiredUsers && entry.2 ∉ live) (.invalid "invalid user name binding")
  pure (entry.2 :: live)

/-- The loop over the roles, with the names of the live ones met so far. -/
def checkRole (names : List (String × String)) (entry : Uuid × RoleRecord) :
    Result (List (String × String)) := do
  validateRole entry.2
  ensure (!(state.version < 5 && !entry.2.tableGrants.isEmpty))
    (.invalid "table grants require identity format 5")
  ensure (entry.1 = entry.2.id && (entry.2.retired || (entry.2.tenant, entry.2.name) ∉ names))
    (.invalid "invalid role identity")
  pure (if entry.2.retired then names else (entry.2.tenant, entry.2.name) :: names)

/-- One role of a member, with the number of grants counted so far. -/
def checkMemberRole (principal : PrincipalRecord) (count : ℕ) (id : Uuid) : Result ℕ :=
  match state.roles.get id with
  | none => .error .unavailable
  | some role => do
    ensure (!role.retired && role.tenant = principal.tenant)
      (.invalid "cross-domain role membership")
    checkedAdd count (role.grants.length + role.tableGrants.length)

def checkMembership (entry : String × List Uuid) : Result Unit :=
  match state.principals.get entry.1 with
  | none => .error .unavailable
  | some principal => do
    ensure (entry.1 ∉ state.retiredUsers && entry.2.length ≤ maxPolicyGrants)
      (.invalid "invalid role membership")
    let count ← entry.2.foldlM (state.checkMemberRole principal) principal.grants.length
    ensure (count ≤ maxPolicyGrants) .budgetExceeded

def checkLiveUser (live : List String) (entry : String × PrincipalRecord) : Result Unit :=
  ensure ((entry.1 ∈ live || entry.1 ∈ state.retiredUsers) &&
    !(entry.1 ∈ state.retiredUsers && entry.2.enabled)) (.invalid "invalid retired user")

def validateAdministration : Result Unit := do
  let live ← state.userNames.entries.foldlM state.checkUserName []
  state.principals.entries.forM (state.checkLiveUser live)
  ensure (decide (∀ id ∈ state.retiredUsers, state.principals.containsKey id = true))
    (.invalid "unknown retired user")
  let _ ← state.roles.entries.foldlM state.checkRole []
  state.memberships.entries.forM state.checkMembership
  ensure ((state.credentials.values.all fun key =>
        !(key.principal ∈ state.retiredUsers && !key.revoked)) &&
      state.sqlCredentials.values.all fun key =>
        !(key.principal ∈ state.retiredUsers && !key.revoked))
    (.invalid "live credential of retired user")

def checkPrincipal (entry : String × PrincipalRecord) : Result Unit := do
  ensure (entry.1 = entry.2.id) (.invalid "principal key mismatch")
  validatePrincipal entry.2

def validateInstallation (installation : Installation) : Result Unit :=
  ensure (installation.id ≠ 0 && identifier installation.tenant &&
    state.principals.containsKey installation.adminId &&
    state.principals.values.all fun principal => principal.tenant = installation.tenant)
    .unavailable

section Credentials

variable [Encoding]

def checkCredential (entry : String × Credential) : Result Unit :=
  ensure ((Encoding.parseUuid entry.1).isSome && state.principals.containsKey entry.2.principal &&
    entry.2.sha256 ≠ List.replicate 32 0) (.invalid "invalid credential binding")

/-- `SQL_SCRAM_ITERATIONS`. -/
def sqlScramIterations : ℕ := 4096

/-- The loop over the SQL credentials, with the users of the active ones met so far. -/
def checkSqlCredential (active : List String) (entry : String × SqlCredential) :
    Result (List String) := do
  ensure ((Encoding.parseUuid entry.1).isSome && !state.credentials.containsKey entry.1 &&
      state.principals.containsKey entry.2.principal &&
      entry.2.iterations = sqlScramIterations && entry.2.storedKey ≠ List.replicate 32 0 &&
      entry.2.serverKey ≠ List.replicate 32 0 &&
      (entry.2.revoked || entry.2.principal ∉ active))
    (.invalid "invalid SQL credential binding")
  pure (if entry.2.revoked then active else entry.2.principal :: active)

def validate : Result Unit := do
  ensure ([2, 3, 4, 5, 6].contains state.version && state.revision ≠ 0 &&
      decide (3 ≤ state.version) = state.installation.isSome &&
      !(state.version < 4 && !state.sqlCredentials.entries.isEmpty) &&
      !(4 ≤ state.version && state.scramDecoyKey.isNone) &&
      !(state.version < 4 && state.scramDecoyKey.isSome))
    (.invalid "unsupported identity format or revision")
  state.installation.toList.forM state.validateInstallation
  state.principals.entries.forM checkPrincipal
  validateGroups state.groups state.principals
  state.validateAdministration
  state.credentials.entries.forM state.checkCredential
  let _ ← state.sqlCredentials.entries.foldlM state.checkSqlCredential []

end Credentials

end IdentityState

end ChironDB.Security
