/-
# Identity administration

The operations of `security/identity.rs` and `security/identity/administration.rs` that give
authority to a principal or to a role, or that mint a credential.

**What an operation may give.**  Authority is counted here in single permissions: an action on a
collection of a tenant, an installation action, an action on a table.  Whatever an operation adds
to what a principal has of its own or through its roles lies within the ceiling of its actor, and
a credential is minted for the actor or for a principal that lies within that ceiling as a whole.

`may_delegate_identity` refuses to hand on `IdentityManage` when the actor is the administrator of
the installation, and roles never hold it, but `may_delegate` hands on any action that the actor's
delegation lists.
-/

import ChironDB.Security.Identity

namespace ChironDB.Security

open Tables Fault List

/-- `AuthenticatedIdentity`, as far as the administration reads it. -/
structure AuthenticatedIdentity where
  principal : PrincipalRecord
  installationAdmin : Bool
  /-- Whether its epoch has been closed. -/
  cancelled : Bool
  /-- Whether its epoch is the one of the current state. -/
  current : Bool

namespace AuthenticatedIdentity

variable (actor : AuthenticatedIdentity)

def allowsInstallation (action : Action) : Bool :=
  !actor.cancelled && actor.principal.enabled &&
    decide (action ∈ actor.principal.installationActions)

def isInstallationAdmin : Bool :=
  actor.installationAdmin && actor.allowsInstallation .identityManage

end AuthenticatedIdentity

/-! ## Ceilings -/

/-- Whether a scope covers a permission. -/
def ScopeGrant.covers (grant : ScopeGrant) (tenant collection : String) (action : Action) : Bool :=
  tenant ∈ grant.tenants && collection ∈ grant.collections && action ∈ grant.actions

def mayDelegate (actor : PrincipalRecord) (grants : List ScopeGrant) : Bool :=
  grants.all fun grant => decide (∀ tenant ∈ grant.tenants, ∀ collection ∈ grant.collections,
    ∀ action ∈ grant.actions,
      (actor.delegation.any fun ceiling => ceiling.covers tenant collection action) = true)

def mayDelegateIdentity (actor : AuthenticatedIdentity) (grants : List ScopeGrant) : Bool :=
  if actor.isInstallationAdmin then
    grants.all fun grant => decide (∀ tenant ∈ grant.tenants, tenant = actor.principal.tenant) &&
      decide (Action.identityManage ∉ grant.actions)
  else mayDelegate actor.principal grants

def mayManagePrincipal (actor : AuthenticatedIdentity) (target : PrincipalRecord) : Result Unit :=
  ensure (target.attributes.clearance ≤ actor.principal.attributes.clearance &&
    (target.tenant = actor.principal.tenant ||
      actor.principal.delegation.any fun scope => target.tenant ∈ scope.tenants) &&
    mayDelegateIdentity actor target.grants && mayDelegateIdentity actor target.delegation &&
    decide (target.installationActions ⊆ actor.principal.installationActions)) .forbidden

/-- The scopes of a role. -/
def RoleRecord.scopes (role : RoleRecord) : List ScopeGrant :=
  role.grants.map fun grant => ⟨{role.tenant}, {grant.collection}, grant.actions⟩

def mayManageRole (actor : AuthenticatedIdentity) (role : RoleRecord) : Result Unit := do
  ensure (role.tenant = actor.principal.tenant &&
    decide (role.installationActions ⊆ actor.principal.installationActions)) .forbidden
  ensure (role.tableGrants.isEmpty || actor.isInstallationAdmin) .forbidden
  ensure (mayDelegateIdentity actor role.scopes) .forbidden

namespace IdentityState

variable (state : IdentityState)

/-- `user_name`. -/
def userName (id : String) : Result String :=
  (state.userNames.entries.find? fun entry => entry.2 = id).elim (.error .notFound)
    fun entry => .ok entry.1

def user (name : String) : Result PrincipalRecord :=
  ((state.userNames.get name).bind state.principals.get).elim (.error .notFound) .ok

def role (name : String) : Result RoleRecord :=
  (state.roles.values.find? fun role => !role.retired && role.name = name).elim
    (.error .notFound) .ok

/-- The role of an identifier, checked. -/
def mayManageRoleOf (actor : AuthenticatedIdentity) (id : Uuid) : Result Unit :=
  match state.roles.get id with
  | none => .error .unavailable
  | some role => mayManageRole actor role

def rolesOf (id : String) : List Uuid := (state.memberships.get id).getD []

def mayManageUser (actor : AuthenticatedIdentity) (user : PrincipalRecord) : Result Unit := do
  mayManagePrincipal actor user
  (state.rolesOf user.id).forM (state.mayManageRoleOf actor)

/-! ## Operations -/

/-- `put_principal`, the edit. -/
def putPrincipal (actor : AuthenticatedIdentity) (principal : PrincipalRecord) :
    Result IdentityState := do
  ensure (principal.id ∉ state.retiredUsers) .forbidden
  match state.principals.get principal.id with
  | some previous => do
    state.mayManageUser actor previous
    ensure (previous.tenant = principal.tenant) (.invalid "principal tenant is immutable")
    pure { state with principals := state.principals.insert principal.id principal }
  | none => do
    ensure (!state.userNames.containsKey principal.id) .conflict
    pure { state with
      userNames := state.userNames.insert principal.id principal.id
      principals := state.principals.insert principal.id principal }

/-- `create_user`, the edit. -/
def createUser (name : String) (user : PrincipalRecord) : Result IdentityState := do
  ensure (!state.userNames.containsKey name && !state.principals.containsKey user.id) .conflict
  pure { state with
    userNames := state.userNames.insert name user.id
    principals := state.principals.insert user.id user }

end IdentityState

structure UserChanges where
  enabled : Option Bool
  department : Option String
  clearance : Option Classification

def UserChanges.apply (changes : UserChanges) (user : PrincipalRecord) : PrincipalRecord :=
  { user with
    enabled := changes.enabled.getD user.enabled
    attributes :=
      ⟨changes.department.getD user.attributes.department,
        changes.clearance.getD user.attributes.clearance⟩ }

structure RolePrivilegeChanges where
  collection : Option (String × Uuid)
  actions : Finset Action
  grant : Bool

/-- A scope of a role with actions added or removed. -/
def RolePrivilegeChanges.applyScope (changes : RolePrivilegeChanges)
    (scope : RoleCollectionGrant) : RoleCollectionGrant :=
  { scope with
    actions :=
      if changes.grant then scope.actions ∪ changes.actions else scope.actions \ changes.actions }

/-- The first scope of the collection is changed, or a new one is added. -/
def RolePrivilegeChanges.applyScopes (changes : RolePrivilegeChanges) (collection : String)
    (incarnation : Uuid) : List RoleCollectionGrant → List RoleCollectionGrant
  | [] => if changes.grant then [⟨collection, incarnation, changes.actions⟩] else []
  | scope :: rest =>
    if scope.collection = collection ∧ scope.incarnation = incarnation then
      changes.applyScope scope :: rest
    else scope :: changes.applyScopes collection incarnation rest

def RolePrivilegeChanges.apply (changes : RolePrivilegeChanges) (role : RoleRecord) : RoleRecord :=
  match changes.collection with
  | some (collection, incarnation) =>
    { role with
      grants := (changes.applyScopes collection incarnation role.grants).filter fun scope =>
        decide (scope.actions ≠ ∅) }
  | none =>
    { role with
      installationActions :=
        if changes.grant then role.installationActions ∪ changes.actions
        else role.installationActions \ changes.actions }

namespace IdentityState

variable (state : IdentityState)

/-- `alter_user`, the edit. -/
def alterUser (actor : AuthenticatedIdentity) (name : String) (changes : UserChanges) :
    Result IdentityState := do
  let user ← state.user name
  state.mayManageUser actor user
  state.mayManageUser actor (changes.apply user)
  pure { state with
    principals := state.principals.insert (changes.apply user).id (changes.apply user) }

/-- `assign_role`, the edit. -/
def assignRole (actor : AuthenticatedIdentity) (role user : String) (grant : Bool) :
    Result IdentityState := do
  let role ← state.role role
  let user ← state.user user
  mayManageRole actor role
  state.mayManageUser actor user
  ensure (role.tenant = user.tenant) .forbidden
  let roles := if grant then sortedKeys (role.id :: state.rolesOf user.id)
    else (state.rolesOf user.id).filter fun id => id ≠ role.id
  pure { state with memberships := state.memberships.insert user.id roles }

/-- A member of the changed role must still be manageable. -/
def checkMember (actor : AuthenticatedIdentity) (role : Uuid) (entry : String × List Uuid) :
    Result Unit :=
  if role ∈ entry.2 then
    match state.principals.get entry.1 with
    | none => .error .unavailable
    | some principal => state.mayManageUser actor principal
  else .ok ()

/-- `change_role_privileges`, the edit. -/
def changeRolePrivileges (actor : AuthenticatedIdentity) (name : String)
    (changes : RolePrivilegeChanges) : Result IdentityState := do
  let role ← state.role name
  mayManageRole actor role
  validateRole (changes.apply role)
  mayManageRole actor (changes.apply role)
  let next := { state with roles := state.roles.insert role.id (changes.apply role) }
  next.memberships.entries.forM (next.checkMember actor role.id)
  pure next

/-- The actor may always mint for itself. -/
def mayMintFor (actor : AuthenticatedIdentity) (target : PrincipalRecord) : Result Unit :=
  if target.id ≠ actor.principal.id then state.mayManageUser actor target else .ok ()

/-- A principal for whom the actor may mint a credential. -/
def credentialTarget (actor : AuthenticatedIdentity) (principal : String) :
    Result PrincipalRecord :=
  match state.principals.get principal with
  | none => .error .notFound
  | some target => do
    state.mayMintFor actor target
    ensure target.enabled .forbidden
    pure target

/-- `issue_credential`, the edit. -/
def issueCredential (actor : AuthenticatedIdentity) (principal id : String)
    (sha256 : List UInt8) : Result IdentityState := do
  let _ ← state.credentialTarget actor principal
  pure { state with credentials := state.credentials.insert id ⟨principal, sha256, false⟩ }

/-- What `new_sql_credential` derives from the random password and salt. -/
structure ScramKeys where
  salt : List UInt8
  storedKey : List UInt8
  serverKey : List UInt8

/-- `issue_sql_credential`, the edit; `decoy` is the key that is drawn when there is none. -/
def issueSqlCredential (actor : AuthenticatedIdentity) (principal id : String)
    (keys : ScramKeys) (decoy : List UInt8) : Result IdentityState := do
  ensure state.installation.isSome .forbidden
  let _ ← state.credentialTarget actor principal
  let _ ← state.userName principal
  pure { state with
    sqlCredentials := (state.sqlCredentials.mapValues fun previous =>
      if previous.principal = principal then { previous with revoked := true } else previous).insert
        id ⟨principal, keys.salt, keys.storedKey, keys.serverKey, sqlScramIterations, false⟩
    scramDecoyKey := some (state.scramDecoyKey.getD decoy)
    version := max state.version 4 }

/-- `rotate_credential`, the edit. -/
def rotateCredential (actor : AuthenticatedIdentity) (credential id : String)
    (sha256 : List UInt8) : Result IdentityState := do
  let previous ← ((state.credentials.get credential).filter fun previous =>
    !previous.revoked).elim (.error .notFound) .ok
  let target ← state.credentialTarget actor previous.principal
  pure { state with
    credentials := (state.credentials.insert credential { previous with revoked := true }).insert
      id ⟨target.id, sha256, false⟩ }

end IdentityState

/-- An operation with its inputs and the identifiers and secrets it draws. -/
inductive Command
  | putPrincipal (principal : PrincipalRecord)
  | createUser (id name : String) (attributes : SubjectAttributes)
  | alterUser (name : String) (changes : UserChanges)
  | assignRole (role user : String) (grant : Bool)
  | changeRolePrivileges (name : String) (changes : RolePrivilegeChanges)
  | issueCredential (principal id : String) (sha256 : List UInt8)
  | issueSqlCredential (principal id : String) (keys : IdentityState.ScramKeys) (decoy : List UInt8)
  | rotateCredential (credential id : String) (sha256 : List UInt8)

section Change

variable [Encoding]

/-- `change`: the outcome is that of the audit, the drain and the disk. -/
def IdentityState.change (state : IdentityState) (actor : AuthenticatedIdentity) (expected : ℕ)
    (outcome : Result Unit) (edit : IdentityState → Result IdentityState) :
    Result IdentityState := do
  ensure (actor.allowsInstallation .identityManage) .forbidden
  ensure (expected = state.revision && actor.current) .conflict
  let edited ← edit state
  let revision ← successor edited.revision
  let next := { edited with revision }
  next.validate
  outcome
  pure next

/-- The new user of `create_user`. -/
def newUser (actor : AuthenticatedIdentity) (id : String) (attributes : SubjectAttributes) :
    PrincipalRecord :=
  ⟨id, actor.principal.tenant, true, attributes, [], ∅, []⟩

/-- An operation on the authority. -/
def IdentityState.execute (state : IdentityState) (actor : AuthenticatedIdentity) (expected : ℕ)
    (outcome : Result Unit) : Command → Result IdentityState
  | .putPrincipal principal => do
    ensure (state.installation.all fun i => principal.tenant = i.tenant) .forbidden
    mayManagePrincipal actor principal
    ensure (!(principal.id ≠ actor.principal.id &&
      Action.identityManage ∈ principal.installationActions)) .forbidden
    state.change actor expected outcome fun state => state.putPrincipal actor principal
  | .createUser id name attributes => do
    ensure (identifier name) (.invalid "invalid user name")
    mayManagePrincipal actor (newUser actor id attributes)
    state.change actor expected outcome fun state =>
      state.createUser name (newUser actor id attributes)
  | .alterUser name changes =>
    state.change actor expected outcome fun state => state.alterUser actor name changes
  | .assignRole role user grant =>
    state.change actor expected outcome fun state => state.assignRole actor role user grant
  | .changeRolePrivileges name changes => do
    ensure (changes.actions ≠ ∅ && Action.identityManage ∉ changes.actions) .forbidden
    state.change actor expected outcome fun state =>
      state.changeRolePrivileges actor name changes
  | .issueCredential principal id sha256 =>
    state.change actor expected outcome fun state =>
      state.issueCredential actor principal id sha256
  | .issueSqlCredential principal id keys decoy =>
    state.change actor expected outcome fun state =>
      state.issueSqlCredential actor principal id keys decoy
  | .rotateCredential credential id sha256 =>
    state.change actor expected outcome fun state =>
      state.rotateCredential actor credential id sha256

end Change

/-! ## Permissions -/

/-- Some scope covers a permission. -/
def Reaches (grants : List ScopeGrant) (tenant collection : String) (action : Action) : Prop :=
  ∃ grant ∈ grants, grant.covers tenant collection action = true

/-- A single permission, with the channel through which it is held. -/
inductive Permission
  | own (tenant collection : String) (action : Action)
  | delegation (tenant collection : String) (action : Action)
  | installation (action : Action)
  | role (tenant collection : String) (incarnation : Uuid) (action : Action)
  | roleTable (tableId : ℕ) (incarnation : Uuid) (action : Action)
  | roleInstallation (action : Action)

def Permission.action : Permission → Action
  | .own _ _ action | .delegation _ _ action | .installation action | .role _ _ _ action
  | .roleTable _ _ action | .roleInstallation action => action

/-- What a role gives to its members. -/
def RoleRecord.Gives (role : RoleRecord) : Permission → Prop
  | .role tenant collection incarnation action => role.tenant = tenant ∧
      ∃ grant ∈ role.grants, grant.collection = collection ∧ grant.incarnation = incarnation ∧
        action ∈ grant.actions
  | .roleTable tableId incarnation action => ∃ grant ∈ role.tableGrants,
      grant.tableId = tableId ∧ grant.incarnation = incarnation ∧ action ∈ grant.actions
  | .roleInstallation action => action ∈ role.installationActions
  | .own .. | .delegation .. | .installation .. => False

/-- What a principal has of its own. -/
def PrincipalRecord.Has (principal : PrincipalRecord) : Permission → Prop
  | .own tenant collection action => Reaches principal.grants tenant collection action
  | .delegation tenant collection action => Reaches principal.delegation tenant collection action
  | .installation action => action ∈ principal.installationActions
  | .role .. | .roleTable .. | .roleInstallation .. => False

/-- What the principal of an identifier holds, of its own or through a role. -/
def IdentityState.Holds (state : IdentityState) (id : String) (permission : Permission) : Prop :=
  (∃ principal, state.principals.get id = some principal ∧ principal.Has permission) ∨
    ∃ roleId ∈ state.rolesOf id, ∃ role, state.roles.get roleId = some role ∧ role.Gives permission

/-- **The ceiling of an actor:** scopes that it may delegate, and its own installation actions.
Tables are left to the administrator of the installation. -/
def Within (actor : AuthenticatedIdentity) : Permission → Prop
  | .own tenant collection action | .delegation tenant collection action
  | .role tenant collection _ action =>
    mayDelegateIdentity actor [⟨{tenant}, {collection}, {action}⟩] = true
  | .installation action | .roleInstallation action =>
    action ∈ actor.principal.installationActions
  | .roleTable .. => actor.isInstallationAdmin = true

/-- The whole authority of a principal lies within the ceiling of an actor. -/
def IdentityState.WhollyWithin (state : IdentityState) (actor : AuthenticatedIdentity)
    (id : String) : Prop :=
  (∀ permission, state.Holds id permission → Within actor permission) ∧
    ∃ principal, state.principals.get id = some principal ∧
      principal.attributes.clearance ≤ actor.principal.attributes.clearance

/-- A credential that may be minted. -/
def IdentityState.Mintable (state : IdentityState) (actor : AuthenticatedIdentity)
    (id : String) : Prop :=
  id = actor.principal.id ∨ state.WhollyWithin actor id

/-- **No escalation in one operation.** -/
structure NoEscalation (actor : AuthenticatedIdentity) (before after : IdentityState) : Prop where
  /-- What a principal gains lies within the ceiling of the actor. -/
  growth : ∀ id permission, after.Holds id permission →
    before.Holds id permission ∨ Within actor permission
  /-- So does the clearance that it gains. -/
  clearance : ∀ id principal, after.principals.get id = some principal →
    (∃ previous, before.principals.get id = some previous ∧
        principal.attributes.clearance ≤ previous.attributes.clearance) ∨
      principal.attributes.clearance ≤ actor.principal.attributes.clearance
  /-- A new credential is the actor's own or that of a principal within the ceiling. -/
  credentials : ∀ id credential, after.credentials.get id = some credential →
    credential.revoked = false →
      before.credentials.get id = some credential ∨ before.Mintable actor credential.principal
  sqlCredentials : ∀ id credential, after.sqlCredentials.get id = some credential →
    credential.revoked = false →
      before.sqlCredentials.get id = some credential ∨ before.Mintable actor credential.principal
  /-- `IdentityManage` is given to no other principal. -/
  identityManage : ∀ id permission, id ≠ actor.principal.id →
    permission.action = .identityManage → after.Holds id permission → before.Holds id permission
  /-- No role gives it. -/
  roles : ∀ id role permission, after.roles.get id = some role →
    permission.action = .identityManage → ¬ role.Gives permission

/-! ## Ceilings cover what they are checked against -/

variable {target principal : PrincipalRecord} {permission : Permission} {role : RoleRecord}
  {id : String} {actor : AuthenticatedIdentity}

section Ceilings

theorem delegable_of_reaches {grants : List ScopeGrant} {tenant collection : String}
    {action : Action} (h : mayDelegateIdentity actor grants = true)
    (hreach : Reaches grants tenant collection action) :
    mayDelegateIdentity actor [⟨{tenant}, {collection}, {action}⟩] = true := by
  obtain ⟨grant, hgrant, hcovers⟩ := hreach
  simp only [ScopeGrant.covers, Bool.and_eq_true, decide_eq_true_eq] at hcovers
  obtain ⟨⟨htenant, hcollection⟩, haction⟩ := hcovers
  rw [mayDelegateIdentity] at h ⊢
  split
  · next hadmin =>
    rw [if_pos hadmin, all_eq_true] at h
    have hgrant := h grant hgrant
    simp only [Bool.and_eq_true, decide_eq_true_eq] at hgrant
    simp only [all_cons, all_nil, Bool.and_true, Bool.and_eq_true, decide_eq_true_eq,
      Finset.mem_singleton, forall_eq]
    exact ⟨hgrant.1 tenant htenant, fun heq => hgrant.2 (heq ▸ haction)⟩
  · next hadmin =>
    rw [if_neg hadmin, mayDelegate, all_eq_true] at h
    have hgrant := of_decide_eq_true (h grant hgrant)
    rw [mayDelegate, all_cons, all_nil, Bool.and_true, decide_eq_true_eq]
    simp only [Finset.mem_singleton, forall_eq]
    exact hgrant tenant htenant collection hcollection action haction

theorem mayManagePrincipal_eq_ok (h : mayManagePrincipal actor target = .ok ()) :
    target.attributes.clearance ≤ actor.principal.attributes.clearance ∧
      mayDelegateIdentity actor target.grants = true ∧
      mayDelegateIdentity actor target.delegation = true ∧
      target.installationActions ⊆ actor.principal.installationActions := by
  simp only [mayManagePrincipal, ensure_eq_ok, Bool.and_eq_true, decide_eq_true_eq] at h
  exact ⟨h.1.1.1.1, h.1.1.2, h.1.2, h.2⟩

theorem within_of_has
    (h : mayManagePrincipal actor target = .ok ()) (hhas : target.Has permission) :
    Within actor permission := by
  obtain ⟨-, hgrants, hdelegation, hactions⟩ := mayManagePrincipal_eq_ok h
  cases permission with
  | own => exact delegable_of_reaches hgrants hhas
  | delegation => exact delegable_of_reaches hdelegation hhas
  | installation => exact hactions hhas
  | role | roleTable | roleInstallation => exact absurd hhas id

theorem within_of_gives (h : mayManageRole actor role = .ok ()) (hgives : role.Gives permission) :
    Within actor permission := by
  simp only [mayManageRole, seq_eq_ok, ensure_eq_ok, Bool.and_eq_true, decide_eq_true_eq,
    Bool.or_eq_true, List.isEmpty_iff] at h
  obtain ⟨⟨-, hactions⟩, htables, hscopes⟩ := h
  cases permission with
  | own | delegation | installation => exact absurd hgives id
  | role tenant collection incarnation action =>
    obtain ⟨rfl, grant, hgrant, rfl, -, haction⟩ := hgives
    refine delegable_of_reaches hscopes ⟨_, mem_map_of_mem hgrant, ?_⟩
    simp [ScopeGrant.covers, haction]
  | roleTable =>
    obtain ⟨grant, hgrant, -⟩ := hgives
    rcases htables with hnone | hadmin
    · rw [hnone] at hgrant
      exact absurd hgrant List.not_mem_nil
    · exact hadmin
  | roleInstallation => exact hactions hgives

theorem wholly_within {state : IdentityState} (h : state.mayManageUser actor target = .ok ())
    (htarget : state.principals.get target.id = some target) :
    state.WhollyWithin actor target.id := by
  simp only [IdentityState.mayManageUser, seq_eq_ok, forM_eq_ok] at h
  obtain ⟨hprincipal, hroles⟩ := h
  refine ⟨fun permission hholds => ?_, target, htarget, (mayManagePrincipal_eq_ok hprincipal).1⟩
  rcases hholds with ⟨principal, hget, hhas⟩ | ⟨roleId, hmember, role, hrole, hgives⟩
  · cases htarget.symm.trans hget
    exact within_of_has hprincipal hhas
  · have hmanage := hroles roleId hmember
    rw [IdentityState.mayManageRoleOf, hrole] at hmanage
    exact within_of_gives hmanage hgives

/-- **An actor that cannot hand on `IdentityManage`:** the administrator of the installation, or
one whose delegation does not list it. -/
def Barred (actor : AuthenticatedIdentity) : Prop :=
  actor.isInstallationAdmin = true ∨
    ∀ ceiling ∈ actor.principal.delegation, Action.identityManage ∉ ceiling.actions

theorem Barred.not_delegable (h : Barred actor) {tenant collection : String} :
    mayDelegateIdentity actor [⟨{tenant}, {collection}, {.identityManage}⟩] = false := by
  rw [mayDelegateIdentity]
  split
  · simp
  · next hadmin =>
    have hnone := h.resolve_left hadmin
    rw [mayDelegate, all_cons, all_nil, Bool.and_true, decide_eq_false_iff_not]
    simp only [Finset.mem_singleton, forall_eq, any_eq_true, not_exists, not_and]
    intro ceiling hceiling hcovers
    simp only [ScopeGrant.covers, Bool.and_eq_true, decide_eq_true_eq] at hcovers
    exact hnone ceiling hceiling hcovers.2

end Ceilings

/-! ## Valid states -/

section Valid

variable [Encoding] {state : IdentityState}

theorem IdentityState.own_id (h : state.validate = .ok ())
    (hget : state.principals.get id = some principal) :
    principal.id = id := by
  simp only [validate, seq_eq_ok, forM_eq_ok] at h
  have hcheck := h.2.2.1 (id, principal) (TreeMap.get_eq_some_iff.mp hget)
  simp only [checkPrincipal, seq_eq_ok, ensure_eq_ok, decide_eq_true_eq] at hcheck
  exact hcheck.1.symm

theorem IdentityState.role_valid (h : state.validate = .ok ()) {id : Uuid}
    (hget : state.roles.get id = some role) : role.id = id ∧ validateRole role = .ok () := by
  simp only [validate, seq_eq_ok] at h
  have hadmin := h.2.2.2.2.1
  simp only [validateAdministration, eq_ok] at hadmin
  obtain ⟨-, -, -, -, names, hroles, -⟩ := hadmin
  have hcheck := foldlM_forall (p := fun entry : Uuid × RoleRecord =>
      entry.2.id = entry.1 ∧ validateRole entry.2 = .ok ()) (fun names entry names' hentry => by
    simp only [checkRole, eq_ok] at hentry
    exact ⟨hentry.2.2.1.1.symm, hentry.1⟩) hroles
  exact hcheck (id, role) (TreeMap.get_eq_some_iff.mp hget)

omit [Encoding] in
theorem not_gives_of_validateRole (h : validateRole role = .ok ())
    (haction : permission.action = .identityManage) :
    ¬ role.Gives permission := by
  simp only [validateRole, eq_ok] at h
  obtain ⟨⟨-, hinstallation⟩, scopes, hscopes, tables, htables, -⟩ := h
  intro hgives
  cases permission with
  | own | delegation | installation => exact hgives
  | role tenant collection incarnation action =>
    cases haction
    obtain ⟨-, grant, hgrant, -, -, hmem⟩ := hgives
    have hcheck := foldlM_forall (p := fun grant : RoleCollectionGrant =>
        Action.identityManage ∉ grant.actions) (fun seen grant seen' hstep => by
      simp only [validateRoleScope, eq_ok] at hstep
      exact hstep.1.1.2) hscopes
    exact hcheck grant hgrant hmem
  | roleTable tableId incarnation action =>
    cases haction
    obtain ⟨grant, hgrant, -, -, hmem⟩ := hgives
    have hcheck := foldlM_forall (p := fun grant : RoleTableGrant =>
        ∀ action ∈ grant.actions, tableAction action = true) (fun seen grant seen' hstep => by
      simp only [validateRoleTable, eq_ok] at hstep
      exact hstep.1.1.2) htables
    exact absurd (hcheck grant hgrant _ hmem) (by decide)
  | roleInstallation action =>
    cases haction
    exact (hinstallation _ hgives).2 rfl

theorem IdentityState.change_eq_ok {actor : AuthenticatedIdentity} {expected : ℕ}
    {outcome : Result Unit} {edit : IdentityState → Result IdentityState} {after : IdentityState}
    (h : state.change actor expected outcome edit = .ok after) :
    ∃ edited revision, edit state = .ok edited ∧ after = { edited with revision } ∧
      after.validate = .ok () := by
  simp only [change, eq_ok] at h
  obtain ⟨-, -, edited, hedit, revision, -, hvalid, -, rfl⟩ := h
  exact ⟨edited, revision, hedit, rfl, hvalid⟩

end Valid

/-! ## What an operation does -/

/-- **The effects of an operation** on the parts of the state that carry authority: what is there
afterwards was there, or the actor may manage it. -/
structure Administered (actor : AuthenticatedIdentity) (before after : IdentityState) : Prop where
  principals : ∀ id principal, after.principals.get id = some principal →
    before.principals.get id = some principal ∨ mayManagePrincipal actor principal = .ok () ∧
        (id = actor.principal.id ∨ .identityManage ∉ principal.installationActions ∨
          ∃ old, before.principals.get id = some old ∧
            old.installationActions = principal.installationActions)
  roles : ∀ id role, after.roles.get id = some role →
    before.roles.get id = some role ∨ mayManageRole actor role = .ok ()
  memberships : ∀ member, ∀ id ∈ after.rolesOf member, id ∈ before.rolesOf member ∨
    ∃ role, before.roles.get id = some role ∧ mayManageRole actor role = .ok ()
  credentials : ∀ id credential, after.credentials.get id = some credential →
    credential.revoked = false → before.credentials.get id = some credential ∨
      before.Mintable actor credential.principal
  sqlCredentials : ∀ id credential, after.sqlCredentials.get id = some credential →
    credential.revoked = false → before.sqlCredentials.get id = some credential ∨
      before.Mintable actor credential.principal

section Steps

variable {state after : IdentityState}

theorem Administered.refl (actor : AuthenticatedIdentity) (state : IdentityState) :
    Administered actor state state :=
  ⟨fun _ _ => .inl, fun _ _ => .inl, fun _ _ => .inl, fun _ _ h _ => .inl h, fun _ _ h _ => .inl h⟩

theorem Administered.put (hmanage : mayManagePrincipal actor principal = .ok ())
    (huntrusted : principal.id = actor.principal.id ∨
      .identityManage ∉ principal.installationActions ∨
        ∃ old, state.principals.get principal.id = some old ∧
          old.installationActions = principal.installationActions)
    (hprincipals : after.principals = state.principals.insert principal.id principal)
    (hrest : Administered actor state { after with principals := state.principals }) :
    Administered actor state after := by
  refine { hrest with principals := fun id found hget => ?_ }
  rcases TreeMap.of_get_insert (hprincipals ▸ hget) with ⟨rfl, rfl⟩ | ⟨-, hget⟩
  · exact .inr ⟨hmanage, huntrusted⟩
  · exact .inl hget

theorem putPrincipal_administered (hmanage : mayManagePrincipal actor principal = .ok ())
    (huntrusted : principal.id = actor.principal.id ∨
      .identityManage ∉ principal.installationActions)
    (h : state.putPrincipal actor principal = .ok after) : Administered actor state after := by
  simp only [IdentityState.putPrincipal, eq_ok] at h
  obtain ⟨-, h⟩ := h
  have huntrusted := huntrusted.imp_right (Or.inl (b := ∃ old,
    state.principals.get principal.id = some old ∧
      old.installationActions = principal.installationActions))
  split at h
  · simp only [eq_ok] at h
    obtain ⟨-, -, rfl⟩ := h
    exact .put hmanage huntrusted rfl { Administered.refl actor state with }
  · simp only [eq_ok] at h
    obtain ⟨-, rfl⟩ := h
    exact .put hmanage huntrusted rfl { Administered.refl actor state with }

variable {name : String}

theorem createUser_administered {user : PrincipalRecord}
    (hmanage : mayManagePrincipal actor user = .ok ()) (hempty : user.installationActions = ∅)
    (h : state.createUser name user = .ok after) : Administered actor state after := by
  simp only [IdentityState.createUser, eq_ok] at h
  obtain ⟨-, rfl⟩ := h
  refine .put hmanage (.inr (.inl ?_)) rfl { Administered.refl actor state with }
  rw [hempty]
  exact Finset.notMem_empty _

theorem changeRolePrivileges_administered {changes : RolePrivilegeChanges}
    (h : state.changeRolePrivileges actor name changes = .ok after) :
    Administered actor state after := by
  simp only [IdentityState.changeRolePrivileges, eq_ok] at h
  obtain ⟨role, -, -, -, hmanage, -, rfl⟩ := h
  refine { Administered.refl actor state with roles := fun id found hget => ?_ }
  rcases TreeMap.of_get_insert hget with ⟨-, rfl⟩ | ⟨-, hget⟩
  · exact .inr hmanage
  · exact .inl hget

variable [Encoding]

section

variable (hvalid : state.validate = .ok ())
include hvalid

theorem IdentityState.user_eq_ok {user : PrincipalRecord} (h : state.user name = .ok user) :
    state.principals.get user.id = some user := by
  rw [IdentityState.user] at h
  cases hget : (state.userNames.get name).bind state.principals.get with
  | none => rw [hget] at h; cases h
  | some found =>
    rw [hget] at h
    cases h
    obtain ⟨id, -, hget⟩ := Option.bind_eq_some_iff.mp hget
    rw [state.own_id hvalid hget]
    exact hget

theorem IdentityState.role_eq_ok (h : state.role name = .ok role) :
    state.roles.get role.id = some role := by
  rw [IdentityState.role] at h
  cases hfind : state.roles.values.find? fun role => !role.retired && role.name = name with
  | none => rw [hfind] at h; cases h
  | some found =>
    rw [hfind] at h
    cases h
    obtain ⟨⟨id, role⟩, hentry, rfl⟩ := mem_map.mp (mem_of_find?_eq_some hfind)
    have hget := TreeMap.get_eq_some_iff.mpr hentry
    rw [(state.role_valid hvalid hget).1]
    exact hget

theorem IdentityState.credentialTarget_eq_ok {principal : String}
    (h : state.credentialTarget actor principal = .ok target) :
    target.id = principal ∧ state.Mintable actor principal := by
  rw [IdentityState.credentialTarget] at h
  cases hget : state.principals.get principal with
  | none => rw [hget] at h; cases h
  | some found =>
    simp only [hget, eq_ok] at h
    obtain ⟨hmint, -, rfl⟩ := h
    have hid := state.own_id hvalid hget
    refine ⟨hid, ?_⟩
    rw [IdentityState.mayMintFor] at hmint
    split at hmint
    · rw [← hid] at hget ⊢
      exact .inr (wholly_within hmint hget)
    · next hself => exact .inl (hid.symm.trans (not_not.mp hself))

theorem alterUser_administered {changes : UserChanges}
    (h : state.alterUser actor name changes = .ok after) : Administered actor state after := by
  simp only [IdentityState.alterUser, eq_ok] at h
  obtain ⟨user, huser, -, hmanage, rfl⟩ := h
  simp only [IdentityState.mayManageUser, seq_eq_ok] at hmanage
  exact .put hmanage.1 (.inr (.inr ⟨user, state.user_eq_ok hvalid huser, rfl⟩)) rfl
    { Administered.refl actor state with }

theorem assignRole_administered {roleName userName : String} {grant : Bool}
    (h : state.assignRole actor roleName userName grant = .ok after) :
    Administered actor state after := by
  simp only [IdentityState.assignRole, eq_ok] at h
  obtain ⟨role, hrole, user, -, hmanage, -, -, rfl⟩ := h
  refine { Administered.refl actor state with memberships := fun member id hid => ?_ }
  rw [IdentityState.rolesOf, TreeMap.get_insert] at hid
  split at hid
  swap
  · exact .inl hid
  next heq =>
  subst heq
  cases grant with
  | true =>
    rcases mem_cons.mp (mem_sortedKeys.mp hid) with rfl | hold
    · exact .inr ⟨role, state.role_eq_ok hvalid hrole, hmanage⟩
    · exact .inl hold
  | false => exact .inl (mem_of_mem_filter hid)

theorem issueCredential_administered {principal : String} {sha256 : List UInt8}
    (h : state.issueCredential actor principal id sha256 = .ok after) :
    Administered actor state after := by
  simp only [IdentityState.issueCredential, eq_ok] at h
  obtain ⟨target, htarget, rfl⟩ := h
  refine { Administered.refl actor state with credentials := fun key credential hget _ => ?_ }
  rcases TreeMap.of_get_insert hget with ⟨-, rfl⟩ | ⟨-, hget⟩
  · exact .inr (state.credentialTarget_eq_ok hvalid htarget).2
  · exact .inl hget

theorem issueSqlCredential_administered {principal : String} {keys : IdentityState.ScramKeys}
    {decoy : List UInt8} (h : state.issueSqlCredential actor principal id keys decoy = .ok after) :
    Administered actor state after := by
  simp only [IdentityState.issueSqlCredential, eq_ok] at h
  obtain ⟨-, target, htarget, -, -, rfl⟩ := h
  refine { Administered.refl actor state with sqlCredentials := fun key credential hget hlive => ?_ }
  rcases TreeMap.of_get_insert hget with ⟨-, rfl⟩ | ⟨-, hget⟩
  · exact .inr (state.credentialTarget_eq_ok hvalid htarget).2
  · rw [TreeMap.get_mapValues] at hget
    obtain ⟨previous, hprevious, rfl⟩ := Option.map_eq_some_iff.mp hget
    -- a credential that is still live is not among those that were revoked
    split at hlive
    · cases hlive
    · next hother =>
      rw [if_neg hother]
      exact .inl hprevious

theorem rotateCredential_administered {credential : String} {sha256 : List UInt8}
    (h : state.rotateCredential actor credential id sha256 = .ok after) :
    Administered actor state after := by
  simp only [IdentityState.rotateCredential, eq_ok] at h
  obtain ⟨previous, -, target, htarget, rfl⟩ := h
  refine { Administered.refl actor state with credentials := fun key minted hget hlive => ?_ }
  rcases TreeMap.of_get_insert hget with ⟨-, rfl⟩ | ⟨-, hget⟩
  · obtain ⟨hid, hmintable⟩ := state.credentialTarget_eq_ok hvalid htarget
    rw [← hid] at hmintable
    exact .inr hmintable
  · rcases TreeMap.of_get_insert hget with ⟨-, rfl⟩ | ⟨-, hget⟩
    · cases hlive
    · exact .inl hget

/-- **What a successful operation does.** -/
theorem IdentityState.execute_eq_ok {expected : ℕ} {outcome : Result Unit} {command : Command}
    (h : state.execute actor expected outcome command = .ok after) :
    Administered actor state after ∧ after.validate = .ok () := by
  -- every operation is one edit of the state, installed once it has been validated
  have hchange : ∀ {edit : IdentityState → Result IdentityState},
      state.change actor expected outcome edit = .ok after →
        (∀ edited, edit state = .ok edited → Administered actor state edited) →
          Administered actor state after ∧ after.validate = .ok () := by
    intro edit hdone hedit
    obtain ⟨edited, revision, hedited, rfl, hafter⟩ := state.change_eq_ok hdone
    exact ⟨{ hedit edited hedited with }, hafter⟩
  unfold execute at h
  cases command with
  | putPrincipal principal =>
    simp only [eq_ok] at h
    obtain ⟨-, hmanage, huntrusted, h⟩ := h
    have huntrusted : principal.id = actor.principal.id ∨
        .identityManage ∉ principal.installationActions := by
      simpa [or_iff_not_imp_left] using huntrusted
    exact hchange h fun _ => putPrincipal_administered hmanage huntrusted
  | createUser id name attributes =>
    simp only [eq_ok] at h
    exact hchange h.2.2 fun _ => createUser_administered h.2.1 rfl
  | alterUser => exact hchange h fun _ => alterUser_administered hvalid
  | assignRole => exact hchange h fun _ => assignRole_administered hvalid
  | changeRolePrivileges =>
    simp only [eq_ok] at h
    exact hchange h.2 fun _ => changeRolePrivileges_administered
  | issueCredential => exact hchange h fun _ => issueCredential_administered hvalid
  | issueSqlCredential => exact hchange h fun _ => issueSqlCredential_administered hvalid
  | rotateCredential => exact hchange h fun _ => rotateCredential_administered hvalid

end

end Steps

/-! ## No escalation -/

section NoEscalation

variable [Encoding] {before after : IdentityState}

section

variable (h : Administered actor before after)
include h

omit [Encoding] in
/-- What an operation adds to a principal lies within the ceiling of its actor. -/
theorem Administered.growth (hholds : after.Holds id permission) :
    before.Holds id permission ∨ Within actor permission := by
  rcases hholds with ⟨principal, hget, hhas⟩ | ⟨roleId, hmember, role, hrole, hgives⟩
  · rcases h.principals id principal hget with hsame | ⟨hmanage, -⟩
    · exact .inl (.inl ⟨principal, hsame, hhas⟩)
    · exact .inr (within_of_has hmanage hhas)
  · rcases h.roles roleId role hrole with hsame | hmanage
    · rcases h.memberships id roleId hmember with hold | ⟨found, hfound, hmanage⟩
      · exact .inl (.inr ⟨roleId, hold, role, hsame, hgives⟩)
      · cases hfound.symm.trans hsame
        exact .inr (within_of_gives hmanage hgives)
    · exact .inr (within_of_gives hmanage hgives)

omit [Encoding] in
/-- A barred actor gives `IdentityManage` to no other principal of its own. -/
theorem Administered.own_identityManage (hbarred : Barred actor) (hother : id ≠ actor.principal.id)
    (haction : permission.action = .identityManage)
    (hget : after.principals.get id = some principal)
    (hhas : principal.Has permission) : before.Holds id permission := by
  rcases h.principals id principal hget with hsame | ⟨hmanage, huntrusted⟩
  · exact .inl ⟨principal, hsame, hhas⟩
  obtain ⟨-, hgrants, hdelegation, -⟩ := mayManagePrincipal_eq_ok hmanage
  cases permission with
  | own tenant collection action =>
    cases haction
    cases hbarred.not_delegable.symm.trans (delegable_of_reaches hgrants hhas)
  | delegation tenant collection action =>
    cases haction
    cases hbarred.not_delegable.symm.trans (delegable_of_reaches hdelegation hhas)
  | installation action =>
    cases haction
    rcases huntrusted with hself | hnone | ⟨old, hold, hsame⟩
    · exact absurd hself hother
    · exact absurd hhas hnone
    · refine .inl ⟨old, hold, ?_⟩
      rw [PrincipalRecord.Has, hsame]
      exact hhas
  | role | roleTable | roleInstallation => exact False.elim hhas

/-- **One operation of a barred actor.** -/
theorem Administered.noEscalation (hvalid : after.validate = .ok ()) (hbarred : Barred actor) :
    NoEscalation actor before after where
  growth _ _ := h.growth
  clearance id principal hget := by
    rcases h.principals id principal hget with hsame | ⟨hmanage, -⟩
    · exact .inl ⟨principal, hsame, le_rfl⟩
    · exact .inr (mayManagePrincipal_eq_ok hmanage).1
  credentials := h.credentials
  sqlCredentials := h.sqlCredentials
  identityManage id permission hother haction hholds := by
    rcases hholds with ⟨principal, hget, hhas⟩ | ⟨roleId, -, role, hrole, hgives⟩
    · exact h.own_identityManage hbarred hother haction hget hhas
    · exact absurd hgives (not_gives_of_validateRole (after.role_valid hvalid hrole).2 haction)
  roles id role permission hrole haction :=
    not_gives_of_validateRole (after.role_valid hvalid hrole).2 haction

end

/-- One call of an operation. -/
structure Act where
  actor : AuthenticatedIdentity
  expected : ℕ
  outcome : Result Unit
  command : Command

/-- A run of successful operations. -/
def IdentityState.run (state : IdentityState) (acts : List Act) : Result IdentityState :=
  acts.foldlM (fun state act => state.execute act.actor act.expected act.outcome act.command) state

theorem IdentityState.run_valid {initial reached : IdentityState} {acts : List Act}
    (hvalid : initial.validate = .ok ()) (h : initial.run acts = .ok reached) :
    reached.validate = .ok () :=
  foldlM_invariant (fun state : IdentityState => state.validate = .ok ())
    (fun _ _ _ _ hstate hstep => (execute_eq_ok hstate hstep).2) h hvalid

/-- **No escalation over a run.**  In a run whose actors are barred from handing on
`IdentityManage`, no operation gives more than its actor may delegate. -/
theorem no_escalation {initial : IdentityState} (hvalid : initial.validate = .ok ())
    {acts : List Act} (hbarred : ∀ act ∈ acts, Barred act.actor) :
    ∀ earlier act later before after, acts = earlier ++ act :: later →
      initial.run earlier = .ok before →
        before.execute act.actor act.expected act.outcome act.command = .ok after →
          NoEscalation act.actor before after := by
  rintro earlier act later before after rfl hrun hstep
  have hbefore := IdentityState.run_valid hvalid hrun
  obtain ⟨hdone, hafter⟩ := IdentityState.execute_eq_ok hbefore hstep
  exact hdone.noEscalation hafter (hbarred act (by simp))

end NoEscalation

/-! A store without an installation, and its first administrator. -/

/-- Any text is an identifier. -/
@[reducible] def plainEncoding : Encoding where
  parseUuid _ := some 1
  recordLength _ := 300
  storedLength _ _ _ := 200

/-- A scope of one action on the documents of the press. -/
def pressScope (action : Action) : ScopeGrant := ⟨{"acme"}, {"docs"}, {action}⟩

def pressPrincipal (id : String) (installationActions : Finset Action)
    (grants delegation : List ScopeGrant) : PrincipalRecord :=
  ⟨id, "acme", true, ⟨"press", .internal⟩, grants, installationActions, delegation⟩

/-- The administrator that was bootstrapped, with what it may delegate. -/
def pressAdmin (action : Action) : AuthenticatedIdentity :=
  ⟨pressPrincipal "root" {.identityManage} [] [pressScope action], false, false, true⟩

def pressState (action : Action) : IdentityState :=
  ⟨2, none, 1, .insert .empty "root" (pressAdmin action).principal, .empty, .empty, .empty, none,
    .insert .empty "root" "root", ∅, .empty, .empty⟩

/-- The administrator puts a principal with the scope that it may delegate. -/
def pressAct (action : Action) : Act :=
  ⟨pressAdmin action, 1, .ok (), .putPrincipal (pressPrincipal "bob" ∅ [pressScope action] [])⟩

theorem no_escalation_press : ∃ after,
    @IdentityState.execute plainEncoding (pressState .read) (pressAdmin .read) 1 (.ok ())
        (pressAct .read).command = .ok after ∧
      NoEscalation (pressAdmin .read) (pressState .read) after :=
  ⟨_, rfl, @no_escalation plainEncoding (pressState .read) rfl [pressAct .read]
    (by simp [pressAct, pressAdmin, pressPrincipal, pressScope, Barred]) [] (pressAct .read) []
    _ _ rfl rfl rfl⟩

/-- The principal that is put may manage identities within its scope. -/
theorem identityManage_delegated : ∃ after,
    @IdentityState.validate (pressState .identityManage) plainEncoding = .ok () ∧
      @IdentityState.execute plainEncoding (pressState .identityManage)
        (pressAdmin .identityManage) 1 (.ok ()) (pressAct .identityManage).command = .ok after ∧
      ¬ NoEscalation (pressAdmin .identityManage) (pressState .identityManage) after := by
  refine ⟨_, rfl, rfl, fun h => ?_⟩
  have hheld := h.identityManage "bob" (.own "acme" "docs" .identityManage) (by decide) rfl
    (.inl ⟨_, rfl, _, mem_singleton_self _, rfl⟩)
  rcases hheld with ⟨principal, hget, -⟩ | ⟨roleId, hmember, -⟩
  · have hnone : (pressState .identityManage).principals.get "bob" = none := rfl
    cases hnone.symm.trans hget
  · exact absurd hmember not_mem_nil

end ChironDB.Security
