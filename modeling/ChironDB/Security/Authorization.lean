/-
# Who may act on a resource

`authorize_resource` walks from a resource up its parents, and stops at the first matching deny, at
a broken chain or at a spent budget.  None of these early exits shows in the verdict: it succeeds
exactly when nothing along the whole chain stands against the action and something permits it
(`Authorized`), so neither the order of the grants nor a further deny can open a resource.
-/

import ChironDB.Security.CollectionAuthority

namespace ChironDB.Security

open Tables Fault List

/-- A map of resources keyed by their own key. -/
def Keyed (resources : TreeMap PointKey ResourceRecord) : Prop :=
  ∀ key record, resources.get key = some record → record.key = key

/-- The ancestors of a record, up to one that has no parent. -/
inductive Ancestors (resources : TreeMap PointKey ResourceRecord) :
    ResourceRecord → List ResourceRecord → Prop
  | root {record : ResourceRecord} : record.parent = none → Ancestors resources record []
  | parent {record above : ResourceRecord} {key : PointKey} {ancestors : List ResourceRecord} :
      record.parent = some key → resources.get key = some above →
      Ancestors resources above ancestors → Ancestors resources record (above :: ancestors)

section Authorize

variable (principal : PrincipalRecord) (groups : Finset String) (resource : ResourceRecord)
  (action : Action)

/-- A grant that names the subject and the action. -/
def Matches (holder : ResourceRecord) (grant : ObjectGrant) : Prop :=
  grant ∈ holder.grants ∧ action ∈ grant.actions ∧
    subjectMatches principal groups holder grant.subject = true

/-- A grant that counts: a matching one of the resource, or an inheritable one of an ancestor. -/
def Counts (ancestors : List ResourceRecord) (grant : ObjectGrant) : Prop :=
  Matches principal groups action resource grant ∨
    ∃ above ∈ ancestors, grant.inherit = true ∧ Matches principal groups action above grant

/-- What permits the action without a grant. -/
def Default (policy : CollectionPolicy) : Prop :=
  ((action = .labelsManage ∨ action = .grantsManage) ∧ action ∈ principal.installationActions) ∨
    (resource.labels.department = principal.attributes.department ∧
      action ∈ policy.departmentActions) ∨
    (resource.labels.owner = principal.id ∧ action ∈ policy.ownerActions)

/-- A chain of ancestors that can be inherited from. -/
structure Inherits (resources : TreeMap PointKey ResourceRecord)
    (ancestors : List ResourceRecord) : Prop where
  present : Ancestors resources resource ancestors
  acyclic : ((resource :: ancestors).map ResourceRecord.key).Nodup
  domain : ∀ above ∈ ancestors, above.key.tenant = resource.key.tenant ∧
    above.key.collection = resource.key.collection
  live : ∀ above ∈ ancestors, above.retired = false ∧ above.labels.quarantined = false
  depth : (resource :: ancestors).length ≤ maxInheritanceDepth
  budget : ((resource :: ancestors).map (·.grants.length)).sum ≤ maxPolicyGrants

/-- **What authorization means.** -/
structure Authorized (policy : CollectionPolicy) (resources : TreeMap PointKey ResourceRecord) :
    Prop where
  enabled : principal.enabled = true
  live : resource.retired = false
  released : resource.labels.quarantined = true →
    action = .labelsManage ∧ action ∈ principal.installationActions
  cleared : resource.labels.classification ≤ principal.attributes.clearance
  chain : ∃ ancestors, Inherits resource resources ancestors ∧
    (∀ grant, Counts principal groups resource action ancestors grant → grant.effect ≠ .deny) ∧
    (Default principal resource action policy ∨
      ∃ grant, Counts principal groups resource action ancestors grant ∧ grant.effect = .permit)

end Authorize

variable {principal : PrincipalRecord} {groups : Finset String} {action : Action}

section Loop

variable {resource current : ResourceRecord} {resources : TreeMap PointKey ResourceRecord}
  {permit result : Bool}

/-- The test by which the loop picks a grant. -/
def applies (principal : PrincipalRecord) (groups : Finset String) (resource : ResourceRecord)
    (action : Action) (current : ResourceRecord) (grant : ObjectGrant) : Bool :=
  (current.key = resource.key || grant.inherit) && action ∈ grant.actions &&
    subjectMatches principal groups current grant.subject

/-- The grants of one record: no deny is met, and a permit is remembered. -/
theorem foldlM_applyGrant_eq_ok {grants : List ObjectGrant} :
    grants.foldlM (applyGrant principal groups resource action current) permit = .ok result ↔
      (∀ grant ∈ grants, applies principal groups resource action current grant = true →
        grant.effect = .permit) ∧
      (permit || grants.any (applies principal groups resource action current)) = result := by
  induction grants generalizing permit with
  | nil => simp [pure_eq_ok]
  | cons grant grants ih =>
    rw [foldlM_cons, bind_eq_ok, applyGrant]
    change (∃ met, (if applies principal groups resource action current grant then _ else _) = _ ∧
      _) ↔ _
    cases happlies : applies principal groups resource action current grant with
    | false => simp [ih, happlies]
    | true => cases heffect : grant.effect <;> simp [ih, happlies, heffect]

/-- **The loop.**  It returns when the chain above the current record ends, with every check passed
on the way, and says whether a grant of the chain permits. -/
theorem authorizeAbove_eq_ok (hkeyed : Keyed resources) {room count : ℕ} {visited : List PointKey} :
    authorizeAbove principal groups resource action resources room visited count permit current =
        .ok result ↔
      ∃ ancestors, Ancestors resources current ancestors ∧
        ((current :: ancestors).map ResourceRecord.key).Nodup ∧
        (∀ record ∈ current :: ancestors, record.key ∉ visited) ∧
        (∀ above ∈ ancestors, above.key.tenant = resource.key.tenant ∧
          above.key.collection = resource.key.collection) ∧
        (∀ above ∈ ancestors, above.retired = false ∧ above.labels.quarantined = false) ∧
        (current :: ancestors).length ≤ room ∧
        count + ((current :: ancestors).map (·.grants.length)).sum ≤ maxPolicyGrants ∧
        (∀ record ∈ current :: ancestors, ∀ grant ∈ record.grants,
          applies principal groups resource action record grant = true → grant.effect = .permit) ∧
        (permit || (current :: ancestors).any fun record =>
          record.grants.any (applies principal groups resource action record)) = result := by
  induction room generalizing visited count permit current with
  | zero =>
    rw [authorizeAbove]
    split <;> simp
  | succ room ih =>
    simp only [authorizeAbove, eq_ok, foldlM_applyGrant_eq_ok]
    cases hparent : current.parent with
    | none =>
      constructor
      · rintro ⟨hnew, hcount, permit, ⟨hdeny, rfl⟩, hresult⟩
        refine ⟨[], .root hparent, ?_⟩
        simp_all
      · rintro ⟨ancestors, hchain, hrest⟩
        cases hchain with
        | root | parent => simp_all
    | some key =>
      -- the ancestors of the current record are its parent and those of the parent
      have hancestors : ∀ ancestors, Ancestors resources current ancestors ↔
          ∃ above rest, ancestors = above :: rest ∧ resources.get key = some above ∧
            Ancestors resources above rest := by
        intro ancestors
        constructor
        · rintro (hnone | ⟨hkey, hget, hrest⟩)
          · simp_all
          · cases hkey.symm.trans hparent
            exact ⟨_, _, rfl, hget, hrest⟩
        · rintro ⟨above, rest, rfl, hget, hrest⟩
          exact .parent hparent hget hrest
      cases habove : resources.get key with
      | none => simp [hancestors, habove, eq_ok]
      | some above =>
        obtain rfl := hkeyed key above habove
        have hfilter : Option.filter (fun parent : ResourceRecord =>
            !parent.retired && !parent.labels.quarantined) (some above) =
            if above.retired = false ∧ above.labels.quarantined = false then some above
            else none := by
          simp [Option.filter]
        simp only [hancestors, habove, hfilter, eq_ok]
        by_cases hlive : above.retired = false ∧ above.labels.quarantined = false
        · simp only [if_pos hlive, ih]
          constructor
          · rintro ⟨hnew, hcount, permit, ⟨hdeny, rfl⟩, hdomain, rest, hrest, hnodup,
              hvisited, hdomains, hlives, hroom, hbudget, hdenies, rfl⟩
            refine ⟨above :: rest, ⟨above, rest, rfl, rfl, hrest⟩, ?_, ?_,
              forall_mem_cons.mpr ⟨hdomain, hdomains⟩,
              forall_mem_cons.mpr ⟨hlive, hlives⟩, Nat.succ_le_succ hroom, ?_,
              forall_mem_cons.mpr ⟨hdeny, hdenies⟩, ?_⟩
            · refine nodup_cons.mpr ⟨fun hmem => ?_, hnodup⟩
              obtain ⟨record, hrecord, hkey⟩ := mem_map.mp hmem
              exact hvisited record hrecord (hkey ▸ mem_cons_self)
            · refine forall_mem_cons.mpr ⟨hnew, fun record hrecord hmem => ?_⟩
              exact hvisited record hrecord (mem_cons_of_mem _ hmem)
            · rwa [map_cons, sum_cons, ← Nat.add_assoc]
            · rw [any_cons, Bool.or_assoc]
          · rintro ⟨ancestors, ⟨_, rest, rfl, ⟨⟩, hrest⟩, hnodup, hvisited, hdomains, hlives,
              hroom, hbudget, hdenies, rfl⟩
            rw [forall_mem_cons] at hvisited hdomains hlives hdenies
            rw [map_cons, nodup_cons] at hnodup
            rw [map_cons, sum_cons, ← Nat.add_assoc] at hbudget
            refine ⟨hvisited.1, (Nat.le_add_right _ _).trans hbudget, _, ⟨hdenies.1, rfl⟩,
              hdomains.1, rest, hrest, hnodup.2, fun record hrecord hmem => ?_, hdomains.2, hlives.2,
              Nat.le_of_succ_le_succ hroom, hbudget, hdenies.2, ?_⟩
            · rcases mem_cons.mp hmem with hkey | hmem
              · exact hnodup.1 (hkey ▸ mem_map_of_mem hrecord)
              · exact hvisited.2 record hrecord hmem
            · rw [Bool.or_assoc]
              rfl
        · rw [if_neg hlive]
          constructor
          · rintro ⟨_, _, _, _, _, h⟩
            cases h
          · rintro ⟨_, ⟨_, _, rfl, ⟨⟩, -⟩, -, -, -, hlives, -⟩
            exact absurd (hlives _ mem_cons_self) hlive

/-- The grants the loop picks along a chain without a cycle. -/
theorem exists_applies_iff {ancestors : List ResourceRecord}
    (hnodup : ((resource :: ancestors).map ResourceRecord.key).Nodup) {grant : ObjectGrant} :
    (∃ record ∈ resource :: ancestors, grant ∈ record.grants ∧
        applies principal groups resource action record grant = true) ↔
      Counts principal groups resource action ancestors grant := by
  rw [map_cons, nodup_cons] at hnodup
  have hother : ∀ above ∈ ancestors, above.key ≠ resource.key := fun above habove heq =>
    hnodup.1 (heq ▸ mem_map_of_mem habove)
  rw [exists_mem_cons_iff]
  refine or_congr (by simp [applies, Matches]) (exists_congr fun above => ?_)
  refine and_congr_right fun habove => ?_
  simp only [applies, hother above habove, Matches, decide_false, Bool.false_or, Bool.and_eq_true,
    decide_eq_true_eq]
  tauto

/-- **The code decides `Authorized`.** -/
theorem authorizeResource_eq_ok (hkeyed : Keyed resources) {policy : CollectionPolicy} :
    authorizeResource principal groups resource action policy resources = .ok () ↔
      Authorized principal groups resource action policy resources := by
  have hchain : ∀ {permit : Bool},
      authorizeAbove principal groups resource action resources maxInheritanceDepth [] 0 permit
        resource = .ok true ↔ ∃ ancestors, Inherits resource resources ancestors ∧
          (∀ grant, Counts principal groups resource action ancestors grant →
            grant.effect ≠ .deny) ∧
          (permit = true ∨ ∃ grant, Counts principal groups resource action ancestors grant ∧
            grant.effect = .permit) := by
    intro permit
    rw [authorizeAbove_eq_ok hkeyed]
    refine exists_congr fun ancestors => ?_
    simp only [Bool.or_eq_true, any_eq_true, Nat.zero_add]
    constructor
    · rintro ⟨hpresent, hnodup, -, hdomain, hlive, hdepth, hbudget, hdenies, hpermit⟩
      simp only [← exists_applies_iff hnodup]
      refine ⟨⟨hpresent, hnodup, hdomain, hlive, hdepth, hbudget⟩, ?_, hpermit.imp id ?_⟩
      · rintro grant ⟨record, hrecord, hgrant, happlies⟩
        simp [hdenies record hrecord grant hgrant happlies]
      · rintro ⟨record, hrecord, grant, hgrant, happlies⟩
        exact ⟨grant, ⟨record, hrecord, hgrant, happlies⟩,
          hdenies record hrecord grant hgrant happlies⟩
    · rintro ⟨⟨hpresent, hnodup, hdomain, hlive, hdepth, hbudget⟩, hdenies, hpermit⟩
      simp only [← exists_applies_iff hnodup] at hdenies hpermit
      refine ⟨hpresent, hnodup, by simp, hdomain, hlive, hdepth, hbudget, ?_, hpermit.imp id ?_⟩
      · intro record hrecord grant hgrant happlies
        have hdeny := hdenies grant ⟨record, hrecord, hgrant, happlies⟩
        cases heffect : grant.effect <;> simp_all
      · rintro ⟨grant, ⟨record, hrecord, hgrant, happlies⟩, -⟩
        exact ⟨record, hrecord, grant, hgrant, happlies⟩
  simp only [authorizeResource, eq_ok, Bool.not_eq_true', exists_eq_right, hchain]
  constructor
  · rintro ⟨⟨⟨⟨henabled, hlive⟩, hreleased⟩, hcleared⟩, hrest⟩
    refine ⟨henabled, hlive, by simpa using hreleased, hcleared, ?_⟩
    simpa [Default, or_assoc] using hrest
  · rintro ⟨henabled, hlive, hreleased, hcleared, hrest⟩
    refine ⟨⟨⟨⟨henabled, hlive⟩, by simpa using hreleased⟩, hcleared⟩, ?_⟩
    simpa [Default, or_assoc] using hrest

end Loop

/-! ## Further denies and other orders -/

/-- A record with its grants in another order and denies among them. -/
inductive Tightened (record : ResourceRecord) : ResourceRecord → Prop
  | mk {grants denies : List ObjectGrant} : (∀ grant ∈ denies, grant.effect = .deny) →
      grants.Perm (record.grants ++ denies) → Tightened record { record with grants }

/-- A record with its grants in another order. -/
inductive Reordered (record : ResourceRecord) : ResourceRecord → Prop
  | mk {grants : List ObjectGrant} : grants.Perm record.grants →
      Reordered record { record with grants }

theorem Reordered.tightened {record record' : ResourceRecord} (h : Reordered record record') :
    Tightened record record' := by
  cases h with
  | mk hperm => exact @Tightened.mk _ _ [] (by simp) (by simpa using hperm)

/-- Every record of the second map comes from the one at its key in the first. -/
def Related (relation : ResourceRecord → ResourceRecord → Prop)
    (resources resources' : TreeMap PointKey ResourceRecord) : Prop :=
  ∀ key record', resources'.get key = some record' →
    ∃ record, resources.get key = some record ∧ relation record record'

section Tighten

variable {resource resource' : ResourceRecord}
  {resources resources' : TreeMap PointKey ResourceRecord}

theorem Tightened.matches (h : Tightened resource resource') {grant : ObjectGrant}
    (hmatches : Matches principal groups action resource grant) :
    Matches principal groups action resource' grant := by
  cases h with
  | mk _ hperm =>
    exact ⟨hperm.mem_iff.mpr (mem_append_left _ hmatches.1), hmatches.2.1, by
      simpa [subjectMatches] using hmatches.2.2⟩

theorem Tightened.of_matches (h : Tightened resource resource') {grant : ObjectGrant}
    (heffect : grant.effect = .permit)
    (hmatches : Matches principal groups action resource' grant) :
    Matches principal groups action resource grant := by
  cases h with
  | mk hdenies hperm =>
    refine ⟨?_, hmatches.2.1, by simpa [subjectMatches] using hmatches.2.2⟩
    refine (mem_append.mp (hperm.mem_iff.mp hmatches.1)).resolve_right fun hmem => ?_
    simp [hdenies grant hmem] at heffect

theorem ancestors_of_tightened (hmap : Related Tightened resources resources')
    (h : Tightened resource resource') {ancestors' : List ResourceRecord}
    (hchain : Ancestors resources' resource' ancestors') :
    ∃ ancestors, Ancestors resources resource ancestors ∧
      List.Forall₂ Tightened ancestors ancestors' := by
  induction hchain generalizing resource with
  | root hparent =>
    cases h
    exact ⟨[], .root hparent, .nil⟩
  | @parent _ _ key _ hparent hget _ ih =>
    obtain ⟨above, hbefore, hpair⟩ := hmap key _ hget
    obtain ⟨ancestors, hancestors, hall⟩ := ih hpair
    cases h
    exact ⟨above :: ancestors, .parent hparent hbefore hancestors, .cons hpair hall⟩

variable {policy : CollectionPolicy}

/-- **A further deny opens nothing.** -/
theorem Authorized.of_tightened (hmap : Related Tightened resources resources')
    (h : Tightened resource resource')
    (hauthorized : Authorized principal groups resource' action policy resources') :
    Authorized principal groups resource action policy resources := by
  obtain ⟨henabled, hlive, hreleased, hcleared, ancestors', hinherits, hdenies, hpermit⟩ :=
    hauthorized
  obtain ⟨ancestors, hchain, hall⟩ := ancestors_of_tightened hmap h hinherits.present
  have hwhole : List.Forall₂ Tightened (resource :: ancestors) (resource' :: ancestors') :=
    .cons h hall
  have hkeys : (resource' :: ancestors').map ResourceRecord.key =
      (resource :: ancestors).map ResourceRecord.key :=
    forall₂_map_eq hwhole fun _ _ hpair => by cases hpair; rfl
  have hsum : ((resource :: ancestors).map (·.grants.length)).sum ≤
      ((resource' :: ancestors').map (·.grants.length)).sum := by
    refine List.Forall₂.sum_le_sum ?_
    rw [forall₂_map_left_iff, forall₂_map_right_iff]
    refine hwhole.imp fun _ _ hpair => ?_
    cases hpair with
    | mk _ hperm => simp [hperm.length_eq]
  refine ⟨henabled, ?_, ?_, ?_, ancestors, ⟨hchain, hkeys ▸ hinherits.acyclic, ?_, ?_, ?_,
    hsum.trans hinherits.budget⟩, fun grant hcounts => hdenies grant (hcounts.imp h.matches ?_),
    hpermit.imp ?_ ?_⟩
  · cases h
    exact hlive
  · cases h
    exact hreleased
  · cases h
    exact hcleared
  · intro above habove
    obtain ⟨above', habove', hpair⟩ := forall₂_exists hall above habove
    have hdomain := hinherits.domain above' habove'
    cases hpair
    cases h
    exact hdomain
  · intro above habove
    obtain ⟨above', habove', hpair⟩ := forall₂_exists hall above habove
    have hlive := hinherits.live above' habove'
    cases hpair
    exact hlive
  · exact hwhole.length_eq.trans_le hinherits.depth
  · rintro ⟨above, habove, hinherit, hmatches⟩
    obtain ⟨above', habove', hpair⟩ := forall₂_exists hall above habove
    exact ⟨above', habove', hinherit, hpair.matches hmatches⟩
  · cases h
    exact id
  · rintro ⟨grant, hcounts, heffect⟩
    refine ⟨grant, hcounts.imp (h.of_matches heffect) ?_, heffect⟩
    rintro ⟨above', habove', hinherit, hmatches⟩
    obtain ⟨above, habove, hpair⟩ := forall₂_exists hall.flip above' habove'
    exact ⟨above, habove, hinherit, hpair.of_matches heffect hmatches⟩

theorem Keyed.of_tightened (hkeyed : Keyed resources)
    (hmap : Related Tightened resources resources') : Keyed resources' := by
  intro key record hrecord
  obtain ⟨before, hbefore, hpair⟩ := hmap key record hrecord
  have hkey := hkeyed key before hbefore
  cases hpair
  exact hkey

/-- A further deny opens nothing, as the code decides. -/
theorem authorizeResource_of_tightened (hkeyed : Keyed resources)
    (hmap : Related Tightened resources resources') {key : PointKey}
    (hget : resources.get key = some resource) (hget' : resources'.get key = some resource')
    (hauthorized : authorizeResource principal groups resource' action policy resources' = .ok ()) :
    authorizeResource principal groups resource action policy resources = .ok () := by
  obtain ⟨before, hbefore, hpair⟩ := hmap _ _ hget'
  cases hget.symm.trans hbefore
  rw [authorizeResource_eq_ok (hkeyed.of_tightened hmap)] at hauthorized
  rw [authorizeResource_eq_ok hkeyed]
  exact hauthorized.of_tightened hmap hpair

end Tighten

/-- **Authorization is deny-overrides.**  Over a map of resources keyed by their own key,
`authorize_resource` succeeds exactly when `Authorized` holds; denies that are added anywhere never
make it succeed, and the order of the grants does not matter. -/
theorem authorization_deny_overrides {resources : TreeMap PointKey ResourceRecord}
    (hkeyed : Keyed resources)
    {resource : ResourceRecord} (hresource : resources.get resource.key = some resource)
    (principal : PrincipalRecord) (groups : Finset String) (policy : CollectionPolicy)
    (action : Action) :
    (authorizeResource principal groups resource action policy resources = .ok () ↔
      Authorized principal groups resource action policy resources) ∧
    ∀ resources' resource', resources'.get resource.key = some resource' →
      (Related Tightened resources resources' →
        authorizeResource principal groups resource' action policy resources' = .ok () →
        authorizeResource principal groups resource action policy resources = .ok ()) ∧
      (Related Reordered resources resources' → Related Reordered resources' resources →
        (authorizeResource principal groups resource' action policy resources' = .ok () ↔
          authorizeResource principal groups resource action policy resources = .ok ())) := by
  refine ⟨authorizeResource_eq_ok hkeyed, fun resources' resource' hresource' => ⟨fun hmap =>
    authorizeResource_of_tightened hkeyed hmap hresource hresource', fun hforth hback => ?_⟩⟩
  have htighten : ∀ {left right}, Related Reordered left right → Related Tightened left right :=
    fun hmap key record hget => (hmap key record hget).imp fun _ => And.imp_right (·.tightened)
  exact ⟨authorizeResource_of_tightened hkeyed (htighten hforth) hresource hresource',
    authorizeResource_of_tightened (hkeyed.of_tightened (htighten hforth)) (htighten hback)
      hresource' hresource⟩

/-- A folder that its department may read, and what is in it. -/
def folder : ResourceRecord :=
  { key := ⟨1, "acme", "folder"⟩
    storageId := 7
    labels := ⟨"ann", "news", .internal, false⟩
    properties := .empty
    representations := .empty
    grants := [⟨.department "news", .permit, {.read}, true⟩]
    parent := none
    revision := 1
    retired := false
    createReceipt := none }

def story : ResourceRecord :=
  { folder with key := ⟨1, "acme", "story"⟩, grants := [], parent := some folder.key }

def shelf : TreeMap PointKey ResourceRecord :=
  (TreeMap.empty.insert folder.key folder).insert story.key story

theorem keyed_shelf : Keyed shelf := by
  intro key record h
  rw [shelf, TreeMap.get_insert, TreeMap.get_insert, TreeMap.get_empty] at h
  split at h
  · simp_all
  · split at h <;> simp_all

/-- The story is read by the permit that it inherits. -/
theorem authorization_deny_overrides_story :
    Authorized ⟨"bob", "acme", true, ⟨"news", .internal⟩, [], ∅, []⟩ ∅ story .read
      ⟨∅, ∅, .empty⟩ shelf := by
  refine (authorization_deny_overrides keyed_shelf ?_ _ _ _ _).1.mp ?_
  · decide +kernel
  · decide +kernel

end ChironDB.Security
