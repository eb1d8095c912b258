/-
# Groups

`validate_groups` and `expand_groups` of `security/policy.rs`.  Groups may be members of groups.  A
map of groups is valid when it is closed under membership within each tenant and no chain of groups
is longer than `MAX_GROUP_DEPTH`; the validation visits every group with the groups below it and
notes how high each one stands.  The expansion goes upwards from a principal, breadth first.
-/

import ChironDB.Security.Identity

namespace ChironDB.Security

open Tables Fault List

/-! ## Expansion -/

/-- The queue of members with their depths, and the groups expanded so far. -/
abbrev Frontier := List (GroupMember × ℕ) × Finset String

section

variable (groups : TreeMap String GroupRecord)

/-- The groups of a tenant that list a member: the map `reverse`. -/
def containers (tenant : String) (member : GroupMember) : List String :=
  (groups.values.filter fun group => group.tenant = tenant).flatMap fun group =>
    (group.members.filter (· = member)).map fun _ => group.id

/-- One group that lists the member at the head of the queue. -/
def expandOne (depth : ℕ) (state : Frontier) (group : String) : Result Frontier := do
  ensure (depth < maxGroupDepth) .budgetExceeded
  if group ∈ state.2 then pure state
  else do
    ensure ((insert group state.2).card ≤ maxGroupExpansion) .budgetExceeded
    pure (state.1 ++ [(.group group, depth + 1)], insert group state.2)

/-- The queue grows by as much as is expanded. -/
theorem expand_bounded {depth : ℕ} {ids : List String} {state next : Frontier}
    (h : ids.foldlM (expandOne depth) state = .ok next) :
    next.1.length + (maxGroupExpansion - next.2.card) ≤
      state.1.length + (maxGroupExpansion - state.2.card) := by
  refine foldlM_invariant (fun b : Frontier =>
    b.1.length + (maxGroupExpansion - b.2.card) ≤ _) (fun b id _ after hb hafter => ?_) h le_rfl
  simp only [expandOne, eq_ok] at hafter
  obtain ⟨-, hafter⟩ := hafter
  split at hafter
  · cases hafter
    exact hb
  · next hnew =>
    simp only [eq_ok] at hafter
    obtain ⟨hroom, rfl⟩ := hafter
    rw [Finset.card_insert_of_notMem hnew] at hroom
    simp only [length_append, length_singleton, Finset.card_insert_of_notMem hnew]
    omega

/-- The loop of `expand_groups`. -/
def expandLoop (tenant : String) (frontier : List (GroupMember × ℕ)) (expanded : Finset String) :
    Result (Finset String) :=
  match frontier with
  | [] => .ok expanded
  | (member, depth) :: rest =>
    match _h : (containers groups tenant member).foldlM (expandOne depth) (rest, expanded) with
    | .error e => .error e
    | .ok next => expandLoop tenant next.1 next.2
  termination_by frontier.length + (maxGroupExpansion - expanded.card)
  decreasing_by
    have hbounded := expand_bounded _h
    simp only [length_cons] at hbounded ⊢
    omega

def expandGroups (principal : PrincipalRecord) : Result (Finset String) :=
  expandLoop groups principal.tenant [(.principal principal.id, 0)] ∅

end

/-! ## What the functions are for -/

/-- The groups and the principals of an identity state. -/
structure Registry where
  groups : TreeMap String GroupRecord
  principals : TreeMap String PrincipalRecord

section

variable (r : Registry)

/-- A group lists a member. -/
def Lists (id : String) (member : GroupMember) : Prop :=
  ∃ group, r.groups.get id = some group ∧ member ∈ group.members

/-- A group lists another one. -/
def Nests (id child : String) : Prop := Lists r id (.group child)

/-- A member is there, in a tenant. -/
def Present (tenant : String) : GroupMember → Prop
  | .principal id => ∃ principal, r.principals.get id = some principal ∧ principal.tenant = tenant
  | .group id => ∃ group, r.groups.get id = some group ∧ group.tenant = tenant

/-- A map of groups as it should be. -/
structure ValidGroups : Prop where
  identity : ∀ {id group}, r.groups.get id = some group → group.id = id ∧ identifier id = true
  members : ∀ {id group}, r.groups.get id = some group → ∀ member ∈ group.members,
    Present r group.tenant member
  acyclic : ∀ id, ¬ Relation.TransGen (Nests r) id id
  depth : ∀ ids, List.IsChain (Nests r) ids → ids.length ≤ maxGroupDepth
  size : ∀ {id group}, r.groups.get id = some group → group.members.length ≤ maxGroupExpansion

/-- The groups that a principal belongs to. -/
inductive Belongs (principal : String) : String → Prop
  | direct {id : String} : Lists r id (.principal principal) → Belongs principal id
  | nested {id child : String} : Belongs principal child → Lists r id (.group child) →
      Belongs principal id

/-! ## Heights -/

/-- A member passes the checks, when `fine` says which groups do. -/
def Sits (fine : String → Prop) (tenant : String) (member : GroupMember) : Prop :=
  Present r tenant member ∧ ∀ child, member = .group child → fine child

/-- A group with all groups below it passes the checks, and they are at most so many deep. -/
def Fine : ℕ → String → Prop
  | 0, _ => False
  | n + 1, id => ∃ group, r.groups.get id = some group ∧ (group.id = id ∧ identifier id = true) ∧
      group.members.length ≤ maxGroupExpansion ∧
        ∀ member ∈ group.members, Sits r (Fine n) group.tenant member

/-- A group stands exactly so high. -/
def Exact (height : ℕ) (id : String) : Prop := ∀ n, Fine r n id ↔ height ≤ n

/-- What the visits have noted. -/
def Noted (heights : TreeMap String ℕ) : Prop :=
  ∀ id height, heights.get id = some height → Exact r height id

/-- A group stands higher than another one. -/
def Higher (id child : String) : Prop :=
  ∀ n, Fine r n id → ∃ m < n, Fine r m child

variable {r} {id child : String} {group : GroupRecord} {n room : ℕ} {heights : TreeMap String ℕ}

theorem Fine.below (h : Fine r n id) (hlists : Lists r id (.group child)) :
    ∃ m, n = m + 1 ∧ Fine r m child := by
  cases n with
  | zero => cases h
  | succ n =>
    obtain ⟨group, hgroup, -, -, hmembers⟩ := h
    obtain ⟨_, hsame, hmember⟩ := hlists
    cases hgroup.symm.trans hsame
    exact ⟨n, rfl, (hmembers _ hmember).2 child rfl⟩

theorem Higher.of_lists (hlists : Lists r id (.group child)) : Higher r id child := by
  intro n hn
  obtain ⟨m, rfl, hm⟩ := hn.below hlists
  exact ⟨m, Nat.lt_succ_self m, hm⟩

theorem Higher.trans {top : String} (h : Higher r top id) (h' : Higher r id child) :
    Higher r top child := by
  intro n hn
  obtain ⟨m, hm, hid⟩ := h n hn
  obtain ⟨l, hl, hchild⟩ := h' m hid
  exact ⟨l, hl.trans hm, hchild⟩

theorem Higher.irrefl (h : Higher r id id) : ¬ Fine r n id := by
  induction n using Nat.strong_induction_on with
  | _ n ih =>
    intro hn
    obtain ⟨m, hm, hfine⟩ := h n hn
    exact ih m hm hfine

variable {members : List GroupMember}

variable (r) in
/-- What is known when a group has been visited. -/
def Visited (room : ℕ) (id : String) (out : ℕ × TreeMap String ℕ) : Prop :=
  Exact r out.1 id ∧ out.1 ≤ room ∧ Noted r out.2

variable (r) in
/-- What is known when some members of a group have been visited. -/
structure Measured (room : ℕ) (tenant : String) (members : List GroupMember)
    (out : ℕ × TreeMap String ℕ) : Prop where
  pos : 1 ≤ out.1
  le : out.1 ≤ room + 1
  noted : Noted r out.2
  exact : ∀ n, out.1 ≤ n + 1 ↔ ∀ member ∈ members, Sits r (Fine r n) tenant member

theorem visitMembers_ends (tenant : String)
    {visit : String → TreeMap String ℕ → Result (ℕ × TreeMap String ℕ)}
    (hvisit : ∀ child group heights, .group child ∈ members → r.groups.get child = some group →
      group.tenant = tenant → Noted r heights →
        Ends (Visited r room child) (fun _ => ¬ Fine r room child) (visit child heights))
    (hnoted : Noted r heights) :
    Ends (Measured r room tenant members)
      (fun _ => ¬ ∀ member ∈ members, Sits r (Fine r room) tenant member)
      (members.foldlM (visitMember r.groups r.principals tenant visit) (1, heights)) := by
  refine Ends.foldlM (Measured r room tenant)
    ⟨le_rfl, Nat.le_add_left 1 room, hnoted, by simp⟩ fun done out member hmember hout => ?_
  have hadd : ∀ n, (∀ other ∈ done ++ [member], Sits r (Fine r n) tenant other) ↔
      out.1 ≤ n + 1 ∧ Sits r (Fine r n) tenant member := by
    intro n
    rw [forall_mem_append, forall_mem_singleton, hout.exact]
  cases member with
  | principal id =>
    refine .ensure (fun hpresent => ?_) fun hmissing hall => hmissing ?_
    · have hsits : ∀ n, Sits r (Fine r n) tenant (.principal id) :=
        fun n => ⟨by simpa [Present, Option.any_eq_true] using hpresent, fun _ h => by cases h⟩
      exact ⟨hout.pos, hout.le, hout.noted, fun n => by rw [hadd, and_iff_left (hsits n)]⟩
    · simpa [Present, Option.any_eq_true] using (hall _ hmember).1
  | group id =>
    refine .ensure (fun hpresent => ?_) fun hmissing hall => hmissing ?_
    · obtain ⟨group, hgroup, htenant⟩ : Present r tenant (.group id) := by
        simpa [Present, Option.any_eq_true] using hpresent
      refine .bind ((hvisit id group out.2 hmember hgroup htenant hout.noted).mono (fun _ h => h)
        fun _ hnot hall => hnot ((hall _ hmember).2 id rfl)) fun below hbelow => ?_
      obtain ⟨hexact, hle, hnoted⟩ := hbelow
      have hpos := hout.pos
      have hroom := hout.le
      refine ⟨by dsimp only; omega, by dsimp only; omega, hnoted, fun n => ?_⟩
      have hsits : Sits r (Fine r n) tenant (.group id) ↔ 1 + below.1 ≤ n + 1 := by
        rw [Nat.add_comm, Nat.add_le_add_iff_right, ← hexact n]
        refine ⟨fun h => h.2 id rfl, fun h => ⟨⟨group, hgroup, htenant⟩, fun child hchild => ?_⟩⟩
        cases hchild
        exact h
      rw [hadd, hsits]
      exact max_le_iff
    · simpa [Present, Option.any_eq_true] using (hall _ hmember).1

/-- **The visit of a group** finds out how high it stands. -/
theorem visitGroup_ends (room : ℕ) {path : List String} (hgroup : r.groups.get id = some group)
    (hpath : ∀ top ∈ path, Higher r top id) (hnoted : Noted r heights) :
    Ends (Visited r room id) (fun _ => ¬ Fine r room id)
      (visitGroup r.groups r.principals group.tenant room path id heights) := by
  induction room generalizing path id group heights with
  | zero => exact fun h => h
  | succ room ih =>
    rw [visitGroup]
    cases hmemo : heights.get id with
    | some height =>
      dsimp only
      split
      · next hlt => exact fun hfine => absurd ((hnoted id height hmemo _).mp hfine) (not_le.mpr hlt)
      · next hle => exact ⟨hnoted id height hmemo, not_lt.mp hle, hnoted⟩
    | none =>
      have hfine : ∀ n, Fine r (n + 1) id ↔
          (group.id = id ∧ identifier id = true) ∧ group.members.length ≤ maxGroupExpansion ∧
            ∀ member ∈ group.members, Sits r (Fine r n) group.tenant member := by
        intro n
        simp [Fine, hgroup]
      have hlower : ∀ child, .group child ∈ group.members → ∀ top ∈ id :: path,
          Higher r top child := by
        intro child hchild
        have hhigher : Higher r id child := .of_lists ⟨group, hgroup, hchild⟩
        exact forall_mem_cons.mpr ⟨hhigher, fun top htop => (hpath top htop).trans hhigher⟩
      dsimp only
      refine .ensure (fun _ => ?_) fun hmem => ?_
      · rw [hgroup]
        refine .ensure (fun hidentity => .ensure (fun hsize => ?_) ?_) ?_
        · simp only [decide_true, Bool.true_and, Bool.and_eq_true, decide_eq_true_eq]
            at hidentity hsize
          have hvisited := visitMembers_ends group.tenant
            (fun child below heights hchild hbelow htenant hheights => htenant ▸ ih hbelow
              (fun top htop => hlower child hchild top htop) hheights) hnoted
          refine .bind (hvisited.mono (fun _ h => h)
            fun _ hnot h => hnot ((hfine room).mp h).2.2) fun out hout => ?_
          have hexact : Exact r out.1 id := by
            rintro (_ | n)
            · exact ⟨fun h => h.elim, fun h => absurd (hout.pos.trans h) (by simp)⟩
            · rw [hfine, hout.exact, and_iff_right hidentity, and_iff_right hsize]
          refine ⟨hexact, hout.le, fun other height hother => ?_⟩
          rcases TreeMap.of_get_insert hother with ⟨rfl, rfl⟩ | ⟨-, hother⟩
          · exact hexact
          · exact hout.noted other height hother
        · exact fun hnot h => hnot (decide_eq_true ((hfine room).mp h).2.1)
        · exact fun hnot h => hnot (by simp [((hfine room).mp h).1])
      · exact (hpath id (by simpa using hmem)).irrefl

/-- All groups pass the checks, and no chain of them is too long. -/
theorem validateGroups_eq_ok : validateGroups r.groups r.principals = .ok () ↔
    ∀ id group, r.groups.get id = some group → Fine r maxGroupDepth id := by
  have hends : Ends (fun _ => ∀ entry ∈ r.groups.entries, Fine r maxGroupDepth entry.1)
      (fun _ => ¬ ∀ entry ∈ r.groups.entries, Fine r maxGroupDepth entry.1)
      (validateGroups r.groups r.principals) := by
    refine .bind (.foldlM (fun (done : List (String × GroupRecord)) heights =>
      Noted r heights ∧ ∀ entry ∈ done, Fine r maxGroupDepth entry.1)
      ⟨fun _ _ h => (by cases h), forall_mem_nil _⟩
      fun done heights entry hentry hdone => ?_) fun _ h => h.2
    have hvisit := visitGroup_ends maxGroupDepth (TreeMap.get_eq_some_iff.mpr hentry)
      (forall_mem_nil _) hdone.1
    refine .bind (hvisit.mono (fun _ h => h) fun _ hnot hall => hnot (hall entry hentry))
      fun out hout => ?_
    refine ⟨hout.2.2, forall_mem_append.mpr ⟨hdone.2, forall_mem_singleton.mpr ?_⟩⟩
    exact (hout.1 _).mpr hout.2.1
  have hall : (∀ entry ∈ r.groups.entries, Fine r maxGroupDepth entry.1) ↔
      ∀ id group, r.groups.get id = some group → Fine r maxGroupDepth id := by
    simp [TreeMap.get_eq_some_iff]
  rw [← hall]
  cases hrun : validateGroups r.groups r.principals with
  | ok u =>
    rw [hrun] at hends
    exact ⟨fun _ => hends, fun _ => rfl⟩
  | error e =>
    rw [hrun] at hends
    exact ⟨fun h => (by cases h), fun h => absurd h hends⟩

/-- A chain of groups is no longer than its first group stands high. -/
theorem Fine.length_le {ids : List String} (h : Fine r n id)
    (hchain : List.IsChain (Nests r) (id :: ids)) : ids.length < n := by
  induction ids generalizing id n with
  | nil =>
    cases n with
    | zero => cases h
    | succ n => exact Nat.succ_pos n
  | cons child ids ih =>
    obtain ⟨hlists, hrest⟩ := isChain_cons_cons.mp hchain
    obtain ⟨m, rfl, hm⟩ := h.below hlists
    exact Nat.succ_lt_succ (ih hm hrest)

theorem validGroups_iff : ValidGroups r ↔
    ∀ id group, r.groups.get id = some group → Fine r maxGroupDepth id := by
  constructor
  · intro h
    suffices hfine : ∀ n id group, r.groups.get id = some group →
        (∀ ids, List.IsChain (Nests r) (id :: ids) → ids.length < n) → Fine r n id from
      fun id group hgroup => hfine _ id group hgroup fun ids => h.depth (id :: ids)
    intro n
    induction n with
    | zero => exact fun id _ _ hshort => absurd (hshort [] (isChain_singleton id)) (by simp)
    | succ n ih =>
      intro id group hgroup hshort
      refine ⟨group, hgroup, h.identity hgroup, h.size hgroup, fun member hmember =>
        ⟨h.members hgroup member hmember, ?_⟩⟩
      rintro child rfl
      obtain ⟨below, hbelow, -⟩ := h.members hgroup _ hmember
      exact ih child below hbelow fun ids hchain => Nat.lt_of_succ_lt_succ
        (hshort (child :: ids) (isChain_cons_cons.mpr ⟨⟨group, hgroup, hmember⟩, hchain⟩))
  · intro h
    have hchecks : ∀ {id group}, r.groups.get id = some group →
        (group.id = id ∧ identifier id = true) ∧ group.members.length ≤ maxGroupExpansion ∧
          ∀ member ∈ group.members, Present r group.tenant member := by
      intro id group hgroup
      obtain ⟨_, hsame, hidentity, hsize, hmembers⟩ := h id group hgroup
      cases hgroup.symm.trans hsame
      exact ⟨hidentity, hsize, fun member hmember => (hmembers member hmember).1⟩
    refine ⟨fun hgroup => (hchecks hgroup).1, fun hgroup => (hchecks hgroup).2.2,
      fun id hcycle => ?_, fun ids hchain => ?_, fun hgroup => (hchecks hgroup).2.1⟩
    · have hhigher : ∀ {top}, Relation.TransGen (Nests r) id top → Higher r id top := by
        intro top htop
        induction htop with
        | single hlists => exact .of_lists hlists
        | tail _ hlists ih => exact ih.trans (.of_lists hlists)
      obtain ⟨_, ⟨group, hgroup, -⟩, -⟩ := Relation.TransGen.head'_iff.mp hcycle
      exact (hhigher hcycle).irrefl (h id group hgroup)
    · obtain _ | ⟨id, _ | ⟨child, ids⟩⟩ := ids
      · exact Nat.zero_le _
      · exact Nat.succ_le_of_lt (by decide)
      · obtain ⟨group, hgroup, -⟩ := (isChain_cons_cons.mp hchain).1
        exact (h id group hgroup).length_le hchain

/-! ## The groups above a principal -/

section

variable {principal : PrincipalRecord} (h : ValidGroups r) (hprincipal : ∀ registered,
  r.principals.get principal.id = some registered → registered.tenant = principal.tenant)
include h hprincipal

/-- They all have its tenant. -/
theorem Belongs.tenant (hid : Belongs r principal.id id) :
    ∃ group, r.groups.get id = some group ∧ group.tenant = principal.tenant := by
  induction hid with
  | direct hlists =>
    obtain ⟨group, hgroup, hmember⟩ := hlists
    obtain ⟨registered, hregistered, htenant⟩ := h.members hgroup _ hmember
    exact ⟨group, hgroup, htenant.symm.trans (hprincipal registered hregistered)⟩
  | nested _ hlists ih =>
    obtain ⟨group, hgroup, hmember⟩ := hlists
    obtain ⟨child, hchild, htenant⟩ := ih
    obtain ⟨_, hsame, hsameTenant⟩ := h.members hgroup _ hmember
    cases hchild.symm.trans hsame
    exact ⟨group, hgroup, hsameTenant.symm.trans htenant⟩

/-- The groups that list a member are found, where all of them have the tenant. -/
theorem mem_containers {member : GroupMember}
    (hup : ∀ up, Lists r up member → Belongs r principal.id up) :
    id ∈ containers r.groups principal.tenant member ↔ Lists r id member := by
  simp only [containers, mem_flatMap, mem_filter, TreeMap.mem_values, mem_map, decide_eq_true_eq]
  constructor
  · rintro ⟨group, ⟨⟨key, hgroup⟩, -⟩, _, ⟨hmember, rfl⟩, rfl⟩
    rw [(h.identity hgroup).1]
    exact ⟨group, hgroup, hmember⟩
  · intro hlists
    obtain ⟨group, hgroup, htenant⟩ := (hup id hlists).tenant h hprincipal
    obtain ⟨_, hsame, hmember⟩ := hlists
    cases hgroup.symm.trans hsame
    exact ⟨group, ⟨⟨id, hgroup⟩, htenant⟩, member, ⟨hmember, rfl⟩, (h.identity hgroup).1⟩

end

variable (r) in
/-- What holds of the queue and of the groups expanded so far; `pending` are the members whose
groups may be missing. -/
structure Expanding (principal : String) (pending : List GroupMember) (state : Frontier) :
    Prop where
  sound : ∀ id ∈ state.2, Belongs r principal id
  low : ∀ entry ∈ state.1, ∀ up, Lists r up entry.1 →
    Belongs r principal up ∧ ∀ n, Fine r n up → entry.2 < n
  closed : ∀ member, (member = .principal principal ∨ ∃ id ∈ state.2, member = .group id) →
    member ∈ pending ∨ ∀ up, Lists r up member → up ∈ state.2

variable (r) in
/-- An expansion fails only when there are too many groups. -/
def TooMany (principal : String) (error : SecurityError) : Prop :=
  error = .budgetExceeded ∧ maxGroupExpansion < {id | Belongs r principal id}.ncard

variable {principal : String} {pending : List GroupMember} {depth : ℕ} {member : GroupMember}
  {state : Frontier}

theorem Belongs.mem_keys (h : Belongs r principal id) : id ∈ r.groups.keys := by
  have hthere : ∀ {member}, Lists r id member → id ∈ r.groups.keys := fun hlists =>
    TreeMap.mem_keys.mpr ⟨_, hlists.choose_spec.1⟩
  cases h with
  | direct hlists | nested _ hlists => exact hthere hlists

/-- **One more group.** -/
theorem Expanding.one (h : Expanding r principal (pending ++ state.1.map Prod.fst) state)
    (hbelongs : Belongs r principal id) (hheight : ∀ n, Fine r n id → depth < n)
    (hfine : Fine r maxGroupDepth id) :
    Ends (fun next => Expanding r principal (pending ++ next.1.map Prod.fst) next ∧
        id ∈ next.2 ∧ state.2 ⊆ next.2) (TooMany r principal) (expandOne depth state id) := by
  refine .ensure (fun _ => ?_) fun hdeep => absurd (decide_eq_true (hheight _ hfine)) hdeep
  split
  · next hmem => exact ⟨h, hmem, subset_rfl⟩
  · have hsound : ∀ other ∈ insert id state.2, Belongs r principal other :=
      fun other hother => (Finset.mem_insert.mp hother).elim (· ▸ hbelongs) (h.sound other)
    refine .ensure (fun _ => ?_) fun hfull => ?_
    · refine ⟨⟨hsound, fun entry hentry => ?_, fun other hother => ?_⟩,
        Finset.mem_insert_self _ _, Finset.subset_insert _ _⟩
      · rcases mem_append.mp hentry with hentry | hentry
        · exact h.low entry hentry
        · cases mem_singleton.mp hentry
          intro up hup
          refine ⟨.nested hbelongs hup, fun n hn => ?_⟩
          obtain ⟨m, rfl, hm⟩ := hn.below hup
          exact Nat.succ_lt_succ (hheight m hm)
      · have hold : (other = .principal principal ∨ ∃ old ∈ state.2, other = .group old) ∨
            other = .group id := by
          rcases hother with rfl | ⟨old, hold, rfl⟩
          · exact .inl (.inl rfl)
          · rcases Finset.mem_insert.mp hold with rfl | hold
            · exact .inr rfl
            · exact .inl (.inr ⟨old, hold, rfl⟩)
        rw [map_append, ← append_assoc, mem_append]
        rcases hold with hold | rfl
        · exact (h.closed other hold).imp .inl fun hall up hup =>
            Finset.mem_insert_of_mem (hall up hup)
        · exact .inl (.inr mem_cons_self)
    · rw [decide_eq_true_eq, not_le] at hfull
      refine ⟨rfl, hfull.trans_le ?_⟩
      rw [← Set.ncard_coe_finset]
      exact Set.ncard_le_ncard hsound
        ((r.groups.keys.finite_toSet).subset fun other hother => hother.mem_keys)

section

variable {principal : PrincipalRecord} (h : ValidGroups r) (hprincipal : ∀ registered,
  r.principals.get principal.id = some registered → registered.tenant = principal.tenant)
  {rest frontier : List (GroupMember × ℕ)} {expanded : Finset String}
include h hprincipal

/-- **One round of the loop.** -/
theorem Expanding.round (hstart : Expanding r principal.id (member :: rest.map Prod.fst)
    ((member, depth) :: rest, expanded)) :
    Ends (fun next => Expanding r principal.id (next.1.map Prod.fst) next) (TooMany r principal.id)
      ((containers r.groups principal.tenant member).foldlM (expandOne depth)
        (rest, expanded)) := by
  have hlow := hstart.low _ mem_cons_self
  have hmem : ∀ {id}, id ∈ containers r.groups principal.tenant member ↔ Lists r id member :=
    mem_containers h hprincipal fun up hup => (hlow up hup).1
  generalize containers r.groups principal.tenant member = ids at *
  have hstep : Ends (fun next => Expanding r principal.id ([member] ++ next.1.map Prod.fst) next ∧
      ∀ id ∈ ids, id ∈ next.2) (TooMany r principal.id)
      (ids.foldlM (expandOne depth) (rest, expanded)) := by
    refine .foldlM (fun done (next : Frontier) =>
      Expanding r principal.id ([member] ++ next.1.map Prod.fst) next ∧ ∀ id ∈ done, id ∈ next.2)
      ⟨⟨hstart.sound, fun entry hentry => hstart.low entry (mem_cons_of_mem _ hentry),
        hstart.closed⟩, forall_mem_nil _⟩ fun done next id hid hnext => ?_
    have hlists := hmem.mp hid
    obtain ⟨hbelongs, hheight⟩ := hlow id hlists
    obtain ⟨group, hgroup, -⟩ := hlists
    refine (hnext.1.one hbelongs hheight (validGroups_iff.mp h id group hgroup)).mono
      (fun out hout => ⟨hout.1, ?_⟩) fun _ h => h
    exact forall_mem_append.mpr ⟨fun other hother => hout.2.2 (hnext.2 other hother),
      forall_mem_singleton.mpr hout.2.1⟩
  refine hstep.mono (fun next hnext => ⟨hnext.1.sound, hnext.1.low, fun other hother => ?_⟩)
    fun _ h => h
  rcases hnext.1.closed other hother with hpending | hclosed
  · rcases mem_cons.mp hpending with rfl | hpending
    · exact .inr fun up hup => hnext.2 up (hmem.mpr hup)
    · exact .inl hpending
  · exact .inr hclosed

/-- **The loop** ends with all groups above the principal. -/
theorem expandLoop_ends
    (hstart : Expanding r principal.id (frontier.map Prod.fst) (frontier, expanded)) :
    Ends (fun out => ∀ id, id ∈ out ↔ Belongs r principal.id id) (TooMany r principal.id)
      (expandLoop r.groups principal.tenant frontier expanded) := by
  induction frontier, expanded using expandLoop.induct r.groups principal.tenant with
  | case1 expanded =>
    rw [expandLoop]
    refine fun id => ⟨hstart.sound id, fun hid => ?_⟩
    have hclosed : ∀ {member up}, (member = .principal principal.id ∨
        ∃ id ∈ expanded, member = .group id) → Lists r up member → up ∈ expanded :=
      fun hmember hup => ((hstart.closed _ hmember).resolve_left not_mem_nil) _ hup
    induction hid with
    | direct hlists => exact hclosed (.inl rfl) hlists
    | nested _ hlists ih => exact hclosed (.inr ⟨_, ih, rfl⟩) hlists
  | case2 expanded member depth rest e hrun =>
    have hround := hstart.round h hprincipal
    rw [hrun] at hround
    rw [expandLoop]
    split
    · next heq =>
      cases hrun.symm.trans heq
      exact hround
    · next heq => cases hrun.symm.trans heq
  | case3 expanded member depth rest next hrun ih =>
    have hround := hstart.round h hprincipal
    rw [hrun] at hround
    rw [expandLoop]
    split
    · next heq => cases hrun.symm.trans heq
    · next heq =>
      cases hrun.symm.trans heq
      exact ih hround

end

end

/-- **Groups are validated and expanded exactly.** -/
theorem groups_exact (r : Registry) :
    (validateGroups r.groups r.principals = .ok () ↔ ValidGroups r) ∧
      (validateGroups r.groups r.principals = .ok () → ∀ principal : PrincipalRecord,
        (∀ registered, r.principals.get principal.id = some registered →
          registered.tenant = principal.tenant) →
          (∀ expanded, expandGroups r.groups principal = .ok expanded →
            ∀ id, id ∈ expanded ↔ Belongs r principal.id id) ∧
          ∀ error, expandGroups r.groups principal = .error error → error = .budgetExceeded ∧
            maxGroupExpansion < {id | Belongs r principal.id id}.ncard) := by
  have hvalid : validateGroups r.groups r.principals = .ok () ↔ ValidGroups r :=
    validateGroups_eq_ok.trans validGroups_iff.symm
  refine ⟨hvalid, fun hok principal hprincipal => ?_⟩
  have hstart : Expanding r principal.id (map Prod.fst [(.principal principal.id, 0)])
      ([(.principal principal.id, 0)], ∅) := by
    refine ⟨fun _ hid => absurd hid (Finset.notMem_empty _), fun entry hentry up hup => ?_,
      fun member hmember => .inl ?_⟩
    · cases mem_singleton.mp hentry
      refine ⟨.direct hup, fun n hn => Nat.pos_of_ne_zero ?_⟩
      rintro rfl
      exact hn
    · rcases hmember with rfl | ⟨id, hid, -⟩
      · exact mem_cons_self
      · exact absurd hid (Finset.notMem_empty _)
  have hends := expandLoop_ends (hvalid.mp hok) hprincipal hstart
  refine ⟨fun expanded hrun => ?_, fun error hrun => ?_⟩
  · rw [← expandGroups, hrun] at hends
    exact hends
  · rw [← expandGroups, hrun] at hends
    exact hends

def exampleEditor : PrincipalRecord :=
  ⟨"ann", "acme", true, ⟨"desk", .internal⟩, [], ∅, []⟩

/-- A group that is a member of another one. -/
def exampleRegistry : Registry where
  groups := TreeMap.empty.insert "editors" ⟨"editors", "acme", [.principal "ann"]⟩ |>.insert "staff"
    ⟨"staff", "acme", [.group "editors"]⟩
  principals := TreeMap.empty.insert "ann" exampleEditor

theorem groups_exact_editors : ValidGroups exampleRegistry ∧
    ∀ expanded, expandGroups exampleRegistry.groups exampleEditor = .ok expanded →
      ∀ id, id ∈ expanded ↔ Belongs exampleRegistry "ann" id := by
  obtain ⟨hvalid, hexpand⟩ := groups_exact exampleRegistry
  have hok : validateGroups exampleRegistry.groups exampleRegistry.principals = .ok () := by
    decide +kernel
  refine ⟨hvalid.mp hok, (hexpand hok exampleEditor fun registered hregistered => ?_).1⟩
  have hann : exampleRegistry.principals.get "ann" = some exampleEditor := by decide +kernel
  cases hann.symm.trans hregistered
  rfl

end ChironDB.Security
