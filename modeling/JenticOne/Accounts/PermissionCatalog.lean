import JenticOne.Library.Worklist
import Mathlib.Data.Finset.Sort
import Mathlib.Data.String.Basic

/-!
# The Permission Catalogue

The permissions, what each of them implies, and what a set of grants comes to. A
permission is held when it is granted or implied through any number of steps, and
the loops that expand a set of grants collect exactly that, whatever the order they
go through the sets in.

So the expansion is a closure: it is monotone, it distributes over the union of two
sets of grants, and it adds nothing to its own result. A retired permission implies
nothing and is implied by nothing, and the ceiling on what a caller may grant is
judged on the expanded set.

## Main definitions

* `allPermissions`, `implicationMap`: The catalogue.
* `computeEffective`, `computeImpliesTransitive`: The two loops.
* `buildEffectiveViews`: What is shown of a user's permissions.
* `validateGrants`, `ensureCanManage`, `checkAgentPermissionGrant`: The ceilings.
* `Effective`: What the loops are to collect.

## Theorems

* `mem_computeEffective`: The loop collects what the grants imply.
* `effective_trans`, `effective_append`: The expansion is a closure.
* `effective_retired`: What retired permissions come to.
* `expansions_agree`: Both loops and the views, in any order.
-/

namespace JenticOne

namespace Accounts

/-! ## The catalogue -/

def orgAdmin : String := "org:admin"

def agentsWrite : String := "agents:write"

/-- `Permission`: a name, and the names it implies. -/
structure Permission where
  name : String
  implies : List String

/-- `ALL_PERMISSIONS`. -/
def allPermissions : List Permission :=
  [⟨orgAdmin, ["capabilities:execute", "capabilities:read", "users:write", "users:read",
      "jobs:write", "jobs:read", "events:write", "events:read", "credentials:read",
      "credentials:write", "credentials:connect", "apis:read", "apis:write", "catalog:import",
      "overlays:confirm", "executions:read", "audit:read", agentsWrite, "agents:read",
      "config:write", "config:read", "oauth-clients:write", "oauth-clients:read"]⟩,
    ⟨"capabilities:execute", ["capabilities:read", "apis:read", "executions:read"]⟩,
    ⟨"capabilities:read", []⟩,
    ⟨"users:write", ["users:read"]⟩,
    ⟨"users:read", []⟩,
    ⟨"jobs:write", ["jobs:read"]⟩,
    ⟨"jobs:read", []⟩,
    ⟨"events:write", ["events:read"]⟩,
    ⟨"events:read", []⟩,
    ⟨"credentials:write", ["credentials:read", "credentials:connect"]⟩,
    ⟨"credentials:connect", []⟩,
    ⟨"credentials:read", []⟩,
    ⟨"apis:read", []⟩,
    ⟨"apis:write", ["apis:read", "catalog:import"]⟩,
    ⟨"catalog:import", ["apis:read"]⟩,
    ⟨"overlays:confirm", ["apis:read"]⟩,
    ⟨"executions:read", []⟩,
    ⟨"audit:read", []⟩,
    ⟨agentsWrite, ["agents:read"]⟩,
    ⟨"agents:read", []⟩,
    ⟨"config:write", ["config:read"]⟩,
    ⟨"config:read", []⟩,
    ⟨"oauth-clients:write", ["oauth-clients:read"]⟩,
    ⟨"oauth-clients:read", []⟩,
    ⟨"owner:resources:read", ["owner:credentials:read", "owner:agents:read"]⟩,
    ⟨"owner:credentials:read", []⟩,
    ⟨"owner:agents:read", []⟩]

def retiredPermissions : List String :=
  ["toolkits:read", "toolkits:write", "owner:toolkits:read", "owner:access-requests:read",
    "service-accounts:read", "service-accounts:write", "owner:service-accounts:read"]

def defaultAgentPermissions : List String :=
  ["capabilities:execute", "capabilities:read", "apis:read", "catalog:import", "executions:read",
    "jobs:read", "events:read", "owner:resources:read", "owner:agents:read",
    "owner:credentials:read", "credentials:connect"]

/-- `ADMIN_ONLY_AGENT_PERMISSIONS`. -/
def adminOnlyAgentPermissions : List String := [orgAdmin, agentsWrite]

/-- Whether the catalogue has a permission. -/
def inCatalogue (name : String) : Bool := allPermissions.any fun p => p.name = name

/-- `IMPLICATION_MAP.get(name, set())`. -/
def implicationMap (name : String) : List String :=
  ((allPermissions.find? fun p => p.name = name).map Permission.implies).getD []

/-! ## Expansion -/

/-- The rounds a loop can take: every permission that is implied is put on the stack
once at most. -/
def rounds (grants : List String) : Nat := grants.length + allPermissions.length

/-- `compute_effective`, where `implied` lists what a permission implies in the order
that it is gone through, and the grants are listed in the order they are taken. -/
def computeEffective (implied : String → List String) (grants : List String) : Finset String :=
  Worklist.walk implied (rounds grants) grants.toFinset grants

/-- `compute_implies_transitive`, and `_expand_one`. -/
def computeImpliesTransitive (implied : String → List String) (name : String) : Finset String :=
  Worklist.walk implied (rounds [name]) ∅ [name]

/-- `sorted` of a set of permissions. -/
def sorted (permissions : Finset String) : List String := permissions.sort (· ≤ ·)

/-- `EffectivePermissionView`. -/
structure EffectivePermissionView where
  name : String
  impliedBy : Option String
deriving DecidableEq

/-- `_build_effective_views`: a permission that is not assigned is shown with the first
assigned one that implies it. -/
def buildEffectiveViews (implied : String → List String) (assigned : List String) :
    List EffectivePermissionView :=
  (sorted (computeEffective implied assigned)).map fun name =>
    ⟨name, if name ∈ assigned then none
      else assigned.find? fun source => name ∈ computeImpliesTransitive implied source⟩

/-! ## Ceilings -/

/-- `is_agent_permission_grantable`. -/
def isAgentPermissionGrantable (permission : String) (callerEffective : Finset String) : Bool :=
  if orgAdmin ∈ callerEffective then true
  else if permission ∈ adminOnlyAgentPermissions then false
  else permission ∈ callerEffective ∨ permission ∈ defaultAgentPermissions

/-- What refuses a grant. -/
inductive GrantError
  | unknownPermission (permission : String)
  | orgAdminGrantForbidden
  | permissionNotGrantable (permission : String)
deriving DecidableEq

/-- What `validate_grants` does with one permission. -/
def validateGrant (granterSet : Finset String) (perm : String) : Except GrantError Unit :=
  if perm ∈ retiredPermissions then .ok ()
  else if inCatalogue perm = false then .error (.unknownPermission perm)
  else if perm = orgAdmin ∧ orgAdmin ∉ granterSet then .error .orgAdminGrantForbidden
  else if perm ∉ granterSet then .error (.permissionNotGrantable perm)
  else .ok ()

/-- `PermissionService.validate_grants`, with the grants of the granter as they are read. -/
def validateGrants (granter : List String) (permissions : List String) : Except GrantError Unit :=
  permissions.forM (validateGrant (computeEffective implicationMap granter))

/-- `ensure_can_manage`: whether the caller may, with the grants of both as they are
read. -/
def ensureCanManage (isSelf : Bool) (caller target : List String) : Bool :=
  isSelf || orgAdmin ∈ computeEffective implicationMap caller ||
    decide (computeEffective implicationMap (target.filter fun p => p ∉ retiredPermissions) ⊆
      computeEffective implicationMap caller)

/-- `check_agent_permission_grant`: first that the permissions are known, then the
ceiling. -/
def checkAgentPermissionGrant (requested callerPermissions alreadyHeld : List String) :
    Except GrantError Unit := do
  let newPermissions := requested.eraseDups.filter fun p => p ∉ alreadyHeld
  newPermissions.forM fun p =>
    if inCatalogue p = false ∧ p ∉ retiredPermissions then .error (.unknownPermission p) else .ok ()
  let effective := computeEffective implicationMap callerPermissions
  newPermissions.forM fun p =>
    if p ∈ retiredPermissions then .ok ()
    else if isAgentPermissionGrantable p effective then .ok ()
    else .error (.permissionNotGrantable p)

/-- The check of `enforce_identity_requirements` on the permissions a route requires. -/
def meetsRequirement (permissions required : List String) : Bool :=
  let callerPerms := computeEffective implicationMap permissions
  required = [] || orgAdmin ∈ callerPerms || required.any fun p => p ∈ callerPerms

/-- `_reduces_effective`. -/
def reducesEffective (previous new : List String) : Bool :=
  decide (∃ p ∈ computeEffective implicationMap previous,
    p ∉ computeEffective implicationMap new ∧ p ∉ retiredPermissions)

/-! ## What a set of grants comes to -/

/-- A permission is granted, or implied by a grant. -/
def Effective (grants : List String) (name : String) : Prop :=
  ∃ g ∈ grants, Relation.ReflTransGen (fun p q => q ∈ implicationMap p) g name

/-- The permissions that are implied by one. -/
def impliedNames : Finset String := (allPermissions.flatMap Permission.implies).toFinset

theorem mem_impliedNames {p q : String} (h : q ∈ implicationMap p) : q ∈ impliedNames := by
  rw [implicationMap] at h
  cases hfind : allPermissions.find? fun x => x.name = p with
  | none =>
      rw [hfind] at h
      exact absurd h List.not_mem_nil
  | some entry =>
      rw [hfind] at h
      exact List.mem_toFinset.mpr (List.mem_flatMap.mpr ⟨entry, List.mem_of_find?_eq_some hfind, h⟩)

theorem card_impliedNames : impliedNames.card ≤ allPermissions.length := by
  decide

/-- Every set of implied permissions is gone through in some order. -/
def Lists (implied : String → List String) : Prop :=
  ∀ p q, q ∈ implied p ↔ q ∈ implicationMap p

theorem lists_implicationMap : Lists implicationMap := fun _ _ => Iff.rfl

section Expansion

variable {implied : String → List String} {grants : List String} {name : String}

theorem Lists.eq (h : Lists implied) :
    (fun p q => q ∈ implied p) = fun p q => q ∈ implicationMap p :=
  funext fun p => funext fun q => propext (h p q)

/-- The loop collects what the grants imply. -/
theorem mem_computeEffective (h : Lists implied) :
    name ∈ computeEffective implied grants ↔ Effective grants name := by
  have hcard := card_impliedNames
  rw [computeEffective, Worklist.mem_walk_self impliedNames
    (fun p q hq => mem_impliedNames ((h p q).mp hq)) (by rw [rounds]; omega), h.eq]
  rfl

theorem mem_computeImpliesTransitive (h : Lists implied) {p q : String} :
    q ∈ computeImpliesTransitive implied p ↔ Worklist.Reaches implicationMap p q := by
  have hcard := card_impliedNames
  rw [computeImpliesTransitive, Worklist.mem_walk impliedNames
    (fun p q hq => mem_impliedNames ((h p q).mp hq))
    (by rw [rounds, Finset.sdiff_empty, List.length_singleton]; omega)
    fun x hx => absurd hx (Finset.notMem_empty x), Worklist.Reaches, h.eq]
  simp only [Finset.notMem_empty, List.mem_singleton, exists_eq_left, false_or]

/-- The expansion that the checks make. -/
theorem mem_effective : name ∈ computeEffective implicationMap grants ↔ Effective grants name :=
  mem_computeEffective lists_implicationMap

@[simp]
theorem mem_sorted {permissions : Finset String} {p : String} :
    p ∈ sorted permissions ↔ p ∈ permissions :=
  Finset.mem_sort (· ≤ ·)

theorem nodup_sorted (permissions : Finset String) : (sorted permissions).Nodup :=
  permissions.sort_nodup (· ≤ ·)

end Expansion

/-! ## The closure -/

section Closure

variable {grants grants' : List String} {name : String}

theorem effective_of_mem (h : name ∈ grants) : Effective grants name :=
  ⟨name, h, Relation.ReflTransGen.refl⟩

theorem effective_of_implied {p : String} (h : Effective grants p)
    (hname : name ∈ implicationMap p) : Effective grants name := by
  rcases h with ⟨g, hg, hreach⟩
  exact ⟨g, hg, hreach.tail hname⟩

/-- What is implied by a set of effective permissions is effective. -/
theorem effective_trans (h : ∀ p ∈ grants', Effective grants p) (hname : Effective grants' name) :
    Effective grants name := by
  rcases hname with ⟨p, hp, hreach⟩
  rcases h p hp with ⟨g, hg, hfirst⟩
  exact ⟨g, hg, hfirst.trans hreach⟩

theorem effective_mono (h : ∀ p ∈ grants', p ∈ grants) (hname : Effective grants' name) :
    Effective grants name :=
  effective_trans (fun p hp => effective_of_mem (h p hp)) hname

theorem effective_append :
    Effective (grants ++ grants') name ↔ Effective grants name ∨ Effective grants' name := by
  constructor
  · rintro ⟨g, hg, hreach⟩
    rcases List.mem_append.mp hg with hg | hg
    · exact Or.inl ⟨g, hg, hreach⟩
    · exact Or.inr ⟨g, hg, hreach⟩
  · rintro (h | h)
    · exact effective_mono (fun p hp => List.mem_append_left grants' hp) h
    · exact effective_mono (fun p hp => List.mem_append_right grants hp) h

/-- Effective permissions lie in every set that has the grants and what its members
imply. -/
theorem effective_subset {within : String → Prop} (hgrants : ∀ p ∈ grants, within p)
    (hclosed : ∀ p, within p → ∀ q ∈ implicationMap p, within q) (h : Effective grants name) :
    within name := by
  rcases h with ⟨g, hg, hreach⟩
  induction hreach with
  | refl => exact hgrants g hg
  | tail _ hstep ih => exact hclosed _ ih _ hstep

/-- What is implied is in the catalogue, and is neither `org:admin` nor retired. -/
theorem implied_spec {p q : String} (h : q ∈ implicationMap p) :
    inCatalogue q = true ∧ q ≠ orgAdmin ∧ q ∉ retiredPermissions := by
  have hall : ∀ q ∈ impliedNames,
      inCatalogue q = true ∧ q ≠ orgAdmin ∧ q ∉ retiredPermissions := by
    decide
  exact hall q (mem_impliedNames h)

/-- Only `org:admin` implies what no caller but an administrator may put on an agent. -/
theorem eq_orgAdmin_of_implied {p q : String} (h : q ∈ implicationMap p)
    (hq : q ∈ adminOnlyAgentPermissions) : p = orgAdmin := by
  have hall : ∀ entry ∈ allPermissions, ∀ q ∈ entry.implies, q ∈ adminOnlyAgentPermissions →
      entry.name = orgAdmin := by
    decide
  rw [implicationMap] at h
  cases hfind : allPermissions.find? fun x => x.name = p with
  | none =>
      rw [hfind] at h
      exact absurd h List.not_mem_nil
  | some entry =>
      rw [hfind] at h
      have hname := List.find?_some hfind
      rw [decide_eq_true_eq] at hname
      rw [← hname]
      exact hall entry (List.mem_of_find?_eq_some hfind) q h hq

/-- A permission outside the catalogue implies nothing. -/
theorem implicationMap_of_not_inCatalogue {p : String} (h : inCatalogue p = false) :
    implicationMap p = [] := by
  have hnone : allPermissions.find? (fun x => x.name = p) = none := by
    rw [List.find?_eq_none]
    intro entry hentry hname
    rw [inCatalogue, List.any_eq_false] at h
    exact h entry hentry hname
  rw [implicationMap, hnone]
  rfl

theorem retired_not_inCatalogue {p : String} (h : p ∈ retiredPermissions) :
    inCatalogue p = false := by
  have hall : ∀ p ∈ retiredPermissions, inCatalogue p = false := by
    decide
  exact hall p h

/-- `org:admin` is held where it is granted. -/
theorem effective_orgAdmin : Effective grants orgAdmin ↔ orgAdmin ∈ grants := by
  constructor
  · rintro ⟨g, hg, hreach⟩
    rcases Relation.ReflTransGen.cases_tail hreach with rfl | ⟨p, _, hstep⟩
    · exact hg
    · exact absurd rfl (implied_spec hstep).2.1
  · exact effective_of_mem

/-- Retired permissions add nothing but themselves. -/
theorem effective_retired (h : ∀ p ∈ grants', Effective grants p ∨ p ∈ retiredPermissions)
    (hname : Effective grants' name) : Effective grants name ∨ name ∈ retiredPermissions := by
  refine effective_subset h (fun p hp q hq => ?_) hname
  rcases hp with hp | hp
  · exact Or.inl (effective_of_implied hp hq)
  · rw [implicationMap_of_not_inCatalogue (retired_not_inCatalogue hp)] at hq
    exact absurd hq List.not_mem_nil

end Closure

/-! ## What the ceilings let through -/

theorem forM_eq_ok {ε α : Type} {l : List α} {f : α → Except ε Unit} :
    l.forM f = .ok () ↔ ∀ x ∈ l, f x = .ok () := by
  induction l with
  | nil => exact iff_of_true rfl fun x hx => absurd hx List.not_mem_nil
  | cons x rest ih =>
      change (f x >>= fun _ => rest.forM f) = .ok () ↔ _
      rw [List.forall_mem_cons, ← ih]
      cases f x with
      | error e => exact iff_of_false (fun h => nomatch h) fun h => nomatch h.1
      | ok u => exact ⟨fun h => ⟨rfl, h⟩, fun h => h.2⟩

/-- What a granter may grant to a user. -/
theorem validateGrants_ok {granter permissions : List String}
    (h : validateGrants granter permissions = .ok ()) {p : String} (hp : p ∈ permissions) :
    p ∈ retiredPermissions ∨ inCatalogue p = true ∧ Effective granter p := by
  have hone := forM_eq_ok.mp h p hp
  unfold validateGrant at hone
  by_cases hretired : p ∈ retiredPermissions
  · exact Or.inl hretired
  · rw [if_neg hretired] at hone
    split at hone
    · exact nomatch hone
    · rename_i hcatalogue
      split at hone
      · exact nomatch hone
      · split at hone
        · exact nomatch hone
        · rename_i hheld
          rw [Bool.not_eq_false] at hcatalogue
          rw [not_not, mem_effective] at hheld
          exact Or.inr ⟨hcatalogue, hheld⟩

theorem isAgentPermissionGrantable_iff {p : String} {grants : List String} :
    isAgentPermissionGrantable p (computeEffective implicationMap grants) = true ↔
      Effective grants orgAdmin ∨
        p ∉ adminOnlyAgentPermissions ∧ (Effective grants p ∨ p ∈ defaultAgentPermissions) := by
  unfold isAgentPermissionGrantable
  by_cases hadmin : orgAdmin ∈ computeEffective implicationMap grants
  · rw [if_pos hadmin]
    exact iff_of_true rfl (Or.inl (mem_effective.mp hadmin))
  · rw [if_neg hadmin]
    rw [mem_effective] at hadmin
    by_cases honly : p ∈ adminOnlyAgentPermissions
    · rw [if_pos honly]
      exact iff_of_false Bool.false_ne_true fun h =>
        h.elim hadmin fun h => h.1 honly
    · rw [if_neg honly, decide_eq_true_eq, mem_effective]
      exact ⟨fun h => Or.inr ⟨honly, h⟩, fun h => h.elim (fun h => absurd h hadmin) And.right⟩

/-- What a caller may grant to an agent. -/
theorem checkAgentPermissionGrant_ok {requested caller held : List String}
    (h : checkAgentPermissionGrant requested caller held = .ok ()) {p : String}
    (hp : p ∈ requested) :
    p ∈ held ∨ p ∈ retiredPermissions ∨ inCatalogue p = true ∧
      isAgentPermissionGrantable p (computeEffective implicationMap caller) = true := by
  unfold checkAgentPermissionGrant at h
  dsimp only at h
  by_cases hheld : p ∈ held
  · exact Or.inl hheld
  · by_cases hretired : p ∈ retiredPermissions
    · exact Or.inr (Or.inl hretired)
    · have hnew : p ∈ requested.eraseDups.filter fun p => p ∉ held :=
        List.mem_filter.mpr ⟨List.mem_eraseDups.mpr hp, decide_eq_true hheld⟩
      refine Or.inr (Or.inr ?_)
      cases hknown : (requested.eraseDups.filter fun p => p ∉ held).forM fun p =>
          if inCatalogue p = false ∧ p ∉ retiredPermissions then
            Except.error (GrantError.unknownPermission p) else .ok () with
      | error e =>
          rw [hknown] at h
          exact nomatch h
      | ok u =>
          rw [hknown] at h
          have hone := forM_eq_ok.mp hknown p hnew
          have hgrant := forM_eq_ok.mp h p hnew
          constructor
          · by_contra hnot
            rw [if_pos ⟨Bool.eq_false_of_not_eq_true hnot, hretired⟩] at hone
            exact nomatch hone
          · by_contra hnot
            rw [if_neg hretired, if_neg hnot] at hgrant
            exact nomatch hgrant

/-! ## The order that sets are gone through in -/

/-- What the loops and the views come to, where `implied` and the grants are gone
through in some order: the least set that has the grants and what its members imply, and
one view for each of its permissions, with an assigned permission that implies it where
it is not assigned itself. -/
structure ExpansionsAgree (implied : String → List String) (grants : List String) : Prop where
  orders : ∀ grants' : List String, (∀ p, p ∈ grants' ↔ p ∈ grants) →
    computeEffective implied grants' = computeEffective implicationMap grants
  least : ∀ within : Finset String, computeEffective implied grants ⊆ within ↔
    ∃ closed ⊆ within, (∀ p ∈ grants, p ∈ closed) ∧
      ∀ p ∈ closed, ∀ q ∈ implicationMap p, q ∈ closed
  sources : ∀ p, p ∈ computeEffective implied grants ↔
    p ∈ grants ∨ ∃ g ∈ grants, p ∈ computeImpliesTransitive implied g
  once : ((buildEffectiveViews implied grants).map EffectivePermissionView.name).Nodup
  shown : ∀ p, (∃ view ∈ buildEffectiveViews implied grants, view.name = p) ↔
    p ∈ computeEffective implied grants
  impliedBy : ∀ view ∈ buildEffectiveViews implied grants,
    (view.impliedBy = none ↔ view.name ∈ grants) ∧
      ∀ source ∈ view.impliedBy, source ∈ grants ∧
        view.name ∈ computeImpliesTransitive implied source

/-- The expansions agree, however the sets are gone through. -/
theorem expansions_agree {implied : String → List String} (h : Lists implied)
    (grants : List String) : ExpansionsAgree implied grants := by
  have hsource : ∀ p, p ∈ computeEffective implied grants ↔
      p ∈ grants ∨ ∃ g ∈ grants, p ∈ computeImpliesTransitive implied g := by
    intro p
    rw [mem_computeEffective h]
    constructor
    · rintro ⟨g, hg, hreach⟩
      rcases Relation.reflTransGen_iff_eq_or_transGen.mp hreach with rfl | hreach
      · exact Or.inl hg
      · exact Or.inr ⟨g, hg, (mem_computeImpliesTransitive h).mpr hreach⟩
    · rintro (hp | ⟨g, hg, hreach⟩)
      · exact effective_of_mem hp
      · exact ⟨g, hg, ((mem_computeImpliesTransitive h).mp hreach).to_reflTransGen⟩
  refine ⟨fun grants' hsame => ?_, fun within => ⟨fun hsub => ?_, ?_⟩, hsource, ?_, fun p => ?_,
    fun view hview => ?_⟩
  · ext p
    rw [mem_computeEffective h, mem_effective]
    exact ⟨effective_mono fun q hq => (hsame q).mp hq, effective_mono fun q hq => (hsame q).mpr hq⟩
  · refine ⟨_, hsub, fun p hp => (mem_computeEffective h).mpr (effective_of_mem hp),
      fun p hp q hq => ?_⟩
    exact (mem_computeEffective h).mpr (effective_of_implied ((mem_computeEffective h).mp hp) hq)
  · rintro ⟨closed, hsub, hgrants, hclosed⟩ p hp
    exact hsub (effective_subset hgrants hclosed ((mem_computeEffective h).mp hp))
  · rw [buildEffectiveViews, List.map_map]
    exact (nodup_sorted _).map fun _ _ hne => hne
  · rw [buildEffectiveViews]
    simp only [List.mem_map, mem_sorted, exists_exists_and_eq_and, exists_eq_right]
  · rw [buildEffectiveViews, List.mem_map] at hview
    rcases hview with ⟨p, hp, rfl⟩
    rw [mem_sorted, hsource] at hp
    dsimp only
    by_cases hgrant : p ∈ grants
    · rw [if_pos hgrant]
      exact ⟨iff_of_true rfl hgrant, fun source hs => absurd hs (Option.not_mem_none source)⟩
    · rw [if_neg hgrant]
      rcases hp.resolve_left hgrant with ⟨g, hg, hreach⟩
      refine ⟨iff_of_false (fun hnone => ?_) hgrant, fun source hs => ?_⟩
      · rw [List.find?_eq_none] at hnone
        exact hnone g hg (decide_eq_true hreach)
      · have hfound := List.find?_some hs
        exact ⟨List.mem_of_find?_eq_some hs, of_decide_eq_true hfound⟩

/-- The sets gone through from their other end. -/
theorem expansions_agree_reversed :
    ExpansionsAgree (fun p => (implicationMap p).reverse)
      ["owner:resources:read", "toolkits:read", "apis:write"] :=
  expansions_agree (fun _ _ => List.mem_reverse) _

end Accounts

end JenticOne
