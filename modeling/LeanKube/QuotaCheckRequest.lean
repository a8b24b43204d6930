import LeanKube.ListRelations
import LeanKube.QuotaResources

/-! `CheckRequest` of the quota admission plugin (`plugin/pkg/admission/resourcequota/controller.go`): a
request against a list of quotas. It fails, or gives the quotas with the usage that they would have. -/

namespace LeanKube.Quota
open Finmap

structure ScopedSelector where
  scopeName : String
  operator : String
  values : List String
  deriving DecidableEq, Repr

structure QuotaSpec where
  scopes : List String
  scopeSelector : Option (List ScopedSelector)
  deriving DecidableEq, Repr

structure ResourceQuota where
  name : String
  resourceVersion : Nat
  spec : QuotaSpec
  hard : ResourceList
  used : ResourceList
  deriving DecidableEq

structure GroupResource where
  group : String
  resource : String
  deriving DecidableEq, Repr

inductive Operation where
  | create
  | update
  | delete
  | connect
  deriving DecidableEq, Repr

structure Attributes (Obj : Type) where
  resource : GroupResource
  operation : Operation
  object : Obj
  oldObject : Option Obj
  dryRun : Bool
  deriving DecidableEq

/-- `quota.Evaluator` for the objects of a resource. What it matches a quota by is the quota's spec and its limits. -/
structure Evaluator (Obj : Type) where
  handles : Attributes Obj → Bool
  matchingScopes : Obj → List ScopedSelector → Except String (List ScopedSelector)
  matchesQuota : QuotaSpec → ResourceList → Obj → Except String Bool
  matchingResources : Finset ResourceName → Finset ResourceName
  constraints : Finset ResourceName → Obj → Except String Unit
  usage : Obj → Except String ResourceList
  uncoveredQuotaScopes : List ScopedSelector → List ScopedSelector → Except String (List ScopedSelector)
  hasResourceVersion : Obj → Bool

structure LimitedResource where
  resource : GroupResource
  matchContains : List String
  matchScopes : List ScopedSelector

inductive CheckError where
  /-- "error matching scopes of quota %s, err: %v" -/
  | matchingScopes (quota err : String)
  | matching (err : String)
  /-- "failed quota: %s: %v" -/
  | failedQuota (quota err : String)
  /-- "status unknown for quota: %s" -/
  | statusUnknown (quota : String)
  /-- "insufficient quota to consume: %v" -/
  | insufficientQuota (resources : Finset ResourceName)
  | uncoveredQuotaScopes (err : String)
  /-- "insufficient quota to match these scopes: %v" -/
  | insufficientScopes (scopes : List ScopedSelector)
  | usage (err : String)
  /-- "quota usage is negative for resource(s): %s" -/
  | negativeUsage (resources : Finset ResourceName)
  /-- "unable to get previous usage since prior version of object was not found" -/
  | noPreviousVersion
  /-- "exceeded quota: %s, requested: %s, used: %s, limited: %s" -/
  | exceededQuota (quota : String) (requested used limited : ResourceList)

variable {Obj : Type}

def filterLimitedResourcesByGroupResource (input : List LimitedResource) (groupResource : GroupResource) :
    List LimitedResource :=
  input.filter fun limitedResource => decide (limitedResource.resource = groupResource)

def limitedByDefault (usage : ResourceList) (limitedResources : List LimitedResource) : Finset ResourceName :=
  usage.keys.filter fun key => 0 < amount usage key ∧ ∃ limitedResource ∈ limitedResources,
    ∃ matchContain ∈ limitedResource.matchContains, matchContain.toList <:+: key.toList

def getScopeSelectorsFromQuota (spec : QuotaSpec) : List ScopedSelector :=
  spec.scopes.map (fun scope => ⟨scope, "Exists", []⟩) ++ spec.scopeSelector.getD []

def hasUsageStats (quota : ResourceQuota) : Bool := decide (∀ resource ∈ quota.hard.keys, resource ∈ quota.used)

structure Pertinent where
  interesting : List Bool
  restrictedResources : Finset ResourceName
  restrictedScopes : List ScopedSelector

namespace Evaluator
variable (e : Evaluator Obj)

def getMatchedLimitedScopes (inputObject : Obj) : List LimitedResource → Except String (List ScopedSelector)
  | [] => .ok []
  | limitedResource :: rest =>
    match e.matchingScopes inputObject limitedResource.matchScopes with
    | .error err => .error err
    | .ok matched => (getMatchedLimitedScopes inputObject rest).map (matched ++ ·)

def limitedResourceNames (limited : List LimitedResource) (a : Attributes Obj) : Except String (Finset ResourceName) :=
  let limitedResources := filterLimitedResourcesByGroupResource limited a.resource
  if limitedResources = [] then .ok ∅
  else (e.usage a.object).map fun deltaUsage => limitedByDefault deltaUsage limitedResources

/-- The turn of the loop over the quotas for one of them: whether it matches, the resources and the scopes
that it restricts. -/
def restrict (inputObject : Obj) (quota : ResourceQuota) :
    Except CheckError (Bool × Finset ResourceName × List ScopedSelector) :=
  match e.matchingScopes inputObject (getScopeSelectorsFromQuota quota.spec) with
  | .error err => .error (.matchingScopes quota.name err)
  | .ok localRestrictedScopes =>
    match e.matchesQuota quota.spec quota.hard inputObject with
    | .error err => .error (.matching err)
    | .ok false => .ok (false, ∅, localRestrictedScopes)
    | .ok true =>
      match e.constraints (e.matchingResources quota.hard.keys) inputObject with
      | .error err => .error (.failedQuota quota.name err)
      | .ok _ =>
        if hasUsageStats quota then .ok (true, e.matchingResources quota.hard.keys, localRestrictedScopes)
        else .error (.statusUnknown quota.name)

def pertinent (inputObject : Obj) : List ResourceQuota → Except CheckError Pertinent
  | [] => .ok ⟨[], ∅, []⟩
  | quota :: rest =>
    match e.restrict inputObject quota with
    | .error err => .error err
    | .ok (isMatch, resources, scopes) =>
      match pertinent inputObject rest with
      | .error err => .error err
      | .ok p => .ok ⟨isMatch :: p.interesting, resources ∪ p.restrictedResources, scopes ++ p.restrictedScopes⟩

def deltaUsage (a : Attributes Obj) : Except CheckError ResourceList :=
  match e.usage a.object with
  | .error err => .error (.usage err)
  | .ok deltaUsage =>
    if isNegative deltaUsage ≠ ∅ then .error (.negativeUsage (isNegative deltaUsage))
    else if a.operation ≠ .update then .ok deltaUsage
    else match a.oldObject with
      | none => .error .noPreviousVersion
      | some prevItem =>
        if e.hasResourceVersion prevItem then
          match e.usage prevItem with
          | .error err => .error (.usage err)
          | .ok prevUsage => .ok (subtractWithNonNegativeResult deltaUsage prevUsage)
        else .ok deltaUsage

end Evaluator

def chargeQuota (deltaUsage : ResourceList) (quota : ResourceQuota) : Except CheckError ResourceQuota :=
  let requestedUsage := mask deltaUsage quota.hard.keys
  let newUsage := add quota.used requestedUsage
  let excess := exceeded (mask newUsage requestedUsage.keys) quota.hard
  if excess ≠ ∅ then
    .error (.exceededQuota quota.name (mask requestedUsage excess) (mask quota.used excess) (mask quota.hard excess))
  else .ok { quota with used := newUsage }

def chargeQuotas (deltaUsage : ResourceList) : List Bool → List ResourceQuota → Except CheckError (List ResourceQuota)
  | true :: interesting, quota :: quotas =>
    match chargeQuota deltaUsage quota with
    | .error err => .error err
    | .ok quota' => (chargeQuotas deltaUsage interesting quotas).map (quota' :: ·)
  | false :: interesting, quota :: quotas => (chargeQuotas deltaUsage interesting quotas).map (quota :: ·)
  | _, quotas => .ok quotas

variable (e : Evaluator Obj)

def Evaluator.checkPertinent (limitedScopes : List ScopedSelector) (names : Finset ResourceName)
    (p : Pertinent) (quotas : List ResourceQuota) (a : Attributes Obj) : Except CheckError (List ResourceQuota) :=
  if names \ p.restrictedResources ≠ ∅ then .error (.insufficientQuota (names \ p.restrictedResources))
  else match e.uncoveredQuotaScopes limitedScopes p.restrictedScopes with
    | .error err => .error (.uncoveredQuotaScopes err)
    | .ok (scope :: scopes) => .error (.insufficientScopes (scope :: scopes))
    | .ok [] =>
      if !p.interesting.any id then .ok quotas
      else match e.deltaUsage a with
        | .error err => .error err
        | .ok deltaUsage => if isZero deltaUsage then .ok quotas else chargeQuotas deltaUsage p.interesting quotas

def Evaluator.checkRequest (limited : List LimitedResource) (quotas : List ResourceQuota)
    (a : Attributes Obj) : Except CheckError (List ResourceQuota) :=
  if !e.handles a then .ok quotas
  else match e.getMatchedLimitedScopes a.object limited with
    | .error _ => .ok quotas
    | .ok limitedScopes =>
      match e.limitedResourceNames limited a with
      | .error err => .error (.usage err)
      | .ok names =>
        match e.pertinent a.object quotas with
        | .error err => .error err
        | .ok p => e.checkPertinent limitedScopes names p quotas a

structure Env (Obj : Type) where
  registry : GroupResource → Option (Evaluator Obj)
  limitedResources : List LimitedResource

variable (env : Env Obj)

def Env.checkRequest (quotas : List ResourceQuota) (a : Attributes Obj) : Except CheckError (List ResourceQuota) :=
  match env.registry a.resource with
  | none => .ok quotas
  | some e => e.checkRequest env.limitedResources quotas a

/-! ### What a request owes a quota -/

variable (a : Attributes Obj) (quota : ResourceQuota)

def Env.matchesQuota : Bool :=
  match env.registry a.resource with
  | none => false
  | some e =>
    match e.matchesQuota quota.spec quota.hard a.object with
    | .error _ => false
    | .ok isMatch => isMatch

def Env.usage : ResourceList :=
  match env.registry a.resource with
  | none => ∅
  | some e => (e.usage a.object).toOption.getD ∅

def Env.owed (resource : ResourceName) : Int :=
  if env.matchesQuota a quota ∧ resource ∈ quota.hard then amount (env.usage a) resource else 0

/-- The request is one that `Evaluate` puts in a batch: there is an evaluator for it, and it handles the request. -/
def Env.Evaluated : Prop :=
  ∃ e ∈ env.registry a.resource, e.handles a = true

def Env.ScopesMatch : Prop :=
  ∀ e ∈ env.registry a.resource, (e.getMatchedLimitedScopes a.object env.limitedResources).isOk = true

structure Ready (env : Env Obj) (a : Attributes Obj) : Prop where
  evaluated : env.Evaluated a
  scopesMatch : env.ScopesMatch a
  create : a.operation = .create

structure SameQuota (quota quota' : ResourceQuota) : Prop where
  name : quota'.name = quota.name
  spec : quota'.spec = quota.spec
  hard : quota'.hard = quota.hard

structure Counts (env : Env Obj) (a : Attributes Obj) (quota quota' : ResourceQuota) : Prop extends
    SameQuota quota quota' where
  resourceVersion : quota'.resourceVersion = quota.resourceVersion
  mem_used : ∀ resource, resource ∈ quota'.used ↔ resource ∈ quota.used
  used : ∀ resource, amount quota'.used resource = amount quota.used resource + env.owed a quota resource
  owed_nonneg : ∀ resource, 0 ≤ env.owed a quota resource
  le_hard : ∀ resource, env.owed a quota resource ≠ 0 → amount quota'.used resource ≤ amount quota.hard resource

variable {env : Env Obj} {e : Evaluator Obj} {a : Attributes Obj} {quota quota' : ResourceQuota}
  {quotas quotas' : List ResourceQuota} {p : Pertinent}

theorem SameQuota.refl (quota : ResourceQuota) : SameQuota quota quota := ⟨rfl, rfl, rfl⟩

theorem Counts.of_owed_eq_zero (h : ∀ resource, env.owed a quota resource = 0) : Counts env a quota quota where
  toSameQuota := .refl quota
  resourceVersion := rfl
  mem_used _ := Iff.rfl
  used resource := by rw [h, add_zero]
  owed_nonneg resource := (h resource).ge
  le_hard resource hne := absurd (h resource) hne

variable {scopes : List ScopedSelector} {object : Obj} {delta : ResourceList}
  {charged : List ResourceQuota}

variable {isMatch : Bool}

theorem Evaluator.restrict_ok {resources : Finset ResourceName}
    (h : e.restrict object quota = .ok (isMatch, resources, scopes)) :
    e.matchesQuota quota.spec quota.hard object = .ok isMatch ∧ (isMatch = true → hasUsageStats quota = true) := by
  rw [restrict] at h
  split at h
  · cases h
  · split at h
    · cases h
    · next hmatch =>
        cases h
        exact ⟨hmatch, fun hfalse => absurd hfalse (by decide)⟩
    · next hmatch =>
        split at h
        · cases h
        · split_ifs at h with hstats
          cases h
          exact ⟨hmatch, fun _ => hstats⟩

theorem Evaluator.pertinent_ok (h : e.pertinent object quotas = .ok p) :
    List.Forall₂ (fun quota isMatch => e.matchesQuota quota.spec quota.hard object = .ok isMatch ∧
      (isMatch = true → hasUsageStats quota = true)) quotas p.interesting := by
  induction quotas generalizing p with
  | nil =>
    cases h
    exact .nil
  | cons _ _ ih =>
    rw [pertinent] at h
    split at h
    · cases h
    · next hrestr =>
        split at h
        · cases h
        · next hrest =>
            cases h
            exact .cons (restrict_ok hrestr) (ih hrest)

theorem Env.matchesQuota_eq (hreg : env.registry a.resource = some e)
    (h : e.matchesQuota quota.spec quota.hard a.object = .ok isMatch) : env.matchesQuota a quota = isMatch := by
  rw [Env.matchesQuota, hreg]
  simp only [h]

theorem Env.usage_eq (hreg : env.registry a.resource = some e) {usage : ResourceList}
    (h : e.usage a.object = .ok usage) : env.usage a = usage := by
  rw [Env.usage, hreg]
  simp only [h]
  rfl

theorem exists_of_isOk {ε α : Type} {x : Except ε α} (h : x.isOk = true) : ∃ value, x = .ok value := by
  cases x with
  | error => cases h
  | ok value => exact ⟨value, rfl⟩

/-- A quota is charged if no resource that is both limited and requested exceeds its limit. -/
theorem chargeQuota_eq_ok : chargeQuota delta quota = .ok quota' ↔
    (∀ resource ∈ quota.hard, resource ∈ delta →
      amount quota.used resource + amount delta resource ≤ amount quota.hard resource) ∧
    { quota with used := add quota.used (mask delta quota.hard.keys) } = quota' := by
  have hfits : exceeded (mask (add quota.used (mask delta quota.hard.keys)) (mask delta quota.hard.keys).keys)
      quota.hard = ∅ ↔ ∀ resource ∈ quota.hard, resource ∈ delta →
        amount quota.used resource + amount delta resource ≤ amount quota.hard resource := by
    rw [exceeded_eq_empty_iff]
    refine forall₂_congr fun resource hhard => ?_
    simp +contextual [mem_mask, mem_add, amount_mask, amount_add, mem_keys, hhard]
  rw [chargeQuota, ← hfits]
  split_ifs with hover
  · refine ⟨fun h => ?_, fun h => absurd h.1 hover⟩
    cases h
  · simp [not_not.mp hover]

theorem chargeQuota_ok (hmatch : env.matchesQuota a quota = true) (hnn : isNegative (env.usage a) = ∅)
    (hstats : hasUsageStats quota = true) (h : chargeQuota (env.usage a) quota = .ok quota') :
    Counts env a quota quota' := by
  have howed : ∀ resource, env.owed a quota resource = amount (mask (env.usage a) quota.hard.keys) resource := by
    intro resource
    rw [Env.owed, amount_mask]
    simp only [hmatch, true_and, mem_keys]
  obtain ⟨hfits, rfl⟩ := chargeQuota_eq_ok.mp h
  refine ⟨⟨rfl, rfl, rfl⟩, rfl, fun resource => ?_, fun resource => ?_, fun resource => ?_, fun resource hne => ?_⟩
  · rw [mem_add, mem_mask, or_iff_left_of_imp]
    rintro ⟨hhard, -⟩
    exact of_decide_eq_true hstats resource hhard
  · rw [howed]
    exact amount_add
  · rw [howed, amount_mask]
    split_ifs
    · exact amount_nonneg hnn resource
    · exact le_refl 0
  · -- A resource that is charged is requested, so that its new usage was compared.
    rw [howed] at hne
    have hreq : resource ∈ mask (env.usage a) quota.hard.keys := by
      by_contra hmem
      exact hne (amount_of_notMem hmem)
    obtain ⟨hhard, husage⟩ := mem_mask.mp hreq
    rw [amount_add, amount_mask, if_pos hhard]
    exact hfits resource (mem_keys.mp hhard) husage

variable {interesting : List Bool}

theorem chargeQuotas_cons :
    chargeQuotas delta (isMatch :: interesting) (quota :: quotas) = .ok charged ↔
      ∃ quota' rest, (if isMatch then chargeQuota delta quota else .ok quota) = .ok quota' ∧
        chargeQuotas delta interesting quotas = .ok rest ∧ charged = quota' :: rest := by
  cases isMatch with
  | true | false =>
    rw [chargeQuotas]
    cases hquota : chargeQuota delta quota with
    | error | ok =>
      cases hrest : chargeQuotas delta interesting quotas with
      | error | ok => simp [Except.map, eq_comm]

theorem chargeQuotas_ok (hnn : isNegative (env.usage a) = ∅)
    (hmatch : List.Forall₂ (fun quota isMatch => env.matchesQuota a quota = isMatch ∧
      (isMatch = true → hasUsageStats quota = true)) quotas interesting)
    (h : chargeQuotas (env.usage a) interesting quotas = .ok quotas') : List.Forall₂ (Counts env a) quotas quotas' := by
  induction hmatch generalizing quotas' with
  | nil =>
    cases h
    exact .nil
  | @cons quota isMatch quotas interesting hhead _ ih =>
    obtain ⟨_, _, hquota, hrest, rfl⟩ := chargeQuotas_cons.mp h
    refine .cons ?_ (ih hrest)
    cases isMatch with
    | true => exact chargeQuota_ok hhead.1 hnn (hhead.2 rfl) hquota
    | false =>
      cases hquota
      refine .of_owed_eq_zero fun _ => ?_
      rw [Env.owed, hhead.1]
      exact if_neg fun hand => absurd hand.1 Bool.false_ne_true

theorem Evaluator.deltaUsage_ok (hcreate : a.operation = .create) (h : e.deltaUsage a = .ok delta) :
    e.usage a.object = .ok delta ∧ isNegative delta = ∅ := by
  rw [deltaUsage] at h
  split at h
  · cases h
  · next usage husage =>
      rw [hcreate] at h
      split_ifs at h with hnegative
      · cases h
        exact ⟨husage, not_not.mp hnegative⟩
      · next hupd => exact absurd (by decide) hupd

theorem Evaluator.checkPertinent_ok {names : Finset ResourceName}
    (h : e.checkPertinent scopes names p quotas a = .ok quotas') :
    p.interesting.any id = false ∧ quotas' = quotas ∨ ∃ delta, e.deltaUsage a = .ok delta ∧
      (isZero delta = true ∧ quotas' = quotas ∨ chargeQuotas delta p.interesting quotas = .ok quotas') := by
  rw [checkPertinent] at h
  split_ifs at h with hcovered hnone
  · split at h
    · cases h
    · cases h
    · cases h
      exact .inl ⟨by simpa using hnone, rfl⟩
  · split at h
    · cases h
    · cases h
    · split at h
      · cases h
      · next delta hdelta =>
          split_ifs at h with hzero
          · cases h
            exact .inr ⟨delta, hdelta, .inl ⟨hzero, rfl⟩⟩
          · exact .inr ⟨delta, hdelta, .inr h⟩

/-- **What `CheckRequest` returns** for a create request counts the request in every quota that it matches. -/
theorem Env.checkRequest_ok (hready : Ready env a) (h : env.checkRequest quotas a = .ok quotas') :
    List.Forall₂ (Counts env a) quotas quotas' := by
  obtain ⟨e, hreg, hhandles⟩ := hready.evaluated
  obtain ⟨_, hlimited⟩ := exists_of_isOk (hready.scopesMatch e hreg)
  rw [Env.checkRequest, Option.mem_def.mp hreg] at h
  simp only [Evaluator.checkRequest, hhandles, hlimited, Bool.not_true, Bool.false_eq_true, if_false] at h
  split at h
  · cases h
  · split at h
    · cases h
    · next p hp =>
        have hmatch : List.Forall₂ (fun quota isMatch => env.matchesQuota a quota = isMatch ∧
            (isMatch = true → hasUsageStats quota = true)) quotas p.interesting :=
          (Evaluator.pertinent_ok hp).imp fun quota isMatch hquota => ⟨matchesQuota_eq hreg hquota.1, hquota.2⟩
        have hnothing : (∀ quota ∈ quotas, ∀ resource, env.owed a quota resource = 0) → quotas' = quotas →
            List.Forall₂ (Counts env a) quotas quotas' := by
          rintro howed rfl
          exact List.forall₂_same.mpr fun quota hquota => Counts.of_owed_eq_zero (howed quota hquota)
        rcases Evaluator.checkPertinent_ok h with ⟨hnone, hsame⟩ | ⟨_, hdelta, hrest⟩
        · refine hnothing (fun quota hquota resource => ?_) hsame
          obtain ⟨isMatch, hisMatch, heq, -⟩ := ListRelations.exists_of_mem_left hmatch hquota
          rw [List.any_eq_false] at hnone
          rw [Env.owed, heq]
          exact if_neg fun hand => hnone isMatch hisMatch hand.1
        · obtain ⟨husage, hnn⟩ := Evaluator.deltaUsage_ok hready.create hdelta
          obtain rfl := usage_eq hreg husage
          rcases hrest with ⟨hzero, hsame⟩ | hchg
          · refine hnothing (fun quota _ resource => ?_) hsame
            rw [Env.owed, amount_of_isZero hzero, ite_self]
          · exact chargeQuotas_ok hnn hmatch hchg

/-! ### Less usage -/

structure Grown (quota quota' : ResourceQuota) : Prop extends SameQuota quota quota' where
  resourceVersion : quota'.resourceVersion = quota.resourceVersion
  mem_used : ∀ resource, resource ∈ quota'.used ↔ resource ∈ quota.used
  le : ∀ resource, amount quota.used resource ≤ amount quota'.used resource

theorem Grown.refl (quota : ResourceQuota) : Grown quota quota :=
  ⟨.refl quota, rfl, fun _ => Iff.rfl, fun _ => le_refl _⟩

variable {quota'' : ResourceQuota}

theorem SameQuota.trans (h : SameQuota quota quota') (h' : SameQuota quota' quota'') : SameQuota quota quota'' :=
  ⟨h'.name.trans h.name, h'.spec.trans h.spec, h'.hard.trans h.hard⟩

theorem Grown.trans (h : Grown quota quota') (h' : Grown quota' quota'') : Grown quota quota'' where
  toSameQuota := h.toSameQuota.trans h'.toSameQuota
  resourceVersion := h'.resourceVersion.trans h.resourceVersion
  mem_used resource := (h'.mem_used resource).trans (h.mem_used resource)
  le resource := (h.le resource).trans (h'.le resource)

theorem Counts.grown (h : Counts env a quota quota') : Grown quota quota' where
  __ := h
  le resource := by
    rw [h.used]
    exact le_add_of_nonneg_right (h.owed_nonneg resource)

theorem SameQuota.owed_eq (h : SameQuota quota quota') (resource : ResourceName) :
    env.owed a quota' resource = env.owed a quota resource := by
  have hmatch : env.matchesQuota a quota' = env.matchesQuota a quota := by
    rw [Env.matchesQuota, Env.matchesQuota, h.spec, h.hard]
  rw [Env.owed, Env.owed, hmatch, h.hard]

theorem Grown.pertinent_eq (h : List.Forall₂ Grown quotas quotas') :
    e.pertinent object quotas' = e.pertinent object quotas := by
  induction h with
  | nil => rfl
  | cons hhead _ ih =>
    have hrestr : ∀ {quota quota' : ResourceQuota}, Grown quota quota' →
        e.restrict object quota' = e.restrict object quota := by
      intro quota quota' hgrown
      have hstats : hasUsageStats quota' = hasUsageStats quota := by
        rw [hasUsageStats, hasUsageStats, hgrown.hard]
        simp only [hgrown.mem_used]
      rw [Evaluator.restrict, Evaluator.restrict, hgrown.name, hgrown.spec, hgrown.hard, hstats]
    rw [Evaluator.pertinent, Evaluator.pertinent, hrestr hhead, ih]

theorem chargeQuota_mono {charged : ResourceQuota} (hgrown : Grown quota quota')
    (h : chargeQuota delta quota' = .ok charged) : ∃ charged', chargeQuota delta quota = .ok charged' := by
  obtain ⟨hfits, -⟩ := chargeQuota_eq_ok.mp h
  rw [hgrown.hard] at hfits
  refine ⟨_, chargeQuota_eq_ok.mpr ⟨fun resource hhard hdelta => ?_, rfl⟩⟩
  exact (add_le_add_left (hgrown.le resource) _).trans (hfits resource hhard hdelta)

section
variable (hgrown : List.Forall₂ Grown quotas quotas')
include hgrown

theorem chargeQuotas_mono {interesting : List Bool} (h : chargeQuotas delta interesting quotas' = .ok charged) :
    ∃ charged', chargeQuotas delta interesting quotas = .ok charged' := by
  induction hgrown generalizing interesting charged with
  | nil => exact ⟨charged, h⟩
  | @cons quota quota' quotas quotas' hhead _ ih =>
    rcases interesting with _ | ⟨isMatch, interesting⟩
    · exact ⟨quota :: quotas, rfl⟩
    obtain ⟨_, _, hquota, hrest, -⟩ := chargeQuotas_cons.mp h
    obtain ⟨rest', hrest'⟩ := ih hrest
    have hhead' : ∃ charged', (if isMatch then chargeQuota delta quota else .ok quota) = .ok charged' := by
      cases isMatch with
      | true => exact chargeQuota_mono hhead hquota
      | false => exact ⟨quota, rfl⟩
    obtain ⟨charged', hcharged⟩ := hhead'
    exact ⟨charged' :: rest', chargeQuotas_cons.mpr ⟨_, _, hcharged, hrest', rfl⟩⟩

theorem Evaluator.checkPertinent_mono {names : Finset ResourceName}
    (h : e.checkPertinent scopes names p quotas' a = .ok charged) :
    ∃ charged', e.checkPertinent scopes names p quotas a = .ok charged' := by
  rw [checkPertinent] at h ⊢
  split_ifs at h ⊢
  · split at h
    · cases h
    · cases h
    · exact ⟨quotas, rfl⟩
  · split at h
    · cases h
    · cases h
    · split at h
      · cases h
      · split_ifs at h ⊢
        · exact ⟨quotas, rfl⟩
        · exact chargeQuotas_mono hgrown h

theorem Env.checkRequest_mono (h : env.checkRequest quotas' a = .ok charged) :
    ∃ charged', env.checkRequest quotas a = .ok charged' := by
  rw [Env.checkRequest] at h ⊢
  cases hreg : env.registry a.resource with
  | none => exact ⟨quotas, rfl⟩
  | some =>
    rw [hreg] at h
    simp only [Evaluator.checkRequest, Grown.pertinent_eq hgrown] at h ⊢
    split_ifs at h ⊢
    · exact ⟨quotas, rfl⟩
    · split at h
      · exact ⟨quotas, rfl⟩
      · split at h
        · cases h
        · split at h
          · cases h
          · exact Evaluator.checkPertinent_mono hgrown h

end

def Env.PassesFree (env : Env Obj) (quotas : List ResourceQuota) (a : Attributes Obj) : Prop :=
  (env.checkRequest quotas a).isOk = true ∧
    ∀ quota ∈ quotas, ∀ resource ∈ quota.hard.keys, env.owed a quota resource = 0

theorem Env.owed_of_notMem {resource : ResourceName} (h : resource ∉ quota.hard) : env.owed a quota resource = 0 :=
  if_neg fun hand => h hand.2

theorem Env.PassesFree.owed_eq_zero (h : env.PassesFree quotas a) (hquota : quota ∈ quotas) (resource : ResourceName) :
    env.owed a quota resource = 0 := by
  by_cases hres : resource ∈ quota.hard
  · exact h.2 quota hquota resource (mem_keys.mpr hres)
  · exact owed_of_notMem hres

end LeanKube.Quota
