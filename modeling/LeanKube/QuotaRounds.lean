import LeanKube.QuotaAdmission

/-! One pass of `checkQuotas` over a batch: what the quotas count afterwards, and which requests are in it. -/

namespace LeanKube.Quota
open ListRelations List Env Waiter
variable {Obj : Type} {env : Env Obj} {quotas quotas' : List ResourceQuota} {quota quota' : ResourceQuota}
  {a : Attributes Obj} {number : Nat}

def owedBy (env : Env Obj) (charges : List (Charge Obj)) (quota : ResourceQuota) (resource : ResourceName) : Int :=
  (charges.map fun charge => env.owed charge.attributes quota resource).sum

structure Written (env : Env Obj) (charges : List (Charge Obj)) (quota quota' : ResourceQuota) : Prop extends
    Grown quota quota' where
  used : ∀ resource, amount quota'.used resource = amount quota.used resource + owedBy env charges quota resource
  owed_nonneg : ∀ charge ∈ charges, ∀ resource, 0 ≤ env.owed charge.attributes quota resource
  le_hard : ∀ resource, amount quota'.used resource ≠ amount quota.used resource →
    amount quota'.used resource ≤ amount quota.hard resource

theorem Written.refl (quota : ResourceQuota) : Written env [] quota quota where
  toGrown := .refl quota
  used resource := by rw [owedBy, map_nil, sum_nil, add_zero]
  owed_nonneg charge hchg := by cases hchg
  le_hard resource hne := absurd rfl hne

variable {charges : List (Charge Obj)}
variable {charge : Charge Obj}

theorem Counts.written {quota'' : ResourceQuota}
    (h : Counts env charge.attributes quota quota') (h' : Written env charges quota' quota'') :
    Written env (charge :: charges) quota quota'' where
  toGrown := h.grown.trans h'.toGrown
  used resource := by
    have howed : owedBy env charges quota' resource = owedBy env charges quota resource := by
      simp only [owedBy, h.toSameQuota.owed_eq]
    rw [h'.used, h.used, howed, owedBy, owedBy, map_cons, sum_cons, add_assoc]
  owed_nonneg other hother resource := by
    rcases mem_cons.mp hother with rfl | hother
    · exact h.owed_nonneg resource
    · rw [← h.toSameQuota.owed_eq]
      exact h'.owed_nonneg other hother resource
  le_hard resource hne := by
    by_cases heq : amount quota''.used resource = amount quota'.used resource
    · rw [heq]
      refine h.le_hard resource fun hzero => hne ?_
      rw [heq, h.used, hzero, add_zero]
    · rw [← h.hard]
      exact h'.le_hard resource heq

theorem Written.owed_eq_zero
    (h : Written env charges quota quota') (hused : quota.used = quota'.used) (hchg : charge ∈ charges)
    (resource : ResourceName) : env.owed charge.attributes quota resource = 0 := by
  have hsum := h.used resource
  rw [← hused] at hsum
  have hnn : ∀ x ∈ charges.map fun charge => env.owed charge.attributes quota resource, 0 ≤ x := by
    intro x hx
    obtain ⟨other, hother, rfl⟩ := mem_map.mp hx
    exact h.owed_nonneg other hother resource
  have hle : env.owed charge.attributes quota resource ≤ owedBy env charges quota resource :=
    single_le_sum hnn _ (mem_map.mpr ⟨charge, hchg, rfl⟩)
  have hpos := h.owed_nonneg charge hchg resource
  linarith

/-! ### The quotas after a pass -/

theorem checkWaiters_cons (env : Env Obj) (quotas : List ResourceQuota) (waiter : Waiter Obj)
    (waiters : List (Waiter Obj)) : env.checkWaiters quotas (waiter :: waiters) =
      ((env.checkWaiters (env.checkWaiter quotas waiter).1 waiters).1,
        (env.checkWaiter quotas waiter).2.1 :: (env.checkWaiters (env.checkWaiter quotas waiter).1 waiters).2.1,
        (env.checkWaiter quotas waiter).2.2 || (env.checkWaiters (env.checkWaiter quotas waiter).1 waiters).2.2) := rfl

theorem checkWaiter_cases (env : Env Obj) (quotas : List ResourceQuota) (waiter : Waiter Obj) :
    (∃ err, env.checkRequest quotas waiter.attributes = .error err ∧
        env.checkWaiter quotas waiter = (quotas, ⟨waiter.attributes, .failed (.check err)⟩, false)) ∨
      (waiter.attributes.dryRun = true ∧ (∃ quotas', env.checkRequest quotas waiter.attributes = .ok quotas') ∧
        env.checkWaiter quotas waiter = (quotas, ⟨waiter.attributes, .admitted⟩, false)) ∨
      (waiter.attributes.dryRun = false ∧ ∃ quotas', env.checkRequest quotas waiter.attributes = .ok quotas' ∧
        (sameUsage quotas quotas' = true ∧
            env.checkWaiter quotas waiter = (quotas', ⟨waiter.attributes, .admitted⟩, false) ∨
          env.checkWaiter quotas waiter = (quotas', waiter, true))) := by
  rw [checkWaiter]
  cases hcheck : env.checkRequest quotas waiter.attributes with
  | error err => exact .inl ⟨err, rfl, rfl⟩
  | ok quotas' =>
    cases hdry : waiter.attributes.dryRun with
    | true => exact .inr (.inl ⟨rfl, ⟨quotas', rfl⟩, rfl⟩)
    | false =>
      refine .inr (.inr ⟨rfl, quotas', rfl, ?_⟩)
      simp only [Bool.false_eq_true, if_false]
      split_ifs with hsame
      · exact .inl ⟨hsame, rfl⟩
      · exact .inr rfl

variable {position : Nat} {requests : List (Attributes Obj)}
  {R : ResourceQuota → ResourceQuota → Prop}

theorem counted_cons_ok {name : String} (hok : env.checkRequest quotas a = .ok quotas') (hdry : a.dryRun = false) :
    env.counted number name position quotas (a :: requests) =
      ⟨number, position, a, name⟩ :: env.counted number name (position + 1) quotas' requests := by
  rw [counted, hok]
  exact if_neg (by rw [hdry]; exact Bool.false_ne_true)

/-- The turn for a request leaves the quotas as they are and does not count it, or it makes the quotas those
that `CheckRequest` gives and counts it. -/
theorem checkWaiter_quotas (env : Env Obj) (quotas : List ResourceQuota) (waiter : Waiter Obj) :
    ((env.checkWaiter quotas waiter).1 = quotas ∧ ∀ number name position requests,
        env.counted number name position quotas (waiter.attributes :: requests) =
          env.counted number name (position + 1) quotas requests) ∨
      waiter.attributes.dryRun = false ∧
        env.checkRequest quotas waiter.attributes = .ok (env.checkWaiter quotas waiter).1 := by
  rcases checkWaiter_cases env quotas waiter with ⟨_, herr, hturn⟩ | ⟨hdry, ⟨_, hok⟩, hturn⟩ |
    ⟨hdry, _, hok, ⟨-, hturn⟩ | hturn⟩
  · refine .inl ⟨by rw [hturn], fun number name position requests => ?_⟩
    rw [counted, herr]
  · refine .inl ⟨by rw [hturn], fun number name position requests => ?_⟩
    rw [counted, hok]
    exact if_pos hdry
  · exact .inr ⟨hdry, by rw [hturn, hok]⟩
  · exact .inr ⟨hdry, by rw [hturn, hok]⟩

variable {waiters : List (Waiter Obj)}

/-- **After a pass** the quotas count the requests that passed. -/
theorem checkWaiters_written (hready : ∀ waiter ∈ waiters, Ready env waiter.attributes)
    (position : Nat) (name : String) :
    List.Forall₂ (Written env (env.counted number name position quotas (waiters.map attributes)))
      quotas (env.checkWaiters quotas waiters).1 := by
  induction waiters generalizing quotas position with
  | nil => exact forall₂_same.mpr fun quota _ => .refl quota
  | cons waiter waiters ih =>
    obtain ⟨hhead, hrest⟩ := forall_mem_cons.mp hready
    rw [checkWaiters_cons, map_cons]
    rcases checkWaiter_quotas env quotas waiter with ⟨hturn, hskip⟩ | ⟨hdry, hok⟩
    · rw [hturn, hskip]
      exact ih hrest (position + 1)
    · have hcounts := checkRequest_ok hhead hok
      rw [counted_cons_ok hok hdry]
      exact forall₂_comp hcounts (ih hrest (position + 1)) fun _ _ _ hcnt hwritten => hcnt.written hwritten

theorem checkWaiters_attributes (waiters : List (Waiter Obj)) :
    (env.checkWaiters quotas waiters).2.1.map attributes = waiters.map attributes := by
  induction waiters generalizing quotas with
  | nil => rfl
  | cons waiter _ ih =>
    have hturn : (env.checkWaiter quotas waiter).2.1.attributes = waiter.attributes := by
      rcases checkWaiter_cases env quotas waiter with ⟨_, -, hturn⟩ | ⟨-, -, hturn⟩ |
        ⟨-, quotas', -, ⟨-, hturn⟩ | hturn⟩
      · rw [hturn]
      · rw [hturn]
      · rw [hturn]
      · rw [hturn]
    rw [checkWaiters_cons, map_cons, map_cons, ih, hturn]

/-! ### The requests after a pass -/

theorem forall₂_of_sameUsage (h : List.Forall₂ R quotas quotas') (hsame : sameUsage quotas quotas' = true) :
    List.Forall₂ (fun quota quota' => R quota quota' ∧ quota.used = quota'.used) quotas quotas' := by
  induction h with
  | nil => exact .nil
  | cons hhead _ ih =>
    rw [sameUsage, zip_cons_cons, all_cons, Bool.and_eq_true, equals_iff] at hsame
    exact .cons ⟨hhead, hsame.1⟩ (ih hsame.2)

theorem passesFree_of_sameUsage (hready : Ready env a) (hok : env.checkRequest quotas a = .ok quotas')
    (hsame : sameUsage quotas quotas' = true) : env.PassesFree quotas a := by
  refine ⟨by rw [hok]; rfl, fun _ hquota resource _ => ?_⟩
  have hcounts := checkRequest_ok hready hok
  obtain ⟨_, -, hcnt, hused⟩ := exists_of_mem_left (forall₂_of_sameUsage hcounts hsame) hquota
  have hsum := hcnt.used resource
  rw [← hused] at hsum
  linarith

theorem PassesFree.of_grown (hgrown : List.Forall₂ Grown quotas quotas') (h : env.PassesFree quotas' a) :
    env.PassesFree quotas a := by
  obtain ⟨_, hok⟩ := exists_of_isOk h.1
  obtain ⟨_, hok'⟩ := checkRequest_mono hgrown hok
  refine ⟨by rw [hok']; rfl, fun _ hquota resource _ => ?_⟩
  obtain ⟨_, hquota', hgrown'⟩ := exists_of_mem_left hgrown hquota
  rw [← hgrown'.toSameQuota.owed_eq]
  exact h.owed_eq_zero hquota' resource

/-- What a pass makes of a request: it fails, it is a dry run that is admitted, it is admitted since it is
counted nowhere, or its result is left as it is and it is counted. -/
inductive Outcome (env : Env Obj) (number position : Nat) (quotas : List ResourceQuota)
    (requests : List (Attributes Obj)) (first : Nat) (waiter : Waiter Obj) : Result → Prop where
  | failed (err : QuotaError) : Outcome env number position quotas requests first waiter (.failed err)
  | dryRun (h : waiter.attributes.dryRun = true) : Outcome env number position quotas requests first waiter .admitted
  | free (h : env.PassesFree quotas waiter.attributes) :
    Outcome env number position quotas requests first waiter .admitted
  | counted (hdry : waiter.attributes.dryRun = false)
      (h : ∀ name, ⟨number, first + position, waiter.attributes, name⟩ ∈
        env.counted number name first quotas requests) :
      Outcome env number position quotas requests first waiter waiter.result

theorem Outcome.shift {requests' : List (Attributes Obj)} {first : Nat} {waiter : Waiter Obj}
    {result : Result} (h : Outcome env number position quotas' requests (first + 1) waiter result)
    (hfree : env.PassesFree quotas' waiter.attributes → env.PassesFree quotas waiter.attributes)
    (hcnt : ∀ name, ∀ charge ∈ env.counted number name (first + 1) quotas' requests,
      charge ∈ env.counted number name first quotas requests') :
    Outcome env number (position + 1) quotas requests' first waiter result := by
  cases h with
  | failed err => exact .failed err
  | dryRun hdry => exact .dryRun hdry
  | free h => exact .free (hfree h)
  | counted hdry h =>
    refine .counted hdry fun name => ?_
    have hshift : first + (position + 1) = first + 1 + position := by omega
    rw [hshift]
    exact hcnt name _ (h name)

theorem checkWaiters_outcome (hready : ∀ waiter ∈ waiters, Ready env waiter.attributes)
    (first : Nat) {position : Nat} {waiter : Waiter Obj} (h : waiters[position]? = some waiter) :
    ∃ result, (env.checkWaiters quotas waiters).2.1[position]? = some ⟨waiter.attributes, result⟩ ∧
      Outcome env number position quotas (waiters.map attributes) first waiter result := by
  induction waiters generalizing quotas first position with
  | nil => cases h
  | cons head waiters ih =>
    obtain ⟨hhead, hrest⟩ := forall_mem_cons.mp hready
    rw [checkWaiters_cons, map_cons]
    cases position with
    | zero =>
      cases h
      rcases checkWaiter_cases env quotas waiter with ⟨err, -, hturn⟩ | ⟨hdry, -, hturn⟩ |
        ⟨hdry, quotas', hok, ⟨hsame, hturn⟩ | hturn⟩
      · exact ⟨.failed (.check err), by rw [hturn]; rfl, .failed _⟩
      · exact ⟨.admitted, by rw [hturn]; rfl, .dryRun hdry⟩
      · have hfree := passesFree_of_sameUsage hhead hok hsame
        exact ⟨.admitted, by rw [hturn]; rfl, .free hfree⟩
      · refine ⟨waiter.result, by rw [hturn]; rfl, .counted hdry fun name => ?_⟩
        rw [counted_cons_ok hok hdry]
        exact mem_cons_self
    | succ position =>
      obtain ⟨result, hres, houtcome⟩ := @ih (env.checkWaiter quotas head).1 hrest (first + 1) position h
      refine ⟨result, hres, ?_⟩
      rcases checkWaiter_quotas env quotas head with ⟨hturn, hskip⟩ | ⟨hdry, hok⟩
      · rw [hturn] at houtcome
        refine houtcome.shift id fun name charge hchg => ?_
        rw [hskip]
        exact hchg
      · have hgrown := (checkRequest_ok hhead hok).imp fun _ _ hcounts => hcounts.grown
        refine houtcome.shift (PassesFree.of_grown hgrown) fun name charge hchg => ?_
        rw [counted_cons_ok hok hdry]
        exact mem_cons_of_mem _ hchg

/-! ### The quotas to write -/

theorem mem_changedQuotas (h : List.Forall₂ R quotas quotas')
    (hquota : quota' ∈ changedQuotas quotas quotas') : ∃ quota ∈ quotas, R quota quota' := by
  rw [changedQuotas, mem_map] at hquota
  obtain ⟨⟨quota, _⟩, hpair, rfl⟩ := hquota
  have hzip := (mem_filter.mp hpair).1
  exact ⟨quota, (of_mem_zip hzip).1, forall₂_zip h hzip⟩

theorem used_eq_or_mem_changedQuotas (h : List.Forall₂ R quotas quotas') (hquota : quota ∈ quotas) :
    ∃ quota', R quota quota' ∧ (quota.used = quota'.used ∨ quota' ∈ changedQuotas quotas quotas') := by
  induction h with
  | nil => cases hquota
  | @cons head head' quotas quotas' hhead _ ih =>
    have hcons : changedQuotas (head :: quotas) (head' :: quotas') =
        (if equals head.used head'.used then [] else [head']) ++ changedQuotas quotas quotas' := by
      rw [changedQuotas, zip_cons_cons, filter_cons]
      cases hequals : equals head.used head'.used with
      | true | false => rfl
    rcases mem_cons.mp hquota with rfl | hquota
    · refine ⟨head', hhead, ?_⟩
      rw [hcons, ← equals_iff]
      split_ifs with hequals
      · exact .inl hequals
      · exact .inr (mem_append_left _ mem_cons_self)
    · obtain ⟨quota', hR, hor⟩ := ih hquota
      refine ⟨quota', hR, hor.imp_right fun hmem => ?_⟩
      rw [hcons]
      exact mem_append_right _ hmem

end LeanKube.Quota
