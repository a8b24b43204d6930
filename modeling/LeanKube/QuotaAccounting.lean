import LeanKube.QuotaRounds

/-! The accounting of quota admission over whole runs: the stored usage of a quota is its usage at the start
plus what has been counted, which stays within the limit, and what has been admitted has been counted. -/

namespace LeanKube.Quota
open ListRelations Waiter List ResourceQuota
variable {Obj : Type} {env : Env Obj} {start versions quotas : List ResourceQuota} {quota quota' : ResourceQuota}
  {charges charges' : List (Charge Obj)} {waiters : List (Waiter Obj)} {a : Attributes Obj}
  {number position revision : Nat}

/-! ### The versions of the quotas -/

structure VersionsOf (start versions : List ResourceQuota) (revision : Nat) : Prop where
  same : ∀ quota ∈ versions, ∃ quota₀ ∈ start, SameQuota quota₀ quota
  unique : ∀ quota ∈ versions, ∀ quota' ∈ versions, quota.name = quota'.name →
    quota.resourceVersion = quota'.resourceVersion → quota = quota'
  le_revision : ∀ quota ∈ versions, quota.resourceVersion ≤ revision
  nodup : (start.map ResourceQuota.name).Nodup

theorem VersionsOf.sameQuota (h : VersionsOf start versions revision) {quota₀ : ResourceQuota}
    (hquota₀ : quota₀ ∈ start) (hquota : quota ∈ versions) (hname : quota.name = quota₀.name) :
    SameQuota quota₀ quota := by
  obtain ⟨quota₁, hquota₁, hsame⟩ := h.same quota hquota
  have heq : quota₁ = quota₀ := inj_on_of_nodup_map h.nodup hquota₁ hquota₀ (hsame.name.symm.trans hname)
  rw [← heq]
  exact hsame

theorem VersionsOf.cons (h : VersionsOf start versions revision) (hquota : quota ∈ versions)
    (hsame : SameQuota quota quota') (hver : quota'.resourceVersion = revision + 1) :
    VersionsOf start (quota' :: versions) (revision + 1) where
  same other hother := by
    rcases mem_cons.mp hother with rfl | hother
    · obtain ⟨quota₀, hquota₀, hsame₀⟩ := h.same quota hquota
      exact ⟨quota₀, hquota₀, hsame₀.trans hsame⟩
    · exact h.same other hother
  unique other hother other' hother' hname hequal := by
    rcases mem_cons.mp hother with hnew | hold
    · rcases mem_cons.mp hother' with hnew' | hold'
      · rw [hnew, hnew']
      · have := h.le_revision other' hold'
        rw [hnew] at hequal
        omega
    · rcases mem_cons.mp hother' with hnew' | hold'
      · have := h.le_revision other hold
        rw [hnew'] at hequal
        omega
      · exact h.unique other hold other' hold' hname hequal
  le_revision other hother := by
    rcases mem_cons.mp hother with rfl | hother
    · exact hver.le
    · exact (h.le_revision other hother).trans (Nat.le_succ _)
  nodup := h.nodup

/-! ### Batches -/

theorem CountedIn.mono (h : CountedIn env charges number position a quota)
    (hsub : ∀ charge ∈ charges, charge ∈ charges') : CountedIn env charges' number position a quota :=
  h.imp_right (hsub _)

section
variable (env : Env Obj) (start versions : List ResourceQuota) (charges : List (Charge Obj)) (number : Nat)
  (waiters : List (Waiter Obj))

abbrev AdmittedCounted : Prop :=
  ∀ position a, waiters[position]? = some ⟨a, .admitted⟩ → a.dryRun = false →
    ∀ quota₀ ∈ start, CountedIn env charges number position a quota₀

/-- A request without a result has been counted but for the quotas. -/
abbrev CountedBut (quotas : List ResourceQuota) : Prop :=
  ∀ position a, waiters[position]? = some ⟨a, .defaultDeny⟩ → ∀ quota₀ ∈ start,
    CountedIn env charges number position a quota₀ ∨ quota₀.name ∈ quotas.map ResourceQuota.name

/-- What holds of a batch by its phase. While it is updating, the quotas to write count the requests that passed,
and a request without a result has been counted but for the quotas to write and those whose update failed. -/
def PhaseInv : Phase → Prop
  | .finished => True
  | .updating originals pending failed _ _ =>
    (∀ quota ∈ originals, quota ∈ versions) ∧
    (∀ written ∈ pending, ∃ quota ∈ originals,
      Written env (env.counted number written.name 0 originals (waiters.map Waiter.attributes)) quota written) ∧
    (∀ position a, waiters[position]? = some ⟨a, .defaultDeny⟩ → ∀ name, ⟨number, position, a, name⟩ ∈
      env.counted number name 0 originals (waiters.map Waiter.attributes)) ∧
    CountedBut env start charges number waiters (pending ++ failed)
  | .rereading failed _ _ => CountedBut env start charges number waiters failed

structure BatchInv (batch : Batch Obj) : Prop where
  ready : ∀ waiter ∈ batch.waiters, Ready env waiter.attributes
  admitted : AdmittedCounted env start charges number batch.waiters
  phase : PhaseInv env start versions charges number batch.waiters batch.phase

end

theorem CountedBut.mono (h : CountedBut env start charges number waiters quotas)
    (hsub : ∀ charge ∈ charges, charge ∈ charges') : CountedBut env start charges' number waiters quotas :=
  fun position a hwaiter quota₀ hquota₀ => (h position a hwaiter quota₀ hquota₀).imp_left fun hin => hin.mono hsub

theorem BatchInv.mono {batch : Batch Obj} {versions' : List ResourceQuota}
    (h : BatchInv env start versions charges number batch) (hvers : ∀ quota ∈ versions, quota ∈ versions')
    (hcharges : ∀ charge ∈ charges, charge ∈ charges') : BatchInv env start versions' charges' number batch where
  ready := h.ready
  admitted position a hwaiter hdry quota₀ hquota₀ := (h.admitted position a hwaiter hdry quota₀ hquota₀).mono hcharges
  phase := by
    obtain ⟨_, phase⟩ := batch
    have hphase := h.phase
    cases phase with
    | finished => trivial
    | updating =>
      obtain ⟨horig, hpend, hcnt, hbut⟩ := hphase
      exact ⟨fun quota hquota => hvers quota (horig quota hquota), hpend, hcnt, hbut.mono hcharges⟩
    | rereading => exact CountedBut.mono hphase hcharges

theorem settle_getElem? {result result' : Result} (h : (settle result waiters)[position]? = some ⟨a, result'⟩) :
    waiters[position]? = some ⟨a, result'⟩ ∧ result' ≠ .defaultDeny ∨
      waiters[position]? = some ⟨a, .defaultDeny⟩ ∧ result' = result := by
  rw [settle, getElem?_map, Option.map_eq_some_iff] at h
  obtain ⟨⟨_, result''⟩, hwaiter, heq⟩ := h
  cases result'' with
  | defaultDeny =>
    cases heq
    exact .inr ⟨hwaiter, rfl⟩
  | failed | admitted =>
    cases heq
    exact .inl ⟨hwaiter, by intro hfalse; cases hfalse⟩

theorem settle_attributes (result : Result) (waiters : List (Waiter Obj)) :
    (settle result waiters).map attributes = waiters.map attributes := by
  rw [settle, map_map]
  apply map_congr_left
  rintro ⟨a, result'⟩ -
  cases result' <;> rfl

theorem ready_of_attributes {waiters' : List (Waiter Obj)} (hready : ∀ waiter ∈ waiters, Ready env waiter.attributes)
    (h : waiters'.map attributes = waiters.map attributes) : ∀ waiter ∈ waiters', Ready env waiter.attributes := by
  intro waiter hwaiter
  have hmem : waiter.attributes ∈ waiters.map attributes := h ▸ mem_map_of_mem hwaiter
  obtain ⟨waiter', hwaiter', heq⟩ := mem_map.mp hmem
  rw [← heq]
  exact hready waiter' hwaiter'

section Phases
variable (hready : ∀ waiter ∈ waiters, Ready env waiter.attributes)
  (hadmitted : AdmittedCounted env start charges number waiters)
include hready hadmitted

theorem settle_failed_inv (err : QuotaError) :
    BatchInv env start versions charges number ⟨settle (.failed err) waiters, .finished⟩ where
  ready := ready_of_attributes hready (settle_attributes _ waiters)
  admitted position a hwaiter hdry := by
    rcases settle_getElem? hwaiter with ⟨hwaiter, -⟩ | ⟨-, hfalse⟩
    · exact hadmitted position a hwaiter hdry
    · cases hfalse
  phase := trivial

variable {remainingRetries : Nat} {lastErr : String} {failed : List ResourceQuota}

theorem afterUpdates_inv (hdefault : CountedBut env start charges number waiters failed) :
    BatchInv env start versions charges number (afterUpdates waiters failed lastErr remainingRetries) := by
  rw [afterUpdates]
  split_ifs with hnone
  · -- All the updates succeeded.
    rw [List.isEmpty_iff] at hnone
    subst hnone
    refine ⟨ready_of_attributes hready (settle_attributes _ waiters), fun position a hwaiter hdry quota₀ hquota₀ => ?_,
      trivial⟩
    rcases settle_getElem? hwaiter with ⟨hwaiter, -⟩ | ⟨hwaiter, -⟩
    · exact hadmitted position a hwaiter hdry quota₀ hquota₀
    · exact (hdefault position a hwaiter quota₀ hquota₀).resolve_right (not_mem_nil)
  · exact settle_failed_inv hready hadmitted _
  · exact ⟨hready, hadmitted, hdefault⟩

theorem updating_inv {originals pending : List ResourceQuota}
    (hphase : PhaseInv env start versions charges number waiters
      (.updating originals pending failed lastErr remainingRetries)) :
    BatchInv env start versions charges number
      (updating waiters originals pending failed lastErr remainingRetries) := by
  rw [updating]
  split_ifs with hnone
  · rw [List.isEmpty_iff] at hnone
    subst hnone
    exact afterUpdates_inv hready hadmitted hphase.2.2.2
  · exact ⟨hready, hadmitted, hphase⟩

end Phases

/-- **A pass keeps the accounts** of a batch. The requests without a result have been counted but for the quotas
that are checked, and the ones that were rejected do not pass without being counted. -/
theorem checkQuotas_inv (hv : VersionsOf start versions revision) (hquotas : ∀ quota ∈ quotas, quota ∈ versions)
    (hready : ∀ waiter ∈ waiters, Ready env waiter.attributes)
    (hadmitted : AdmittedCounted env start charges number waiters)
    (hdefault : CountedBut env start charges number waiters quotas)
    (hfail : ∀ a err, ⟨a, .failed err⟩ ∈ waiters → a.dryRun = false → ¬ env.PassesFree quotas a)
    (remainingRetries : Nat) :
    BatchInv env start versions charges number (env.checkQuotas quotas waiters remainingRetries) := by
  have hattributes : (env.checkWaiters quotas waiters).2.1.map attributes = waiters.map attributes :=
    checkWaiters_attributes waiters
  have hready' := ready_of_attributes hready hattributes
  -- A request that is counted in none of the quotas has been counted in the others.
  have hfree : ∀ position a, waiters[position]? = some ⟨a, .defaultDeny⟩ → ∀ quota₀ ∈ start,
      (∀ quota ∈ quotas, quota.name = quota₀.name → ∀ resource, env.owed a quota resource = 0) →
      CountedIn env charges number position a quota₀ := by
    intro position a hwaiter quota₀ hquota₀ howed
    rcases hdefault position a hwaiter quota₀ hquota₀ with hcnt | hname
    · exact hcnt
    · obtain ⟨quota, hquota, hname⟩ := mem_map.mp hname
      refine .inl fun resource => ?_
      rw [← (hv.sameQuota hquota₀ (hquotas quota hquota) hname).owed_eq]
      exact howed quota hquota hname resource
  have houtcome : ∀ position a result, (env.checkWaiters quotas waiters).2.1[position]? = some ⟨a, result⟩ →
      ∃ waiter, waiters[position]? = some waiter ∧ waiter.attributes = a ∧
        Outcome env number position quotas (waiters.map attributes) 0 waiter result := by
    intro position a result hwaiter'
    have hlen : (env.checkWaiters quotas waiters).2.1.length = waiters.length := by
      rw [← length_map attributes, hattributes, length_map]
    have hlt : position < waiters.length := hlen ▸ (List.getElem?_eq_some_iff.mp hwaiter').1
    have hwaiter : waiters[position]? = some waiters[position] := getElem?_eq_getElem hlt
    obtain ⟨result', hres', houtcome⟩ := @checkWaiters_outcome Obj env quotas number waiters hready 0 _ _ hwaiter
    rw [hwaiter'] at hres'
    cases hres'
    exact ⟨_, hwaiter, rfl, houtcome⟩
  have hadmitted' : AdmittedCounted env start charges number (env.checkWaiters quotas waiters).2.1 := by
    intro position a hwaiter' hdry quota₀ hquota₀
    obtain ⟨⟨a', result⟩, hwaiter, rfl, hout⟩ := houtcome position a _ hwaiter'
    generalize hres : Result.admitted = result' at hout
    cases hout with
    | failed => cases hres
    | dryRun htrue =>
      rw [hdry] at htrue
      cases htrue
    | free hpass =>
      cases result with
      | defaultDeny => exact hfree position _ hwaiter quota₀ hquota₀ fun quota hquota _ => hpass.owed_eq_zero hquota
      | failed err => exact absurd hpass (hfail _ err (mem_of_getElem? hwaiter) hdry)
      | admitted => exact hadmitted position _ hwaiter hdry quota₀ hquota₀
    | counted _ _ =>
      simp only at hres
      rw [← hres] at hwaiter
      exact hadmitted position _ hwaiter hdry quota₀ hquota₀
  rw [Env.checkQuotas]
  simp only
  split_ifs with hchg
  · exact ⟨hready', hadmitted', trivial⟩
  · have hcounted : ∀ position a, (env.checkWaiters quotas waiters).2.1[position]? = some ⟨a, .defaultDeny⟩ →
        waiters[position]? = some ⟨a, .defaultDeny⟩ ∧ ∀ name, ⟨number, position, a, name⟩ ∈
          env.counted number name 0 quotas (waiters.map attributes) := by
      intro position a hwaiter'
      obtain ⟨⟨a', result⟩, hwaiter, rfl, hout⟩ := houtcome position a _ hwaiter'
      generalize hres : Result.defaultDeny = result' at hout
      cases hout with
      | failed | dryRun | free => cases hres
      | counted _ hin =>
        simp only [Nat.zero_add] at hin
        exact ⟨hwaiter, hin⟩
    refine updating_inv hready' hadmitted' ⟨hquotas, fun written hwr => ?_, fun position a hwaiter' => ?_,
      fun position a hwaiter' quota₀ hquota₀ => ?_⟩
    · rw [hattributes]
      exact mem_changedQuotas (checkWaiters_written hready 0 written.name) hwr
    · rw [hattributes]
      exact (hcounted position a hwaiter').2
    · obtain ⟨hwaiter, hin⟩ := hcounted position a hwaiter'
      rw [append_nil]
      by_cases hname : quota₀.name ∈ (changedQuotas quotas (env.checkWaiters quotas waiters).1).map name
      · exact .inr hname
      · -- The quota is unchanged, so that it counts nothing for the request.
        refine .inl (hfree position _ hwaiter quota₀ hquota₀ fun quota hquota hquotaName resource => ?_)
        obtain ⟨written, hwr, hor⟩ :=
          used_eq_or_mem_changedQuotas (@checkWaiters_written _ _ _ number _ hready 0 quota.name) hquota
        rcases hor with hused | hmem
        · exact hwr.owed_eq_zero hused (hin quota.name) resource
        · exact absurd (mem_map.mpr ⟨written, hmem, hwr.name.trans hquotaName⟩) hname

/-! ### Runs -/

namespace World
variable {w w' : World Obj} {label : Label Obj}

structure Inv (env : Env Obj) (start : List ResourceQuota) (w : World Obj) : Prop where
  versions : VersionsOf start w.versions w.revision
  stored : ∀ quota₀ ∈ start, ∃ quota, w.stored quota₀.name = some quota ∧ ∀ resource,
    amount quota.used resource = amount quota₀.used resource +
      owedBy env (w.charges.filter fun charge => charge.quota == quota₀.name) quota₀ resource ∧
    (amount quota.used resource ≠ amount quota₀.used resource →
      amount quota.used resource ≤ amount quota₀.hard resource)
  owed_nonneg : ∀ charge ∈ w.charges, ∀ quota₀ ∈ start, charge.quota = quota₀.name →
    ∀ resource, 0 ≤ env.owed charge.attributes quota₀ resource
  batches : ∀ number batch, w.batches[number]? = some batch → BatchInv env start w.versions w.charges number batch

theorem stored_mem {name : String} (h : w.stored name = some quota) : quota ∈ w.versions ∧ quota.name = name :=
  ⟨mem_of_find?_eq_some h, by simpa using find?_some h⟩

section
variable (h : Inv env start w)
include h

theorem Inv.exists_version {quota₀ : ResourceQuota} (hquota₀ : quota₀ ∈ start) :
    ∃ quota ∈ w.versions, quota.name = quota₀.name := by
  obtain ⟨quota, hstored, -⟩ := h.stored quota₀ hquota₀
  exact ⟨quota, stored_mem hstored⟩

theorem Inv.set {batch : Batch Obj} (hbatch : BatchInv env start w.versions w.charges number batch) :
    Inv env start { w with batches := w.batches.set number batch } where
  __ := h
  batches other batch' hother := by
    simp only [getElem?_set] at hother
    split_ifs at hother with heq hlt
    · cases hother
      rw [← heq]
      exact hbatch
    · exact h.batches other batch' hother

variable {read : Except String (List ResourceQuota)}

theorem Inv.begin {requests : List (Attributes Obj)} (hen : w.Enabled env (.begin requests read))
    (hsound : w.Sound env (.begin requests read)) : Inv env start (w.next env (.begin requests read)) := by
  have hready : ∀ a ∈ requests, Ready env a := fun a ha => ⟨(hen.1 a ha).1, hsound a ha, (hen.1 a ha).2⟩
  have hbatch : BatchInv env start w.versions w.charges w.batches.length (env.checkAttributes requests read) := by
    cases read with
    | error =>
      refine ⟨forall_mem_map.mpr hready, fun position a hwaiter => ?_, trivial⟩
      rw [Env.checkAttributes, getElem?_map, Option.map_eq_some_iff] at hwaiter
      obtain ⟨a', -, hfalse⟩ := hwaiter
      cases hfalse
    | ok quotas =>
      obtain ⟨hvers, -, hnames⟩ := hen.2
      rw [Env.checkAttributes]
      split_ifs with hnone
      · -- Without quotas there is nothing to count.
        refine ⟨forall_mem_map.mpr hready, fun position a hwaiter _ quota₀ hquota₀ => ?_, trivial⟩
        obtain ⟨quota, hquota, -⟩ := h.exists_version hquota₀
        have hname := hnames quota hquota
        rw [List.isEmpty_iff.mp hnone.1] at hname
        cases hname
      · have hnew :
            ∀ (position : Nat) (waiter : Waiter Obj), (requests.map newAdmissionWaiter)[position]? = some waiter →
            waiter.result = .defaultDeny := by
          intro position waiter hwaiter
          rw [getElem?_map, Option.map_eq_some_iff] at hwaiter
          obtain ⟨a', -, rfl⟩ := hwaiter
          rfl
        refine checkQuotas_inv h.versions hvers (forall_mem_map.mpr hready) (fun position a hwaiter => ?_)
          (fun position a _ quota₀ hquota₀ => ?_) (fun a _ hwaiter => ?_) 3
        · cases hnew position _ hwaiter
        · obtain ⟨quota, hquota, hname⟩ := h.exists_version hquota₀
          rw [← hname]
          exact .inr (hnames quota hquota)
        · obtain ⟨position, hwaiter⟩ := mem_iff_getElem?.mp hwaiter
          cases hnew position _ hwaiter
  refine ⟨h.versions, h.stored, h.owed_nonneg, fun number batch hnum => ?_⟩
  simp only [next] at hnum
  rcases Nat.lt_trichotomy number w.batches.length with hlt | heq | _
  · rw [getElem?_append_left hlt] at hnum
    exact h.batches number batch hnum
  · rw [heq, getElem?_concat_length] at hnum
    cases hnum
    rw [heq]
    exact hbatch
  · rw [getElem?_eq_none (by simp; omega)] at hnum
    cases hnum

theorem Inv.reread (hen : w.Enabled env (.reread number read)) (hsound : w.Sound env (.reread number read)) :
    Inv env start (w.next env (.reread number read)) := by
  obtain ⟨⟨⟨waiters, phase⟩, hbatch, hphase⟩, hread⟩ := hen
  obtain ⟨failed, lastErr, remainingRetries, rfl⟩ :
      ∃ failed lastErr remainingRetries, phase = .rereading failed lastErr remainingRetries := by
    cases phase with
    | finished | updating => cases hphase
    | rereading failed lastErr remainingRetries => exact ⟨failed, lastErr, remainingRetries, rfl⟩
  obtain ⟨hready, hadmitted, hdefault⟩ := h.batches number _ hbatch
  have hnext : w.next env (.reread number read) =
      { w with batches := w.batches.set number (env.retry waiters failed lastErr remainingRetries read) } := by
    rw [next, hbatch]
  rw [hnext]
  apply h.set
  cases read with
  | error => exact settle_failed_inv hready hadmitted _
  | ok =>
    obtain ⟨hvers, -, hnames⟩ := hread
    refine checkQuotas_inv h.versions (fun quota hquota => hvers quota (mem_filter.mp hquota).1) hready
      hadmitted (fun position a hwaiter quota₀ hquota₀ => ?_) (fun a _ hwaiter hdry => ?_) _
    swap
    · refine hsound _ hbatch a (mem_map.mpr ⟨_, mem_filter.mpr ⟨hwaiter, ?_⟩, rfl⟩)
      simp only [Result.isFailed, hdry]
      rfl
    refine (hdefault position a hwaiter quota₀ hquota₀).imp_right fun hname => ?_
    -- The quota whose update failed has been read again.
    obtain ⟨version, hver, hversionName⟩ := h.exists_version hquota₀
    obtain ⟨newQuota, hnew, hnewName⟩ := mem_map.mp (hnames version hver)
    obtain ⟨oldQuota, hold, holdName⟩ := mem_map.mp hname
    refine mem_map.mpr ⟨newQuota, mem_filter.mpr ⟨hnew, ?_⟩, hnewName.trans hversionName⟩
    rw [any_eq_true]
    exact ⟨oldQuota, hold, by rw [beq_iff_eq, hnewName, hversionName, holdName]⟩

end

theorem counted_quota {name : String} {requests : List (Attributes Obj)} {first : Nat} {charge : Charge Obj}
    (h : charge ∈ env.counted number name first quotas requests) : charge.quota = name := by
  induction requests generalizing quotas first with
  | nil => cases h
  | cons _ _ ih =>
    rw [Env.counted] at h
    split at h
    · exact ih h
    · split_ifs at h
      · exact ih h
      · rcases mem_cons.mp h with rfl | h
        · rfl
        · exact ih h

variable {lastErr : String} {pending : List ResourceQuota} {remainingRetries : Nat}
  {failed originals : List ResourceQuota}

theorem Inv.rest {waiters : List (Waiter Obj)} {failed' : List ResourceQuota} {lastErr' : String}
    (hbatch : BatchInv env start versions charges number
      ⟨waiters, .updating originals (quota :: pending) failed lastErr remainingRetries⟩)
    (hname : ∀ position a, (∀ name, ⟨number, position, a, name⟩ ∈
        env.counted number name 0 originals (waiters.map attributes)) →
      ∀ quota₀ ∈ start, quota₀.name = quota.name →
        CountedIn env charges number position a quota₀ ∨ quota₀.name ∈ failed'.map name)
    (hfail : ∀ quota' ∈ failed, quota' ∈ failed') :
    BatchInv env start versions charges number
      (updating waiters originals pending failed' lastErr' remainingRetries) := by
  obtain ⟨hready, hadmitted, horig, hpend, hcnt, hbut⟩ := hbatch
  refine updating_inv hready hadmitted ⟨horig,
    fun written hwr => hpend written (mem_cons_of_mem quota hwr), hcnt, fun position a hwaiter quota₀ hquota₀ => ?_⟩
  rw [map_append, mem_append]
  rcases hbut position a hwaiter quota₀ hquota₀ with hin | hmem
  · exact .inl hin
  · rw [cons_append, map_cons, mem_cons, map_append, mem_append] at hmem
    rcases hmem with heq | hmem | hmem
    · exact (hname position a (hcnt position a hwaiter) quota₀ hquota₀ heq).imp_right .inr
    · exact .inr (.inl hmem)
    · obtain ⟨quota', hquota', heq⟩ := mem_map.mp hmem
      exact .inr (.inr (mem_map.mpr ⟨quota', hfail quota' hquota', heq⟩))

section
variable (h : Inv env start w)
include h

section
variable (hbatch : w.batches[number]? =
  some ⟨waiters, .updating originals (quota :: pending) failed lastErr remainingRetries⟩)
include hbatch

theorem Inv.updateFails (err : String) :
    Inv env start { w with
      batches := w.batches.set number
        (updating waiters originals pending (failed ++ [quota]) err remainingRetries) } := by
  refine h.set (Inv.rest (h.batches number _ hbatch) (fun _ a _ _ _ hname => .inr ?_)
    fun _ hquota' => mem_append_left _ hquota')
  rw [map_append, mem_append, hname]
  exact .inr mem_cons_self

theorem Inv.updateSucceeds {current : ResourceQuota} (hcur : w.stored quota.name = some current)
    (hver : current.resourceVersion = quota.resourceVersion) :
    Inv env start
      { versions := { quota with resourceVersion := w.revision + 1 } :: w.versions
        revision := w.revision + 1
        batches := w.batches.set number (updating waiters originals pending failed lastErr remainingRetries)
        charges := env.counted number quota.name 0 originals (waiters.map attributes) ++ w.charges } := by
  have hinv := h.batches number _ hbatch
  obtain ⟨horig, hpend, -⟩ := hinv.phase
  obtain ⟨original, horiginal, hwr⟩ := hpend quota mem_cons_self
  obtain ⟨hcurrentMem, hcurrentName⟩ := stored_mem hcur
  -- The version that was read is the current one.
  have heq : current = original :=
    h.versions.unique current hcurrentMem original (horig original horiginal)
      (hcurrentName.trans hwr.name) (hver.trans hwr.resourceVersion)
  subst heq
  have hvers : ∀ quota' ∈ w.versions, quota' ∈ { quota with resourceVersion := w.revision + 1 } :: w.versions :=
    fun quota' => mem_cons_of_mem _
  set counted := env.counted number quota.name 0 originals (waiters.map attributes)
  have hcharges : ∀ charge ∈ w.charges, charge ∈ counted ++ w.charges := fun charge => mem_append_right _
  refine ⟨h.versions.cons hcurrentMem ⟨hwr.name, hwr.spec, hwr.hard⟩ rfl,
    fun quota₀ hquota₀ => ?_, fun charge hcharge quota₀ hquota₀ hquota resource => ?_, fun other batch hother => ?_⟩
  · by_cases hname : quota₀.name = quota.name
    · have hsame := h.versions.sameQuota hquota₀ hcurrentMem (hcurrentName.trans hname.symm)
      obtain ⟨quota', hstored, hamount⟩ := h.stored quota₀ hquota₀
      have hquota' : quota' = current := by
        rw [hname, hcur] at hstored
        exact (Option.some.inj hstored).symm
      subst hquota'
      refine ⟨{ quota with resourceVersion := w.revision + 1 }, ?_, fun resource => ?_⟩
      · rw [World.stored, find?_cons, hname]
        simp
      · obtain ⟨hused, hle⟩ := hamount resource
        have hfilter : counted.filter (fun charge => charge.quota == quota₀.name) = counted := by
          rw [filter_eq_self]
          intro charge hcharge
          rw [counted_quota hcharge, hname, beq_self_eq_true]
        have howed : owedBy env counted quota' resource = owedBy env counted quota₀ resource := by
          simp only [owedBy, hsame.owed_eq]
        refine ⟨?_, fun hne => ?_⟩
        · rw [hwr.used, hused, howed, filter_append, hfilter, owedBy, owedBy, owedBy, map_append, sum_append]
          linarith
        · by_cases hchg : amount quota.used resource = amount quota'.used resource
          · rw [hchg] at hne ⊢
            exact hle hne
          · rw [← hsame.hard]
            exact hwr.le_hard resource hchg
    · obtain ⟨quota', hstored, hamount⟩ := h.stored quota₀ hquota₀
      refine ⟨quota', ?_, fun resource => ?_⟩
      · rw [World.stored, find?_cons_of_neg]
        · exact hstored
        · simpa using Ne.symm hname
      · have hfilter : counted.filter (fun charge => charge.quota == quota₀.name) = [] := by
          rw [filter_eq_nil_iff]
          intro charge hcharge
          rw [counted_quota hcharge, beq_iff_eq]
          exact Ne.symm hname
        rw [filter_append, hfilter, nil_append]
        exact hamount resource
  · rcases mem_append.mp hcharge with hcharge | hcharge
    · have hname : current.name = quota₀.name := by
        rw [hcurrentName, ← hquota, counted_quota hcharge]
      have hsame := h.versions.sameQuota hquota₀ hcurrentMem hname
      rw [← hsame.owed_eq]
      exact hwr.owed_nonneg charge hcharge resource
    · exact h.owed_nonneg charge hcharge quota₀ hquota₀ hquota resource
  · simp only [getElem?_set] at hother
    split_ifs at hother with hnum hlt
    · cases hother
      rw [← hnum]
      refine Inv.rest (hinv.mono hvers hcharges) (fun _ a hcnt quota₀ _ hname => ?_) fun quota' => id
      refine .inl (.inr (mem_append_left _ ?_))
      rw [hname]
      exact hcnt quota.name
    · exact (h.batches other batch hother).mono hvers hcharges

end

theorem Inv.update (fails : Option String) : Inv env start (w.next env (.update number fails)) := by
  rw [next]
  split
  · next waiters originals quota pending failed lastErr remainingRetries hbatch =>
      cases fails with
      | some err => exact h.updateFails hbatch err
      | none =>
        rw [World.update]
        split_ifs with hcur
        · cases hstored : w.stored quota.name with
          | none =>
            rw [hstored] at hcur
            cases hcur
          | some =>
            rw [hstored] at hcur
            exact h.updateSucceeds hbatch hstored (beq_iff_eq.mp hcur)
        · exact h.updateFails hbatch "conflict"
  · exact h

theorem Inv.step (hstep : (soundServers env).step w label w') : Inv env start w' := by
  obtain ⟨⟨hen, hsound⟩, rfl⟩ := hstep
  cases label with
  | begin => exact h.begin hen hsound
  | update _ fails => exact h.update fails
  | reread => exact h.reread hen hsound

end

theorem inv_initial (hnodup : (start.map name).Nodup)
    (hrevision : ∀ quota ∈ start, quota.resourceVersion ≤ revision) : Inv env start (initial start revision) where
  versions :=
    { same := fun quota hquota => ⟨quota, hquota, .refl quota⟩
      unique := fun quota hquota _ hquota' hname _ => inj_on_of_nodup_map hnodup hquota hquota' hname
      le_revision := hrevision
      nodup := hnodup }
  stored quota₀ hquota₀ := by
    cases hstored : (initial start revision : World Obj).stored quota₀.name with
    | none =>
      have hne := find?_eq_none.mp hstored quota₀ hquota₀
      rw [beq_self_eq_true] at hne
      exact absurd rfl hne
    | some quota =>
      obtain ⟨hmem, hname⟩ := stored_mem hstored
      have heq : quota = quota₀ := inj_on_of_nodup_map hnodup hmem hquota₀ hname
      subst heq
      exact ⟨quota, rfl, fun _ => ⟨(add_zero _).symm, fun hne => absurd rfl hne⟩⟩
  owed_nonneg charge hchg := by cases hchg
  batches number batch hbatch := by cases hbatch

theorem Inv.run {labels : List (Label Obj)} (h : Inv env start w) (hrun : (soundServers env).Run w labels w') :
    Inv env start w' :=
  hrun.invariant (Inv env start) (fun _ _ _ hstep hinv => hinv.step hstep) h

/-! ### What has been admitted -/

theorem mem_batch_admitted {batch : Batch Obj} (h : (position, a) ∈ batch.admitted) :
    batch.phase = .finished ∧ batch.waiters[position]? = some ⟨a, .admitted⟩ ∧ a.dryRun = false := by
  obtain ⟨_, phase⟩ := batch
  cases phase with
  | updating | rereading => cases h
  | finished =>
    obtain ⟨⟨⟨_, result⟩, i⟩, hent, hsome⟩ := mem_filterMap.mp h
    cases result with
    | defaultDeny | failed => cases hsome
    | admitted =>
      split_ifs at hsome with hdry
      cases hsome
      exact ⟨rfl, mem_zipIdx_iff_getElem?.mp hent, Bool.eq_false_iff.mpr hdry⟩

theorem Inv.counted_of_mem_admitted (h : Inv env start w) (hmem : (number, position, a) ∈ w.admitted)
    (hquota : quota ∈ start) : CountedIn env w.charges number position a quota := by
  obtain ⟨⟨batch, i⟩, hbatch, hent⟩ := mem_flatMap.mp hmem
  obtain ⟨⟨_, _⟩, hadmitted, heq⟩ := mem_map.mp hent
  cases heq
  obtain ⟨-, hwaiter, hdry⟩ := mem_batch_admitted hadmitted
  exact (h.batches _ batch (mem_zipIdx_iff_getElem?.mp hbatch)).admitted position a hwaiter hdry quota hquota

theorem pairwise_zipIdx {α : Type} (l : List α) : l.zipIdx.Pairwise fun x y => x.2 ≠ y.2 := by
  have hnodup : (l.zipIdx.map Prod.snd).Nodup := by
    rw [zipIdx_map_snd]
    exact nodup_range'
  exact pairwise_map.mp hnodup

theorem pairwise_admitted (w : World Obj) : w.admitted.Pairwise fun x y => (x.1, x.2.1) ≠ (y.1, y.2.1) := by
  rw [admitted, pairwise_flatMap]
  constructor
  · rintro ⟨batch, i⟩ -
    rw [pairwise_map]
    have hbatch : batch.admitted.Pairwise fun x y => x.1 ≠ y.1 := by
      obtain ⟨waiters, phase⟩ := batch
      cases phase with
      | updating | rereading => exact .nil
      | finished =>
        refine (pairwise_zipIdx waiters).filterMap _ ?_
        rintro ⟨⟨a, result⟩, i⟩ ⟨⟨_, result'⟩, j⟩ hne x hx y hy
        cases result with
        | defaultDeny | failed => cases hx
        | admitted =>
          cases result' with
          | defaultDeny | failed => cases hy
          | admitted =>
            split_ifs at hx
            split_ifs at hy
            cases hx
            cases hy
            exact hne
    exact hbatch.imp fun hne heq => hne (Prod.ext_iff.mp heq).2
  · refine (pairwise_zipIdx w.batches).imp ?_
    rintro ⟨batch, i⟩ ⟨_, j⟩ hne x hx y hy heq
    obtain ⟨_, -, rfl⟩ := mem_map.mp hx
    obtain ⟨_, -, rfl⟩ := mem_map.mp hy
    exact hne (Prod.ext_iff.mp heq).1

theorem Inv.admittedUsage_le (h : Inv env start w) (hquota : quota ∈ start) {resource : ResourceName}
    (hres : resource ∈ quota.hard) : 0 ≤ w.admittedUsage env quota resource ∧ w.admittedUsage env quota resource ≤
      owedBy env (w.charges.filter fun charge => charge.quota == quota.name) quota resource := by
  have howed : ∀ entry ∈ w.admitted.filter fun entry => env.matchesQuota entry.2.2 quota,
      amount (env.usage entry.2.2) resource = env.owed entry.2.2 quota resource := by
    intro entry hent
    have hmatch := (mem_filter.mp hent).2
    rw [Env.owed, if_pos ⟨hmatch, hres⟩]
  have hcnt : ∀ entry ∈ w.admitted.filter fun entry => env.matchesQuota entry.2.2 quota,
      amount (env.usage entry.2.2) resource = 0 ∨ (⟨entry.1, entry.2.1, entry.2.2, quota.name⟩ : Charge Obj) ∈
        w.charges.filter fun charge => charge.quota == quota.name := by
    intro entry hent
    rw [howed entry hent]
    rcases h.counted_of_mem_admitted (mem_filter.mp hent).1 hquota with hzero | hin
    · exact .inl (hzero resource)
    · exact .inr (mem_filter.mpr ⟨hin, beq_self_eq_true _⟩)
  have hnn : ∀ charge ∈ w.charges.filter fun charge => charge.quota == quota.name,
      0 ≤ env.owed charge.attributes quota resource := by
    intro charge hchg
    obtain ⟨hin, hname⟩ := mem_filter.mp hchg
    exact h.owed_nonneg charge hin quota hquota (beq_iff_eq.mp hname) resource
  refine ⟨sum_nonneg fun x hx => ?_, sum_map_le_of_mem ?_ howed hcnt hnn⟩
  · obtain ⟨entry, hent, rfl⟩ := mem_map.mp hx
    rcases hcnt entry hent with hzero | hin
    · exact hzero.ge
    · rw [howed entry hent]
      exact hnn _ hin
  · refine pairwise_map.mpr ((w.pairwise_admitted.filter _).imp fun {x y} hne heq => hne ?_)
    rw [(Charge.mk.inj heq).1, (Charge.mk.inj heq).2.1]

/-- **Quota admission never over-admits, under the condition.** In every run of servers whose steps all meet it, a
request that is admitted has been counted in every quota that it matches, and the usage of a limited resource by
the admitted requests that match a quota is at most what was left of it at the start. -/
theorem never_over_admits {labels : List (Label Obj)} (hnodup : (start.map ResourceQuota.name).Nodup)
    (hrevision : ∀ quota ∈ start, quota.resourceVersion ≤ revision)
    (hrun : (soundServers env).Run (initial start revision) labels w) (hquota : quota ∈ start) :
    (∀ number position a, (number, position, a) ∈ w.admitted → env.matchesQuota a quota = true →
      w.Counted env number position a quota) ∧
    (∃ current, w.stored quota.name = some current ∧ ∀ resource, amount current.used resource =
      amount quota.used resource +
        owedBy env (w.charges.filter fun charge => charge.quota == quota.name) quota resource) ∧
    ∀ resource ∈ quota.hard, (amount quota.used resource ≤ amount quota.hard resource →
        w.admittedUsage env quota resource ≤ amount quota.hard resource - amount quota.used resource) ∧
      (amount quota.hard resource < amount quota.used resource → w.admittedUsage env quota resource = 0) := by
  have hinv : Inv env start w := (inv_initial hnodup hrevision).run hrun
  obtain ⟨current, hstored, hamount⟩ := hinv.stored quota hquota
  refine ⟨fun _ _ a hmem _ => hinv.counted_of_mem_admitted hmem hquota,
    ⟨current, hstored, fun resource => (hamount resource).1⟩, fun resource hresource => ?_⟩
  obtain ⟨_, _⟩ := hinv.admittedUsage_le hquota hresource
  obtain ⟨_, hlimit⟩ := hamount resource
  by_cases hsame : amount current.used resource = amount quota.used resource
  · exact ⟨fun _ => by linarith, fun _ => by linarith⟩
  · have hcurrent := hlimit hsame
    exact ⟨fun _ => by linarith, fun _ => by linarith⟩

end World

/-! ### Runs with two quotas -/

instance evaluatedDecidable (env : Env Obj) (a : Attributes Obj) : Decidable (env.Evaluated a) := by
  unfold Env.Evaluated
  infer_instance

instance scopesMatchDecidable (env : Env Obj) (a : Attributes Obj) : Decidable (env.ScopesMatch a) := by
  unfold Env.ScopesMatch
  infer_instance

instance passesFreeDecidable (env : Env Obj) (quotas : List ResourceQuota) (a : Attributes Obj) :
    Decidable (env.PassesFree quotas a) := by
  unfold Env.PassesFree
  infer_instance

namespace World

instance readOkDecidable (w : World Obj) (read : Except String (List ResourceQuota)) : Decidable (w.ReadOk read) := by
  cases read <;> dsimp only [ReadOk, IsRead] <;> infer_instance

instance enabledDecidable (env : Env Obj) (w : World Obj) (label : Label Obj) : Decidable (w.Enabled env label) := by
  cases label <;> dsimp only [Enabled] <;> infer_instance

instance soundDecidable (env : Env Obj) (w : World Obj) (label : Label Obj) : Decidable (w.Sound env label) := by
  unfold Sound
  split <;> infer_instance

end World

def scopedPods : Env String where
  registry resource := if resource = ⟨"", "pods"⟩ then some
    { handles _ := true
      matchingScopes scope selectors := .ok (selectors.filter fun selector => selector.scopeName == scope)
      matchesQuota spec _ scope := .ok (spec.scopes.contains scope)
      matchingResources := id
      constraints _ _ := .ok ()
      usage _ := .ok (Finmap.singleton "pods" 1)
      uncoveredQuotaScopes _ _ := .ok []
      hasResourceVersion _ := false } else none
  limitedResources := []

def createPod (scope : String) : Attributes String := ⟨⟨"", "pods"⟩, .create, scope, none, false⟩

def podQuota (name : String) (resourceVersion : Nat) (scope : String) (hard used : Int) : ResourceQuota :=
  ⟨name, resourceVersion, ⟨[scope], none⟩, Finmap.singleton "pods" hard, Finmap.singleton "pods" used⟩

def scopeQuotas : List ResourceQuota :=
  [podQuota "best-effort" 1 "BestEffort" 1 1, podQuota "not-best-effort" 2 "NotBestEffort" 5 0]

namespace World

def retried (requests : List (Attributes String)) : List (Label String) :=
  [.begin requests (.ok scopeQuotas), .update 0 (some "timeout"), .reread 0 (.ok scopeQuotas), .update 0 none]

/-- A pod is admitted after a failed update of its quota was retried. -/
theorem never_over_admits_retry : ∃ (labels : List (Label String)) (w : World String) (quota : ResourceQuota),
    (soundServers scopedPods).Run (initial scopeQuotas 2) labels w ∧ quota ∈ scopeQuotas ∧
      (0, 0, createPod "NotBestEffort") ∈ w.admitted ∧ w.Counted scopedPods 0 0 (createPod "NotBestEffort") quota ∧
      w.admittedUsage scopedPods quota "pods" ≤ amount quota.hard "pods" - amount quota.used "pods" := by
  have hrun : (soundServers scopedPods).Run (initial scopeQuotas 2) (retried [createPod "NotBestEffort"]) _ :=
    System.run_foldl (by decide +kernel)
  have hquota : podQuota "not-best-effort" 2 "NotBestEffort" 5 0 ∈ scopeQuotas := mem_cons_of_mem _ mem_cons_self
  have hadmitted : (0, 0, createPod "NotBestEffort") ∈
      ((retried [createPod "NotBestEffort"]).foldl (next scopedPods) (initial scopeQuotas 2)).admitted := by
    decide +kernel
  obtain ⟨hcounted, -, husage⟩ := never_over_admits (by decide +kernel) (by decide +kernel) hrun hquota
  exact ⟨_, _, _, hrun, hquota, hadmitted, hcounted 0 0 _ hadmitted (by decide +kernel),
    (husage "pods" (by decide +kernel)).1 (by decide +kernel)⟩

/-- The quota for best-effort pods is used up, so that such a pod is rejected. In the same batch the update of the
other quota fails, and when only that quota is checked again the pod passes: it is admitted. -/
theorem admitted_after_rejection : ∃ (labels : List (Label String)) (w : World String) (quota : ResourceQuota),
    (servers scopedPods).Run (initial scopeQuotas 2) labels w ∧ quota ∈ scopeQuotas ∧
      (0, 0, createPod "BestEffort") ∈ w.admitted ∧ scopedPods.matchesQuota (createPod "BestEffort") quota = true ∧
      ¬ w.Counted scopedPods 0 0 (createPod "BestEffort") quota ∧
      amount quota.used "pods" = 1 ∧ amount quota.hard "pods" = 1 ∧ w.admittedUsage scopedPods quota "pods" = 1 := by
  refine ⟨retried [createPod "BestEffort", createPod "NotBestEffort"], _, podQuota "best-effort" 1 "BestEffort" 1 1,
    System.run_foldl (by decide +kernel), mem_cons_self, by decide +kernel, by decide +kernel, ?_,
    by decide +kernel, by decide +kernel, by decide +kernel⟩
  rintro (howed | hcharge)
  · exact absurd (howed "pods") (by decide +kernel)
  · have hquotas : "best-effort" ∉ ((retried [createPod "BestEffort", createPod "NotBestEffort"]).foldl
        (next scopedPods) (initial scopeQuotas 2)).charges.map Charge.quota := by decide +kernel
    exact hquotas (mem_map.mpr ⟨_, hcharge, rfl⟩)

end World
end LeanKube.Quota
