import LeanKube.DisruptionEvictions
import LeanKube.ListRelations

/-! Evictions respect the disruption budget in every run in which no sync overwrites the budget with a status that
has become wrong. The stored status always fits the pods and the evictions that are under way, so the pods that no
eviction is about to delete stay as many as the budget asks for. -/

namespace LeanKube.Disruption
open List ListRelations World Eviction Pod Env
variable {env : Env} {w w' : World} {status : Status} {start : Nat}

/-! ### Steps that leave the budget alone -/

structure Calm (w w' : World) : Prop where
  budget : w'.budget = w.budget
  versions : w'.versions = w.versions
  now : w.now ≤ w'.now
  names : (w'.pods.map Pod.name).Sublist (w.pods.map Pod.name)
  pods : ∀ p' ∈ w'.pods, ∃ p ∈ w.pods, p.name = p'.name ∧ p.terminal = p'.terminal ∧ p.ready = p'.ready
  healthy : ∀ p ∈ w'.pods, p.healthy → p ∈ w.pods
  deleting : ∀ e ∈ w'.evictions, ∀ disruptionTime, e.phase = .deleting (some disruptionTime) → e ∈ w.evictions
  undisturbed : w.undisturbed ≤ w'.undisturbed

variable {disruptionTime now : Nat} {pod : String} {phase : EvictionPhase} {p : Pod}

theorem Eviction.mem_underWay {e : Eviction} : disruptionTime ∈ e.underWay now ↔
      e.phase = .deleting (some disruptionTime) ∧ now < disruptionTime + deletionTimeout := by
  obtain ⟨_, phase⟩ := e
  cases phase with
  | deleting disruptionTime' =>
    cases disruptionTime' with
    | none => simp [underWay]
    | some =>
      simp only [underWay, Option.mem_def, EvictionPhase.deleting.injEq, Option.some.injEq]
      split_ifs with hlt
      · rw [Option.some.injEq]
        refine ⟨fun heq => ⟨heq, heq ▸ hlt⟩, And.left⟩
      · refine ⟨fun heq => (by cases heq), ?_⟩
        rintro ⟨rfl, hlt'⟩
        exact absurd hlt' hlt
  | _ => simp [underWay]

theorem Calm.underWay (h : Calm w w') {e : Eviction} (he : e ∈ w'.evictions)
    (ht : disruptionTime ∈ e.underWay w'.now) : e ∈ w.evictions ∧ disruptionTime ∈ e.underWay w.now := by
  obtain ⟨hphase, hlt⟩ := mem_underWay.mp ht
  exact ⟨h.deleting e he disruptionTime hphase, mem_underWay.mpr ⟨hphase, h.now.trans_lt hlt⟩⟩

theorem Calm.namesWithin (h : Calm w w') : NamesWithin w'.pods w.pods := by
  refine ⟨by simpa using h.names.length_le, fun p' hp' => ?_⟩
  obtain ⟨p, hp, hname, -⟩ := h.pods p' hp'
  exact ⟨p, hp, hname⟩

theorem World.Lists.calm (hlists : w.Lists status) (h : Calm w w') : w'.Lists status := by
  intro p hp hheal e he hpod disruptionTime ht
  obtain ⟨he, ht⟩ := h.underWay he ht
  exact hlists p (h.healthy p hp hheal) hheal e he hpod disruptionTime ht

theorem World.Bears.calm (hbears : w.Bears env status) (h : Calm w w') : w'.Bears env status := by
  rcases hbears with hobserved | hnone | ⟨_, hdes, _⟩
  · exact .inl hobserved
  · exact .inr (.inl hnone)
  · obtain ⟨desired', hdes', _⟩ := desiredHealthy_mono h.namesWithin hdes
    have hund := h.undisturbed
    refine .inr (.inr ⟨desired', hdes', ?_⟩)
    omega

theorem World.Fits.calm (hfits : w.Fits env status) (h : Calm w w') : w'.Fits env status :=
  ⟨hfits.1.calm h, hfits.2.calm h⟩

/-! ### The invariant -/

structure Decrements (env : Env) (w : World) (pod : String) (status : Status) (disruptionTime : Nat) : Prop where
  checked : env.checkAndDecrement pod w.budget.status disruptionTime = .ok status
  youngest : ∀ e ∈ w.evictions, ∀ disruptionTime', e.phase = .deleting (some disruptionTime') →
    disruptionTime' ≤ disruptionTime

variable (env)

def EvictionOk (w : World) (pod : String) : EvictionPhase → Prop
  | .listing _ | .finished _ => True
  | .updating _ listed status disruptionTime => disruptionTime ≤ w.now ∧ listed ≤ w.budget.resourceVersion ∧
      (listed = w.budget.resourceVersion → Decrements env w pod status disruptionTime)
  | .deleting none => ∀ p ∈ w.pods, p.name = pod → p.ready = false
  | .deleting (some disruptionTime) => disruptionTime ≤ w.now

def WriteOk (w : World) (write : StatusWrite) : Prop :=
  write.read ∈ w.versions ∧ (write.read.resourceVersion = w.budget.resourceVersion → w.Fits env write.status)

def SyncOk (w : World) : SyncPhase → Prop
  | .read budget => budget ∈ w.versions
  | .writing write | .refreshing write => WriteOk env w write
  | .finished _ => True

def Kept (start : Nat) (w : World) : Prop :=
  start ≤ w.undisturbed ∨ ∃ desired, env.desiredHealthy w.pods = .ok desired ∧ (desired ≤ 0 ∨ desired ≤ w.undisturbed)

variable {env}

structure Inv (env : Env) (start : Nat) (w : World) : Prop where
  names : (w.pods.map Pod.name).Nodup
  terminal : ∀ p ∈ w.pods, p.terminal → p.ready = false
  stored : w.budget ∈ w.versions
  versions : ∀ budget ∈ w.versions, budget.resourceVersion ≤ w.budget.resourceVersion ∧
    (budget.resourceVersion = w.budget.resourceVersion → budget = w.budget)
  evictions : ∀ e ∈ w.evictions, EvictionOk env w e.pod e.phase
  syncs : ∀ sync ∈ w.syncs, SyncOk env w sync
  fits : w.Fits env w.budget.status
  kept : Kept env start w

theorem EvictionOk.calm (h : Calm w w') (hok : EvictionOk env w pod phase) : EvictionOk env w' pod phase := by
  cases phase with
  | listing | finished => trivial
  | updating =>
    obtain ⟨htime, _, hchecked⟩ := hok
    refine ⟨htime.trans h.now, by rwa [h.budget], fun heq => ?_⟩
    rw [h.budget] at heq
    obtain ⟨hchecked, hyoungest⟩ := hchecked heq
    refine ⟨by rwa [h.budget], fun e he disruptionTime' hphase => ?_⟩
    exact hyoungest e (h.deleting e he disruptionTime' hphase) disruptionTime' hphase
  | deleting disruptionTime =>
    cases disruptionTime with
    | none =>
      intro p' hp' hname
      obtain ⟨p, hp, hname', -, hready⟩ := h.pods p' hp'
      rw [← hready]
      exact hok p hp (hname'.trans hname)
    | some => exact le_trans hok h.now

theorem WriteOk.calm (h : Calm w w') {write : StatusWrite} (hok : WriteOk env w write) : WriteOk env w' write := by
  refine ⟨by rw [h.versions]; exact hok.1, fun heq => ?_⟩
  rw [h.budget] at heq
  exact (hok.2 heq).calm h

theorem SyncOk.calm (h : Calm w w') {sync : SyncPhase} (hok : SyncOk env w sync) : SyncOk env w' sync := by
  cases sync with
  | read =>
    unfold SyncOk
    rw [h.versions]
    exact hok
  | writing | refreshing => exact WriteOk.calm h hok
  | finished => trivial

theorem Kept.calm (h : Calm w w') (hkept : Kept env start w) : Kept env start w' := by
  have hund := h.undisturbed
  rcases hkept with hstart | ⟨_, hdes, _⟩
  · exact .inl (hstart.trans hund)
  · obtain ⟨desired', hdes', _⟩ := desiredHealthy_mono h.namesWithin hdes
    refine .inr ⟨desired', hdes', ?_⟩
    omega

theorem Inv.calm (hinv : Inv env start w) (h : Calm w w')
    (hevictions : ∀ e ∈ w'.evictions, e ∈ w.evictions ∨ EvictionOk env w' e.pod e.phase := by exact fun _ he => .inl he)
    (hsyncs : ∀ sync ∈ w'.syncs, sync ∈ w.syncs ∨ SyncOk env w' sync := by exact fun _ hsync => .inl hsync) :
    Inv env start w' where
  names := h.names.nodup hinv.names
  terminal p' hp' hterminal := by
    obtain ⟨p, hp, -, hterminal', hready⟩ := h.pods p' hp'
    rw [← hready]
    exact hinv.terminal p hp (hterminal'.trans hterminal)
  stored := by
    rw [h.budget, h.versions]
    exact hinv.stored
  versions := by
    rw [h.budget, h.versions]
    exact hinv.versions
  evictions e he := (hevictions e he).elim (fun hold => (hinv.evictions e hold).calm h) id
  syncs sync hsync := (hsyncs sync hsync).elim (fun hold => (hinv.syncs sync hold).calm h) id
  fits := by
    rw [h.budget]
    exact hinv.fits.calm h
  kept := hinv.kept.calm h

/-! ### The calm steps -/

theorem World.isUndisturbed_iff : w.isUndisturbed p ↔
    p.healthy ∧ ∀ e ∈ w.evictions, e.pod = p.name → e.underWay w.now = none := by
  simp only [isUndisturbed, Bool.and_eq_true, Bool.not_eq_true', any_eq_false, beq_iff_eq,
    Option.isSome_iff_ne_none, ne_eq, not_and, not_not]

theorem isUndisturbed_mono (hnow : w.now ≤ w'.now)
    (hdel : ∀ e ∈ w'.evictions, ∀ disruptionTime, e.phase = .deleting (some disruptionTime) →
      e ∈ w.evictions ∨ e.pod ≠ p.name)
    (hp : w.isUndisturbed p) : w'.isUndisturbed p := by
  rw [isUndisturbed_iff] at hp ⊢
  refine ⟨hp.1, fun e he hpod => ?_⟩
  rw [Option.eq_none_iff_forall_not_mem]
  intro disruptionTime ht
  obtain ⟨hphase, hlt⟩ := mem_underWay.mp ht
  have hunderWay : disruptionTime ∈ e.underWay w.now := mem_underWay.mpr ⟨hphase, hnow.trans_lt hlt⟩
  rcases hdel e he disruptionTime hphase with hold | hother
  · rw [hp.2 e hold hpod] at hunderWay
    cases hunderWay
  · exact hother hpod

theorem Calm.of_pods (hbudget : w'.budget = w.budget) (hvers : w'.versions = w.versions) (hnow : w.now ≤ w'.now)
    (hpods : w'.pods = w.pods)
    (hdel : ∀ e ∈ w'.evictions, ∀ disruptionTime, e.phase = .deleting (some disruptionTime) → e ∈ w.evictions) :
    Calm w w' where
  budget := hbudget
  versions := hvers
  now := hnow
  names := by rw [hpods]
  pods p hp := ⟨p, hpods ▸ hp, rfl, rfl, rfl⟩
  healthy p hp _ := hpods ▸ hp
  deleting := hdel
  undisturbed := by
    unfold World.undisturbed
    rw [hpods]
    apply countP_mono_left
    intro p _ hp
    exact isUndisturbed_mono hnow (fun e he disruptionTime hphase => .inl (hdel e he disruptionTime hphase)) hp

theorem calm_setSync (w : World) (i : Nat) (phase : SyncPhase) : Calm w (w.setSync i phase) :=
  .of_pods rfl rfl le_rfl rfl fun _ he _ _ => he

theorem mem_of_mem_setEviction {i : Nat} (hphase : ∀ disruptionTime, phase ≠ .deleting (some disruptionTime)) :
    ∀ e ∈ (w.setEviction i pod phase).evictions, ∀ disruptionTime, e.phase = .deleting (some disruptionTime) →
      e ∈ w.evictions := by
  intro e he disruptionTime hdel
  rcases mem_or_eq_of_mem_set he with hold | rfl
  · exact hold
  · exact absurd hdel (hphase disruptionTime)

theorem calm_setEviction (w : World) (i : Nat) (pod : String)
    (hphase : ∀ disruptionTime, phase ≠ .deleting (some disruptionTime)) : Calm w (w.setEviction i pod phase) :=
  .of_pods rfl rfl le_rfl rfl (mem_of_mem_setEviction hphase)

theorem Inv.setSync (hinv : Inv env start w) (i : Nat) {phase : SyncPhase} (hok : SyncOk env w phase) :
    Inv env start (w.setSync i phase) := by
  have hcalm := calm_setSync w i phase
  exact hinv.calm hcalm (fun _ he => .inl he) fun _ hsync =>
    (mem_or_eq_of_mem_set hsync).imp_right (by rintro rfl; exact hok.calm hcalm)

theorem Inv.setEviction (hinv : Inv env start w) (i : Nat) (pod : String)
    (hphase : ∀ disruptionTime, phase ≠ .deleting (some disruptionTime))
    (hok : EvictionOk env w pod phase) : Inv env start (w.setEviction i pod phase) := by
  have hcalm := calm_setEviction w i pod hphase
  exact hinv.calm hcalm fun _ he => (mem_or_eq_of_mem_set he).imp_right (by rintro rfl; exact hok.calm hcalm)

theorem markDeleted_name (name : String) (p : Pod) : (p.markDeleted name).name = p.name := by
  unfold markDeleted
  split_ifs <;> rfl

theorem markDeleted_of_ne {name : String} (hname : p.name ≠ name) : p.markDeleted name = p := if_neg hname

theorem not_healthy_markDeleted {name : String} (hname : p.name = name) : (p.markDeleted name).healthy = false := by
  unfold markDeleted
  rw [if_pos hname]
  simp [Pod.healthy]

theorem calm_delete {i : Nat} {disruptionTime : Option Nat} (hinv : Inv env start w)
    (hget : w.evictions[i]? = some ⟨pod, .deleting disruptionTime⟩) (htime : w.InTime (.deleting disruptionTime)) :
    Calm w ({ w with pods := w.pods.map (markDeleted pod) }.setEviction i pod (.finished (.ok ()))) where
  budget := rfl
  versions := rfl
  now := le_rfl
  names := by
    have hnames : (w.pods.map (markDeleted pod)).map name = w.pods.map name := by
      rw [map_map]
      exact map_congr_left fun p _ => markDeleted_name pod p
    exact hnames ▸ List.Sublist.refl _
  pods p' hp' := by
    obtain ⟨p, hp, rfl⟩ := mem_map.mp hp'
    refine ⟨p, hp, (markDeleted_name pod p).symm, ?_⟩
    unfold markDeleted
    split_ifs <;> exact ⟨rfl, rfl⟩
  healthy p' hp' hheal := by
    obtain ⟨p, hp, rfl⟩ := mem_map.mp hp'
    by_cases hname : p.name = pod
    · rw [not_healthy_markDeleted hname] at hheal
      cases hheal
    · rwa [markDeleted_of_ne hname]
  deleting := mem_of_mem_setEviction nofun
  undisturbed := by
    unfold undisturbed setEviction
    rw [countP_map]
    apply countP_mono_left
    intro p hp hund
    have hmem := mem_of_getElem? hget
    have hname : p.name ≠ pod := by
      intro hname
      obtain ⟨hheal, hnone⟩ := isUndisturbed_iff.mp hund
      cases disruptionTime with
      | none =>
        have hready := hinv.evictions _ hmem p hp hname
        simp [Pod.healthy, hready] at hheal
      | some disruptionTime =>
        have hunderWay : disruptionTime ∈ underWay w.now ⟨pod, .deleting (some disruptionTime)⟩ :=
          mem_underWay.mpr ⟨rfl, htime⟩
        rw [hnone _ hmem hname.symm] at hunderWay
        cases hunderWay
    rw [Function.comp_apply, markDeleted_of_ne hname]
    exact @isUndisturbed_mono w _ p (le_refl _)
      (fun e he _ hphase => .inl (mem_of_mem_setEviction (by simp) e he _ hphase)) hund

theorem calm_remove (w : World) (pod : String) :
    Calm w { w with pods := w.pods.filter fun p => !(p.name == pod && p.deleting) } where
  budget := rfl
  versions := rfl
  now := le_rfl
  names := filter_sublist.map name
  pods p hp := ⟨p, mem_of_mem_filter hp, rfl, rfl, rfl⟩
  healthy p hp _ := mem_of_mem_filter hp
  deleting e he _ _ := he
  undisturbed := by
    unfold undisturbed
    rw [countP_filter]
    apply countP_mono_left
    intro p _ hp
    have hheal := (isUndisturbed_iff.mp hp).1
    simp only [Pod.healthy, Bool.and_eq_true, Bool.not_eq_true'] at hheal
    rw [Bool.and_eq_true]
    exact ⟨hp, by simp [hheal.2]⟩

/-! ### The status that a sync computes -/

variable {pods : List Pod}

theorem Env.trySync_ok {budget : Budget} (h : env.trySync pods budget now = .ok (some status)) :
    ∃ expected desired, env.getExpectedPodCount pods = .ok (expected, desired) ∧
      status.disruptedPods = (buildDisruptedPodMap pods budget.status.disruptedPods now).1 ∧
      status.podDisruptionsAllowed =
        disruptionsAllowed (countHealthyPods pods status.disruptedPods now) desired expected := by
  unfold trySync at h
  cases hcnt : env.getExpectedPodCount pods with
  | error =>
    rw [hcnt] at h
    cases h
  | ok counts =>
    obtain ⟨expected, desired⟩ := counts
    rw [hcnt] at h
    have hupd := Except.ok.inj h
    unfold updatePdbStatus at hupd
    simp only at hupd
    split_ifs at hupd
    rw [← Option.some.inj hupd]
    exact ⟨expected, desired, rfl, rfl, rfl⟩

/-- **A status computed from the stored budget fits.** The pods that it counts are on no eviction's way, since the
evictions under way are in the map that it starts from. -/
theorem fits_of_trySync (hfits : w.Fits env w.budget.status)
    (h : env.trySync w.pods w.budget w.now = .ok (some status)) : w.Fits env status := by
  obtain ⟨_, desired, hcnt, hmap, hallowed⟩ := trySync_ok h
  have hlists : ∀ p ∈ w.pods, p.healthy → ∀ e ∈ w.evictions, e.pod = p.name → ∀ disruptionTime ∈ e.underWay w.now,
      ∃ disruptionTime', status.disruptedPods.lookup p.name = some disruptionTime' ∧ disruptionTime ≤ disruptionTime' ∧
        w.now < disruptionTime' + deletionTimeout := by
    intro p hp hheal e he hpod disruptionTime ht
    obtain ⟨disruptionTime', hlookup, hle⟩ := hfits.1 p hp hheal e he hpod disruptionTime ht
    have hlt := (mem_underWay.mp ht).2
    have hdel : p.deleting = false := by
      simp only [Pod.healthy, Bool.and_eq_true, Bool.not_eq_true'] at hheal
      exact hheal.2
    refine ⟨disruptionTime', ?_, hle, by omega⟩
    rw [hmap]
    exact buildDisruptedPodMap_lookup hp hdel hlookup (by omega)
  constructor
  · intro p hp hheal e he hpod disruptionTime ht
    obtain ⟨disruptionTime', hlookup, hle, -⟩ := hlists p hp hheal e he hpod disruptionTime ht
    exact ⟨disruptionTime', hlookup, hle⟩
  · have hcounted : w.pods.countP (countsAsHealthy status.disruptedPods w.now) ≤ w.undisturbed := by
      apply countP_mono_left
      intro p hp hcounts
      unfold countsAsHealthy at hcounts
      split_ifs at hcounts with hdel hdisrupted
      have hheal : p.healthy := by simp [Pod.healthy, hcounts, hdel]
      refine isUndisturbed_iff.mpr ⟨hheal, fun e he hpod => ?_⟩
      rw [Option.eq_none_iff_forall_not_mem]
      intro disruptionTime ht
      obtain ⟨disruptionTime', hlookup, -, hlt⟩ := hlists p hp hheal e he hpod disruptionTime ht
      rw [hlookup] at hdisrupted
      simp [hlt] at hdisrupted
    unfold disruptionsAllowed countHealthyPods at hallowed
    split_ifs at hallowed with hnone
    · exact .inr (.inl hallowed.le)
    · have hdes : env.desiredHealthy w.pods = .ok desired := by
        unfold desiredHealthy
        rw [hcnt]
        rfl
      refine .inr (.inr ⟨desired, hdes, .inr ?_⟩)
      omega

theorem fits_failSafe (hfits : w.Fits env status) : w.Fits env (failSafe status) :=
  ⟨hfits.1, .inr (.inl le_rfl)⟩

/-! ### Writes of the budget -/

theorem Inv.stored_new (hinv : Inv env start w) (hpods : w'.pods = w.pods) (hnow : w'.now = w.now)
    (hbudget : w'.budget = ⟨w.budget.resourceVersion + 1, status⟩) (hvers : w'.versions = w'.budget :: w.versions)
    (hevictions : ∀ e ∈ w'.evictions, e ∈ w.evictions ∨
      ∃ disruptionTime, e.phase = .deleting (some disruptionTime) ∧ disruptionTime ≤ w.now)
    (hsyncs : ∀ sync ∈ w'.syncs, sync ∈ w.syncs ∨ ∃ err, sync = .finished err)
    (hfits : w'.Fits env status) (hkept : Kept env start w') : Inv env start w' where
  names := hpods ▸ hinv.names
  terminal := hpods ▸ hinv.terminal
  stored := by
    rw [hvers]
    exact mem_cons_self
  versions budget hmem := by
    rw [hvers] at hmem
    rcases mem_cons.mp hmem with rfl | hold
    · exact ⟨le_rfl, fun _ => rfl⟩
    · have hle := (hinv.versions budget hold).1
      rw [hbudget]
      refine ⟨hle.trans (Nat.le_succ _), fun heq => ?_⟩
      simp only at heq
      omega
  evictions e he := by
    rcases hevictions e he with hold | ⟨disruptionTime, hphase, hle⟩
    · have hok := hinv.evictions e hold
      obtain ⟨_, phase⟩ := e
      cases phase with
      | listing | finished => trivial
      | updating =>
        obtain ⟨_, hlisted, -⟩ := hok
        refine ⟨by rwa [hnow], ?_, fun heq => ?_⟩
        · rw [hbudget]
          exact hlisted.trans (Nat.le_succ _)
        · rw [hbudget] at heq
          simp only at heq
          omega
      | deleting disruptionTime =>
        cases disruptionTime with
        | none =>
          intro p hp
          rw [hpods] at hp
          exact hok p hp
        | some disruptionTime =>
          have hle : disruptionTime ≤ w.now := hok
          exact hle.trans hnow.ge
    · rw [hphase]
      exact hle.trans hnow.ge
  syncs sync hsync := by
    have hwrite : ∀ write, WriteOk env w write → WriteOk env w' write := by
      intro write hok
      refine ⟨by rw [hvers]; exact mem_cons_of_mem _ hok.1, fun heq => ?_⟩
      have hle := (hinv.versions _ hok.1).1
      rw [hbudget] at heq
      simp only at heq
      omega
    rcases hsyncs sync hsync with hold | ⟨_, rfl⟩
    · have hok := hinv.syncs sync hold
      cases sync with
      | read =>
        unfold SyncOk
        rw [hvers]
        exact mem_cons_of_mem _ hok
      | writing write | refreshing write => exact hwrite write hok
      | finished => trivial
    · trivial
  fits := by
    rw [hbudget]
    exact hfits
  kept := hkept

theorem Inv.write (hinv : Inv env start w) (i : Nat) (hfits : w.Fits env status) :
    Inv env start ((w.store status).setSync i (.finished none)) := by
  exact hinv.stored_new rfl rfl rfl rfl (fun e he => .inl he)
    (fun _ hsync => (mem_or_eq_of_mem_set hsync).imp_right fun heq => ⟨none, heq⟩) hfits hinv.kept

theorem Env.checkAndDecrement_ok {status status' : Status} (h : env.checkAndDecrement pod status now = .ok status') :
    ¬ status.observedGeneration < env.generation ∧ 0 < status.podDisruptionsAllowed ∧
      status' = { status with
        podDisruptionsAllowed := status.podDisruptionsAllowed - 1
        disruptedPods := status.disruptedPods.insert pod now } := by
  unfold checkAndDecrement at h
  split_ifs at h with hobserved hnegative hsize hzero
  exact ⟨hobserved, by omega, (Except.ok.inj h).symm⟩

theorem countP_le_of_name (hnames : (pods.map name).Nodup) (name : String) (p q : Pod → Bool)
    (hpq : ∀ pod ∈ pods, pod.name ≠ name → p pod → q pod) : pods.countP p ≤ pods.countP q + 1 := by
  induction pods with
  | nil => simp
  | cons pod rest ih =>
    rw [map_cons, nodup_cons] at hnames
    have hrest : ∀ pod' ∈ rest, pod'.name ≠ name → p pod' → q pod' :=
      fun pod' hmem => hpq pod' (mem_cons_of_mem _ hmem)
    rw [countP_cons, countP_cons]
    by_cases hname : pod.name = name
    · have hle : rest.countP p ≤ rest.countP q := by
        apply countP_mono_left
        intro pod' hmem hp
        refine hrest pod' hmem (fun hname' => hnames.1 ?_) hp
        rw [hname, ← hname']
        exact mem_map_of_mem hmem
      split_ifs <;> omega
    · have hle := ih hnames.2 hrest
      have hpod := hpq pod mem_cons_self hname
      split_ifs with hp hq hq
      · omega
      · exact absurd (hpod hp) hq
      · omega
      · omega

/-- **An eviction passes.** It takes one of the pods that the budget can spare, and writes down which. -/
theorem Inv.pass (hinv : Inv env start w) {i steps : Nat}
    (hget : w.evictions[i]? = some ⟨pod, .updating steps w.budget.resourceVersion status disruptionTime⟩) :
    Inv env start ((w.store status).setEviction i pod (.deleting (some disruptionTime))) := by
  obtain ⟨htime, -, hdecrements⟩ := hinv.evictions _ (mem_of_getElem? hget)
  obtain ⟨hchecked, hyoungest⟩ := hdecrements rfl
  obtain ⟨hobserved, _, hstatus⟩ := checkAndDecrement_ok hchecked
  have hmem : ∀ e ∈ w.evictions.set i ⟨pod, .deleting (some disruptionTime)⟩,
      e ∈ w.evictions ∨ e = ⟨pod, .deleting (some disruptionTime)⟩ := fun e => mem_or_eq_of_mem_set
  have hcnt : w.undisturbed ≤
      ((w.store status).setEviction i pod (.deleting (some disruptionTime))).undisturbed + 1 := by
    refine countP_le_of_name hinv.names pod _ _ fun p _ hname hp => ?_
    refine @isUndisturbed_mono w _ p (le_refl _) (fun e he disruptionTime' hphase => ?_) hp
    rcases hmem e he with hold | rfl
    · exact .inl hold
    · exact .inr hname.symm
  obtain ⟨desired, hdes, hbears⟩ : ∃ desired, env.desiredHealthy w.pods = .ok desired ∧
      (desired ≤ 0 ∨ desired + w.budget.status.podDisruptionsAllowed ≤ w.undisturbed) := by
    rcases hinv.fits.2 with hold | _ | hbears
    · exact absurd hold hobserved
    · omega
    · exact hbears
  refine hinv.stored_new rfl rfl rfl rfl (fun e he => ?_) (fun _ hsync => .inl hsync) ⟨?_, ?_⟩ ?_
  · rcases hmem e he with hold | rfl
    · exact .inl hold
    · exact .inr ⟨disruptionTime, rfl, htime⟩
  · intro p hp hheal e he hpod disruptionTime' ht
    have hphase := (mem_underWay.mp ht).1
    rw [hstatus]
    simp only [GoMap.lookup_insert_ite]
    rcases hmem e he with hold | rfl
    · split_ifs with hname
      · exact ⟨disruptionTime, rfl, hyoungest e hold disruptionTime' hphase⟩
      · exact hinv.fits.1 p hp hheal e hold hpod disruptionTime' ht
    · rw [if_pos hpod.symm]
      cases hphase
      exact ⟨disruptionTime, rfl, le_rfl⟩
  · have hallowed : status.podDisruptionsAllowed = w.budget.status.podDisruptionsAllowed - 1 := by rw [hstatus]
    refine .inr (.inr ⟨desired, hdes, ?_⟩)
    omega
  · refine .inr ⟨desired, hdes, ?_⟩
    omega

/-! ### Runs -/

theorem not_deleting_afterConflict (steps disruptionTime : Nat) :
    afterConflict steps ≠ .deleting (some disruptionTime) := by
  unfold afterConflict
  split_ifs <;> exact fun h => by cases h

theorem evictionOk_afterConflict (pod : String) (steps : Nat) : EvictionOk env w pod (afterConflict steps) := by
  unfold afterConflict
  split_ifs <;> trivial

section
variable (hinv : Inv env start w)
include hinv

theorem Inv.afterFailure {write : StatusWrite} (hok : WriteOk env w write) : SyncOk env w write.afterFailure := by
  unfold StatusWrite.afterFailure
  split_ifs
  · exact hok
  · trivial
  · refine ⟨hok.1, fun heq => fits_failSafe ?_⟩
    rw [(hinv.versions _ hok.1).2 heq]
    exact hinv.fits

theorem Inv.sync {budget : Budget} (hmem : budget ∈ w.versions) : SyncOk env w (env.sync w.pods budget w.now) := by
  unfold Env.sync
  cases htry : env.trySync w.pods budget w.now with
  | error =>
    refine ⟨hmem, fun heq => fits_failSafe ?_⟩
    rw [(hinv.versions _ hmem).2 heq]
    exact hinv.fits
  | ok written =>
    cases written with
    | none => trivial
    | some =>
      refine ⟨hmem, fun heq => ?_⟩
      rw [(hinv.versions _ hmem).2 heq] at htry
      exact fits_of_trySync hinv.fits htry

theorem Inv.evict (pod : String) :
    Inv env start { w with evictions := w.evictions ++ [⟨pod, w.startEviction pod⟩] } := by
  have hphase : ∀ disruptionTime, w.startEviction pod ≠ .deleting (some disruptionTime) := by
    intro disruptionTime
    unfold startEviction
    split_ifs <;> exact fun h => by cases h
  have hok : EvictionOk env w pod (w.startEviction pod) := by
    unfold startEviction
    split_ifs with hterminal
    · intro p hp hname
      simp only [any_eq_true, Bool.and_eq_true, beq_iff_eq] at hterminal
      obtain ⟨p', hp', hname', hterminal'⟩ := hterminal
      have heq : p = p' := inj_on_of_nodup_map hinv.names hp hp' (hname.trans hname'.symm)
      rw [heq]
      exact hinv.terminal p' hp' hterminal'
    · trivial
  have hcalm : Calm w { w with evictions := w.evictions ++ [⟨pod, w.startEviction pod⟩] } := by
    refine .of_pods rfl rfl le_rfl rfl fun e he disruptionTime hdel => ?_
    rcases mem_append.mp he with hold | hnew
    · exact hold
    · rw [mem_singleton.mp hnew] at hdel
      exact absurd hdel (hphase disruptionTime)
  exact hinv.calm hcalm fun _ he => (mem_concat_iff.mp he).imp_right (by rintro rfl; exact hok.calm hcalm)

/-- **A step keeps the invariant.** -/
theorem Inv.step {label : Label} (hen : w.Enabled label) (hsound : w.Sound env label) :
    Inv env start (w.next env label) := by
  cases label with
  | tick => exact hinv.calm (.of_pods rfl rfl (Nat.le_succ _) rfl fun e he _ _ => he)
  | evict pod => exact hinv.evict pod
  | list i =>
    simp only [World.next]
    split
    · next pod steps hget =>
        split
        · exact hinv.setEviction i pod (fun _ h => by cases h) trivial
        · next status hchecked =>
            refine hinv.setEviction i pod (fun _ h => by cases h) ⟨le_rfl, le_rfl, fun _ => ⟨hchecked, ?_⟩⟩
            intro e he disruptionTime hphase
            have hok := hinv.evictions e he
            rwa [hphase] at hok
    · exact hinv
  | update i =>
    simp only [World.next]
    split
    · next pod steps listed status disruptionTime hget =>
        split_ifs with hlisted
        · subst hlisted
          exact hinv.pass hget
        · exact hinv.setEviction i pod (not_deleting_afterConflict steps) (evictionOk_afterConflict pod steps)
    · exact hinv
  | delete =>
    simp only [World.next]
    split
    · next pod disruptionTime hget =>
        exact hinv.calm (calm_delete hinv hget (hen _ hget)) fun _ he =>
          (mem_or_eq_of_mem_set he).imp_right (by rintro rfl; trivial)
    · exact hinv
  | fail i =>
    simp only [World.next]
    split
    · exact hinv.setEviction i _ (fun _ h => by cases h) trivial
    · exact hinv
  | remove pod => exact hinv.calm (calm_remove w pod)
  | read =>
    exact hinv.calm (.of_pods rfl rfl le_rfl rfl fun e he _ _ => he) (fun _ he => .inl he) fun _ hsync =>
      (mem_concat_iff.mp hsync).imp_right (by rintro rfl; exact hen)
  | sync i =>
    simp only [World.next]
    split
    · next budget hget =>
        have hmem : budget ∈ w.versions := hinv.syncs _ (mem_of_getElem? hget)
        exact hinv.setSync i (hinv.sync hmem)
    · exact hinv
  | write i =>
    simp only [World.next]
    split
    · next write hget =>
        have hok : WriteOk env w write := hinv.syncs _ (mem_of_getElem? hget)
        split_ifs with htgt
        · refine hinv.write i ?_
          by_cases hread : write.read.resourceVersion = w.budget.resourceVersion
          · exact hok.2 hread
          · refine hsound write ?_ htgt.1 hread
            rw [hget]
            rfl
        · exact hinv.setSync i (hinv.afterFailure hok)
    · exact hinv
  | refresh i =>
    simp only [World.next]
    split
    · next write hget =>
        have hok : WriteOk env w write := hinv.syncs _ (mem_of_getElem? hget)
        exact hinv.setSync i hok
    · exact hinv

end

theorem World.Initial.undisturbed_eq (hinit : w.Initial env) : w.undisturbed = w.healthy := by
  unfold undisturbed healthy
  congr 1
  funext p
  simp [isUndisturbed, hinit.evictions]

theorem World.Initial.inv (hinit : w.Initial env) : Inv env w.healthy w where
  names := hinit.names
  terminal := hinit.terminal
  stored := by simp [hinit.versions]
  versions budget hmem := by
    rw [hinit.versions, mem_singleton] at hmem
    rw [hmem]
    exact ⟨le_rfl, fun _ => rfl⟩
  evictions e he := by simp [hinit.evictions] at he
  syncs sync hsync := by simp [hinit.syncs] at hsync
  fits := hinit.fits
  kept := .inl hinit.undisturbed_eq.ge

end LeanKube.Disruption
