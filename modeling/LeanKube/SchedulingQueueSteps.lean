import LeanKube.SchedulingQueue

/-! What the calls of the scheduling queue do to the pods in its two queues. But for `Pop` and
`Delete` they only activate pods, which puts them in the active queue and takes them out of the
other one, refresh pods of the active queue, or park pods among the unschedulable ones. -/

namespace LeanKube.Scheduler
open List Option Bool

def activeKey (pod : Pod) : String :=
  if pod.namespace_.length > 0 then pod.namespace_ ++ "/" ++ pod.name else pod.name

theorem metaNamespaceKeyFunc_eq (pod : Pod) : metaNamespaceKeyFunc pod = .ok (activeKey pod) := by
  rw [metaNamespaceKeyFunc, activeKey]
  split_ifs <;> rfl

@[ext]
structure QueueContents where
  active : GoMap String Pod
  unschedulable : GoMap String Pod

namespace QueueContents
variable (c : QueueContents) (pod : Pod)

def activate : QueueContents where
  active := c.active.insert (activeKey pod) pod
  unschedulable := c.unschedulable.erase (getPodFullName pod)

def refresh : QueueContents :=
  { c with active := c.active.insert (activeKey pod) pod }

def park : QueueContents :=
  { c with unschedulable := c.unschedulable.insert (getPodFullName pod) pod }

structure Keyed (c : QueueContents) : Prop where
  active : ∀ key pod, c.active.lookup key = some pod → activeKey pod = key
  unschedulable : ∀ key pod, c.unschedulable.lookup key = some pod → getPodFullName pod = key

inductive Moves (Q : Pod → Prop) (c : QueueContents) : QueueContents → Prop where
  | refl : Moves Q c c
  | activate {c' : QueueContents} {pod : Pod} (h : Moves Q c c') (hpod : Q pod) : Moves Q c (c'.activate pod)
  | refresh {c' : QueueContents} {pod : Pod} (h : Moves Q c c') (hpod : Q pod)
      (hpresent : c'.active.lookup (activeKey pod) ≠ none) : Moves Q c (c'.refresh pod)
  | park {c' : QueueContents} {pod : Pod} (h : Moves Q c c') (hpod : Q pod)
      (habsent : c'.active.lookup (activeKey pod) = none) : Moves Q c (c'.park pod)

theorem activate_of_absent {c : QueueContents} {pod : Pod}
    (h : c.unschedulable.lookup (getPodFullName pod) = none) : c.activate pod = c.refresh pod := by
  ext1
  · rfl
  · apply Finmap.ext_lookup
    intro key
    rw [activate, GoMap.lookup_erase_ite]
    split_ifs with hkey
    · rw [hkey]
      exact h.symm
    · rfl

end QueueContents

namespace PriorityQueue
open QueueContents
variable (p : PriorityQueue) {p' : PriorityQueue} {pod : Pod} (c : QueueContents)

def contents : QueueContents where
  active := p.activeQ.objs
  unschedulable := p.unschedulableQ.pods

theorem contents_keyed : p.contents.Keyed where
  active key pod h := by
    have hkey := p.activeQ.keyed key pod h
    rw [metaNamespaceKeyFunc_eq] at hkey
    exact Except.ok.inj hkey
  unschedulable := p.unschedulableQ.keyed

variable (pod)

theorem inActiveQ_eq : p.inActiveQ pod = (p.contents.active.lookup (activeKey pod)).isSome := by
  rw [inActiveQ, Heap.get, metaNamespaceKeyFunc_eq]
  exact congrArg Option.isSome (p.activeQ.getByKey_eq _)

theorem activeQ_add : ∃ activeQ, p.activeQ.add pod = .ok activeQ ∧
      activeQ.objs = p.contents.active.insert (activeKey pod) pod :=
  p.activeQ.add_eq (metaNamespaceKeyFunc_eq pod)

def present : Bool := (p.unschedulableQ.get pod).isSome || p.inActiveQ pod

/-! ### The calls that add a pod -/

theorem add_spec : (p.add pod).1.contents = p.contents.activate pod ∧
      (p.add pod).1.nominatedPods = p.nominatedPods.add pod "" := by
  obtain ⟨_, hadd, hobjs⟩ := p.activeQ_add pod
  rw [add, hadd]
  refine ⟨?_, rfl⟩
  ext1
  · exact hobjs
  · change (if (p.unschedulableQ.get pod).isSome then p.unschedulableQ.delete pod
      else p.unschedulableQ).pods = p.unschedulableQ.pods.erase (getPodFullName pod)
    split_ifs with hparked
    · rfl
    · have habsent : p.unschedulableQ.get pod = none := by simpa using hparked
      exact congrArg unschedulable (activate_of_absent (c := p.contents) habsent).symm

variable {pod} {p}

theorem addActive_spec (habsent : p.unschedulableQ.get pod = none) :
    (p.addActive pod).1.contents = p.contents.activate pod ∧
      (p.addActive pod).1.nominatedPods = p.nominatedPods.add pod "" := by
  obtain ⟨_, hadd, hobjs⟩ := p.activeQ_add pod
  rw [addActive, hadd, activate_of_absent (c := p.contents) habsent]
  exact ⟨QueueContents.ext hobjs rfl, rfl⟩

theorem present_eq_false (h : p.present pod = false) : p.unschedulableQ.get pod = none ∧ p.inActiveQ pod = false := by
  simpa [present] using h

variable (p)

theorem addIfNotPresent_spec (pod : Pod) : p.present pod = true ∧ (p.addIfNotPresent pod).1 = p ∨
    p.present pod = false ∧ (p.addIfNotPresent pod).1.contents = p.contents.activate pod ∧
      (p.addIfNotPresent pod).1.nominatedPods = p.nominatedPods.add pod "" := by
  cases hpres : p.present pod with
  | true =>
    rw [present, or_eq_true] at hpres
    rcases hpres with hparked | hactive
    · simp [addIfNotPresent, hparked]
    · simp [addIfNotPresent, hactive]
  | false =>
    obtain ⟨hparked, hactive⟩ := present_eq_false hpres
    simpa [addIfNotPresent, hparked, hactive] using addActive_spec hparked

theorem addUnschedulableIfNotPresent_spec (pod : Pod) (cycle : Int64) :
    p.present pod = true ∧ (p.addUnschedulableIfNotPresent pod cycle).1 = p ∨
    p.present pod = false ∧ (p.addUnschedulableIfNotPresent pod cycle).1.contents =
        (if cycle > p.moveRequestCycle ∧ isPodUnschedulable pod then p.contents.park pod
        else p.contents.activate pod) ∧
      (p.addUnschedulableIfNotPresent pod cycle).1.nominatedPods = p.nominatedPods.add pod "" := by
  cases hpres : p.present pod with
  | true =>
    rw [present, or_eq_true] at hpres
    rcases hpres with hparked | hactive
    · simp [addUnschedulableIfNotPresent, hparked]
    · simp only [addUnschedulableIfNotPresent, hactive]
      split_ifs <;> simp
  | false =>
    obtain ⟨hparked, hactive⟩ := present_eq_false hpres
    refine .inr ⟨rfl, ?_⟩
    simp only [addUnschedulableIfNotPresent, hparked, hactive, isSome_none, false_eq_true, if_false]
    split_ifs
    · exact ⟨rfl, rfl⟩
    · exact addActive_spec hparked

variable {p}

theorem absent_of_not_inActiveQ (h : p.inActiveQ pod = false) : p.contents.active.lookup (activeKey pod) = none := by
  rw [inActiveQ_eq] at h
  simpa using h

variable (p)

theorem update_spec (oldPod newPod : Pod) :
    let p' := (p.update oldPod newPod).1
    (p.inActiveQ newPod = true ∧ p'.contents = p.contents.refresh newPod ∨ p.inActiveQ newPod = false ∧
        (p'.contents = p.contents.activate newPod ∨ p'.contents = p.contents.park newPod)) ∧
      p'.nominatedPods = if p.present newPod then p.nominatedPods.update oldPod newPod
        else p.nominatedPods.add newPod "" := by
  obtain ⟨_, hadd, hobjs⟩ := p.activeQ_add newPod
  rw [update, present]
  cases hactive : p.inActiveQ newPod with
  | true =>
    simp only [if_true, Heap.update, hadd, Bool.or_true]
    exact ⟨.inl ⟨trivial, QueueContents.ext hobjs rfl⟩, trivial⟩
  | false =>
    cases hparked : p.unschedulableQ.get newPod with
    | some usPod =>
      have hkey : getPodFullName usPod = getPodFullName newPod := p.unschedulableQ.keyed _ _ hparked
      by_cases hupdated : isPodUpdated oldPod newPod = true
      · simp only [hupdated, hadd, if_true, Option.isSome_some, Bool.or_false]
        refine ⟨.inr ⟨trivial, .inl (QueueContents.ext hobjs ?_)⟩, rfl⟩
        exact congrArg p.unschedulableQ.pods.erase hkey
      · simp only [hupdated, Option.isSome_some, Bool.or_false]
        exact ⟨.inr ⟨trivial, .inr rfl⟩, rfl⟩
    | none =>
      obtain ⟨hcont, hnom⟩ := addActive_spec hparked
      exact ⟨.inr ⟨rfl, .inl hcont⟩, hnom⟩

/-! ### The calls that move pods -/

theorem movePod_spec (pod : Pod) : (p.movePod pod).contents = p.contents.activate pod ∧
      (p.movePod pod).nominatedPods = p.nominatedPods ∧ (p.movePod pod).schedulingCycle = p.schedulingCycle := by
  obtain ⟨_, hadd, hobjs⟩ := p.activeQ_add pod
  rw [movePod, hadd]
  exact ⟨QueueContents.ext hobjs rfl, rfl, rfl⟩

variable (pods : List Pod)

theorem foldl_movePod_spec :
    (pods.foldl movePod p).contents = pods.foldl QueueContents.activate p.contents ∧
      (pods.foldl movePod p).nominatedPods = p.nominatedPods ∧
      (pods.foldl movePod p).schedulingCycle = p.schedulingCycle := by
  induction pods generalizing p with
  | nil => exact ⟨rfl, rfl, rfl⟩
  | cons pod _ ih =>
    obtain ⟨hcont, hnom, hcycle⟩ := p.movePod_spec pod
    obtain ⟨hcont', hnom', hcycle'⟩ := ih (p.movePod pod)
    simp only [foldl_cons]
    refine ⟨?_, hnom'.trans hnom, hcycle'.trans hcycle⟩
    rw [hcont', hcont]

theorem movePodsToActiveQueue_spec :
    (p.movePodsToActiveQueue pods).contents = pods.foldl QueueContents.activate p.contents ∧
      (p.movePodsToActiveQueue pods).nominatedPods = p.nominatedPods :=
  ⟨(p.foldl_movePod_spec pods).1, (p.foldl_movePod_spec pods).2.1⟩

variable {p} {Q : Pod → Prop} {order : List String} {pods : List Pod}

theorem moves_foldl_activate (hpods : ∀ pod ∈ pods, Q pod) : Moves Q c (pods.foldl QueueContents.activate c) := by
  induction pods using List.reverseRecOn with
  | nil => exact .refl
  | append_singleton _ pod ih =>
    rw [foldl_append]
    refine .activate (ih fun pod hpod => hpods pod (mem_append_left _ hpod)) (hpods pod ?_)
    exact mem_append_right _ (mem_singleton_self pod)

theorem objs_addAll (activeQ : Heap metaNamespaceKeyFunc activeQLess) (pods : List Pod) : (addAll activeQ pods).objs =
      pods.foldl (fun active pod => active.insert (activeKey pod) pod) activeQ.objs := by
  induction pods generalizing activeQ with
  | nil => rfl
  | cons pod rest ih =>
    obtain ⟨_, hadd, hobjs⟩ := activeQ.add_eq (metaNamespaceKeyFunc_eq pod)
    change (addAll ((activeQ.add pod).toOption.getD activeQ) rest).objs = _
    rw [hadd, ih]
    exact congrArg (rest.foldl _) hobjs

theorem foldl_activate_eq : pods.foldl QueueContents.activate c =
      { active := pods.foldl (fun active pod => active.insert (activeKey pod) pod) c.active
        unschedulable :=
          pods.foldl (fun parked pod => parked.erase (getPodFullName pod)) c.unschedulable } := by
  induction pods generalizing c with
  | nil => rfl
  | cons pod _ ih => exact ih (c.activate pod)

theorem lookup_foldl_erase (parked : GoMap String Pod) (pods : List Pod) (key : String) :
    (pods.foldl (fun parked pod => parked.erase (getPodFullName pod)) parked).lookup key =
      if key ∈ pods.map getPodFullName then none else parked.lookup key := by
  induction pods generalizing parked with
  | nil => rfl
  | cons pod _ ih =>
    rw [foldl_cons, ih, GoMap.lookup_erase_ite, map_cons]
    by_cases hkey : key = getPodFullName pod
    · simp [hkey]
    · simp [hkey]

theorem mem_unschedulablePods :
    pod ∈ p.unschedulablePods order ↔ ∃ key ∈ order, p.unschedulableQ.pods.lookup key = some pod :=
  mem_filterMap

theorem moveAllToActiveQueue_spec (hord : p.unschedulableQ.pods.Ranges order) :
    (p.moveAllToActiveQueue order).contents = (p.unschedulablePods order).foldl QueueContents.activate p.contents := by
  rw [foldl_activate_eq]
  ext1
  · exact objs_addAll _ _
  · apply Finmap.ext_lookup
    intro key
    rw [lookup_foldl_erase]
    split_ifs with hkey
    · rfl
    · by_contra hne
      obtain ⟨pod, hpod⟩ := ne_none_iff_exists'.mp (Ne.symm hne)
      have hmem : key ∈ order := by
        rw [hord.2, GoMap.mem_iff_lookup_ne_none]
        exact Ne.symm hne
      refine hkey (mem_map.mpr ⟨pod, mem_unschedulablePods.mpr ⟨key, hmem, hpod⟩, ?_⟩)
      exact p.unschedulableQ.keyed key pod hpod

theorem matchingPods_subset {pods podsToMove : List Pod} (h : matchingPods pod pods = some podsToMove) :
    podsToMove ⊆ pods := by
  induction pods generalizing podsToMove with
  | nil =>
    cases h
    exact List.Subset.refl _
  | cons up _ ih =>
    simp only [matchingPods, bind_eq_bind, bind_eq_some_iff] at h
    obtain ⟨_, -, _, hmoved, hres⟩ := h
    cases hres
    split_ifs
    · exact cons_subset_cons up (ih hmoved)
    · exact subset_cons_of_subset up (ih hmoved)

theorem leftover_subset (p : PriorityQueue) (currentTime : Int) (order : List String) :
    p.leftover currentTime order ⊆ p.unschedulablePods order :=
  filter_sublist.subset

/-! ### Taking pods out -/

theorem pop_spec {pod : Pod} (h : p.pop = some (pod, p')) : p.contents.active.lookup (activeKey pod) = some pod ∧
      p'.contents = { p.contents with active := p.contents.active.erase (activeKey pod) } ∧
      p'.nominatedPods = p.nominatedPods ∧ p'.schedulingCycle = p.schedulingCycle + 1 ∧
      p'.moveRequestCycle = p.moveRequestCycle ∧
      ∀ key other, p.contents.active.lookup key = some other → activeQComp other pod = false := by
  rw [pop] at h
  split_ifs at h with hempty
  have hne : p.activeQ.data.queue ≠ [] := fun hnil => hempty (by rw [hnil]; rfl)
  obtain ⟨key, _, activeQ, hpop, hobj, hobjs, hfirst⟩ := p.activeQ.pop_eq hne
  rw [hpop] at h
  cases h
  have hkey : activeKey pod = key := p.contents_keyed.active key pod hobj
  rw [hkey]
  exact ⟨hobj, QueueContents.ext hobjs rfl, rfl, rfl, rfl, hfirst⟩

theorem pop_eq_none_iff : p.pop = none ↔ ∀ key, p.contents.active.lookup key = none := by
  rw [pop]
  split_ifs with hempty
  · have hnil := eq_nil_of_length_eq_zero hempty
    exact iff_of_true rfl (p.activeQ.queue_eq_nil_iff.mp hnil)
  · have hne : p.activeQ.data.queue ≠ [] := fun hnil => hempty (by rw [hnil]; rfl)
    obtain ⟨key, obj, activeQ, hpop, hobj, -⟩ := p.activeQ.pop_eq hne
    rw [hpop]
    refine iff_of_false (by simp) fun hnone => ?_
    have hsome : p.contents.active.lookup key = some obj := hobj
    rw [hnone key] at hsome
    cases hsome

variable (p)

theorem delete_spec (pod : Pod) : ((p.delete pod).contents =
        { p.contents with active := p.contents.active.erase (activeKey pod) } ∨
      (p.delete pod).contents =
        { p.contents with unschedulable := p.contents.unschedulable.erase (getPodFullName pod) }) ∧
      (p.delete pod).nominatedPods = p.nominatedPods.delete pod := by
  rcases p.activeQ.delete_eq (metaNamespaceKeyFunc_eq pod) with ⟨activeQ, hdel, hobjs⟩ | ⟨hdel, -⟩
  · simp only [delete, hdel]
    exact ⟨.inl (QueueContents.ext hobjs rfl), trivial⟩
  · simp only [delete, hdel]
    exact ⟨.inr rfl, trivial⟩

/-! ### Any call -/

def nominate : Call → NominatedPodMap
  | .add pod => p.nominatedPods.add pod ""
  | .addIfNotPresent pod | .addUnschedulableIfNotPresent pod _ =>
    if p.present pod then p.nominatedPods else p.nominatedPods.add pod ""
  | .update oldPod newPod =>
    if p.present newPod then p.nominatedPods.update oldPod newPod
    else p.nominatedPods.add newPod ""
  | .delete pod | .deleteNominatedPodIfExists pod => p.nominatedPods.delete pod
  | .updateNominatedPodForNode pod nodeName => p.nominatedPods.add pod nodeName
  | .pop | .moveAllToActiveQueue _ | .assignedPodAdded _ _ | .assignedPodUpdated _ _
  | .flushUnschedulableQLeftover _ _ => p.nominatedPods

variable {p}

theorem perform_pop (h : p.perform .pop = some p') : ∃ pod, p.pop = some (pod, p') := by
  obtain ⟨⟨pod, q⟩, hpop, rfl⟩ := map_eq_some_iff.mp h
  exact ⟨pod, hpop⟩

theorem perform_moveAllToActiveQueue (h : p.perform (.moveAllToActiveQueue order) = some p') :
    p.unschedulableQ.pods.Ranges order ∧ p' = p.moveAllToActiveQueue order := by
  rw [perform] at h
  split_ifs at h with hord
  exact ⟨hord, (some.inj h).symm⟩

theorem perform_assignedPod {pod : Pod} (h : p.perform (.assignedPodAdded pod order) = some p') :
    ∃ pods, pods ⊆ p.unschedulablePods order ∧ p' = p.movePodsToActiveQueue pods := by
  rw [perform, assignedPodAdded] at h
  split_ifs at h
  obtain ⟨pods, hpods, rfl⟩ := map_eq_some_iff.mp h
  exact ⟨pods, matchingPods_subset hpods, rfl⟩

theorem perform_flushUnschedulableQLeftover {currentTime : Int}
    (h : p.perform (.flushUnschedulableQLeftover currentTime order) = some p') :
    p' = if (p.leftover currentTime order).length > 0 then
      p.movePodsToActiveQueue (p.leftover currentTime order) else p := by
  rw [perform] at h
  split_ifs at h
  exact (some.inj h).symm

def Call.All (Q : Pod → Prop) : Call → Prop
  | .add pod | .addIfNotPresent pod | .addUnschedulableIfNotPresent pod _ | .delete pod
  | .assignedPodAdded pod _ | .assignedPodUpdated pod _ | .updateNominatedPodForNode pod _
  | .deleteNominatedPodIfExists pod => Q pod
  | .update oldPod newPod => Q oldPod ∧ Q newPod
  | .pop | .moveAllToActiveQueue _ | .flushUnschedulableQLeftover _ _ => True

theorem moves_of_subset (hparked : ∀ key pod, p.contents.unschedulable.lookup key = some pod → Q pod)
    (hpods : pods ⊆ p.unschedulablePods order) : Moves Q p.contents (pods.foldl QueueContents.activate p.contents) := by
  refine moves_foldl_activate _ fun pod hpod => ?_
  obtain ⟨key, -, hkey⟩ := mem_unschedulablePods.mp (hpods hpod)
  exact hparked key pod hkey

/-- What a call does to the nominations and, unless it takes a pod out, to the queues. -/
theorem perform_spec {call : Call} (h : p.perform call = some p') :
    p'.nominatedPods = p.nominate call ∧ (call.All Q →
      (∀ key pod, p.contents.unschedulable.lookup key = some pod → Q pod) →
      call ≠ .pop → (∀ pod, call ≠ .delete pod) → Moves Q p.contents p'.contents) := by
  cases call with
  | add pod =>
    cases h
    obtain ⟨hcont, hnom⟩ := p.add_spec pod
    exact ⟨hnom, fun hcall _ _ _ => hcont ▸ .activate .refl hcall⟩
  | addIfNotPresent pod =>
    cases h
    rcases p.addIfNotPresent_spec pod with ⟨hpres, hsame⟩ | ⟨habsent, hcont, hnom⟩
    · rw [hsame]
      exact ⟨by rw [nominate, if_pos hpres], fun _ _ _ _ => .refl⟩
    · exact ⟨by simp [hnom, nominate, habsent], fun hcall _ _ _ => hcont ▸ .activate .refl hcall⟩
  | addUnschedulableIfNotPresent pod cycle =>
    cases h
    rcases p.addUnschedulableIfNotPresent_spec pod cycle with ⟨hpres, hsame⟩ | ⟨habsent, hcont, hnom⟩
    · rw [hsame]
      exact ⟨by rw [nominate, if_pos hpres], fun _ _ _ _ => .refl⟩
    · refine ⟨by simp [hnom, nominate, habsent], fun hcall _ _ _ => ?_⟩
      rw [hcont]
      split_ifs
      · exact .park .refl hcall (absent_of_not_inActiveQ (present_eq_false habsent).2)
      · exact .activate .refl hcall
  | update oldPod newPod =>
    cases h
    obtain ⟨hcont, hnom⟩ := p.update_spec oldPod newPod
    refine ⟨hnom, fun hcall _ _ _ => ?_⟩
    rcases hcont with ⟨hactive, hcont⟩ | ⟨hactive, hcont | hcont⟩
    · rw [inActiveQ_eq] at hactive
      exact hcont ▸ .refresh .refl hcall.2 (ne_none_iff_isSome.mpr hactive)
    · exact hcont ▸ .activate .refl hcall.2
    · exact hcont ▸ .park .refl hcall.2 (absent_of_not_inActiveQ hactive)
  | delete pod =>
    cases h
    exact ⟨(p.delete_spec pod).2, fun _ _ _ hdel => absurd rfl (hdel pod)⟩
  | pop =>
    obtain ⟨pod, hpop⟩ := perform_pop h
    exact ⟨(pop_spec hpop).2.2.1, fun _ _ hne _ => absurd rfl hne⟩
  | moveAllToActiveQueue =>
    obtain ⟨hord, rfl⟩ := perform_moveAllToActiveQueue h
    refine ⟨rfl, fun _ hparked _ _ => ?_⟩
    rw [moveAllToActiveQueue_spec hord]
    exact moves_of_subset hparked (List.Subset.refl _)
  | assignedPodAdded | assignedPodUpdated =>
    obtain ⟨pods, hpods, rfl⟩ := perform_assignedPod h
    obtain ⟨hcont, hnom⟩ := p.movePodsToActiveQueue_spec pods
    exact ⟨hnom, fun _ hparked _ _ => hcont ▸ moves_of_subset hparked hpods⟩
  | flushUnschedulableQLeftover currentTime order =>
    rw [perform_flushUnschedulableQLeftover h]
    split_ifs
    · obtain ⟨hcont, hnom⟩ := p.movePodsToActiveQueue_spec (p.leftover currentTime order)
      exact ⟨hnom, fun _ hparked _ _ => hcont ▸ moves_of_subset hparked (p.leftover_subset currentTime order)⟩
    · exact ⟨rfl, fun _ _ _ _ => .refl⟩
  | updateNominatedPodForNode pod nodeName | deleteNominatedPodIfExists pod =>
    cases h
    exact ⟨rfl, fun _ _ _ _ => .refl⟩

theorem perform_nominatedPods {call : Call} (h : p.perform call = some p') : p'.nominatedPods = p.nominate call :=
  (perform_spec (Q := fun _ => True) h).1

end PriorityQueue
end LeanKube.Scheduler
