import LeanKube.SchedulerAccounting

/-! The calls about pods as sequences of elementary changes: a pod is added to or removed from its
`NodeInfo`, or only the books about the pods change. The steps are counted by the generation numbers
they draw. Node objects, the node tree and the image states take no part in them. -/

namespace LeanKube.Scheduler
open SchedulerCache Nat

/-- `PodSteps c k c'`: elementary changes that draw `k` generation numbers lead from `c` to `c'`.
No more pods are assumed on the way than numbers are drawn. -/
inductive PodSteps (c : SchedulerCache) : Nat → SchedulerCache → Prop where
  | refl : PodSteps c 0 c
  | book {k : Nat} {c' : SchedulerCache} (h : PodSteps c k c') (podStates : GoMap String PodState)
      {assumedPods : Finset String} (hassumed : assumedPods.card ≤ c.assumedPods.card + k) :
      PodSteps c k { c' with podStates, assumedPods }
  | add {k : Nat} {c' : SchedulerCache} (h : PodSteps c k c') (pod : Pod) {drawn : Nat}
      (hdrawn : drawn = if (c'.nodes.lookup pod.nodeName).isSome then 1 else 2) :
      PodSteps c (k + drawn) (c'.addPodLocked pod)
  | remove {k : Nat} {c' c'' : SchedulerCache} (h : PodSteps c k c') {pod : Pod} {drawn : Nat}
      (hremove : (c'.removePodLocked pod).state? = some c'')
      (hdrawn : drawn ≤ 1 ∧ c''.generation = c'.generation + Int64.ofNat drawn) :
      PodSteps c (k + drawn) c''

theorem generation_addPodLocked (c : SchedulerCache) (pod : Pod) : (c.addPodLocked pod).generation = c.generation +
      Int64.ofNat (if (c.nodes.lookup pod.nodeName).isSome then 1 else 2) := by
  rw [addPodLocked]
  cases c.nodes.lookup pod.nodeName <;> rfl

theorem generation_removePodLocked {c c' : SchedulerCache} {pod : Pod} (h : (c.removePodLocked pod).state? = some c') :
    ∃ drawn ≤ 1, c'.generation = c.generation + Int64.ofNat drawn := by
  have hsame : c.generation = c.generation + Int64.ofNat 0 := (Int64.add_zero _).symm
  rcases removePodLocked_cases h with rfl | ⟨n, _, -, ⟨-, rfl⟩ | ⟨_, -, rfl⟩⟩
  · exact ⟨0, zero_le 1, hsame⟩
  · exact ⟨1, le_refl 1, rfl⟩
  · exact ⟨0, zero_le 1, hsame⟩

namespace PodSteps
variable {c c' c'' : SchedulerCache} {k : Nat}

theorem generation (h : PodSteps c k c') : c'.generation = c.generation + Int64.ofNat k := by
  induction h with
  | refl => exact (Int64.add_zero _).symm
  | book _ _ _ ih => exact ih
  | add _ _ hdrawn ih => rw [generation_addPodLocked, ih, ← hdrawn, Int64.add_assoc, ← Int64.ofNat_add]
  | remove _ _ hdrawn ih => rw [hdrawn.2, ih, Int64.add_assoc, ← Int64.ofNat_add]

theorem card_assumedPods (h : PodSteps c k c') : c'.assumedPods.card ≤ c.assumedPods.card + k := by
  induction h with
  | refl => exact le_refl _
  | book _ _ hasm => exact hasm
  | add =>
    rw [assumedPods_addPodLocked]
    omega
  | remove _ hrem =>
    rw [assumedPods_removePodLocked hrem]
    omega

theorem invariant (I : SchedulerCache → Prop)
    (hbook : ∀ c podStates assumedPods, I c → I { c with podStates, assumedPods })
    (hadd : ∀ c pod, I c → I (c.addPodLocked pod))
    (hrem : ∀ c c' pod, (c.removePodLocked pod).state? = some c' → I c → I c')
    (h : PodSteps c k c') (hc : I c) : I c' := by
  induction h with
  | refl => exact hc
  | book _ podStates _ ih => exact hbook _ podStates _ ih
  | add _ pod _ ih => exact hadd _ pod ih
  | remove _ hremoved _ ih => exact hrem _ _ _ hremoved ih

end PodSteps

/-! ### The calls -/

section Calls
variable {c c' : SchedulerCache}

def Draws (bound : Nat) (c c' : SchedulerCache) : Prop := ∃ k ≤ bound, PodSteps c k c'

theorem draws_refl (bound : Nat) (c : SchedulerCache) : Draws bound c c := ⟨0, zero_le _, .refl⟩

variable {bound : Nat} {pod : Pod} {now : Int}

theorem Draws.mono {bound' : Nat} (h : Draws bound c c') (hle : bound ≤ bound') : Draws bound' c c' :=
  h.imp fun _ hk => ⟨hk.1.trans hle, hk.2⟩

theorem PodCall.draws {known : Pod → Prop} (h : PodCall known bound c c') : Draws bound c c' := by
  obtain ⟨_, _, podStates, _, hmoved, rfl, -, hassumed⟩ := h
  cases hmoved with
  | same => exact ⟨0, zero_le _, PodSteps.refl.book _ hassumed⟩
  | @add pod =>
    refine ⟨_, ?_, (PodSteps.refl.add pod rfl).book _ (hassumed.trans (Nat.add_le_add_left ?_ _))⟩
    · split_ifs <;> omega
    · -- the pod that is assumed now has drawn at least one number
      split_ifs <;> omega
  | remove _ _ hrem =>
    obtain ⟨drawn, hdrawn, hgen⟩ := generation_removePodLocked hrem
    exact ⟨_, by omega, (PodSteps.refl.remove hrem ⟨hdrawn, hgen⟩).book _ (hassumed.trans (le_add_right _ _))⟩
  | @replace _ newPod _ _ _ _ hrem =>
    obtain ⟨drawn, hdrawn, hgen⟩ := generation_removePodLocked hrem
    refine ⟨_, ?_, ((PodSteps.refl.remove hrem ⟨hdrawn, hgen⟩).add newPod rfl).book _
      (hassumed.trans (le_add_right _ _))⟩
    split_ifs <;> omega

theorem PodSteps.trans {k l : Nat} {middle : SchedulerCache} (h : PodSteps c k middle)
    (h' : PodSteps middle l c') : PodSteps c (k + l) c' := by
  induction h' with
  | refl => exact h
  | book _ podStates _ ih =>
    refine ih.book podStates ?_
    have := h.card_assumedPods
    omega
  | add _ pod hdrawn ih => exact add_assoc k _ _ ▸ ih.add pod hdrawn
  | remove _ hrem hdrawn ih => exact add_assoc k _ _ ▸ ih.remove hrem hdrawn

theorem draws_cleanupAssumedPod {key : String} (h : (c.cleanupAssumedPod now key).state? = some c') : Draws 1 c c' := by
  have hcall : PodCall (fun _ => True) 1 c c' := podCall_cleanupAssumedPod (fun _ _ _ => trivial) h
  exact hcall.draws

theorem draws_cleanupAssumedPods {order : List String}
    (h : (c.cleanupAssumedPods now order).state? = some c') : Draws order.length c c' := by
  induction order generalizing c with
  | nil => cases h; exact draws_refl 0 _
  | cons _ _ ih =>
    rw [List.length_cons]
    rcases Outcome.state?_andThen h with ⟨_, hturn, hrest⟩ | hfail
    · obtain ⟨k, _, hsteps⟩ := draws_cleanupAssumedPod hturn
      obtain ⟨l, _, hsteps'⟩ := ih hrest
      exact ⟨k + l, by omega, hsteps.trans hsteps'⟩
    · exact (draws_cleanupAssumedPod hfail).mono (by omega)

/-- **A call about pods is made of elementary changes**; it draws three numbers at most, or one for
each assumed pod. -/
theorem perform_podSteps {op : CacheOp} (hop : op.onNode = false) (hvis : op.visits c = true)
    (h : (c.perform op).state? = some c') : Draws (max 3 c.assumedPods.card) c c' := by
  have hknown : ∀ pod ∈ op.pods, (fun _ : Pod => True) pod := fun _ _ => trivial
  rcases perform_podCall (fun _ _ _ => trivial) hknown h hop with hcall | ⟨_, _, rfl⟩
  · exact hcall.draws.mono (le_max_left 3 _)
  · obtain ⟨hnodup, hall⟩ := of_decide_eq_true hvis
    refine (draws_cleanupAssumedPods h).mono ?_
    rw [← hall, List.toFinset_card_of_nodup hnodup]
    exact le_max_right 3 _

end Calls
end LeanKube.Scheduler
