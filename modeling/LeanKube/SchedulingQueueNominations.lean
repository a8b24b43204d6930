import LeanKube.SchedulingQueueCycles

/-! How long a nomination lasts. `UpdateNominatedPodForNode` notes it before the pod object says so,
and the calls that bring the pod object to the queue write the nomination anew from that object. A
nomination therefore stays only as long as these objects carry it. -/

namespace LeanKube.Scheduler
open NominatedPodMap
namespace PriorityQueue
variable {p p' : PriorityQueue} {call : Call} {uid nodeName : String}

def Nominated (p : PriorityQueue) (uid nodeName : String) : Prop :=
  ∃ pod ∈ p.nominatedPodsForNode nodeName, pod.uid = uid

def CarriesNomination (uid nodeName : String) (pod : Pod) : Prop :=
  pod.uid = uid → pod.status.nominatedNodeName = nodeName

/-- The calls that leave the nomination of the UID for the node as it is, or write it anew. -/
def Keeps (uid nodeName : String) (p : PriorityQueue) : Call → Prop
  | .add pod => CarriesNomination uid nodeName pod
  | .addIfNotPresent pod | .addUnschedulableIfNotPresent pod _ =>
    p.present pod = true ∨ CarriesNomination uid nodeName pod
  | .update oldPod newPod =>
    CarriesNomination uid nodeName newPod ∧ (p.present newPod = true → oldPod.uid = uid → newPod.uid = uid)
  | .delete pod | .deleteNominatedPodIfExists pod => pod.uid ≠ uid
  | .updateNominatedPodForNode pod nodeName' =>
    pod.uid = uid → NominatedPodMap.nodeToNominate pod nodeName' = nodeName
  | .pop | .moveAllToActiveQueue _ | .assignedPodAdded _ _ | .assignedPodUpdated _ _
  | .flushUnschedulableQLeftover _ _ => True

/-! ### One call -/

section Step
variable {npm : NominatedPodMap}

theorem exists_mem_delete (h : npm.Consistent) (pod : Pod) :
    (∃ other ∈ (npm.delete pod).podsForNode nodeName, other.uid = uid) ↔
      (∃ other ∈ npm.podsForNode nodeName, other.uid = uid) ∧ pod.uid ≠ uid := by
  rw [podsForNode_delete h]
  constructor
  · rintro ⟨other, hother, rfl⟩
    obtain ⟨hmem, hne⟩ := mem_others.mp hother
    exact ⟨⟨other, hmem, rfl⟩, Ne.symm hne⟩
  · rintro ⟨⟨other, hmem, rfl⟩, hne⟩
    exact ⟨other, mem_others.mpr ⟨hmem, Ne.symm hne⟩, rfl⟩

theorem exists_mem_add (h : npm.Consistent) (hnode : nodeName ≠ "") (pod : Pod) (nodeName' : String) :
    (∃ other ∈ (npm.add pod nodeName').podsForNode nodeName, other.uid = uid) ↔
      if pod.uid = uid then nodeToNominate pod nodeName' = nodeName
      else ∃ other ∈ npm.podsForNode nodeName, other.uid = uid := by
  simp only [mem_podsForNode_add h]
  split_ifs with huid
  · constructor
    · rintro ⟨other, ⟨-, hne⟩ | ⟨-, -, hother⟩, rfl⟩
      · exact absurd huid.symm hne
      · exact hother.symm
    · intro heq
      exact ⟨pod, .inr ⟨rfl, heq ▸ hnode, heq.symm⟩, huid⟩
  · constructor
    · rintro ⟨other, ⟨hmem, -⟩ | ⟨rfl, -⟩, hother⟩
      · exact ⟨other, hmem, hother⟩
      · exact absurd hother huid
    · rintro ⟨other, hmem, rfl⟩
      exact ⟨other, .inl ⟨hmem, Ne.symm huid⟩, rfl⟩

theorem nodeToNominate_empty (pod : Pod) : nodeToNominate pod "" = pod.status.nominatedNodeName := rfl

end Step

theorem perform_nominated_iff (h : p.perform call = some p') (hp : p.nominatedPods.Consistent)
    (hnode : nodeName ≠ "") (hnom : p.Nominated uid nodeName) :
    p'.Nominated uid nodeName ↔ p.Keeps uid nodeName call := by
  have hadd : ∀ pod, (∃ other ∈ (p.nominatedPods.add pod "").podsForNode nodeName, other.uid = uid) ↔
      CarriesNomination uid nodeName pod := by
    intro pod
    rw [exists_mem_add hp hnode, nodeToNominate_empty, CarriesNomination]
    by_cases huid : pod.uid = uid
    · simp [huid]
    · simp only [huid, if_false, false_implies, iff_true]
      exact hnom
  change (∃ other ∈ p'.nominatedPods.podsForNode nodeName, other.uid = uid) ↔ _
  rw [perform_nominatedPods h]
  cases call with
  | add pod => exact hadd pod
  | addIfNotPresent pod | addUnschedulableIfNotPresent pod cycle =>
    simp only [nominate, Keeps]
    split_ifs with hpres
    · exact iff_of_true hnom (.inl hpres)
    · rw [hadd, Bool.eq_false_of_not_eq_true hpres]
      simp
  | update oldPod newPod =>
    simp only [nominate, Keeps]
    split_ifs with hpres
    · rw [NominatedPodMap.update, exists_mem_add (hp.delete oldPod) hnode, nodeToNominate_empty,
        exists_mem_delete hp, CarriesNomination]
      by_cases huid : newPod.uid = uid
      · simp [huid]
      · simp only [huid, if_false, false_implies, true_and, hpres, forall_const]
        exact ⟨fun hkept => hkept.2, fun hne => ⟨hnom, hne⟩⟩
    · rw [hadd]
      simp [hpres]
  | delete pod | deleteNominatedPodIfExists pod =>
    simp only [nominate, Keeps]
    rw [exists_mem_delete hp]
    exact and_iff_right hnom
  | updateNominatedPodForNode pod =>
    simp only [nominate, Keeps]
    rw [exists_mem_add hp hnode]
    by_cases huid : pod.uid = uid
    · simp [huid]
    · simp only [huid, if_false, false_implies, iff_true]
      exact hnom
  | _ => exact iff_of_true hnom trivial

/-! ### Runs -/

/-- The calls that keep the nomination. -/
def keeping (uid nodeName : String) : System PriorityQueue Call where
  step p call p' := p.perform call = some p' ∧ p.Keeps uid nodeName call

theorem run_consistent {calls : List Call} (hrun : system.Run newPriorityQueue calls p) : p.nominatedPods.Consistent :=
  hrun.invariant (fun p => p.nominatedPods.Consistent) (fun _ _ _ hstep => perform_consistent hstep)
    consistent_empty

/-- The nomination stays as long as the calls keep it, and a call that does not keep it ends it. -/
theorem nomination_survives {before after : List Call} {p₀ p : PriorityQueue} {pod : Pod}
    {nodeName : String} (hrun : system.Run newPriorityQueue before p₀) (hnode : nodeName ≠ "")
    (hafter : (keeping pod.uid nodeName).Run (p₀.updateNominatedPodForNode pod nodeName) after p) :
    p.Nominated pod.uid nodeName ∧
      ∀ call p', p.perform call = some p' → (p'.Nominated pod.uid nodeName ↔ p.Keeps pod.uid nodeName call) := by
  have hstart : p₀.perform (.updateNominatedPodForNode pod nodeName) =
      some (p₀.updateNominatedPodForNode pod nodeName) := rfl
  have hinv : p.nominatedPods.Consistent ∧ p.Nominated pod.uid nodeName := by
    refine hafter.invariant (fun p => p.nominatedPods.Consistent ∧ p.Nominated pod.uid nodeName) ?_ ⟨?_, ?_⟩
    · rintro p call p' ⟨hstep, hkeeps⟩ ⟨hconsistent, hnominated⟩
      exact ⟨perform_consistent hstep hconsistent,
        (perform_nominated_iff hstep hconsistent hnode hnominated).mpr hkeeps⟩
    · exact perform_consistent hstart (run_consistent hrun)
    · have hset : nodeToNominate pod nodeName = nodeName :=
        if_neg fun hlength => hnode (String.length_eq_zero_iff.mp hlength)
      rw [Nominated, nominatedPodsForNode, perform_nominatedPods hstart, nominate,
        exists_mem_add (run_consistent hrun) hnode, if_pos rfl, hset]
  exact ⟨hinv.2, fun call p' hstep => perform_nominated_iff hstep hinv.1 hnode hinv.2⟩

def nominatedPod : Pod := { triedPod with status := { triedPod.status with nominatedNodeName := "n1" } }

theorem nomination_survives_written : ∃ p,
    (keeping triedPod.uid "n1").Run (newPriorityQueue.updateNominatedPodForNode triedPod "n1")
      [.addUnschedulableIfNotPresent nominatedPod 0] p ∧ p.Nominated triedPod.uid "n1" := by
  have hnode : "n1" ≠ "" := by decide
  have hafter : (keeping triedPod.uid "n1").Run
      (newPriorityQueue.updateNominatedPodForNode triedPod "n1")
      [.addUnschedulableIfNotPresent nominatedPod 0] _ :=
    .single ⟨rfl, .inr fun _ => rfl⟩
  exact ⟨_, hafter, (nomination_survives (.nil _) hnode hafter).1⟩

/-- The pod is popped and nominated, and comes back with an object from before the nomination was
written. -/
theorem nomination_lost : ∃ p, system.Run newPriorityQueue
      [.add triedPod, .pop, .updateNominatedPodForNode triedPod "n1", .addUnschedulableIfNotPresent triedPod 1] p ∧
    triedPod.status.nominatedNodeName = "" ∧ p.nominatedPodsForNode "n1" = [] := by
  obtain ⟨p₁, hpop, hcontents, -⟩ := pop_add (p := newPriorityQueue) rfl triedPod
  have hadd : system.step newPriorityQueue (.add triedPod) (newPriorityQueue.add triedPod).1 := rfl
  have hstep : system.step (newPriorityQueue.add triedPod).1 .pop p₁ := by
    change (newPriorityQueue.add triedPod).1.pop.map Prod.snd = some p₁
    rw [hpop]
    rfl
  have hnominate : system.step p₁ (.updateNominatedPodForNode triedPod "n1")
      (p₁.updateNominatedPodForNode triedPod "n1") := rfl
  have hback : system.step (p₁.updateNominatedPodForNode triedPod "n1")
      (.addUnschedulableIfNotPresent triedPod 1) _ := rfl
  refine ⟨_, (((System.Run.single hadd).snoc hstep).snoc hnominate).snoc hback, rfl, ?_⟩
  have habsent : (p₁.updateNominatedPodForNode triedPod "n1").present triedPod = false :=
    present_of_empty hcontents triedPod
  have hempty : p₁.nominatedPods = {} := (pop_spec hpop).2.2.1
  have hdropped : (p₁.updateNominatedPodForNode triedPod "n1").nominate
      (.addUnschedulableIfNotPresent triedPod 1) = (NominatedPodMap.add {} triedPod "n1").add triedPod "" := by
    rw [nominate, habsent, ← hempty]
    rfl
  rw [nominatedPodsForNode, perform_nominatedPods hback, hdropped]
  rfl

end PriorityQueue
end LeanKube.Scheduler
