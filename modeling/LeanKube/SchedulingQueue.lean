import LeanKube.SchedulerNodeInfo
import LeanKube.SchedulingHeap
import LeanKube.Transition

/-! The scheduling queue with priorities: the pods that wait to be scheduled, in a heap, the pods
that were tried and found unschedulable, and the pods that are nominated to run on a node. Every
method holds the lock of the queue, so that the calls of its users happen one after the other. -/

namespace LeanKube.Scheduler

/-! ### The order of the active queue -/

def defaultPriorityWhenNoDefaultClassExists : Int32 := 0

variable (pod : Pod)

def getPodPriority : Int32 := pod.priority.getD defaultPriorityWhenNoDefaultClassExists

def getPodCondition (status : PodStatus) (conditionType : PodConditionType) : Option PodCondition :=
  status.conditions.find? fun condition => condition.type = conditionType

def podTimestamp : Int :=
  match getPodCondition pod.status .podScheduled with
  | none => pod.creationTimestamp
  | some condition =>
    if condition.lastProbeTime = 0 then condition.lastTransitionTime else condition.lastProbeTime

def activeQComp (p1 p2 : Pod) : Bool :=
  let prio1 := getPodPriority p1
  let prio2 := getPodPriority p2
  decide (prio1 > prio2) || (decide (prio1 = prio2) && decide (podTimestamp p1 < podTimestamp p2))

theorem activeQComp_eq_false {p1 p2 : Pod} : activeQComp p1 p2 = false ↔
    (getPodPriority p1).toInt ≤ (getPodPriority p2).toInt ∧
      (getPodPriority p1 = getPodPriority p2 → podTimestamp p2 ≤ podTimestamp p1) := by
  simp [activeQComp, Int32.lt_iff_toInt_lt]

def activeQLess : LessFunc Pod where
  less := activeQComp
  asymm a b h := by
    rw [activeQComp_eq_false]
    simp only [activeQComp, Int32.lt_iff_toInt_lt, Bool.or_eq_true, Bool.and_eq_true, decide_eq_true_eq, gt_iff_lt] at h
    rcases h with hless | ⟨heq, hless⟩
    · exact ⟨Int.le_of_lt hless, fun heq => absurd hless (heq ▸ Int.lt_irrefl _)⟩
    · exact ⟨Int.le_of_eq (congrArg Int32.toInt heq.symm), fun _ => Int.le_of_lt hless⟩
  trans a b c hba hcb := by
    rw [activeQComp_eq_false] at hba hcb ⊢
    refine ⟨Int.le_trans hcb.1 hba.1, fun hca => ?_⟩
    have hcb' : getPodPriority c = getPodPriority b :=
      Int32.toInt_inj.mp (Int.le_antisymm hcb.1 (hca ▸ hba.1))
    exact Int.le_trans (hba.2 (hcb' ▸ hca)) (hcb.2 hcb')

def metaNamespaceKeyFunc : Except String String :=
  if pod.namespace_.length > 0 then .ok (pod.namespace_ ++ "/" ++ pod.name) else .ok pod.name

/-! ### The unschedulable pods -/

structure UnschedulablePodsMap where
  pods : GoMap String Pod
  keyed : ∀ key pod, pods.lookup key = some pod → getPodFullName pod = key

namespace UnschedulablePodsMap

def newUnschedulablePodsMap : UnschedulablePodsMap where
  pods := ∅
  keyed _ _ h := by cases h

variable (u : UnschedulablePodsMap) (pod : Pod)

def addOrUpdate : UnschedulablePodsMap where
  pods := u.pods.insert (getPodFullName pod) pod
  keyed := GoMap.forall_insert u.keyed rfl

def delete : UnschedulablePodsMap where
  pods := u.pods.erase (getPodFullName pod)
  keyed key pod' h := u.keyed key pod' (GoMap.of_lookup_erase h).2

def get : Option Pod := u.pods.lookup (getPodFullName pod)

def clear (_ : UnschedulablePodsMap) : UnschedulablePodsMap := newUnschedulablePodsMap

end UnschedulablePodsMap

/-! ### The nominated pods -/

/-- `nominatedPodMap`: the pods that are nominated to run on a node by the name of the node, and the
nodes by the UID of the pod. -/
structure NominatedPodMap where
  nominatedPods : GoMap String (List Pod) := ∅
  nominatedPodToNode : GoMap String String := ∅
deriving DecidableEq

namespace NominatedPodMap
variable (npm : NominatedPodMap)

def podsForNode (nodeName : String) : List Pod :=
  (npm.nominatedPods.lookup nodeName).getD []

variable (p : Pod)

def delete : NominatedPodMap :=
  match npm.nominatedPodToNode.lookup p.uid with
  | none => npm
  | some nnn =>
    let pods := npm.podsForNode nnn
    let rest := pods.eraseP fun np => np.uid = p.uid
    { nominatedPods :=
        if pods.any fun np => np.uid = p.uid then
          if rest.length = 0 then npm.nominatedPods.erase nnn
          else npm.nominatedPods.insert nnn rest
        else npm.nominatedPods
      nominatedPodToNode := npm.nominatedPodToNode.erase p.uid }

def nodeToNominate (nodeName : String) : String :=
  if nodeName.length = 0 then p.status.nominatedNodeName else nodeName

def add (nodeName : String) : NominatedPodMap :=
  let npm := npm.delete p
  let nnn := nodeToNominate p nodeName
  if nnn.length = 0 then npm
  else
    let npm := { npm with nominatedPodToNode := npm.nominatedPodToNode.insert p.uid nnn }
    if (npm.podsForNode nnn).any fun np => np.uid = p.uid then npm
    else
      { npm with nominatedPods := npm.nominatedPods.insert nnn (npm.podsForNode nnn ++ [p]) }

def update (oldPod newPod : Pod) : NominatedPodMap :=
  (npm.delete oldPod).add newPod ""

end NominatedPodMap

/-! ### The queue -/

def podReasonUnschedulable : String := "Unschedulable"

def unschedulableQTimeInterval : Int := 60 * 1000000000

def isPodUnschedulable (pod : Pod) : Bool :=
  match getPodCondition pod.status .podScheduled with
  | none => false
  | some cond => cond.status = .conditionFalse && cond.reason = podReasonUnschedulable

def isPodUpdated (oldPod newPod : Pod) : Bool :=
  let strip (pod : Pod) : Pod := { pod with resourceVersion := "", generation := 0, status := {} }
  strip oldPod ≠ strip newPod

/-- The pods to schedule. -/
structure PriorityQueue where
  activeQ : Heap metaNamespaceKeyFunc activeQLess
  unschedulableQ : UnschedulablePodsMap
  nominatedPods : NominatedPodMap
  schedulingCycle : Int64
  moveRequestCycle : Int64

namespace PriorityQueue

abbrev Result := PriorityQueue × Option (HeapError Pod)

def newPriorityQueue : PriorityQueue where
  activeQ := Heap.newHeap
  unschedulableQ := .newUnschedulablePodsMap
  nominatedPods := {}
  schedulingCycle := 0
  moveRequestCycle := -1

variable (p : PriorityQueue) (pod : Pod)

def inActiveQ : Bool :=
  match p.activeQ.get pod with
  | .ok obj => obj.isSome
  | .error _ => false

def add : Result :=
  match p.activeQ.add pod with
  | .error err => (p, some err)
  | .ok activeQ =>
    ({ p with
      activeQ
      unschedulableQ :=
        if (p.unschedulableQ.get pod).isSome then p.unschedulableQ.delete pod
        else p.unschedulableQ
      nominatedPods := p.nominatedPods.add pod "" }, none)

def addActive : Result :=
  match p.activeQ.add pod with
  | .error err => (p, some err)
  | .ok activeQ => ({ p with activeQ, nominatedPods := p.nominatedPods.add pod "" }, none)

def addIfNotPresent : Result :=
  if (p.unschedulableQ.get pod).isSome then (p, none)
  else if p.inActiveQ pod then (p, none)
  else p.addActive pod

def addUnschedulableIfNotPresent (podSchedulingCycle : Int64) : Result :=
  if (p.unschedulableQ.get pod).isSome then
    (p, some (.message "pod is already present in unschedulableQ"))
  else if p.inActiveQ pod then (p, some (.message "pod is already present in the activeQ"))
  else if podSchedulingCycle > p.moveRequestCycle ∧ isPodUnschedulable pod then
    ({ p with
      unschedulableQ := p.unschedulableQ.addOrUpdate pod
      nominatedPods := p.nominatedPods.add pod "" }, none)
  else p.addActive pod

def pop : Option (Pod × PriorityQueue) :=
  if p.activeQ.data.queue.length = 0 then none
  else
    match p.activeQ.pop with
    | .error _ => none
    | .ok (pod, activeQ) => some (pod, { p with activeQ, schedulingCycle := p.schedulingCycle + 1 })

def update (oldPod newPod : Pod) : Result :=
  if p.inActiveQ newPod then
    let p := { p with nominatedPods := p.nominatedPods.update oldPod newPod }
    match p.activeQ.update newPod with
    | .error err => (p, some err)
    | .ok activeQ => ({ p with activeQ }, none)
  else
    match p.unschedulableQ.get newPod with
    | some usPod =>
      let p := { p with nominatedPods := p.nominatedPods.update oldPod newPod }
      if isPodUpdated oldPod newPod then
        let p := { p with unschedulableQ := p.unschedulableQ.delete usPod }
        match p.activeQ.add newPod with
        | .error err => (p, some err)
        | .ok activeQ => ({ p with activeQ }, none)
      else ({ p with unschedulableQ := p.unschedulableQ.addOrUpdate newPod }, none)
    | none => p.addActive newPod

def delete (pod : Pod) : PriorityQueue :=
  let p := { p with nominatedPods := p.nominatedPods.delete pod }
  match p.activeQ.delete pod with
  | .ok activeQ => { p with activeQ }
  | .error _ => { p with unschedulableQ := p.unschedulableQ.delete pod }

def addAll (activeQ : Heap metaNamespaceKeyFunc activeQLess) (pods : List Pod) :
    Heap metaNamespaceKeyFunc activeQLess :=
  pods.foldl (fun activeQ pod => (activeQ.add pod).toOption.getD activeQ) activeQ

variable (order : List String)

/-- The pods of the unschedulable queue in an order in which `range` visits their keys. -/
def unschedulablePods : List Pod :=
  order.filterMap p.unschedulableQ.pods.lookup

def moveAllToActiveQueue : PriorityQueue :=
  { p with
    activeQ := addAll p.activeQ (p.unschedulablePods order)
    unschedulableQ := p.unschedulableQ.clear
    moveRequestCycle := p.schedulingCycle }

def movePod : PriorityQueue :=
  match p.activeQ.add pod with
  | .ok activeQ => { p with activeQ, unschedulableQ := p.unschedulableQ.delete pod }
  | .error _ => p

def movePodsToActiveQueue (pods : List Pod) : PriorityQueue :=
  let p := pods.foldl movePod p
  { p with moveRequestCycle := p.schedulingCycle }

/-- Whether a term of `up` matches the pod. The selector of a term that cannot be parsed is nil, and
its use is a panic. -/
def termMatches (up pod : Pod) (term : PodAffinityTerm) : Option Bool :=
  let namespaces := getNamespacesFromPodAffinityTerm up term
  match labelSelectorAsSelector term.labelSelector with
  | some selector => some (podMatchesTermsNamespaceAndSelector pod namespaces selector)
  | none => if pod.namespace_ ∈ namespaces then none else some false

def anyTermMatches (up pod : Pod) : List PodAffinityTerm → Option Bool
  | [] => some false
  | term :: terms =>
    match termMatches up pod term with
    | none => none
    | some true => some true
    | some false => anyTermMatches up pod terms

def hasMatchingTerm (pod up : Pod) : Option Bool :=
  match up.affinity with
  | none => some false
  | some affinity => anyTermMatches up pod (getPodAffinityTerms affinity)

/-- The loop over the unschedulable pods: those with a term that matches the pod. There is no result
if a nil selector is used. -/
def matchingPods (pod : Pod) : List Pod → Option (List Pod)
  | [] => some []
  | up :: rest => do
    let found ← hasMatchingTerm pod up
    let podsToMove ← matchingPods pod rest
    return if found then up :: podsToMove else podsToMove

def getUnschedulablePodsWithMatchingAffinityTerm : Option (List Pod) :=
  matchingPods pod (p.unschedulablePods order)

def assignedPodAdded : Option PriorityQueue :=
  (p.getUnschedulablePodsWithMatchingAffinityTerm pod order).map p.movePodsToActiveQueue

def assignedPodUpdated : Option PriorityQueue :=
  (p.getUnschedulablePodsWithMatchingAffinityTerm pod order).map p.movePodsToActiveQueue

variable (currentTime : Int) (order : List String)

def leftover : List Pod :=
  (p.unschedulablePods order).filter fun pod =>
    let lastScheduleTime := podTimestamp pod
    lastScheduleTime ≠ 0 ∧ currentTime - lastScheduleTime > unschedulableQTimeInterval

def flushUnschedulableQLeftover : PriorityQueue :=
  let podsToMove := p.leftover currentTime order
  if podsToMove.length > 0 then p.movePodsToActiveQueue podsToMove else p

variable (nodeName : String)

def nominatedPodsForNode : List Pod :=
  p.nominatedPods.podsForNode nodeName

def deleteNominatedPodIfExists : PriorityQueue :=
  { p with nominatedPods := p.nominatedPods.delete pod }

def updateNominatedPodForNode : PriorityQueue :=
  { p with nominatedPods := p.nominatedPods.add pod nodeName }

/-! ### Runs -/

/-- The calls of the queue's users and of its own timer. A call that visits the unschedulable pods
comes with the order in which it does. -/
inductive Call where
  | add (pod : Pod)
  | addIfNotPresent (pod : Pod)
  | addUnschedulableIfNotPresent (pod : Pod) (podSchedulingCycle : Int64)
  | update (oldPod newPod : Pod)
  | delete (pod : Pod)
  | pop
  | moveAllToActiveQueue (order : List String)
  | assignedPodAdded (pod : Pod) (order : List String)
  | assignedPodUpdated (pod : Pod) (order : List String)
  | flushUnschedulableQLeftover (currentTime : Int) (order : List String)
  | updateNominatedPodForNode (pod : Pod) (nodeName : String)
  | deleteNominatedPodIfExists (pod : Pod)
deriving DecidableEq

def perform : Call → Option PriorityQueue
  | .add pod => some (p.add pod).1
  | .addIfNotPresent pod => some (p.addIfNotPresent pod).1
  | .addUnschedulableIfNotPresent pod cycle => some (p.addUnschedulableIfNotPresent pod cycle).1
  | .update oldPod newPod => some (p.update oldPod newPod).1
  | .delete pod => some (p.delete pod)
  | .pop => p.pop.map Prod.snd
  | .moveAllToActiveQueue order =>
    if p.unschedulableQ.pods.Ranges order then some (p.moveAllToActiveQueue order) else none
  | .assignedPodAdded pod order =>
    if p.unschedulableQ.pods.Ranges order then p.assignedPodAdded pod order else none
  | .assignedPodUpdated pod order =>
    if p.unschedulableQ.pods.Ranges order then p.assignedPodUpdated pod order else none
  | .flushUnschedulableQLeftover currentTime order =>
    if p.unschedulableQ.pods.Ranges order then
      some (p.flushUnschedulableQLeftover currentTime order)
    else none
  | .updateNominatedPodForNode pod nodeName => some (p.updateNominatedPodForNode pod nodeName)
  | .deleteNominatedPodIfExists pod => some (p.deleteNominatedPodIfExists pod)

/-- The calls that return. -/
def system : System PriorityQueue Call where
  step p call p' := p.perform call = some p'

end PriorityQueue
end LeanKube.Scheduler
