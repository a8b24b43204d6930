import LeanKube.SchedulerResource
import LeanKube.StorageSelection
import LeanKube.SwapRemove

/-! What the scheduler keeps about one node: the node object, the pods on it, and the totals that
are carried along as pods come and go. -/

namespace LeanKube.Scheduler
open Storage

/-! ### Affinity terms

Their label selectors come unvalidated from the API object and are turned into selectors whenever a term is looked at;
this fails if a key, an operator or the values do not fit. -/

inductive LabelSelectorOperator where
  | opIn
  | opNotIn
  | opExists
  | opDoesNotExist
  | other (name : String)
deriving DecidableEq

structure LabelSelectorRequirement where
  key : String
  operator : LabelSelectorOperator
  values : List String
deriving DecidableEq

/-- `metav1.LabelSelector`. The labels are those of a map, in an order in which `range` visits them;
the requirements are met together, so that their order has no meaning. -/
structure MetaLabelSelector where
  matchLabels : List (String × String)
  matchExpressions : List LabelSelectorRequirement
deriving DecidableEq

def isValidLabelValue (value : List Char) : Bool := value.isEmpty || isNamePart value

def valuesFit (op : Operator) (vals : List String) : Bool :=
  match op with
  | .in_ | .notIn => vals.length ≠ 0
  | .equals | .doubleEquals | .notEquals => vals.length = 1
  | .exists_ | .doesNotExist => vals.length = 0
  | .greaterThan | .lessThan => vals.length = 1 ∧ vals.all fun val => (Strconv.parseInt val).isOk

def newRequirement (key : String) (op : Operator) (vals : List String) : Option Requirement :=
  if !isQualifiedName key.toList then none
  else if !valuesFit op vals then none
  else if !vals.all (fun val => isValidLabelValue val.toList) then none
  else some { key, operator := op, strValues := vals }

def LabelSelectorRequirement.asRequirement (expr : LabelSelectorRequirement) : Option Requirement :=
  match expr.operator with
  | .opIn => newRequirement expr.key .in_ expr.values
  | .opNotIn => newRequirement expr.key .notIn expr.values
  | .opExists => newRequirement expr.key .exists_ expr.values
  | .opDoesNotExist => newRequirement expr.key .doesNotExist expr.values
  | .other _ => none

def labelSelectorAsSelector : Option MetaLabelSelector → Option LabelSelector
  | none => some .nothingSelector
  | some ps =>
    if ps.matchLabels.length + ps.matchExpressions.length = 0 then some .everything
    else do
      let equalities ← ps.matchLabels.mapM fun label => newRequirement label.1 .equals [label.2]
      let expressions ← ps.matchExpressions.mapM LabelSelectorRequirement.asRequirement
      return .internalSelector (equalities ++ expressions)

structure PodAffinityTerm where
  labelSelector : Option MetaLabelSelector
  namespaces : List String
  topologyKey : String
deriving DecidableEq

/-! ### Pods and nodes -/

structure ContainerPort where
  hostIP : String
  protocol : String
  hostPort : Int32
deriving DecidableEq

structure Container where
  requests : ResourceList
  ports : List ContainerPort
deriving DecidableEq

structure Affinity where
  podAffinity : Bool
  podAntiAffinity : Bool
  podAffinityTerms : List PodAffinityTerm := []
  podAntiAffinityTerms : List PodAffinityTerm := []
deriving DecidableEq

inductive ConditionStatus where
  | unset
  | conditionTrue
  | conditionFalse
  | conditionUnknown
deriving DecidableEq

inductive PodConditionType where
  | podScheduled
  | other (name : String)
deriving DecidableEq

structure PodCondition where
  type : PodConditionType
  status : ConditionStatus
  reason : String := ""
  lastProbeTime : Int := 0
  lastTransitionTime : Int := 0
deriving DecidableEq

structure PodStatus where
  nominatedNodeName : String := ""
  conditions : List PodCondition := []
deriving DecidableEq

/-- `otherFields` stands for what no function looks at by itself, but a comparison of two objects
does. -/
structure Pod where
  name : String
  uid : String
  nodeName : String
  containers : List Container
  initContainers : List Container
  affinity : Option Affinity
  namespace_ : String := ""
  labels : GoMap String String := ∅
  creationTimestamp : Int := 0
  priority : Option Int32 := none
  status : PodStatus := {}
  resourceVersion : String := ""
  generation : Int64 := 0
  otherFields : String := ""
deriving DecidableEq

inductive TaintEffect where
  | noSchedule
  | preferNoSchedule
  | noExecute
deriving DecidableEq

structure Taint where
  key : String
  value : String
  effect : TaintEffect
deriving DecidableEq

inductive NodeConditionType where
  | memoryPressure
  | diskPressure
  | pidPressure
  | other (name : String)
deriving DecidableEq

structure NodeCondition where
  type : NodeConditionType
  status : ConditionStatus
deriving DecidableEq

structure ContainerImage where
  names : List String
  sizeBytes : Int64
deriving DecidableEq

structure Node where
  name : String
  labels : GoMap String String
  allocatable : ResourceList
  taints : List Taint
  conditions : List NodeCondition
  images : List ContainerImage
deriving DecidableEq

/-- How a call ends: it returns, with or without an error and with the state it leaves behind, or
the process exits through `klog.Fatalf` or a panic. -/
inductive Outcome (σ : Type) where
  | ok (state : σ)
  | error (state : σ) (message : String)
  | fatal
  | panic
deriving DecidableEq

namespace Outcome
variable {σ : Type} (outcome : Outcome σ)

def andThen (rest : σ → Outcome σ) : Outcome σ :=
  match outcome with
  | .ok state => rest state
  | .error state message => .error state message
  | .fatal => .fatal
  | .panic => .panic

def dropError : Outcome σ :=
  match outcome with
  | .ok state => .ok state
  | .error state _ => .ok state
  | .fatal => .fatal
  | .panic => .panic

def state? : Outcome σ → Option σ
  | .ok state => some state
  | .error state _ => some state
  | .fatal => none
  | .panic => none

end Outcome

def getPodKey (pod : Pod) : Except String String :=
  if pod.uid = "" then .error "Cannot get cache key for pod with empty UID" else .ok pod.uid

theorem getPodKey_of_ne {pod : Pod} (h : pod.uid ≠ "") : getPodKey pod = .ok pod.uid := if_neg h

theorem getPodKey_cases (pod : Pod) :
    pod.uid ≠ "" ∧ getPodKey pod = .ok pod.uid ∨ ∃ message, getPodKey pod = .error message := by
  by_cases h : pod.uid = ""
  · exact .inr ⟨_, if_pos h⟩
  · exact .inl ⟨h, getPodKey_of_ne h⟩

/-- The comparison `k1 == k2` of the deletion loops, which pass over pods without a key. -/
def hasKey (k1 : String) (pod : Pod) : Bool :=
  match getPodKey pod with
  | .ok k2 => k1 == k2
  | .error _ => false

theorem hasKey_iff {k1 : String} (h : k1 ≠ "") (pod : Pod) : hasKey k1 pod = true ↔ pod.uid = k1 := by
  rw [hasKey, getPodKey]
  split_ifs with hempty
  · rw [hempty]
    exact iff_of_false not_false (Ne.symm h)
  · exact beq_iff_eq.trans eq_comm

variable {pods : List Pod}

theorem removeFirst_hasKey_eq_none {key : String} (hkey : key ≠ "") :
    removeFirst (hasKey key) pods = none ↔ ∀ pod ∈ pods, pod.uid ≠ key := by
  rw [removeFirst_eq_none]
  refine forall₂_congr fun _ _ => ?_
  rw [Bool.eq_false_iff, ne_eq, hasKey_iff hkey]

theorem exists_removeFirst_hasKey {key : String} (hkey : key ≠ "") {pod : Pod}
    (hpod : pod ∈ pods) (huid : pod.uid = key) :
    ∃ found rest, removeFirst (hasKey key) pods = some (found, rest) ∧ found.uid = key ∧ pods.Perm (found :: rest) := by
  cases hrem : removeFirst (hasKey key) pods with
  | none => exact absurd huid ((removeFirst_hasKey_eq_none hkey).mp hrem pod hpod)
  | some result =>
    obtain ⟨hfound, hperm⟩ := removeFirst_eq_some hrem
    exact ⟨result.1, result.2, rfl, (hasKey_iff hkey result.1).mp hfound, hperm⟩

variable (pod : Pod)

def hasPodAffinityConstraints : Bool :=
  pod.affinity.any fun affinity => affinity.podAffinity || affinity.podAntiAffinity

/-! ### Host ports -/

def defaultBindAllHostIP : String := "0.0.0.0"
def protocolTCP : String := "TCP"

structure ProtocolPort where
  protocol : String
  port : Int32
deriving DecidableEq

variable (protocol : String)

def newProtocolPort (port : Int32) : ProtocolPort :=
  { protocol := if protocol = "" then protocolTCP else protocol, port }

abbrev HostPortInfo := GoMap String (Finset ProtocolPort)

def sanitizeIP (ip : String) : String := if ip = "" then defaultBindAllHostIP else ip
def sanitizeProtocol : String := if protocol = "" then protocolTCP else protocol

variable (h : HostPortInfo) (ip protocol : String)

def HostPortInfo.add (port : Int32) : HostPortInfo :=
  if port ≤ 0 then h
  else
    let pp := newProtocolPort (sanitizeProtocol protocol) port
    match h.lookup (sanitizeIP ip) with
    | none => h.insert (sanitizeIP ip) {pp}
    | some ports => h.insert (sanitizeIP ip) (insert pp ports)

def HostPortInfo.remove (port : Int32) : HostPortInfo :=
  if port ≤ 0 then h
  else
    let pp := newProtocolPort (sanitizeProtocol protocol) port
    match h.lookup (sanitizeIP ip) with
    | none => h
    | some ports =>
      if ports.erase pp = ∅ then h.erase (sanitizeIP ip)
      else h.insert (sanitizeIP ip) (ports.erase pp)

/-! ### The totals of a node -/

structure ImageStateSummary where
  size : Int64
  numNodes : Nat
deriving DecidableEq

/-- A node and the sums over its pods. -/
structure NodeInfo where
  node : Option Node := none
  pods : List Pod := []
  podsWithAffinity : List Pod := []
  usedPorts : HostPortInfo := ∅
  requestedResource : Resource := {}
  nonzeroRequest : Resource := {}
  allocatableResource : Resource := {}
  taints : List Taint := []
  imageStates : GoMap String ImageStateSummary := ∅
  memoryPressureCondition : ConditionStatus := .unset
  diskPressureCondition : ConditionStatus := .unset
  pidPressureCondition : ConditionStatus := .unset
  generation : Int64
deriving DecidableEq

/-- `NewNodeInfo` without pods; `generation` is what `nextGeneration` returned, as in all calls
below that draw a generation. -/
def newNodeInfo (generation : Int64) : NodeInfo := { generation }

/-- The requests of the containers, and their CPU and memory with the defaults for zero requests.
Init containers do not take part. -/
def calculateResource : Resource × Int64 × Int64 :=
  pod.containers.foldl
    (fun total c =>
      (total.1.add c.requests, total.2.1 + (getNonzeroRequests c.requests).1,
        total.2.2 + (getNonzeroRequests c.requests).2))
    ({}, 0, 0)

instance int64AddRightCommutative : @RightCommutative Int64 Int64 (· + ·) := ⟨fun a b c => by grind⟩

instance int64SubRightCommutative : @RightCommutative Int64 Int64 (· - ·) := ⟨fun a b c => by grind⟩

variable (op : Int64 → Int64 → Int64)

/-- How a pod's requests `res` enter (`+=`) or leave (`-=`) the requested total. The number of
pods is no part of it. -/
def Resource.update [RightCommutative op] (r res : Resource) : Resource :=
  { r with
    milliCPU := op r.milliCPU res.milliCPU
    memory := op r.memory res.memory
    ephemeralStorage := op r.ephemeralStorage res.ephemeralStorage
    scalarResources := r.scalarResources.accumulate op 0 res.scalarResources }

def Resource.updateNonzero (r : Resource) (non0CPU non0Mem : Int64) : Resource :=
  { r with milliCPU := op r.milliCPU non0CPU, memory := op r.memory non0Mem }

namespace NodeInfo

def updateUsedPorts (usedPorts : HostPortInfo) (pod : Pod) (add : Bool) : HostPortInfo :=
  (pod.containers.flatMap Container.ports).foldl
    (fun used podPort =>
      if add then HostPortInfo.add used podPort.hostIP podPort.protocol podPort.hostPort
      else HostPortInfo.remove used podPort.hostIP podPort.protocol podPort.hostPort)
    usedPorts

variable (n : NodeInfo) (pod : Pod) (generation : Int64)

def addPod : NodeInfo :=
  let total := calculateResource pod
  { n with
    requestedResource := n.requestedResource.update (· + ·) total.1
    nonzeroRequest := n.nonzeroRequest.updateNonzero (· + ·) total.2.1 total.2.2
    pods := n.pods ++ [pod]
    podsWithAffinity :=
      if hasPodAffinityConstraints pod then n.podsWithAffinity ++ [pod] else n.podsWithAffinity
    usedPorts := updateUsedPorts n.usedPorts pod true
    generation }

def dropKey (k1 : String) (pods : List Pod) : List Pod :=
  match removeFirst (hasKey k1) pods with
  | none => pods
  | some (_, rest) => rest

def subtractPod : NodeInfo :=
  let total := calculateResource pod
  { n with
    requestedResource := n.requestedResource.update (· - ·) total.1
    nonzeroRequest := n.nonzeroRequest.updateNonzero (· - ·) total.2.1 total.2.2
    usedPorts := updateUsedPorts n.usedPorts pod false
    generation }

/-- A pod that is found in `pods` is deleted from both slices, and what is subtracted are the
requests of the argument. The error for a pod that is not found reads the name of the node. -/
def removePod : Outcome NodeInfo :=
  match getPodKey pod with
  | .error message => .error n message
  | .ok k1 =>
    let podsWithAffinity := dropKey k1 n.podsWithAffinity
    match removeFirst (hasKey k1) n.pods with
    | some (_, pods) => .ok (subtractPod { n with podsWithAffinity, pods } pod generation)
    | none =>
      match n.node with
      | some node =>
        .error { n with podsWithAffinity }
          s!"no corresponding pod {pod.name} in pods of node {node.name}"
      | none => .panic

def setCondition (cond : NodeCondition) : NodeInfo :=
  match cond.type with
  | .memoryPressure => { n with memoryPressureCondition := cond.status }
  | .diskPressure => { n with diskPressureCondition := cond.status }
  | .pidPressure => { n with pidPressureCondition := cond.status }
  | .other _ => n

def setNode (node : Node) (generation : Int64) : NodeInfo :=
  { node.conditions.foldl setCondition
      { n with
        node := some node
        allocatableResource := newResource node.allocatable
        taints := node.taints } with
    generation }

def removeNode : NodeInfo :=
  { n with
    node := none
    allocatableResource := {}
    taints := []
    memoryPressureCondition := .conditionUnknown
    diskPressureCondition := .conditionUnknown
    pidPressureCondition := .conditionUnknown
    imageStates := ∅
    generation }

def setImageStates (newImageStates : GoMap String ImageStateSummary) : NodeInfo :=
  { n with imageStates := newImageStates }

/-! ### What the calls leave alone -/

variable (n : NodeInfo) (node : Node) (generation : Int64)

@[simp] theorem pods_addPod (pod : Pod) (generation : Int64) : (n.addPod pod generation).pods = n.pods ++ [pod] := rfl

theorem removePod_found {n : NodeInfo} {pod found : Pod} {rest : List Pod}
    (hkey : pod.uid ≠ "") (hfound : removeFirst (hasKey pod.uid) n.pods = some (found, rest))
    (generation : Int64) : n.removePod pod generation = .ok (subtractPod
      { n with podsWithAffinity := dropKey pod.uid n.podsWithAffinity, pods := rest }
      pod generation) := by
  simp only [removePod, getPodKey_of_ne hkey, hfound]

theorem foldl_setCondition {β : Type} (f : NodeInfo → β)
    (hf : ∀ n cond, f (setCondition n cond) = f n) (conditions : List NodeCondition)
    (n : NodeInfo) : f (conditions.foldl setCondition n) = f n := by
  induction conditions generalizing n with
  | nil => rfl
  | cons _ _ ih => rw [List.foldl_cons, ih, hf]

def podData (n : NodeInfo) : List Pod × List Pod × Resource × Resource :=
  (n.pods, n.podsWithAffinity, n.requestedResource, n.nonzeroRequest)

theorem podData_setNode : (n.setNode node generation).podData = n.podData :=
  foldl_setCondition podData (fun n _ => by rw [setCondition]; split <;> rfl) node.conditions _

theorem node_setNode : (n.setNode node generation).node = some node :=
  foldl_setCondition NodeInfo.node (fun n _ => by rw [setCondition]; split <;> rfl)
    node.conditions _

end NodeInfo
/-! ### The affinity terms of a pod -/

variable (affinity : Affinity)

def getPodAffinityTerms : List PodAffinityTerm :=
  if affinity.podAffinity then affinity.podAffinityTerms else []

def getPodAntiAffinityTerms : List PodAffinityTerm :=
  if affinity.podAntiAffinity then affinity.podAntiAffinityTerms else []

def getNamespacesFromPodAffinityTerm (podAffinityTerm : PodAffinityTerm) : Finset String :=
  if podAffinityTerm.namespaces.length = 0 then {pod.namespace_}
  else podAffinityTerm.namespaces.toFinset

def podMatchesTermsNamespaceAndSelector (namespaces : Finset String) (selector : LabelSelector) : Bool :=
  if pod.namespace_ ∉ namespaces then false else selector.matchesLabels pod.labels

def getPodFullName : String := pod.name ++ "_" ++ pod.namespace_

end LeanKube.Scheduler
