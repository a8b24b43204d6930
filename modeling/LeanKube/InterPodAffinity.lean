import LeanKube.PredicateMetadataAddition

/-! The inter-pod affinity predicate. With precomputed metadata it looks up the topology pairs of the
node in the maps of the metadata; without metadata it lists the pods of the cluster and compares the
node with the node of each of them. -/

namespace LeanKube.Scheduler
open Storage TopologyPairsMaps

structure PredicateFailureError where
  predicateName : String
  predicateDesc : String
deriving DecidableEq

def errPodAffinityNotMatch : PredicateFailureError :=
  ⟨"MatchInterPodAffinity", "node(s) didn't match pod affinity/anti-affinity"⟩

def errPodAffinityRulesNotMatch : PredicateFailureError :=
  ⟨"PodAffinityRulesNotMatch", "node(s) didn't match pod affinity rules"⟩

def errPodAntiAffinityRulesNotMatch : PredicateFailureError :=
  ⟨"PodAntiAffinityRulesNotMatch", "node(s) didn't match pod anti-affinity rules"⟩

def errExistingPodsAntiAffinityRulesNotMatch : PredicateFailureError :=
  ⟨"ExistingPodsAntiAffinityRulesNotMatch", "node(s) didn't satisfy existing pods anti-affinity rules"⟩

/-- The texts of the errors, with the error they are about at their end; a node that is not found and a
selector that is not valid have texts of their own. -/
inductive AffinityError where
  | message (text : String)
  | invalidSelector
  | nodeNotFound (name : String)
  | because (text : String) (err : AffinityError)
deriving DecidableEq

structure FitResult where
  fit : Bool
  reasons : List PredicateFailureError := []
  error : Option AffinityError := none
deriving DecidableEq

/-- `PodAffinityChecker`: the nodes that the lister knows, and the cache as the lister of pods. -/
structure PodAffinityChecker where
  info : GoMap String Node
  podLister : Cluster

def podName (pod : Pod) : String := pod.namespace_ ++ "/" ++ pod.name

/-- A pod on another node passes, and a pod on this one if the node info has it. The source reads the
name of the node, which is set where this is called. -/
def NodeInfo.filter (n : NodeInfo) (pod : Pod) : Bool :=
  if some pod.nodeName ≠ n.node.map Node.name then true
  else n.pods.any fun p => p.name = pod.name && p.namespace_ = pod.namespace_

def nodesHaveSameTopologyKey (nodeA nodeB : Node) (topologyKey : String) : Bool :=
  if topologyKey.length = 0 then false
  else
    match nodeA.labels.lookup topologyKey, nodeB.labels.lookup topologyKey with
    | some nodeALabel, some nodeBLabel => nodeALabel = nodeBLabel
    | _, _ => false

namespace PodAffinityChecker
variable (rt : Runtime) (c : PodAffinityChecker)

def getNodeInfo (name : String) : Except AffinityError Node :=
  match c.info.lookup name with
  | none => .error (.nodeNotFound name)
  | some node => .ok node

def filteredList (mem : MetadataMemory) (podFilter : Pod → Bool) (selector : LabelSelector) : List Pod :=
  ((rt.range mem c.podLister.keys).filterMap c.podLister.lookup).flatMap fun info =>
    info.pods.filter fun pod => podFilter pod && selector.matchesLabels pod.labels

def everything : LabelSelector := .internalSelector []

/-! ### Terms of the pod without metadata -/

def matchesTopologies (node targetPodNode : Node) : List PodAffinityTerm → Except AffinityError (Bool × Bool)
  | [] => .ok (true, true)
  | term :: terms =>
    if term.topologyKey.length = 0 then
      .error (.message
        "empty topologyKey is not allowed except for PreferredDuringScheduling pod anti-affinity")
    else if !nodesHaveSameTopologyKey node targetPodNode term.topologyKey then .ok (false, true)
    else matchesTopologies node targetPodNode terms

variable (pod targetPod : Pod) (node : Node)

/-- Whether the target pod matches all terms with their topologies, and whether it matches all terms
without them. -/
def podMatchesPodAffinityTerms (terms : List PodAffinityTerm) : Except AffinityError (Bool × Bool) :=
  if terms.length = 0 then .error (.message "terms array is empty")
  else
    match getAffinityTermProperties pod terms with
    | none => .error .invalidSelector
    | some props =>
      if !podMatchesAllAffinityTermProperties targetPod props then .ok (false, false)
      else
        match c.getNodeInfo targetPod.nodeName with
        | .error err => .error err
        | .ok targetPodNode => matchesTopologies node targetPodNode terms

/-- The part of the loop over the pods about affinity, which is left out after a match. -/
def checkAffinity (affinityTerms : List PodAffinityTerm)
    (matchFound termsSelectorMatchFound : Bool) : Except AffinityError (Bool × Bool) :=
  if !matchFound && affinityTerms.length > 0 then
    match c.podMatchesPodAffinityTerms pod targetPod node affinityTerms with
    | .error err => .error err
    | .ok (affTermsMatch, termsSelectorMatch) =>
      .ok (matchFound || affTermsMatch, termsSelectorMatchFound || termsSelectorMatch)
  else .ok (matchFound, termsSelectorMatchFound)

def checkAntiAffinity (antiAffinityTerms : List PodAffinityTerm) : Bool :=
  if antiAffinityTerms.length > 0 then
    match c.podMatchesPodAffinityTerms pod targetPod node antiAffinityTerms with
    | .error _ => true
    | .ok (antiAffTermsMatch, _) => antiAffTermsMatch
  else false

def checkPods (pod : Pod) (node : Node) (affinityTerms antiAffinityTerms : List PodAffinityTerm) :
    List Pod → Bool → Bool → Except (PredicateFailureError × Option AffinityError) (Bool × Bool)
  | [], matchFound, termsSelectorMatchFound => .ok (matchFound, termsSelectorMatchFound)
  | targetPod :: rest, matchFound, termsSelectorMatchFound =>
    match c.checkAffinity pod targetPod node affinityTerms matchFound termsSelectorMatchFound with
    | .error err =>
      .error (errPodAffinityRulesNotMatch, some (.because
        ("Cannot schedule pod " ++ podName pod ++ " onto node " ++ node.name ++ ", because of PodAffinity, err: ") err))
    | .ok (matchFound, termsSelectorMatchFound) =>
      if c.checkAntiAffinity pod targetPod node antiAffinityTerms then
        .error (errPodAntiAffinityRulesNotMatch, none)
      else
        checkPods pod node affinityTerms antiAffinityTerms rest matchFound termsSelectorMatchFound

/-! ### Terms of existing pods -/

/-- The loop over the existing pods; those on an unknown node are left out. It ends without a result if
a selector is not valid. -/
def appendMatching (pod : Pod) (topologyMaps : TopologyPairsMaps) : List Pod → MetadataMemory → Option MetadataMemory
  | [], mem => some mem
  | existingPod :: rest, mem =>
    match c.getNodeInfo existingPod.nodeName with
    | .error _ => appendMatching pod topologyMaps rest mem
    | .ok existingPodNode =>
      match getMatchingAntiAffinityTopologyPairsOfPod pod existingPod existingPodNode mem with
      | none => none
      | some (existingPodTopologyMaps, mem) =>
        appendMatching pod topologyMaps rest (topologyMaps.appendMaps rt mem existingPodTopologyMaps)

variable (pod : Pod)

def getMatchingAntiAffinityTopologyPairsOfPods (existingPods : List Pod)
    (mem : MetadataMemory) : Option (TopologyPairsMaps × MetadataMemory) :=
  let (topologyMaps, mem) := newTopologyPairsMaps mem
  (c.appendMatching rt pod topologyMaps existingPods mem).map fun mem => (topologyMaps, mem)

variable (topologyPairs : TopologyPairsMaps) (mem : MetadataMemory)

def hasPair (pair : TopologyPair) : Bool :=
  ((mem.pods.value topologyPairs.topologyPairToPods).lookup pair).isSome

def anyLabelPair (topologyMaps : TopologyPairsMaps) (mem : MetadataMemory) (node : Node) : Bool :=
  (rt.range mem node.labels.keys).any fun topologyKey =>
    (node.labels.lookup topologyKey).any fun topologyValue =>
      hasPair topologyMaps mem ⟨topologyKey, topologyValue⟩

abbrev Failure := Option (PredicateFailureError × Option AffinityError)

variable (metadata : Option AffinityMetadata) (nodeInfo : NodeInfo)

def satisfiesExistingPodsAntiAffinity (mem : MetadataMemory) : Failure × MetadataMemory :=
  match nodeInfo.node with
  | none => (some (errExistingPodsAntiAffinityRulesNotMatch, some (.message "Node is nil")), mem)
  | some node =>
    let found : Option (TopologyPairsMaps × MetadataMemory) :=
      match metadata with
      | some predicateMeta => some (predicateMeta.topologyPairsAntiAffinityPodsMap, mem)
      | none =>
        c.getMatchingAntiAffinityTopologyPairsOfPods rt pod
          (c.filteredList rt mem nodeInfo.filter everything) mem
    match found with
    | none =>
      (some (errExistingPodsAntiAffinityRulesNotMatch, some (.because
        ("Failed to get all terms that pod " ++ podName pod ++ " matches, err: ") .invalidSelector)), mem)
    | some (topologyMaps, mem) =>
      if anyLabelPair rt topologyMaps mem node then
        (some (errExistingPodsAntiAffinityRulesNotMatch, none), mem)
      else (none, mem)

/-! ### Terms of the pod with metadata -/

def nodeMatchesAllTopologyTerms (node : Node) (terms : List PodAffinityTerm) : Bool :=
  terms.all fun term =>
    (node.labels.lookup term.topologyKey).any fun topologyValue =>
      hasPair topologyPairs mem ⟨term.topologyKey, topologyValue⟩

def nodeMatchesAnyTopologyTerm (node : Node) (terms : List PodAffinityTerm) : Bool :=
  terms.any fun term =>
    (node.labels.lookup term.topologyKey).any fun topologyValue =>
      hasPair topologyPairs mem ⟨term.topologyKey, topologyValue⟩

def satisfiesWithMetadata (predicateMeta : AffinityMetadata) (node : Node) (affinity : Affinity)
    (mem : MetadataMemory) : Failure :=
  let topologyPairsPotentialAffinityPods := predicateMeta.topologyPairsPotentialAffinityPods
  let affinityTerms := getPodAffinityTerms affinity
  if affinityTerms.length > 0 &&
      !nodeMatchesAllTopologyTerms topologyPairsPotentialAffinityPods mem node affinityTerms &&
      !(topologyPairsPotentialAffinityPods.numPairs mem = 0 && targetPodMatchesAffinityOfPod pod pod) then
    some (errPodAffinityRulesNotMatch, none)
  else
    let topologyPairsPotentialAntiAffinityPods := predicateMeta.topologyPairsPotentialAntiAffinityPods
    let antiAffinityTerms := getPodAntiAffinityTerms affinity
    if antiAffinityTerms.length > 0 &&
        nodeMatchesAnyTopologyTerm topologyPairsPotentialAntiAffinityPods mem node antiAffinityTerms then
      some (errPodAntiAffinityRulesNotMatch, none)
    else none

def satisfiesWithPods (filteredPods : List Pod) (node : Node) (affinity : Affinity) : Failure :=
  let affinityTerms := getPodAffinityTerms affinity
  let antiAffinityTerms := getPodAntiAffinityTerms affinity
  match c.checkPods pod node affinityTerms antiAffinityTerms filteredPods false false with
  | .error failure => some failure
  | .ok (matchFound, termsSelectorMatchFound) =>
    if !matchFound && affinityTerms.length > 0 then
      if termsSelectorMatchFound then some (errPodAffinityRulesNotMatch, none)
      else if !targetPodMatchesAffinityOfPod pod pod then some (errPodAffinityRulesNotMatch, none)
      else none
    else none

def satisfiesPodsAffinityAntiAffinity (affinity : Affinity) (mem : MetadataMemory) : Failure :=
  match nodeInfo.node with
  | none => some (errPodAffinityRulesNotMatch, some (.message "Node is nil"))
  | some node =>
    match metadata with
    | some predicateMeta => satisfiesWithMetadata pod predicateMeta node affinity mem
    | none => c.satisfiesWithPods pod (c.filteredList rt mem nodeInfo.filter everything) node affinity

def interPodAffinityMatches (mem : MetadataMemory) : FitResult :=
  match nodeInfo.node with
  | none => { fit := false, error := some (.message "node not found") }
  | some _ =>
    match c.satisfiesExistingPodsAntiAffinity rt pod metadata nodeInfo mem with
    | (some (failedPredicates, error), _) =>
      { fit := false, reasons := [errPodAffinityNotMatch, failedPredicates], error }
    | (none, mem) =>
      match pod.affinity with
      | none => { fit := true }
      | some affinity =>
        if !affinity.podAffinity && !affinity.podAntiAffinity then { fit := true }
        else
          match c.satisfiesPodsAffinityAntiAffinity rt pod metadata nodeInfo affinity mem with
          | some (failedPredicates, error) =>
            { fit := false, reasons := [errPodAffinityNotMatch, failedPredicates], error }
          | none => { fit := true }

end PodAffinityChecker
end LeanKube.Scheduler
