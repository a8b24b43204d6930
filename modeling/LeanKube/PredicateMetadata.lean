import LeanKube.SchedulerNodeInfo
import LeanKube.SetMaps

/-! The predicate metadata of a pod that is to be scheduled: which topology pairs hold pods that
matter to its inter-pod affinity and anti-affinity. It is computed once for a whole cluster, and then
kept up to date for one pod that is added or removed, on itself or on a copy. A pod is identified with
its object, since the sets of pods are sets of pointers. -/

namespace LeanKube.Scheduler
open Storage

structure TopologyPair where
  key : String
  value : String
deriving DecidableEq

structure TopologyPairsMaps where
  topologyPairToPods : Nat
  podToTopologyPairs : Nat
deriving DecidableEq

structure PodSlice where
  array : Nat
  len : Nat
deriving DecidableEq

/-- What the metadata refers to: maps from topology pairs to pods and from the full names of pods to
topology pairs, and arrays of pods, with nil pointers past the end of what was written. -/
structure MetadataMemory where
  pods : SetMaps TopologyPair Pod := {}
  pairs : SetMaps String TopologyPair := {}
  arrays : List (List (Option Pod)) := []

/-- What the language leaves open: the order in which `range` visits a map, which may be another one
each time, and the capacity that `append` gives to a slice that has to hold some number of elements. -/
structure Runtime where
  range : {α : Type} → [DecidableEq α] → MetadataMemory → Finset α → List α
  mem_range : ∀ {α : Type} [DecidableEq α] (mem : MetadataMemory) (s : Finset α) (a : α), a ∈ range mem s ↔ a ∈ s
  nodup_range : ∀ {α : Type} [DecidableEq α] (mem : MetadataMemory) (s : Finset α), (range mem s).Nodup
  capacity : MetadataMemory → Nat → Nat
  le_capacity : ∀ mem n, n ≤ capacity mem n

variable (rt : Runtime)

/-! ### Slices -/

namespace PodSlice
variable (mem : MetadataMemory) (s : PodSlice)

def cells : List (Option Pod) := mem.arrays[s.array]?.getD []

def toList : List Pod := ((s.cells mem).take s.len).reduceOption

def ofList (elements : List Pod) : PodSlice × MetadataMemory :=
  ({ array := mem.arrays.length, len := elements.length },
    { mem with
      arrays := mem.arrays ++
        [elements.map some ++ List.replicate (rt.capacity mem elements.length - elements.length) none] })

def append (pod : Pod) : PodSlice × MetadataMemory :=
  if s.len < (s.cells mem).length then
    ({ s with len := s.len + 1 }, { mem with arrays := mem.arrays.set s.array ((s.cells mem).set s.len (some pod)) })
  else ofList rt mem (s.toList mem ++ [pod])

def deleteAt (i : Nat) : PodSlice × MetadataMemory :=
  ({ s with len := s.len - 1 },
    { mem with
      arrays := mem.arrays.set s.array ((s.cells mem).take i ++
        ((s.cells mem).take s.len).drop (i + 1) ++ (s.cells mem).drop (s.len - 1)) })

end PodSlice

/-! ### The maps -/

namespace TopologyPairsMaps

variable (mem : MetadataMemory)

def newTopologyPairsMaps : TopologyPairsMaps × MetadataMemory :=
  let (topologyPairToPods, pods) := mem.pods.make
  let (podToTopologyPairs, pairs) := mem.pairs.make
  ({ topologyPairToPods, podToTopologyPairs }, { mem with pods, pairs })

variable (t : TopologyPairsMaps)

def addTopologyPair (pair : TopologyPair) (pod : Pod) : MetadataMemory :=
  { mem with
    pods := mem.pods.insert t.topologyPairToPods pair pod
    pairs := mem.pairs.insert t.podToTopologyPairs (getPodFullName pod) pair }

def removePod (deletedPod : Pod) : MetadataMemory :=
  let deletedPodFullName := getPodFullName deletedPod
  let mem := (rt.range mem (mem.pairs.get t.podToTopologyPairs deletedPodFullName)).foldl
    (fun mem pair => { mem with pods := mem.pods.remove t.topologyPairToPods pair deletedPod }) mem
  { mem with pairs := mem.pairs.eraseKey t.podToTopologyPairs deletedPodFullName }

def appendMaps : Option TopologyPairsMaps → MetadataMemory
  | none => mem
  | some toAppend =>
    (rt.range mem (mem.pods.value toAppend.topologyPairToPods).keys).foldl
      (fun mem pair =>
        (rt.range mem (mem.pods.get toAppend.topologyPairToPods pair)).foldl
          (fun mem pod => t.addTopologyPair mem pair pod) mem)
      mem

def numPairs : Nat :=
  (mem.pods.value t.topologyPairToPods).keys.card

/-- The pair of a term on a node that has the label, with the pod that is noted for it. -/
def addTermPair (node : Node) (pod : Pod) (mem : MetadataMemory) (term : PodAffinityTerm) : MetadataMemory :=
  match node.labels.lookup term.topologyKey with
  | none => mem
  | some topologyValue => t.addTopologyPair mem ⟨term.topologyKey, topologyValue⟩ pod

def addTermPairs (node : Node) (pod : Pod) (mem : MetadataMemory) (terms : List PodAffinityTerm) : MetadataMemory :=
  terms.foldl (t.addTermPair node pod) mem

/-- The loop that notes a pod for the terms of `owner` that match `target`. It ends without a result
if a selector is not valid. -/
def addMatchingTermPairs (t : TopologyPairsMaps) (node : Node) (owner target pod : Pod) :
    List PodAffinityTerm → MetadataMemory → Option MetadataMemory
  | [], mem => some mem
  | term :: terms, mem =>
    let namespaces := getNamespacesFromPodAffinityTerm owner term
    match labelSelectorAsSelector term.labelSelector with
    | none => none
    | some selector =>
      addMatchingTermPairs t node owner target pod terms
        (if podMatchesTermsNamespaceAndSelector target namespaces selector then
          t.addTermPair node pod mem term
        else mem)

end TopologyPairsMaps

open TopologyPairsMaps

/-! ### Terms -/

structure AffinityTermProperties where
  namespaces : Finset String
  selector : LabelSelector

variable (pod : Pod)

def getAffinityTermProperties (terms : List PodAffinityTerm) : Option (List AffinityTermProperties) :=
  terms.mapM fun term =>
    (labelSelectorAsSelector term.labelSelector).map fun selector =>
      { namespaces := getNamespacesFromPodAffinityTerm pod term, selector }

variable (properties : List AffinityTermProperties)

def podMatchesAllAffinityTermProperties : Bool :=
  if properties.length = 0 then false
  else properties.all fun property =>
    podMatchesTermsNamespaceAndSelector pod property.namespaces property.selector

def podMatchesAnyAffinityTermProperties : Bool :=
  if properties.length = 0 then false
  else properties.any fun property =>
    podMatchesTermsNamespaceAndSelector pod property.namespaces property.selector

variable (pod targetPod : Pod)

def targetPodMatchesAffinityOfPod : Bool :=
  match pod.affinity with
  | none => false
  | some affinity =>
    if !affinity.podAffinity then false
    else
      match getAffinityTermProperties pod (getPodAffinityTerms affinity) with
      | none => false
      | some affinityProperties => podMatchesAllAffinityTermProperties targetPod affinityProperties

def targetPodMatchesAntiAffinityOfPod : Bool :=
  match pod.affinity with
  | none => false
  | some affinity =>
    if !affinity.podAntiAffinity then false
    else
      match getAffinityTermProperties pod (getPodAntiAffinityTerms affinity) with
      | none => false
      | some properties => podMatchesAnyAffinityTermProperties targetPod properties

/-- The pairs of `existingPod` on its node if its anti-affinity terms match `newPod`; no maps without
anti-affinity, and no result if a selector is not valid. -/
def getMatchingAntiAffinityTopologyPairsOfPod (newPod existingPod : Pod) (node : Node)
    (mem : MetadataMemory) : Option (Option TopologyPairsMaps × MetadataMemory) :=
  match existingPod.affinity with
  | none => some (none, mem)
  | some affinity =>
    if !affinity.podAntiAffinity then some (none, mem)
    else
      let (topologyMaps, mem) := newTopologyPairsMaps mem
      (topologyMaps.addMatchingTermPairs node existingPod newPod existingPod
        (getPodAntiAffinityTerms affinity) mem).map fun mem => (some topologyMaps, mem)

/-! ### The metadata of a pod in a cluster -/

abbrev Cluster := GoMap String NodeInfo

/-- How the nodes are processed. They are visited in the order `names`, and the pods with affinity in
the order `existing`, in which those of different nodes may alternate, since the nodes are processed in
parallel and what was found for one pod is added under a lock. -/
structure Schedule (cluster : Cluster) where
  names : List String
  ranges : cluster.Ranges names
  existing : List (Node × Pod)
  mem_existing : ∀ node pod, (node, pod) ∈ existing ↔
    ∃ name nodeInfo, cluster.lookup name = some nodeInfo ∧ nodeInfo.node = some node ∧ pod ∈ nodeInfo.podsWithAffinity

variable {cluster : Cluster}

def Schedule.nodeInfos (schedule : Schedule cluster) : List NodeInfo :=
  schedule.names.filterMap cluster.lookup

def processExisting (pod : Pod) (topologyMaps : TopologyPairsMaps) :
    List (Node × Pod) → MetadataMemory → Option MetadataMemory
  | [], mem => some mem
  | (node, existingPod) :: rest, mem =>
    match getMatchingAntiAffinityTopologyPairsOfPod pod existingPod node mem with
    | none => none
    | some (existingPodTopologyMaps, mem) =>
      processExisting pod topologyMaps rest
        (topologyMaps.appendMaps rt mem existingPodTopologyMaps)

def getTPMapMatchingExistingAntiAffinity (pod : Pod) (schedule : Schedule cluster)
    (mem : MetadataMemory) : Option (TopologyPairsMaps × MetadataMemory) :=
  let (topologyMaps, mem) := newTopologyPairsMaps mem
  if schedule.nodeInfos.any fun nodeInfo => nodeInfo.node.isNone then none
  else (processExisting rt pod topologyMaps schedule.existing mem).map fun mem => (topologyMaps, mem)

structure IncomingTerms where
  pod : Pod
  affinityTerms : List PodAffinityTerm
  affinityProperties : List AffinityTermProperties
  antiAffinityTerms : List PodAffinityTerm

def processPods (terms : IncomingTerms) (node : Node) (affinityMaps antiAffinityMaps : TopologyPairsMaps) :
    List Pod → MetadataMemory → Option MetadataMemory
  | [], mem => some mem
  | existingPod :: rest, mem =>
    let mem :=
      if podMatchesAllAffinityTermProperties existingPod terms.affinityProperties then
        affinityMaps.addTermPairs node existingPod mem terms.affinityTerms
      else mem
    match antiAffinityMaps.addMatchingTermPairs node terms.pod existingPod existingPod
        terms.antiAffinityTerms mem with
    | none => none
    | some mem => processPods terms node affinityMaps antiAffinityMaps rest mem

def appendResult (mem : MetadataMemory) (maps nodeMaps : TopologyPairsMaps) : MetadataMemory :=
  if nodeMaps.numPairs mem > 0 then maps.appendMaps rt mem (some nodeMaps) else mem

def processNodes (terms : IncomingTerms) (affinityMaps antiAffinityMaps : TopologyPairsMaps) :
    List NodeInfo → MetadataMemory → Option MetadataMemory
  | [], mem => some mem
  | nodeInfo :: rest, mem =>
    match nodeInfo.node with
    | none => none
    | some node =>
      let (nodeAffinityMaps, mem) := newTopologyPairsMaps mem
      let (nodeAntiAffinityMaps, mem) := newTopologyPairsMaps mem
      match processPods terms node nodeAffinityMaps nodeAntiAffinityMaps nodeInfo.pods mem with
      | none => none
      | some mem =>
        let mem := appendResult rt mem affinityMaps nodeAffinityMaps
        let mem := appendResult rt mem antiAffinityMaps nodeAntiAffinityMaps
        processNodes terms affinityMaps antiAffinityMaps rest mem

def getTPMapMatchingIncomingAffinityAntiAffinity (pod : Pod) (schedule : Schedule cluster) (mem : MetadataMemory) :
    Option (TopologyPairsMaps × TopologyPairsMaps × MetadataMemory) :=
  let (affinityMaps, mem) := newTopologyPairsMaps mem
  let (antiAffinityMaps, mem) := newTopologyPairsMaps mem
  match pod.affinity with
  | none => some (affinityMaps, antiAffinityMaps, mem)
  | some affinity =>
    if !affinity.podAffinity && !affinity.podAntiAffinity then
      some (affinityMaps, antiAffinityMaps, mem)
    else
      let affinityTerms := getPodAffinityTerms affinity
      match getAffinityTermProperties pod affinityTerms with
      | none => none
      | some affinityProperties =>
        let antiAffinityTerms := getPodAntiAffinityTerms affinity
        (processNodes rt ⟨pod, affinityTerms, affinityProperties, antiAffinityTerms⟩ affinityMaps
          antiAffinityMaps schedule.nodeInfos mem).map fun mem => (affinityMaps, antiAffinityMaps, mem)

structure AffinityMetadata where
  pod : Pod
  topologyPairsAntiAffinityPodsMap : TopologyPairsMaps
  topologyPairsPotentialAffinityPods : TopologyPairsMaps
  topologyPairsPotentialAntiAffinityPods : TopologyPairsMaps
  serviceAffinityInUse : Bool
  serviceAffinityMatchingPodList : PodSlice
deriving DecidableEq

structure ServiceAffinity where
  inUse : Bool := false
  matchingPodList : List Pod := []

def getMetadata (pod : Pod) (schedule : Schedule cluster) (service : ServiceAffinity)
    (mem : MetadataMemory) : Option (AffinityMetadata × MetadataMemory) :=
  match getTPMapMatchingExistingAntiAffinity rt pod schedule mem with
  | none => none
  | some (existingPodAntiAffinityMap, mem) =>
    match getTPMapMatchingIncomingAffinityAntiAffinity rt pod schedule mem with
    | none => none
    | some (incomingPodAffinityMap, incomingPodAntiAffinityMap, mem) =>
      let (matchingPodList, mem) := PodSlice.ofList rt mem service.matchingPodList
      some
        ({ pod
           topologyPairsAntiAffinityPodsMap := existingPodAntiAffinityMap
           topologyPairsPotentialAffinityPods := incomingPodAffinityMap
           topologyPairsPotentialAntiAffinityPods := incomingPodAntiAffinityMap
           serviceAffinityInUse := service.inUse
           serviceAffinityMatchingPodList := matchingPodList }, mem)

/-! ### One pod more or less -/

inductive MetadataError where
  | message (text : String)
  | invalidSelector
deriving DecidableEq

/-- The labels are visited in some order; a label that is not valid gives the selector that matches
everything. -/
def createSelectorFromLabels (aL : GoMap String String) (order : List String) : LabelSelector :=
  .internalSelector ((order.mapM fun label =>
    newRequirement label .equals [(aL.lookup label).getD ""]).getD [])

namespace AffinityMetadata
variable (metadata : AffinityMetadata) (mem : MetadataMemory)

def removePod (deletedPod : Pod) : Except MetadataError (AffinityMetadata × MetadataMemory) :=
  let deletedPodFullName := getPodFullName deletedPod
  if deletedPodFullName = getPodFullName metadata.pod then
    .error (.message "deletedPod and meta.pod must not be the same")
  else
    let mem := metadata.topologyPairsAntiAffinityPodsMap.removePod rt mem deletedPod
    let mem := metadata.topologyPairsPotentialAffinityPods.removePod rt mem deletedPod
    let mem := metadata.topologyPairsPotentialAntiAffinityPods.removePod rt mem deletedPod
    let podList := metadata.serviceAffinityMatchingPodList.toList mem
    if metadata.serviceAffinityInUse &&
        podList.head?.any (fun first => deletedPod.namespace_ = first.namespace_) then
      match podList.findIdx? fun pod => getPodFullName pod = deletedPodFullName with
      | none => .ok (metadata, mem)
      | some i =>
        let (serviceAffinityMatchingPodList, mem) := metadata.serviceAffinityMatchingPodList.deleteAt mem i
        .ok ({ metadata with serviceAffinityMatchingPodList }, mem)
    else .ok (metadata, mem)

def addIncoming (addedPod : Pod) (podNode : Node) : MetadataMemory :=
  match metadata.pod.affinity with
  | none => mem
  | some affinity =>
    if addedPod.nodeName.length > 0 then
      let mem :=
        if targetPodMatchesAffinityOfPod metadata.pod addedPod then
          metadata.topologyPairsPotentialAffinityPods.addTermPairs podNode addedPod mem
            (getPodAffinityTerms affinity)
        else mem
      if targetPodMatchesAntiAffinityOfPod metadata.pod addedPod then
        metadata.topologyPairsPotentialAntiAffinityPods.addTermPairs podNode addedPod mem
          (getPodAntiAffinityTerms affinity)
      else mem
    else mem

def addPod (addedPod : Pod) (nodeInfo : NodeInfo) : Except MetadataError (AffinityMetadata × MetadataMemory) :=
  if getPodFullName addedPod = getPodFullName metadata.pod then
    .error (.message "addedPod and meta.pod must not be the same")
  else
    match nodeInfo.node with
    | none => .error (.message "invalid node in nodeInfo")
    | some node =>
      match getMatchingAntiAffinityTopologyPairsOfPod metadata.pod addedPod node mem with
      | none => .error .invalidSelector
      | some (topologyPairsMaps, mem) =>
        let mem := metadata.topologyPairsAntiAffinityPodsMap.appendMaps rt mem topologyPairsMaps
        let mem := metadata.addIncoming mem addedPod node
        let selector := createSelectorFromLabels metadata.pod.labels
          (rt.range mem metadata.pod.labels.keys)
        if metadata.serviceAffinityInUse && addedPod.namespace_ = metadata.pod.namespace_ &&
            selector.matchesLabels addedPod.labels then
          let (serviceAffinityMatchingPodList, mem) :=
            metadata.serviceAffinityMatchingPodList.append rt mem addedPod
          .ok ({ metadata with serviceAffinityMatchingPodList }, mem)
        else .ok (metadata, mem)

def shallowCopy : AffinityMetadata × MetadataMemory :=
  let (affinityPods, mem) := newTopologyPairsMaps mem
  let mem := affinityPods.appendMaps rt mem (some metadata.topologyPairsPotentialAffinityPods)
  let (antiAffinityPods, mem) := newTopologyPairsMaps mem
  let mem := antiAffinityPods.appendMaps rt mem (some metadata.topologyPairsPotentialAntiAffinityPods)
  let (antiAffinityPodsMap, mem) := newTopologyPairsMaps mem
  let mem := antiAffinityPodsMap.appendMaps rt mem (some metadata.topologyPairsAntiAffinityPodsMap)
  let (podList, mem) := PodSlice.ofList rt mem (metadata.serviceAffinityMatchingPodList.toList mem)
  ({ metadata with
     topologyPairsAntiAffinityPodsMap := antiAffinityPodsMap
     topologyPairsPotentialAffinityPods := affinityPods
     topologyPairsPotentialAntiAffinityPods := antiAffinityPods
     serviceAffinityMatchingPodList := podList }, mem)

end AffinityMetadata
end LeanKube.Scheduler
