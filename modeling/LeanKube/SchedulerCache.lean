import LeanKube.SchedulerNodeTree
import LeanKube.Transition

/-! The scheduler cache: the pods the scheduler assumed or was told about, aggregated by node. A pod
is assumed when the scheduler picks its node, and added once the API server confirms it; an assumed
pod whose binding finished expires after a while. -/

namespace LeanKube.Scheduler

structure PodState where
  pod : Pod
  deadline : Option Int := none
  bindingFinished : Bool := false
deriving DecidableEq

structure ImageState where
  size : Int64
  nodes : Finset String
deriving DecidableEq

/-- `schedulerCache`; `generation` is the last number drawn. -/
structure SchedulerCache where
  ttl : Int
  assumedPods : Finset String := ∅
  podStates : GoMap String PodState := ∅
  nodes : GoMap String NodeInfo := ∅
  nodeTree : NodeTree := {}
  imageStates : GoMap String ImageState := ∅
  generation : Int64 := 0
deriving DecidableEq

def newSchedulerCache (ttl : Int) : SchedulerCache := { ttl }

/-- The `NodeInfo`s after one of them changed to `n`: one without pods and node is deleted. -/
def keepNodeInfo (nodes : GoMap String NodeInfo) (name : String) (n : NodeInfo) : GoMap String NodeInfo :=
  if n.pods = [] ∧ n.node = none then nodes.erase name else nodes.insert name n

namespace SchedulerCache

/-! ### Pods -/

variable (c : SchedulerCache) (pod : Pod)

def addPodLocked : SchedulerCache :=
  match c.nodes.lookup pod.nodeName with
  | some n =>
    { c with
      nodes := c.nodes.insert pod.nodeName (n.addPod pod (c.generation + 1))
      generation := c.generation + 1 }
  | none =>
    let n := newNodeInfo (c.generation + 1)
    { c with
      nodes := c.nodes.insert pod.nodeName (n.addPod pod (c.generation + 2))
      generation := c.generation + 2 }

/-- The unexported `removePod`. Without a `NodeInfo` the call reads through a nil pointer, but only
after it has looked at the key. -/
def removePodLocked : Outcome SchedulerCache :=
  match c.nodes.lookup pod.nodeName with
  | none =>
    match getPodKey pod with
    | .error message => .error c message
    | .ok _ => .panic
  | some n =>
    match n.removePod pod (c.generation + 1) with
    | .ok n' =>
      .ok { c with
        nodes := keepNodeInfo c.nodes pod.nodeName n'
        generation := c.generation + 1 }
    | .error n' message => .error { c with nodes := c.nodes.insert pod.nodeName n' } message
    | .fatal => .fatal
    | .panic => .panic

variable (oldPod newPod : Pod)

def updatePodLocked : Outcome SchedulerCache :=
  (c.removePodLocked oldPod).andThen fun c' => .ok (c'.addPodLocked newPod)

def assumePod : Outcome SchedulerCache :=
  match getPodKey pod with
  | .error message => .error c message
  | .ok key =>
    match c.podStates.lookup key with
    | some _ => .error c s!"pod {key} is in the cache, so can't be assumed"
    | none =>
      let c := c.addPodLocked pod
      .ok { c with
        podStates := c.podStates.insert key { pod }
        assumedPods := insert key c.assumedPods }

def finishBinding (now : Int) : Outcome SchedulerCache :=
  match getPodKey pod with
  | .error message => .error c message
  | .ok key =>
    match c.podStates.lookup key with
    | none => .ok c
    | some currState =>
      if key ∈ c.assumedPods then
        .ok { c with
          podStates := c.podStates.insert key
            { currState with bindingFinished := true, deadline := some (now + c.ttl) } }
      else
        .ok c

def forgetPod : Outcome SchedulerCache :=
  match getPodKey pod with
  | .error message => .error c message
  | .ok key =>
    let notAssumed := Outcome.error c s!"pod {key} wasn't assumed so cannot be forgotten"
    match c.podStates.lookup key with
    | none => notAssumed
    | some currState =>
      if currState.pod.nodeName ≠ pod.nodeName then
        .error c <| s!"pod {key} was assumed on {pod.nodeName} but assigned to " ++ currState.pod.nodeName
      else if key ∈ c.assumedPods then
        (c.removePodLocked pod).andThen fun c' =>
          .ok { c' with
            assumedPods := c'.assumedPods.erase key
            podStates := c'.podStates.erase key }
      else
        notAssumed

/-- The end of `AddPod` for an assumed pod: it is confirmed under the object that was added. -/
def confirmPod (key : String) (currState : PodState) (pod : Pod) : SchedulerCache :=
  { c with
    assumedPods := c.assumedPods.erase key
    podStates := c.podStates.insert key { currState with deadline := none, pod } }

def addPod : Outcome SchedulerCache :=
  match getPodKey pod with
  | .error message => .error c message
  | .ok key =>
    match c.podStates.lookup key with
    | none =>
      let c := c.addPodLocked pod
      .ok { c with podStates := c.podStates.insert key { pod } }
    | some currState =>
      if key ∈ c.assumedPods then
        if currState.pod.nodeName ≠ pod.nodeName then
          (c.removePodLocked currState.pod).dropError.andThen fun c' =>
            .ok ((c'.addPodLocked pod).confirmPod key currState pod)
        else
          .ok (c.confirmPod key currState pod)
      else
        .error c s!"pod {key} was already in added state"

def updatePod : Outcome SchedulerCache :=
  match getPodKey oldPod with
  | .error message => .error c message
  | .ok key =>
    let notAdded := Outcome.error c s!"pod {key} is not added to scheduler cache, so cannot be updated"
    match c.podStates.lookup key with
    | none => notAdded
    | some currState =>
      if key ∈ c.assumedPods then notAdded
      else if currState.pod.nodeName ≠ newPod.nodeName then .fatal
      else
        (c.updatePodLocked oldPod newPod).andThen fun c' =>
          .ok { c' with podStates := c'.podStates.insert key { currState with pod := newPod } }

def removePod : Outcome SchedulerCache :=
  match getPodKey pod with
  | .error message => .error c message
  | .ok key =>
    let notFound :=
      Outcome.error c s!"pod {key} is not found in scheduler cache, so cannot be removed from it"
    match c.podStates.lookup key with
    | none => notFound
    | some currState =>
      if key ∈ c.assumedPods then notFound
      else if currState.pod.nodeName ≠ pod.nodeName then .fatal
      else
        (c.removePodLocked currState.pod).andThen fun c' =>
          .ok { c' with podStates := c'.podStates.erase key }

/-! ### Nodes -/

/-- The image names of a node, each with the size of its image, in the order of the loops. -/
def imageNames (node : Node) : List (String × Int64) :=
  node.images.flatMap fun image => image.names.map fun name => (name, image.sizeBytes)

variable (nodeName : String)

/-- One turn of `addNodeImageStates`: the image states of the cache and the summary of the node. -/
def addImageState (acc : GoMap String ImageState × GoMap String ImageStateSummary) (image : String × Int64) :
    GoMap String ImageState × GoMap String ImageStateSummary :=
  let state : ImageState :=
    match acc.1.lookup image.1 with
    | none => { size := image.2, nodes := {nodeName} }
    | some state => { state with nodes := insert nodeName state.nodes }
  (acc.1.insert image.1 state, if image.1 ∈ acc.2 then acc.2
    else acc.2.insert image.1 { size := state.size, numNodes := state.nodes.card })

variable (imageStates : GoMap String ImageState)

def addNodeImageStates (node : Node) : GoMap String ImageState × GoMap String ImageStateSummary :=
  (imageNames node).foldl (addImageState node.name) (imageStates, ∅)

/-- One turn of `removeNodeImageStates`; an image that no node has any more is dropped. -/
def removeImageState (imageStates : GoMap String ImageState) (image : String × Int64) : GoMap String ImageState :=
  match imageStates.lookup image.1 with
  | none => imageStates
  | some state =>
    if state.nodes.erase nodeName = ∅ then imageStates.erase image.1
    else imageStates.insert image.1 { state with nodes := state.nodes.erase nodeName }

def removeNodeImageStates : Option Node → GoMap String ImageState
  | none => imageStates
  | some node => (imageNames node).foldl (removeImageState node.name) imageStates

/-- What `AddNode` and `UpdateNode` have in common: the `NodeInfo` of the node is made or its old
images are taken back, the node tree changes to `nodeTree`, and the node is set. -/
def putNode (nodeTree : NodeTree) (node : Node) : SchedulerCache :=
  let found := c.nodes.lookup node.name
  let generation := if found.isSome then c.generation else c.generation + 1
  let n := found.getD (newNodeInfo generation)
  let states := addNodeImageStates (removeNodeImageStates c.imageStates n.node) node
  { c with
    nodes := c.nodes.insert node.name ((n.setImageStates states.2).setNode node (generation + 1))
    nodeTree
    imageStates := states.1
    generation := generation + 1 }

def addNode (node : Node) : Outcome SchedulerCache :=
  .ok (c.putNode (c.nodeTree.addNode node) node)

def updateNode (oldNode newNode : Node) : Outcome SchedulerCache :=
  .ok (c.putNode (c.nodeTree.updateNode oldNode newNode) newNode)

/-- A `NodeInfo` outlives its node as long as it has pods. Without a `NodeInfo` the call writes
through a nil pointer. -/
def removeNode (node : Node) : Outcome SchedulerCache :=
  match c.nodes.lookup node.name with
  | none => .panic
  | some n =>
    .ok { c with
      nodes := keepNodeInfo c.nodes node.name (n.removeNode (c.generation + 1))
      nodeTree := c.nodeTree.afterRemoveNode node
      imageStates := removeNodeImageStates c.imageStates (some node)
      generation := c.generation + 1 }

/-! ### Expiration -/

def expirePod (key : String) (ps : PodState) : Outcome SchedulerCache :=
  (c.removePodLocked ps.pod).andThen fun c' =>
    .ok { c' with
      assumedPods := c'.assumedPods.erase key
      podStates := c'.podStates.erase key }

def cleanupAssumedPod (now : Int) (key : String) : Outcome SchedulerCache :=
  match c.podStates.lookup key with
  | none => .panic
  | some ps =>
    if ps.bindingFinished = false then .ok c
    else
      match ps.deadline with
      | none => .panic
      | some deadline => if now > deadline then (c.expirePod key ps).dropError else .ok c

def cleanupAssumedPods (c : SchedulerCache) (now : Int) : List String → Outcome SchedulerCache
  | [] => .ok c
  | key :: rest => (c.cleanupAssumedPod now key).andThen fun c' => cleanupAssumedPods c' now rest

end SchedulerCache

/-! ### Runs -/

/-- The calls of the cache and its expiration loop. -/
inductive CacheOp where
  | assumePod (pod : Pod)
  | finishBinding (pod : Pod) (now : Int)
  | forgetPod (pod : Pod)
  | addPod (pod : Pod)
  | updatePod (oldPod newPod : Pod)
  | removePod (pod : Pod)
  | addNode (node : Node)
  | updateNode (oldNode newNode : Node)
  | removeNode (node : Node)
  | cleanupAssumedPods (now : Int) (order : List String)
deriving DecidableEq

variable (c : SchedulerCache)

def SchedulerCache.perform : CacheOp → Outcome SchedulerCache
  | .assumePod pod => c.assumePod pod
  | .finishBinding pod now => c.finishBinding pod now
  | .forgetPod pod => c.forgetPod pod
  | .addPod pod => c.addPod pod
  | .updatePod oldPod newPod => c.updatePod oldPod newPod
  | .removePod pod => c.removePod pod
  | .addNode node => c.addNode node
  | .updateNode oldNode newNode => c.updateNode oldNode newNode
  | .removeNode node => c.removeNode node
  | .cleanupAssumedPods now order => c.cleanupAssumedPods now order

def CacheOp.visits : CacheOp → Bool
  | .cleanupAssumedPods _ order => order.Nodup ∧ order.toFinset = c.assumedPods
  | _ => true

/-- What the callers promise: the two objects of an update are versions of one pod and the old one
is on the node the cache has it on, and only a node the cache knows is removed. -/
def CacheOp.promised : CacheOp → Bool
  | .updatePod oldPod newPod => oldPod.uid = newPod.uid ∧
      (c.podStates.lookup oldPod.uid).all fun ps => ps.pod.nodeName = oldPod.nodeName
  | .removeNode node => node.name ∈ c.nodes
  | _ => true

def SchedulerCache.returns (op : CacheOp) : Bool :=
  op.visits c && (c.perform op).state?.isSome

def SchedulerCache.next (op : CacheOp) : SchedulerCache := (c.perform op).state?.getD c

/-- The calls that return. -/
def cacheSystem : System SchedulerCache CacheOp := System.ofFun (fun c op => c.returns op) SchedulerCache.next

/-- The calls that return, of callers that keep their promises. -/
def promisedSystem : System SchedulerCache CacheOp :=
  System.ofFun (fun c op => op.promised c && c.returns op) SchedulerCache.next

variable {c c'}

theorem cacheSystem_step {op : CacheOp} (h : cacheSystem.step c op c') :
    op.visits c = true ∧ (c.perform op).state? = some c' := by
  obtain ⟨hreturns, rfl⟩ := h
  obtain ⟨hvis, hsome⟩ := Bool.and_eq_true_iff.mp hreturns
  obtain ⟨_, hstate⟩ := Option.isSome_iff_exists.mp hsome
  refine ⟨hvis, ?_⟩
  rw [SchedulerCache.next, hstate, Option.getD_some]

theorem promisedSystem_step {op : CacheOp}
    (h : promisedSystem.step c op c') : op.promised c = true ∧ cacheSystem.step c op c' := by
  obtain ⟨hen, rfl⟩ := h
  obtain ⟨hprom, hreturns⟩ := Bool.and_eq_true_iff.mp hen
  exact ⟨hprom, hreturns, rfl⟩

end LeanKube.Scheduler
