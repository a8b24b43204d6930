import LeanKube.SchedulerCacheSteps

/-! The node objects in the cache. Calls about pods leave them alone, and a call about a node changes
what is stored under the name of that node only. -/

namespace LeanKube.Scheduler
open SchedulerCache NodeInfo

/-- The node of a `NodeInfo`, with the summaries of its images. -/
def NodeInfo.stored (n : NodeInfo) : Option (Node × GoMap String ImageStateSummary) :=
  n.node.map fun node => (node, n.imageStates)

variable (nodes : GoMap String NodeInfo)

/-- The node that the cache has under a name, with its images. -/
def storedAt (name : String) : Option (Node × GoMap String ImageStateSummary) :=
  (nodes.lookup name).bind NodeInfo.stored

def nodeAt (name : String) : Option Node :=
  (nodes.lookup name).bind NodeInfo.node

variable {c' c : SchedulerCache} (nodes : GoMap String NodeInfo) (name : String) (name' : String) (n : NodeInfo)

theorem nodeAt_eq_stored : nodeAt nodes name = (storedAt nodes name).map Prod.fst := by
  rw [nodeAt, storedAt]
  cases nodes.lookup name with
  | none => rfl
  | some n =>
    show n.node = (n.node.map _).map _
    rw [Option.map_map]
    exact Option.map_id'.symm

theorem storedAt_insert :
    storedAt (nodes.insert name n) name' = if name' = name then n.stored else storedAt nodes name' := by
  rw [storedAt, GoMap.lookup_insert_ite]
  split_ifs <;> rfl

theorem storedAt_keepNodeInfo :
    storedAt (keepNodeInfo nodes name n) name' = if name' = name then n.stored else storedAt nodes name' := by
  rw [keepNodeInfo]
  split
  · next hgone =>
      rw [storedAt, GoMap.lookup_erase_ite, stored, hgone.2]
      split_ifs <;> rfl
  · exact storedAt_insert nodes name name' n

theorem storedAt_write_same {nodes : GoMap String NodeInfo} {name : String} {stored}
    (h : stored = storedAt nodes name) (name' : String) :
    (if name' = name then stored else storedAt nodes name') = storedAt nodes name' := by
  split_ifs with hname
  · rw [h, hname]
  · rfl

/-! ### Calls about pods -/

/-- Two caches with the same nodes, node tree and image states. -/
structure SameNodes (c c' : SchedulerCache) : Prop where
  stored : ∀ name, storedAt c'.nodes name = storedAt c.nodes name
  nodeTree : c'.nodeTree = c.nodeTree
  imageStates : c'.imageStates = c.imageStates

theorem SameNodes.trans {c'' : SchedulerCache} (h : SameNodes c c') (h' : SameNodes c' c'') : SameNodes c c'' where
  stored name := (h'.stored name).trans (h.stored name)
  nodeTree := h'.nodeTree.trans h.nodeTree
  imageStates := h'.imageStates.trans h.imageStates

theorem sameNodes_addPodLocked (c : SchedulerCache) (pod : Pod) : SameNodes c (c.addPodLocked pod) := by
  rw [addPodLocked]
  cases hn : c.nodes.lookup pod.nodeName with
  | none | some =>
    refine ⟨fun name => (storedAt_insert _ _ name _).trans (storedAt_write_same ?_ name), rfl, rfl⟩
    rw [storedAt, hn]
    rfl

theorem stored_removePod {n n' : NodeInfo} {pod : Pod} {generation : Int64}
    (h : (n.removePod pod generation).state? = some n') : n'.stored = n.stored := by
  rcases removePod_state h with rfl | ⟨_, ⟨_, _, _, _, rfl⟩ | ⟨_, rfl⟩⟩ <;> rfl

theorem sameNodes_removePodLocked {pod : Pod} (h : (c.removePodLocked pod).state? = some c') : SameNodes c c' := by
  have hstored {n n' : NodeInfo} (hn : c.nodes.lookup pod.nodeName = some n)
      (hn' : (n.removePod pod (c.generation + 1)).state? = some n') : n'.stored = storedAt c.nodes pod.nodeName := by
    rw [stored_removePod hn', storedAt, hn]
    rfl
  rcases removePodLocked_cases h with rfl | ⟨n, n', hn, ⟨hok, rfl⟩ | ⟨_, herror, rfl⟩⟩
  · exact ⟨fun _ => rfl, rfl, rfl⟩
  · exact ⟨fun name => (storedAt_keepNodeInfo _ _ name _).trans
      (storedAt_write_same (hstored hn (by rw [hok]; rfl)) name), rfl, rfl⟩
  · exact ⟨fun name => (storedAt_insert _ _ name _).trans
      (storedAt_write_same (hstored hn (by rw [herror]; rfl)) name), rfl, rfl⟩

/-- Calls about pods leave the nodes alone. -/
theorem perform_sameNodes {op : CacheOp} (hop : op.onNode = false) (hvis : op.visits c = true)
    (h : (c.perform op).state? = some c') : SameNodes c c' := by
  obtain ⟨k, _, hsteps⟩ := perform_podSteps hop hvis h
  refine hsteps.invariant (SameNodes c) ?_ ?_ ?_ ⟨fun _ => rfl, rfl, rfl⟩
  · intro c'' podStates assumedPods hsame
    exact hsame.trans ⟨fun _ => rfl, rfl, rfl⟩
  · intro c'' pod hsame
    exact hsame.trans (sameNodes_addPodLocked c'' pod)
  · intro c'' c''' pod hrem hsame
    exact hsame.trans (sameNodes_removePodLocked hrem)

/-! ### Calls about nodes -/

theorem imageStates_setNode (node : Node) (generation : Int64) :
    (n.setNode node generation).imageStates = n.imageStates :=
  foldl_setCondition imageStates
    (fun n _ => by rw [setCondition]; split <;> rfl) node.conditions _

variable (c)

/-- The image states of the cache and of the node, after the node is set. -/
def SchedulerCache.putImages (node : Node) : GoMap String ImageState × GoMap String ImageStateSummary :=
  SchedulerCache.addNodeImageStates
    (SchedulerCache.removeNodeImageStates c.imageStates (nodeAt c.nodes node.name)) node

/-- Setting a node changes what is stored under its name only. -/
theorem putNode_images (nodeTree : NodeTree) (node : Node) :
    (c.putNode nodeTree node).imageStates = (c.putImages node).1 ∧
    ∀ name, storedAt (c.putNode nodeTree node).nodes name =
      if name = node.name then some (node, (c.putImages node).2) else storedAt c.nodes name := by
  have hnode : ((c.nodes.lookup node.name).getD (newNodeInfo
      (if (c.nodes.lookup node.name).isSome then c.generation else c.generation + 1))).node =
        nodeAt c.nodes node.name := by
    rw [nodeAt]
    cases c.nodes.lookup node.name <;> rfl
  constructor
  · simp only [putNode, hnode]
    rfl
  · intro name
    simp only [putNode, hnode, storedAt_insert, stored, node_setNode, imageStates_setNode]
    rfl

variable {c}

theorem storedAt_removeNode {node : Node} (h : (c.removeNode node).state? = some c') (name : String) :
    storedAt c'.nodes name = if name = node.name then none else storedAt c.nodes name := by
  rw [SchedulerCache.removeNode] at h
  split at h
  · cases h
  · cases h
    exact storedAt_keepNodeInfo _ _ _ _

theorem imageStates_removeNode {node : Node} (h : (c.removeNode node).state? = some c') :
    c'.imageStates = SchedulerCache.removeNodeImageStates c.imageStates (some node) := by
  rw [SchedulerCache.removeNode] at h
  split at h <;> cases h
  rfl

/-! ### Runs -/

/-- A node is removed as the object that is stored. -/
def CacheOp.removesStored (c : SchedulerCache) : CacheOp → Bool
  | .removeNode node => nodeAt c.nodes node.name = some node
  | _ => true

/-- The calls of a caller that removes nodes as they are stored. -/
def storedSystem : System SchedulerCache CacheOp :=
  System.ofFun (fun c op => op.removesStored c && c.returns op) SchedulerCache.next

/-- Nodes are stored under their names. -/
def StoredNamed (nodes : GoMap String NodeInfo) : Prop :=
  ∀ name node, nodeAt nodes name = some node → node.name = name

theorem StoredNamed.of_stored {nodes nodes' : GoMap String NodeInfo} (h : StoredNamed nodes)
    (hstored : ∀ name, storedAt nodes' name = storedAt nodes name) : StoredNamed nodes' := by
  intro name node hnode
  rw [nodeAt_eq_stored, hstored, ← nodeAt_eq_stored] at hnode
  exact h name node hnode

end LeanKube.Scheduler
