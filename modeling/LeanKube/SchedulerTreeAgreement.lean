import LeanKube.SchedulerNodes
import LeanKube.SchedulerNodeOrder

/-! The node tree against the node objects of the cache. The tree is kept by the zones of the objects
that are passed to the calls, not of those that are stored, and an update within a zone does not
touch it, whether the node is there or not. -/

namespace LeanKube.Scheduler
open Option NodeTree

structure Agrees (c : SchedulerCache) : Prop where
  wellFormed : c.nodeTree.WellFormed
  places : ∀ name zone, name ∈ c.nodeTree.namesAt zone ↔ (nodeAt c.nodes name).map getZoneKey = some zone

theorem agrees_new (ttl : Int) : Agrees (newSchedulerCache ttl) where
  wellFormed := wellFormed_empty
  places _ _ := iff_of_false List.not_mem_nil fun h => by cases h

variable {c' c : SchedulerCache} {node : Node}

theorem nodeAt_sameNodes (h : SameNodes c c') (name : String) : nodeAt c'.nodes name = nodeAt c.nodes name := by
  rw [nodeAt_eq_stored, h.stored, ← nodeAt_eq_stored]

theorem Agrees.sameNodes (h : Agrees c) (hsame : SameNodes c c') : Agrees c' where
  wellFormed := hsame.nodeTree ▸ h.wellFormed
  places name zone := by
    rw [hsame.nodeTree, nodeAt_sameNodes hsame]
    exact h.places name zone

theorem nodeAt_putNode (c : SchedulerCache) (nodeTree : NodeTree) (node : Node) (name : String) :
    nodeAt (c.putNode nodeTree node).nodes name = if name = node.name then some node else nodeAt c.nodes name := by
  rw [nodeAt_eq_stored, (putNode_images c nodeTree node).2]
  split_ifs
  · rfl
  · rw [← nodeAt_eq_stored]

theorem agrees_putNode_iff {nodeTree : NodeTree} (hwell : nodeTree.WellFormed) :
    Agrees (c.putNode nodeTree node) ↔ ∀ name zone, name ∈ nodeTree.namesAt zone ↔
      if name = node.name then getZoneKey node = zone else (nodeAt c.nodes name).map getZoneKey = some zone := by
  have hplaces : ∀ name zone, (nodeAt (c.putNode nodeTree node).nodes name).map getZoneKey =
      some zone ↔ if name = node.name then getZoneKey node = zone
        else (nodeAt c.nodes name).map getZoneKey = some zone := by
    intro name zone
    rw [nodeAt_putNode]
    split_ifs
    · rw [map_some, some.injEq]
    · rfl
  constructor
  · intro h name zone
    exact (h.places name zone).trans (hplaces name zone)
  · intro h
    exact ⟨hwell, fun name zone => (h name zone).trans (hplaces name zone).symm⟩

theorem mem_namesAt_addNode (nt : NodeTree) (n : Node) (name zone : String) : name ∈ (nt.addNode n).namesAt zone ↔
      name ∈ nt.namesAt zone ∨ zone = getZoneKey n ∧ name = n.name := by
  rw [namesAt_addNode]
  split_ifs with hcond
  · rw [List.mem_append, List.mem_singleton]
    exact or_congr_right (and_iff_right hcond.1).symm
  · refine (or_iff_left_of_imp ?_).symm
    rintro ⟨hzone, rfl⟩
    exact by_contra fun hmiss => hcond ⟨hzone, hmiss⟩

theorem mem_namesAt_afterRemoveNode {nt : NodeTree} (h : nt.WellFormed) (n : Node)
    (name zone : String) : name ∈ (nt.afterRemoveNode n).namesAt zone ↔
      name ∈ nt.namesAt zone ∧ ¬(zone = getZoneKey n ∧ name = n.name) := by
  rw [namesAt_afterRemoveNode]
  split_ifs with hzone
  · rw [(h.nodup zone).mem_erase_iff, and_comm]
    exact and_congr_right fun _ => not_congr (and_iff_right hzone).symm
  · exact (and_iff_left fun hboth => hzone hboth.1).symm

theorem Agrees.addNode (h : Agrees c) (hfresh : nodeAt c.nodes node.name = none) :
    Agrees (c.putNode (c.nodeTree.addNode node) node) := by
  refine (agrees_putNode_iff (h.wellFormed.addNode node)).mpr fun _ _ => ?_
  rw [mem_namesAt_addNode, h.places]
  split_ifs with hname
  · subst hname
    rw [hfresh]
    constructor
    · rintro (hnone | ⟨hzone, _⟩)
      · cases hnone
      · exact hzone.symm
    · exact fun hzone => .inr ⟨hzone.symm, rfl⟩
  · exact or_iff_left fun hboth => hname hboth.2

theorem Agrees.removeNode (h : Agrees c) (hnode : nodeAt c.nodes node.name = some node)
    (hstate : (c.removeNode node).state? = some c') : Agrees c' := by
  have htree : c'.nodeTree = c.nodeTree.afterRemoveNode node := by
    rw [SchedulerCache.removeNode] at hstate
    split at hstate <;> cases hstate
    rfl
  have hnodeAt : ∀ name, nodeAt c'.nodes name = if name = node.name then none else nodeAt c.nodes name := by
    intro name
    rw [nodeAt_eq_stored, storedAt_removeNode hstate]
    split_ifs
    · rfl
    · rw [← nodeAt_eq_stored]
  refine ⟨htree ▸ h.wellFormed.afterRemoveNode node, fun name _ => ?_⟩
  rw [htree, mem_namesAt_afterRemoveNode h.wellFormed, h.places, hnodeAt]
  split_ifs with hname
  · subst hname
    rw [hnode, map_some, some.injEq]
    exact iff_of_false (fun hboth => hboth.2 ⟨hboth.1.symm, rfl⟩) fun hnone => by cases hnone
  · exact and_iff_left fun hboth => hname hboth.2

/-! ### Updates -/

/-- An update that the tree follows. Within a zone, the node must be stored there already. From one
zone to another, the node must not be stored in a third one, and the old object must not have the
name and the zone of another stored node. -/
def FollowsZone (c : SchedulerCache) (oldNode newNode : Node) : Prop :=
  if getZoneKey oldNode = getZoneKey newNode then
    (nodeAt c.nodes newNode.name).map getZoneKey = some (getZoneKey newNode)
  else
    (∀ stored ∈ nodeAt c.nodes newNode.name, getZoneKey stored = getZoneKey newNode ∨
      oldNode.name = newNode.name ∧ getZoneKey stored = getZoneKey oldNode) ∧
    (oldNode.name ≠ newNode.name → ∀ stored ∈ nodeAt c.nodes oldNode.name, getZoneKey stored ≠ getZoneKey oldNode)

instance followsZoneDecidable (c : SchedulerCache) (oldNode newNode : Node) :
    Decidable (FollowsZone c oldNode newNode) := by
  unfold FollowsZone
  infer_instance

theorem Agrees.updateNode_iff (h : Agrees c) (oldNode newNode : Node) :
    Agrees (c.putNode (c.nodeTree.updateNode oldNode newNode) newNode) ↔ FollowsZone c oldNode newNode := by
  rw [agrees_putNode_iff (h.wellFormed.updateNode oldNode newNode), FollowsZone, updateNode]
  split_ifs with hzones
  · -- the tree does not change
    constructor
    · intro hplaces
      rw [← h.places, hplaces, if_pos rfl]
    · intro hstored name zone
      rw [h.places]
      split_ifs with hname
      · rw [hname, hstored, some.injEq]
      · rfl
  · simp only [mem_namesAt_addNode, mem_namesAt_afterRemoveNode h.wellFormed, h.places]
    constructor
    · intro hplaces
      constructor
      · intro stored hstored
        have hplace := hplaces newNode.name (getZoneKey stored)
        rw [if_pos rfl, mem_def.mp hstored, map_some] at hplace
        by_cases hold : getZoneKey stored = getZoneKey oldNode ∧ newNode.name = oldNode.name
        · exact .inr ⟨hold.2.symm, hold.1⟩
        · exact .inl (hplace.mp (.inl ⟨rfl, hold⟩)).symm
      · intro hnames stored hstored hzone
        have hplace := hplaces oldNode.name (getZoneKey oldNode)
        rw [if_neg hnames, mem_def.mp hstored, map_some, hzone] at hplace
        rcases hplace.mpr rfl with ⟨_, hkept⟩ | ⟨hsame, _⟩
        · exact hkept ⟨rfl, rfl⟩
        · exact hzones hsame
    · rintro ⟨hself, hother⟩ name zone
      split_ifs with hname
      · subst hname
        constructor
        · rintro (⟨hstored, hkept⟩ | ⟨hzone, _⟩)
          · obtain ⟨stored, hnode, rfl⟩ := map_eq_some_iff.mp hstored
            rcases hself stored hnode with hnew | ⟨hsame, hold⟩
            · exact hnew.symm
            · exact absurd ⟨hold, hsame.symm⟩ hkept
          · exact hzone.symm
        · exact fun hzone => .inr ⟨hzone.symm, rfl⟩
      · constructor
        · rintro (⟨hstored, _⟩ | ⟨_, hsame⟩)
          · exact hstored
          · exact absurd hsame hname
        · intro hstored
          refine .inl ⟨hstored, ?_⟩
          rintro ⟨rfl, rfl⟩
          obtain ⟨stored, hnode, hzone⟩ := map_eq_some_iff.mp hstored
          exact hother hname stored hnode hzone

/-! ### Runs -/

inductive NodeCall where
  | call (op : CacheOp)
  | next

variable (c)

def CacheOp.addsFresh : CacheOp → Bool
  | .addNode node => (nodeAt c.nodes node.name).isNone
  | _ => true

def CacheOp.followsZone : CacheOp → Bool
  | .updateNode oldNode newNode => FollowsZone c oldNode newNode
  | _ => true

variable {c}

namespace NodeCall
variable (c)

def possible : NodeCall → Bool
  | call op => op.removesStored c && op.addsFresh c && c.returns op
  | next => c.nodeTree.next.isSome

def followsZone : NodeCall → Bool
  | call op => op.followsZone c
  | next => true

def perform : NodeCall → SchedulerCache
  | call op => c.next op
  | next => { c with nodeTree := (c.nodeTree.next.map Prod.snd).getD c.nodeTree }

end NodeCall

/-- The cache and its tree under calls that add nodes that are not there and remove the stored
object; updates are arbitrary. -/
def nodeCallSystem : System SchedulerCache NodeCall :=
  System.ofFun (fun c call => call.possible c) NodeCall.perform

def followedSystem : System SchedulerCache NodeCall :=
  System.ofFun (fun c call => call.possible c && call.followsZone c) NodeCall.perform

theorem Agrees.step {label : NodeCall} (hstep : followedSystem.step c label c') (h : Agrees c) : Agrees c' := by
  obtain ⟨hen, rfl⟩ := hstep
  obtain ⟨hposs, hfollows⟩ := Bool.and_eq_true_iff.mp hen
  cases label with
  | next =>
    obtain ⟨name, nodeTree, hnext, hsame⟩ := next_returns h.wellFormed
    have htree : (NodeCall.perform c .next).nodeTree = nodeTree := by
      show (c.nodeTree.next.map Prod.snd).getD c.nodeTree = nodeTree
      rw [hnext]
      rfl
    refine ⟨htree ▸ hsame.wellFormed h.wellFormed, fun name zone => ?_⟩
    rw [htree, hsame.namesAt]
    exact h.places name zone
  | call op =>
    obtain ⟨hboth, hreturns⟩ := Bool.and_eq_true_iff.mp hposs
    obtain ⟨hremoves, hadds⟩ := Bool.and_eq_true_iff.mp hboth
    obtain ⟨hvis, hstate⟩ := cacheSystem_step ⟨hreturns, rfl⟩
    cases op with
    | addNode => exact h.addNode (isNone_iff_eq_none.mp hadds)
    | updateNode oldNode newNode => exact (h.updateNode_iff oldNode newNode).mpr (of_decide_eq_true hfollows)
    | removeNode => exact h.removeNode (of_decide_eq_true hremoves) hstate
    | _ => exact h.sameNodes (perform_sameNodes rfl hvis hstate)

/-- **As long as the tree follows the updates, its names are those of the stored node objects, each
once and in the zone of its object; every zone is listed once and has nodes, and the nodes are
counted right.** -/
theorem tree_agrees {ttl : Int} {labels : List NodeCall} {c : SchedulerCache}
    (hrun : followedSystem.Run (newSchedulerCache ttl) labels c) :
    (∀ name zone, name ∈ c.nodeTree.namesAt zone ↔
      ∃ n node, c.nodes.lookup name = some n ∧ n.node = some node ∧ getZoneKey node = zone) ∧
    (∀ zone, (c.nodeTree.namesAt zone).Nodup) ∧
    c.nodeTree.zones.Nodup ∧ (∀ zone, zone ∈ c.nodeTree.zones ↔ zone ∈ c.nodeTree.tree) ∧
    (∀ zone na, c.nodeTree.tree.lookup zone = some na → na.nodes ≠ []) ∧
    c.nodeTree.numNodes = (c.nodeTree.zones.flatMap c.nodeTree.namesAt).length := by
  have h : Agrees c := hrun.invariant Agrees (fun _ _ _ => Agrees.step) (agrees_new ttl)
  refine ⟨fun _ _ => ?_, h.wellFormed.nodup, h.wellFormed.zones_nodup,
    h.wellFormed.zones_keys, h.wellFormed.nonempty, h.wellFormed.count⟩
  rw [h.places, nodeAt, map_eq_some_iff]
  simp only [bind_eq_some_iff]
  constructor
  · rintro ⟨node, ⟨n, hn, hnode⟩, hzone⟩
    exact ⟨n, node, hn, hnode, hzone⟩
  · rintro ⟨n, node, hn, hnode, hzone⟩
    exact ⟨node, ⟨n, hn, hnode⟩, hzone⟩

/-- A pod comes before its node, the node moves to another zone, and a second node that was never
added is updated into a new zone. -/
def movedNodes : List NodeCall :=
  [.call (.addPod (idlePod "web" "a")), .call (.addNode (zoneNode "a" "z1")), .next,
    .call (.updateNode (zoneNode "a" "z1") (zoneNode "a" "z2")),
    .call (.updateNode (zoneNode "b" "z1") (zoneNode "b" "z3")),
    .call (.removeNode (zoneNode "a" "z2"))]

theorem tree_agrees_moved :
    let c := movedNodes.foldl NodeCall.perform (newSchedulerCache 30)
    followedSystem.Run (newSchedulerCache 30) movedNodes c ∧ (∀ name zone, name ∈ c.nodeTree.namesAt zone ↔
        ∃ n node, c.nodes.lookup name = some n ∧ n.node = some node ∧ getZoneKey node = zone) ∧
      c.nodeTree.names = ["b"] := by
  have hrun : followedSystem.Run (newSchedulerCache 30) movedNodes
      (movedNodes.foldl NodeCall.perform (newSchedulerCache 30)) := System.run_foldl (by decide)
  exact ⟨hrun, (tree_agrees hrun).1, by decide⟩

def updateOnly : List NodeCall := [.call (.updateNode (zoneNode "a" "z1") (zoneNode "a" "z1"))]

/-- The cache has the node, and the tree does not. -/
theorem tree_misses_updated :
    let c := updateOnly.foldl NodeCall.perform (newSchedulerCache 30)
    nodeCallSystem.Run (newSchedulerCache 30) updateOnly c ∧
      nodeAt c.nodes "a" = some (zoneNode "a" "z1") ∧ c.nodeTree.names = [] ∧ c.nodeTree.numNodes = 0 :=
  ⟨System.run_foldl (by decide), rfl, rfl, rfl⟩

end LeanKube.Scheduler
