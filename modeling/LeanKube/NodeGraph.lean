import LeanKube.GoMap

/-! The graph of the node authorizer (`plugin/pkg/auth/authorizer/node`): the vertices and edges for pods,
volumes, volume attachments and node configurations, the index of destinations, and the search for a path
from an object to a node. -/

namespace LeanKube.NodeAuth

inductive VertexType where
  | configMap
  | node
  | pod
  | pvc
  | pv
  | secret
  | va
  | serviceAccount
deriving DecidableEq

def VertexType.text : VertexType → String
  | configMap => "configmap"
  | node => "node"
  | pod => "pod"
  | pvc => "pvc"
  | pv => "pv"
  | secret => "secret"
  | va => "volumeattachment"
  | serviceAccount => "serviceAccount"

structure VertexKey where
  vertexType : VertexType
  namespace_ : String
  name : String
deriving DecidableEq

structure NamedVertex where
  key : VertexKey
  id : Nat
deriving DecidableEq

structure Edge where
  src : NamedVertex
  dst : NamedVertex
  destination : Option NamedVertex
deriving DecidableEq

def Edge.touches (e : Edge) (n : NamedVertex) : Bool := e.src.id = n.id || e.dst.id = n.id

def Edge.joins (e : Edge) (x y : NamedVertex) : Bool :=
  (e.src.id = x.id && e.dst.id = y.id) || (e.src.id = y.id && e.dst.id = x.id)

/-! ### `simple.DirectedAcyclicGraph` -/

structure Dag where
  nodes : List NamedVertex
  edges : List Edge

/-- What the libraries leave open in a call: the order in which neighbors are visited, the identifier of a
new node, and whether a slice that grew to a length has room for one more element. -/
structure Choices where
  order : List NamedVertex → List NamedVertex
  newNodeID : List Nat → Nat
  hasRoom : Nat → Bool
  order_perm : ∀ nodes, (order nodes).Perm nodes
  newNodeID_fresh : ∀ used, newNodeID used ∉ used

namespace Dag
variable (dag : Dag) (n : NamedVertex)

def addNode : Dag := { dag with nodes := dag.nodes ++ [n] }

def removeNode : Dag where
  nodes := dag.nodes.filter fun m => m.id ≠ n.id
  edges := dag.edges.filter fun e => !e.touches n

def setEdge (e : Edge) : Dag := { dag with edges := (dag.edges.filter fun f => !f.joins e.src e.dst) ++ [e] }

variable (x y : NamedVertex)

def removeEdge : Dag := { dag with edges := dag.edges.filter fun f => !f.joins x y }

def edgeBetween : Option Edge := dag.edges.find? fun e => e.joins x y

def degree : Nat := (dag.edges.filter fun e => e.touches n).length

def visitFrom : List NamedVertex := (dag.edges.filter fun e => e.src.id = n.id).map Edge.dst

def visitTo : List NamedVertex := (dag.edges.filter fun e => e.dst.id = n.id).map Edge.src

end Dag

/-! ### `intSet` -/

structure IntSet where
  currentGeneration : UInt8
  members : GoMap Nat UInt8

namespace IntSet

def new : IntSet := ⟨0, ∅⟩

variable (s : IntSet)

def has (i : Nat) : Bool := (s.members.lookup i).isSome

def startNewGeneration : IntSet := { s with currentGeneration := s.currentGeneration + 1 }

def mark (i : Nat) : IntSet := { s with members := s.members.insert i s.currentGeneration }

def sweep : IntSet :=
  { s with members := s.members.filterValues fun v => v = s.currentGeneration }

end IntSet

/-! ### `Graph` -/

structure Graph where
  dag : Dag
  vertices : GoMap VertexKey NamedVertex
  destinationEdgeIndex : GoMap Nat IntSet
  destinationEdgeThreshold : Nat

namespace Graph

def new (threshold : Nat) : Graph := ⟨⟨[], []⟩, ∅, ∅, threshold⟩

variable (c : Choices) (g : Graph) (key : VertexKey)

def getVertex : Option NamedVertex := g.vertices.lookup key

def createVertex : Graph × NamedVertex :=
  let vertex := ⟨key, c.newNodeID (g.dag.nodes.map NamedVertex.id)⟩
  ({ g with vertices := g.vertices.insert key vertex, dag := g.dag.addNode vertex }, vertex)

def getOrCreateVertex : Graph × NamedVertex :=
  match g.getVertex key with
  | some vertex => (g, vertex)
  | none => g.createVertex c key

def removeVertex (v : NamedVertex) : Graph :=
  { g with
    dag := g.dag.removeNode v
    destinationEdgeIndex := g.destinationEdgeIndex.erase v.id
    vertices := g.vertices.erase v.key }

variable (n : NamedVertex)

def markDestinations (index : IntSet) : IntSet :=
  (g.dag.visitFrom n).foldl (fun index dest =>
    match (g.dag.edgeBetween n dest).bind Edge.destination with
    | some destination => index.mark destination.id
    | none => index) index

def recomputeDestinationIndex : Graph :=
  if g.dag.degree n < g.destinationEdgeThreshold then
    { g with destinationEdgeIndex := g.destinationEdgeIndex.erase n.id }
  else
    let index :=
      match g.destinationEdgeIndex.lookup n.id with
      | none => IntSet.new
      | some index => index.startNewGeneration
    let index := (g.markDestinations n index).sweep
    if index.members.keys.card < g.destinationEdgeThreshold then
      { g with destinationEdgeIndex := g.destinationEdgeIndex.erase n.id }
    else { g with destinationEdgeIndex := g.destinationEdgeIndex.insert n.id index }

/-- The slices `neighborsToRemove` and `neighborsToRecompute`, and whether the last element of the second
lies behind the first one in the same array. -/
structure Neighbors where
  neighborsToRemove : List NamedVertex
  neighborsToRecompute : List NamedVertex
  shared : Bool

/-- The visitor of the upstream neighbors of a vertex that is deleted. The second slice is set to the first
one with the neighbor; where it shares the array, the next element of the first one overwrites its last. -/
def visitUpstream (acc : Neighbors) (neighbor : NamedVertex) : Neighbors :=
  if g.dag.degree neighbor = 1 then
    { neighborsToRemove := acc.neighborsToRemove ++ [neighbor]
      neighborsToRecompute :=
        if acc.shared then acc.neighborsToRecompute.dropLast ++ [neighbor] else acc.neighborsToRecompute
      shared := false }
  else
    { acc with
      neighborsToRecompute := acc.neighborsToRemove ++ [neighbor]
      shared := c.hasRoom acc.neighborsToRemove.length }

def neighborsOf (vertex : NamedVertex) : Neighbors :=
  let downstream := (c.order (g.dag.visitFrom vertex)).filter fun neighbor => g.dag.degree neighbor = 1
  (c.order (g.dag.visitTo vertex)).foldl (g.visitUpstream c) ⟨downstream, [], false⟩

def deleteVertex : Graph :=
  match g.getVertex key with
  | none => g
  | some vertex =>
    let neighbors := g.neighborsOf c vertex
    let g := g.removeVertex vertex
    let g := neighbors.neighborsToRemove.foldl removeVertex g
    neighbors.neighborsToRecompute.foldl recomputeDestinationIndex g

/-- One vertex of `deleteEdges`: its edge is removed, and it is to be removed or recomputed. -/
def deleteEdge (toVert : NamedVertex) (acc : Graph × List NamedVertex × List NamedVertex)
    (fromVert : NamedVertex) : Graph × List NamedVertex × List NamedVertex :=
  let (g, neighborsToRemove, neighborsToRecompute) := acc
  let g := { g with dag := g.dag.removeEdge fromVert toVert }
  if g.dag.degree fromVert = 0 then (g, neighborsToRemove ++ [fromVert], neighborsToRecompute)
  else (g, neighborsToRemove, neighborsToRecompute ++ [fromVert])

def deleteEdges (fromType : VertexType) (toKey : VertexKey) : Graph :=
  match g.getVertex toKey with
  | none => g
  | some toVert =>
    let from_ := (c.order (g.dag.visitTo toVert)).filter fun v => v.key.vertexType = fromType
    let (g, neighborsToRemove, neighborsToRecompute) := from_.foldl (deleteEdge toVert) (g, [], [])
    let g := neighborsToRemove.foldl removeVertex g
    neighborsToRecompute.foldl recomputeDestinationIndex g

def setEdge (e : Edge) : Graph := { g with dag := g.dag.setEdge e }

end Graph

/-! ### Objects -/

variable (name : String)

def nodeKey : VertexKey := ⟨.node, "", name⟩
def pvKey : VertexKey := ⟨.pv, "", name⟩
def vaKey : VertexKey := ⟨.va, "", name⟩

structure Pod where
  namespace_ : String
  name : String
  nodeName : String
  isMirrorPod : Bool := false
  serviceAccountName : String := ""
  secretNames : List String := []
  configMapNames : List String := []
  claimNames : List String := []
deriving DecidableEq

def podKey (namespace_ name : String) : VertexKey := ⟨.pod, namespace_, name⟩

structure PersistentVolume where
  name : String
  claimRef : Option (String × String) := none
  secrets : List (String × String × Bool) := []
deriving DecidableEq

namespace Graph
variable (c : Choices) (g : Graph)

def addReference (podVertex nodeVertex : NamedVertex) (vertexType : VertexType) (namespace_ name : String) : Graph :=
  let (g, vertex) := g.getOrCreateVertex c ⟨vertexType, namespace_, name⟩
  let g := g.setEdge ⟨vertex, podVertex, some nodeVertex⟩
  g.recomputeDestinationIndex vertex

def addPod (pod : Pod) : Graph :=
  let g := g.deleteVertex c (podKey pod.namespace_ pod.name)
  let (g, podVertex) := g.getOrCreateVertex c (podKey pod.namespace_ pod.name)
  let (g, nodeVertex) := g.getOrCreateVertex c (nodeKey pod.nodeName)
  let g := g.setEdge ⟨podVertex, nodeVertex, some nodeVertex⟩
  if pod.isMirrorPod then g
  else
    let add := fun (vertexType : VertexType) (g : Graph) (name : String) =>
      g.addReference c podVertex nodeVertex vertexType pod.namespace_ name
    let g := if pod.serviceAccountName.length > 0 then add .serviceAccount g pod.serviceAccountName else g
    let g := pod.secretNames.foldl (add .secret) g
    let g := pod.configMapNames.foldl (add .configMap) g
    pod.claimNames.foldl (add .pvc) g

def deletePod (name namespace_ : String) : Graph := g.deleteVertex c (podKey namespace_ name)

def addVolumeSecret (pvVertex : NamedVertex) (g : Graph) (secret : String × String × Bool) : Graph :=
  if secret.2.2 then
    let (g, secretVertex) := g.getOrCreateVertex c ⟨.secret, secret.1, secret.2.1⟩
    g.setEdge ⟨secretVertex, pvVertex, none⟩
  else g

def addPV (pv : PersistentVolume) : Graph :=
  let g := g.deleteVertex c (pvKey pv.name)
  match pv.claimRef with
  | none => g
  | some (claimNamespace, claimName) =>
    let (g, pvVertex) := g.getOrCreateVertex c (pvKey pv.name)
    let (g, pvcVertex) := g.getOrCreateVertex c ⟨.pvc, claimNamespace, claimName⟩
    let g := g.setEdge ⟨pvVertex, pvcVertex, none⟩
    pv.secrets.foldl (addVolumeSecret c pvVertex) g

def deletePV (name : String) : Graph := g.deleteVertex c (pvKey name)

def addVolumeAttachment (attachmentName nodeName : String) : Graph :=
  let g := g.deleteVertex c (vaKey attachmentName)
  if nodeName.length > 0 then
    let (g, vaVertex) := g.getOrCreateVertex c (vaKey attachmentName)
    let (g, nodeVertex) := g.getOrCreateVertex c (nodeKey nodeName)
    g.setEdge ⟨vaVertex, nodeVertex, some nodeVertex⟩
  else g

def deleteVolumeAttachment (name : String) : Graph := g.deleteVertex c (vaKey name)

def setNodeConfigMap (nodeName configMapName configMapNamespace : String) : Graph :=
  let g := g.deleteEdges c .configMap (nodeKey nodeName)
  if configMapName.length > 0 ∧ configMapNamespace.length > 0 then
    let (g, configMapVertex) := g.getOrCreateVertex c ⟨.configMap, configMapNamespace, configMapName⟩
    let (g, nodeVertex) := g.getOrCreateVertex c (nodeKey nodeName)
    g.setEdge ⟨configMapVertex, nodeVertex, some nodeVertex⟩
  else g

end Graph

/-! ### `hasPathFrom` -/

/-- The state of `VisitingDepthFirst`, with the variable `found`, and whether the walk has ended. -/
structure Search where
  stack : List NamedVertex
  visited : List Nat
  found : Bool
  ended : Bool

namespace Search

def reach (nodeID : Nat) (s : Search) (n : NamedVertex) : Search :=
  if n.id ∈ s.visited then s
  else
    let found := s.found || n.id = nodeID
    { stack := n :: s.stack, visited := n.id :: s.visited, found, ended := found }

/-- A neighbor of the node `t`: edges that lead to other Kubernetes nodes are not followed. -/
def visit (dag : Dag) (nodeID : Nat) (t : NamedVertex) (s : Search) (n : NamedVertex) : Search :=
  if s.ended then s
  else
    match (dag.edgeBetween t n).bind Edge.destination with
    | some destination => if destination.id ≠ nodeID then s else { s with found := true }.reach nodeID n
    | none => s.reach nodeID n

def walk (c : Choices) (dag : Dag) (nodeID : Nat) : Nat → Search → Search
  | 0, s => s
  | fuel + 1, s =>
    if s.ended then s
    else
      match s.stack with
      | [] => s
      | t :: stack =>
        walk c dag nodeID fuel ((c.order (dag.visitFrom t)).foldl (visit dag nodeID t) { s with stack })

end Search

namespace Graph

def hasPathFrom (c : Choices) (g : Graph) (nodeName : String) (starting : VertexKey) : Except String Bool :=
  match g.getVertex (nodeKey nodeName) with
  | none =>
    .error ("unknown node \"" ++ nodeName ++ "\" cannot get " ++ starting.vertexType.text ++ " " ++
      starting.namespace_ ++ "/" ++ starting.name)
  | some nodeVertex =>
    match g.getVertex starting with
    | none =>
      .error ("node \"" ++ nodeName ++ "\" cannot get unknown " ++ starting.vertexType.text ++ " " ++
        starting.namespace_ ++ "/" ++ starting.name)
    | some startingVertex =>
      if (g.destinationEdgeIndex.lookup startingVertex.id).any fun index => index.has nodeVertex.id then .ok true
      else
        let found := startingVertex.id = nodeVertex.id
        let s := Search.walk c g.dag nodeVertex.id (g.dag.nodes.length + 1)
          ⟨[startingVertex], [startingVertex.id], found, found⟩
        if s.found then .ok true
        else
          .error ("node \"" ++ nodeName ++ "\" cannot get " ++ starting.vertexType.text ++ " " ++
            starting.namespace_ ++ "/" ++ starting.name ++ ", no path was found")

end Graph

/-! ### Calls -/

inductive Call where
  | addPod (pod : Pod)
  | deletePod (name namespace_ : String)
  | addPV (pv : PersistentVolume)
  | deletePV (name : String)
  | addVolumeAttachment (attachmentName nodeName : String)
  | deleteVolumeAttachment (name : String)
  | setNodeConfigMap (nodeName configMapName configMapNamespace : String)
deriving DecidableEq

def Graph.apply (c : Choices) (g : Graph) : Call → Graph
  | .addPod pod => g.addPod c pod
  | .deletePod name namespace_ => g.deletePod c name namespace_
  | .addPV pv => g.addPV c pv
  | .deletePV name => g.deletePV c name
  | .addVolumeAttachment attachmentName nodeName => g.addVolumeAttachment c attachmentName nodeName
  | .deleteVolumeAttachment name => g.deleteVolumeAttachment c name
  | .setNodeConfigMap nodeName configMapName configMapNamespace =>
    g.setNodeConfigMap c nodeName configMapName configMapNamespace

end LeanKube.NodeAuth
