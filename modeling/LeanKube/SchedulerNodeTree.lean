import LeanKube.SchedulerNodeInfo

/-! The node tree of the scheduler cache: the names of the nodes, grouped by zone. -/

namespace LeanKube.Scheduler

def labelZoneFailureDomain : String := "failure-domain.beta.kubernetes.io/zone"
def labelZoneRegion : String := "failure-domain.beta.kubernetes.io/region"

/-- The zone of a node: its region and its failure domain, or the empty text if it has neither. -/
def getZoneKey (node : Node) : String :=
  let region := (node.labels.lookup labelZoneRegion).getD ""
  let failureDomain := (node.labels.lookup labelZoneFailureDomain).getD ""
  if region = "" ∧ failureDomain = "" then "" else region ++ ":\x00:" ++ failureDomain

/-- The nodes of a zone, with the index of the one that `next` returns. -/
structure NodeArray where
  nodes : List String
  lastIndex : Nat
deriving DecidableEq

/-- The nodes by zone, and the zones in the order in which `Next` goes round them. -/
structure NodeTree where
  tree : GoMap String NodeArray := ∅
  zones : List String := []
  zoneIndex : Nat := 0
  numNodes : Int := 0
deriving DecidableEq

/-- The next name of the zone, and whether the zone is exhausted. -/
def NodeArray.next (na : NodeArray) : NodeArray × String × Bool :=
  if na.nodes = [] then (na, "", false)
  else
    match na.nodes[na.lastIndex]? with
    | none => (na, "", true)
    | some nodeName => ({ na with lastIndex := na.lastIndex + 1 }, nodeName, false)

namespace NodeTree
variable (nt : NodeTree) (n : Node)

def addNode : NodeTree :=
  let zone := getZoneKey n
  match nt.tree.lookup zone with
  | some na =>
    if n.name ∈ na.nodes then nt
    else
      { nt with
        tree := nt.tree.insert zone { na with nodes := na.nodes ++ [n.name] }
        numNodes := nt.numNodes + 1 }
  | none =>
    { nt with
      zones := nt.zones ++ [zone]
      tree := nt.tree.insert zone { nodes := [n.name], lastIndex := 0 }
      numNodes := nt.numNodes + 1 }

def removeZone (zone : String) : NodeTree :=
  { nt with tree := nt.tree.erase zone, zones := nt.zones.erase zone }

def removeNode : Except String NodeTree :=
  let zone := getZoneKey n
  let notFound := Except.error s!"node {n.name} in group {zone} was not found"
  match nt.tree.lookup zone with
  | some na =>
    if n.name ∈ na.nodes then
      let nodes := na.nodes.erase n.name
      let nt := { nt with tree := nt.tree.insert zone { na with nodes } }
      let nt := if nodes = [] then nt.removeZone zone else nt
      .ok { nt with numNodes := nt.numNodes - 1 }
    else notFound
  | none => notFound

/-- The tree after `removeNode`, which leaves it as it was if it fails. -/
def afterRemoveNode : NodeTree :=
  match nt.removeNode n with
  | .ok nt' => nt'
  | .error _ => nt

def updateNode (old new : Node) : NodeTree :=
  if getZoneKey old = getZoneKey new then nt else (nt.afterRemoveNode old).addNode new

def resetExhausted : NodeTree :=
  { nt with tree := nt.tree.mapValues fun na => { na with lastIndex := 0 }, zoneIndex := 0 }

/-- The loop of `Next`. There is no result if the loop does not end in the given number of turns, or
if it meets a zone without an array, which is a nil pointer. -/
def nextLoop : Nat → NodeTree → Nat → Option (String × NodeTree)
  | 0, _, _ => none
  | turns + 1, nt, numExhaustedZones =>
    let zoneIndex := if nt.zoneIndex ≥ nt.zones.length then 0 else nt.zoneIndex
    match nt.zones[zoneIndex]? with
    | none => none
    | some zone =>
      match nt.tree.lookup zone with
      | none => none
      | some na =>
        let (na, nodeName, exhausted) := na.next
        let nt := { nt with tree := nt.tree.insert zone na, zoneIndex := zoneIndex + 1 }
        if exhausted then
          nextLoop turns
            (if numExhaustedZones + 1 ≥ nt.zones.length then nt.resetExhausted else nt)
            (numExhaustedZones + 1)
        else
          some (nodeName, nt)

/-- Every zone is visited once, and the first one once more if all of them were exhausted. -/
def next : Option (String × NodeTree) :=
  if nt.zones = [] then some ("", nt) else nextLoop (nt.zones.length + 1) nt 0

/-- The results of so many calls of `Next`. -/
def nexts : Nat → NodeTree → Option (List String × NodeTree)
  | 0, nt => some ([], nt)
  | calls + 1, nt => do
    let (nodeName, nt) ← nt.next
    let (names, nt) ← nexts calls nt
    return (nodeName :: names, nt)

end NodeTree
end LeanKube.Scheduler
