import LeanKube.SchedulerCacheSteps
import LeanKube.StampedCopy

/-! The snapshot that the scheduler works on: a map of clones of the `NodeInfo`s, brought up to date
at the start of a scheduling cycle. Only the `NodeInfo`s whose generation differs from that of the
clone are cloned again, so the snapshot is right only if every change of a `NodeInfo` draws a new
generation number. -/

namespace LeanKube.Scheduler
open SchedulerCache Finmap Int64 Nat GoMap
variable (n : NodeInfo)

/-- `Clone`. The clone shares the node object and the map of image states with the original; both
are only ever replaced as a whole. -/
def NodeInfo.clone : NodeInfo where
  node := n.node
  pods := n.pods
  podsWithAffinity := n.podsWithAffinity
  usedPorts := n.usedPorts
  requestedResource := n.requestedResource
  nonzeroRequest := n.nonzeroRequest
  allocatableResource := n.allocatableResource
  taints := n.taints
  imageStates := n.imageStates
  memoryPressureCondition := n.memoryPressureCondition
  diskPressureCondition := n.diskPressureCondition
  pidPressureCondition := n.pidPressureCondition
  generation := n.generation

@[simp] theorem NodeInfo.clone_eq : n.clone = n := rfl

variable (nodes nodeNameToInfo : GoMap String NodeInfo)

/-- One turn of the first loop of `UpdateNodeNameToInfoMap`, over the `NodeInfo`s of the cache. -/
def updateEntry (name : String) : GoMap String NodeInfo :=
  match nodes.lookup name with
  | none => nodeNameToInfo
  | some info =>
    match nodeNameToInfo.lookup name with
    | none => nodeNameToInfo.insert name info.clone
    | some current =>
      if current.generation ≠ info.generation then nodeNameToInfo.insert name info.clone
      else nodeNameToInfo

def deleteEntry (name : String) : GoMap String NodeInfo :=
  if name ∈ nodes then nodeNameToInfo else nodeNameToInfo.erase name

variable (c : SchedulerCache) (nodeNameToInfo : GoMap String NodeInfo)

def SchedulerCache.updateNodeNameToInfoMap (order order' : List String) : GoMap String NodeInfo :=
  order'.foldl (deleteEntry c.nodes) (order.foldl (updateEntry c.nodes) nodeNameToInfo)

/-! ### Calls interleaved with updates of the snapshot -/

def SchedulerCache.draws (op : CacheOp) : Nat :=
  ((c.next op).generation - c.generation).toUInt64.toNat

/-- The cache and a map updated from it. -/
structure Snapshotting where
  cache : SchedulerCache
  nodeNameToInfo : GoMap String NodeInfo
  drawn : Nat
deriving DecidableEq

inductive SnapshotOp where
  | call (op : CacheOp)
  | updateNodeNameToInfoMap (order order' : List String)
deriving DecidableEq

namespace Snapshotting

def start (ttl : Int) : Snapshotting := ⟨newSchedulerCache ttl, ∅, 0⟩

variable (s : Snapshotting)

def possible : SnapshotOp → Bool
  | .call op => s.cache.returns op
  | .updateNodeNameToInfoMap order order' => s.cache.nodes.Ranges order ∧
      GoMap.Ranges (order.foldl (updateEntry s.cache.nodes) s.nodeNameToInfo) order'

def next : SnapshotOp → Snapshotting
  | .call op => { s with cache := s.cache.next op, drawn := s.drawn + s.cache.draws op }
  | .updateNodeNameToInfoMap order order' =>
    { s with
      nodeNameToInfo := s.cache.updateNodeNameToInfoMap s.nodeNameToInfo order order' }

end Snapshotting

def snapshotSystem : System Snapshotting SnapshotOp :=
  System.ofFun (fun s op => s.possible op) Snapshotting.next

/-! ### What an update does -/

section Update
variable {nodes nodeNameToInfo : GoMap String NodeInfo} {name : String}

theorem lookup_updateEntry_of_ne {name' : String} (h : name' ≠ name) :
    (updateEntry nodes nodeNameToInfo name).lookup name' = nodeNameToInfo.lookup name' := by
  rw [updateEntry]
  split
  · rfl
  · split
    · exact lookup_insert_of_ne _ h
    · split_ifs
      · exact lookup_insert_of_ne _ h
      · rfl

theorem lookup_updateEntry_congr {nodeNameToInfo' : GoMap String NodeInfo}
    (h : nodeNameToInfo.lookup name = nodeNameToInfo'.lookup name) :
    (updateEntry nodes nodeNameToInfo name).lookup name = (updateEntry nodes nodeNameToInfo' name).lookup name := by
  rw [updateEntry, updateEntry]
  cases nodes.lookup name with
  | none => exact h
  | some =>
    simp only [h]
    cases hcur : nodeNameToInfo'.lookup name with
    | none => rw [lookup_insert, lookup_insert]
    | some =>
      simp only
      split_ifs
      · rw [lookup_insert, lookup_insert]
      · rw [h, hcur]

theorem lookup_updateEntry {info : NodeInfo} (hinfo : nodes.lookup name = some info)
    (hsame : ∀ current, nodeNameToInfo.lookup name = some current →
      info.generation = current.generation → info = current) :
    (updateEntry nodes nodeNameToInfo name).lookup name = some info := by
  simp only [updateEntry, hinfo, NodeInfo.clone_eq]
  cases hcur : nodeNameToInfo.lookup name with
  | none => exact lookup_insert _
  | some current =>
    simp only
    split_ifs with hgen
    · exact lookup_insert _
    · rw [hcur, hsame current hcur (not_not.mp hgen).symm]

theorem lookup_deleteEntry (nodes nodeNameToInfo : GoMap String NodeInfo) (name name' : String) :
    (deleteEntry nodes nodeNameToInfo name).lookup name' =
      if name' = name ∧ name ∉ nodes then none else nodeNameToInfo.lookup name' := by
  rw [deleteEntry]
  by_cases hname : name ∈ nodes
  · rw [if_pos hname, if_neg fun h => h.2 hname]
  · rw [if_neg hname, lookup_erase_ite]
    simp only [hname, not_false_eq_true, and_true]

/-- **An update makes the snapshot equal to the cache** if equal generations mean equal contents. -/
theorem updateNodeNameToInfoMap_eq {c : SchedulerCache} {order order' : List String} (hord : c.nodes.Ranges order)
    (hord' : GoMap.Ranges (order.foldl (updateEntry c.nodes) nodeNameToInfo) order')
    (hsame : ∀ name info current, c.nodes.lookup name = some info →
      nodeNameToInfo.lookup name = some current → info.generation = current.generation →
      info = current) : c.updateNodeNameToInfoMap nodeNameToInfo order order' = c.nodes := by
  have hfirst : ∀ name info, c.nodes.lookup name = some info →
      (order.foldl (updateEntry c.nodes) nodeNameToInfo).lookup name = some info := by
    intro name info hinfo
    have hmem : name ∈ c.nodes := mem_of_lookup_eq_some hinfo
    rw [lookup_foldl_keys (fun _ _ _ => lookup_updateEntry_of_ne)
      (fun _ _ _ => lookup_updateEntry_congr) hord.1, if_pos ((hord.2 name).mpr hmem)]
    exact lookup_updateEntry hinfo fun current => hsame name info current hinfo
  refine ext_lookup fun name => ?_
  rw [updateNodeNameToInfoMap, lookup_foldl_keys
    (fun m key _ hne => by rw [lookup_deleteEntry, if_neg fun h => hne h.1])
    (fun m _ key h => by rw [lookup_deleteEntry, lookup_deleteEntry, h]) hord'.1,
    lookup_deleteEntry]
  cases hinfo : c.nodes.lookup name with
  | some info =>
    have hmem : name ∈ c.nodes := mem_of_lookup_eq_some hinfo
    split_ifs with hvis hdel
    · exact absurd hmem hdel.2
    · exact hfirst name info hinfo
    · exact hfirst name info hinfo
  | none =>
    have hmiss : name ∉ c.nodes := lookup_eq_none.mp hinfo
    split_ifs with hvis hdel
    · rfl
    · exact absurd ⟨rfl, hmiss⟩ hdel
    · exact lookup_eq_none.mpr fun hmem => hvis ((hord'.2 name).mpr hmem)

end Update

/-! ### Every change draws a generation number -/

def AffinityWithin : Prop := ∀ key, occurrences key n.podsWithAffinity ≤ occurrences key n.pods

variable {n n' : NodeInfo} {c' c : SchedulerCache} {k : Nat} {op : CacheOp} {s : Snapshotting}
  (generation : Int64)

theorem AffinityWithin.of_podData (h : AffinityWithin n) (hdata : n'.podData = n.podData) : AffinityWithin n' := by
  have hpods : n'.pods = n.pods := congrArg Prod.fst hdata
  have haff : n'.podsWithAffinity = n.podsWithAffinity := congrArg (fun data => data.2.1) hdata
  intro key
  rw [hpods, haff]
  exact h key

theorem AffinityWithin.addPod (h : AffinityWithin n) (pod : Pod) (generation : Int64) :
    AffinityWithin (n.addPod pod generation) := by
  intro key
  have hconcat : ∀ pods : List Pod, occurrences key (pods ++ [pod]) =
      occurrences key pods + if pod.uid = key then 1 else 0 := by
    intro pods
    rw [occurrences_perm (List.perm_append_singleton pod pods), occurrences_cons]
  have hle := h key
  rw [NodeInfo.pods_addPod, hconcat]
  show occurrences key (if hasPodAffinityConstraints pod then n.podsWithAffinity ++ [pod]
    else n.podsWithAffinity) ≤ _
  by_cases haff : hasPodAffinityConstraints pod = true
  · rw [if_pos haff, hconcat]
    omega
  · rw [if_neg haff]
    omega

theorem occurrences_dropKey {key : String} (hkey : key ≠ "") (pods : List Pod) (key' : String) :
    occurrences key' (NodeInfo.dropKey key pods) = occurrences key' pods - if key' = key then 1 else 0 := by
  rw [NodeInfo.dropKey]
  cases hrem : removeFirst (hasKey key) pods with
  | none =>
    have hnone := (removeFirst_hasKey_eq_none hkey).mp hrem
    by_cases hkeys : key' = key
    · have hzero : occurrences key' pods = 0 := by
        by_contra hpos
        obtain ⟨pod, hpod, huid⟩ := occurrences_pos.mp (pos_of_ne_zero hpos)
        exact hnone pod hpod (huid.trans hkeys)
      show occurrences key' pods = _
      omega
    · rw [if_neg hkeys]
      rfl
  | some result =>
    obtain ⟨hfound, hperm⟩ := removeFirst_eq_some hrem
    rw [hasKey_iff hkey] at hfound
    have hcnt : occurrences key' pods = occurrences key' (result.1 :: result.2) := occurrences_perm hperm
    rw [occurrences_cons, hfound] at hcnt
    show occurrences key' result.2 = _
    by_cases hkeys : key' = key
    · rw [if_pos hkeys.symm] at hcnt
      rw [if_pos hkeys]
      omega
    · rw [if_neg (Ne.symm hkeys)] at hcnt
      rw [if_neg hkeys]
      omega

theorem AffinityWithin.removePod_ok (h : AffinityWithin n) {pod : Pod} {generation : Int64}
    (hok : n.removePod pod generation = .ok n') : n'.generation = generation ∧ AffinityWithin n' := by
  rw [NodeInfo.removePod] at hok
  rcases getPodKey_cases pod with ⟨hkey, hget⟩ | ⟨_, hget⟩
  · simp only [hget] at hok
    cases hrem : removeFirst (hasKey pod.uid) n.pods with
    | some result =>
      rw [hrem] at hok
      cases hok
      refine ⟨rfl, fun key => ?_⟩
      have hdrop : result.2 = NodeInfo.dropKey pod.uid n.pods := by
        rw [NodeInfo.dropKey, hrem]
      show occurrences key (NodeInfo.dropKey pod.uid n.podsWithAffinity) ≤ occurrences key result.2
      rw [hdrop, occurrences_dropKey hkey, occurrences_dropKey hkey]
      have hle := h key
      omega
    | none =>
      rw [hrem] at hok
      simp only at hok
      split at hok <;> cases hok
  · simp only [hget] at hok
    cases hok

theorem AffinityWithin.removePod_error (h : AffinityWithin n) {pod : Pod} {generation : Int64}
    {message : String} (herror : n.removePod pod generation = .error n' message) : n' = n := by
  rw [NodeInfo.removePod] at herror
  rcases getPodKey_cases pod with ⟨hkey, hget⟩ | ⟨_, hget⟩
  · simp only [hget] at herror
    cases hrem : removeFirst (hasKey pod.uid) n.pods with
    | some => rw [hrem] at herror; cases herror
    | none =>
      rw [hrem] at herror
      have hmiss : removeFirst (hasKey pod.uid) n.podsWithAffinity = none := by
        rw [removeFirst_hasKey_eq_none hkey] at hrem ⊢
        intro other hother huid
        have hpos := (occurrences_pos.mpr ⟨other, hother, huid⟩).trans_le (h pod.uid)
        obtain ⟨listed, hlisted, hsame⟩ := occurrences_pos.mp hpos
        exact hrem listed hlisted hsame
      simp only [NodeInfo.dropKey, hmiss] at herror
      split at herror
      · cases herror; rfl
      · cases herror
  · simp only [hget] at herror
    cases herror
    rfl

structure Written (drawn : Nat) (c c' : SchedulerCache) : Prop where
  pos : 0 < drawn
  generation : c'.generation = c.generation + Int64.ofNat drawn
  nodes : ∃ name, c'.nodes = c.nodes.erase name ∨ ∃ n, n.generation = c'.generation ∧
    AffinityWithin n ∧ c'.nodes = c.nodes.insert name n

def AllWithin (nodes : GoMap String NodeInfo) : Prop :=
  ∀ name n, nodes.lookup name = some n → AffinityWithin n

theorem affinityWithin_new : AffinityWithin (newNodeInfo generation) := fun _ => le_refl 0

section Written
variable {c c' : SchedulerCache}

theorem Written.allWithin {drawn : Nat} (h : Written drawn c c') (hc : AllWithin c.nodes) : AllWithin c'.nodes := by
  obtain ⟨_, hnodes | ⟨_, _, hwithin, hnodes⟩⟩ := h.nodes
  · rw [hnodes]
    exact fun name n hn => hc name n (of_lookup_erase hn).2
  · rw [hnodes]
    exact forall_insert hc hwithin

theorem written_addPodLocked (hc : AllWithin c.nodes) (pod : Pod) :
    Written (if (c.nodes.lookup pod.nodeName).isSome then 1 else 2) c (c.addPodLocked pod) := by
  refine ⟨by split_ifs <;> decide, generation_addPodLocked c pod, pod.nodeName, .inr ?_⟩
  rw [addPodLocked]
  cases hn : c.nodes.lookup pod.nodeName with
  | some n => exact ⟨_, rfl, (hc _ n hn).addPod pod _, rfl⟩
  | none => exact ⟨_, rfl, (affinityWithin_new _).addPod pod _, rfl⟩

theorem nodes_keepNodeInfo (nodes : GoMap String NodeInfo) (name : String) (n : NodeInfo) :
    keepNodeInfo nodes name n = nodes.erase name ∨ keepNodeInfo nodes name n = nodes.insert name n := by
  rw [keepNodeInfo]
  split_ifs
  · exact .inl rfl
  · exact .inr rfl

variable (hc : AllWithin c.nodes)
include hc

theorem written_removePodLocked {pod : Pod} (h : (c.removePodLocked pod).state? = some c') :
    c' = c ∨ Written 1 c c' := by
  rcases removePodLocked_cases h with rfl | ⟨n, n', hn, ⟨hok, rfl⟩ | ⟨_, herror, rfl⟩⟩
  · exact .inl rfl
  · obtain ⟨hgen, hwithin'⟩ := (hc _ n hn).removePod_ok hok
    refine .inr ⟨one_pos, rfl, pod.nodeName, ?_⟩
    rcases nodes_keepNodeInfo c.nodes pod.nodeName n' with hnodes | hnodes
    · exact .inl hnodes
    · exact .inr ⟨n', hgen, hwithin', hnodes⟩
  · rw [(hc _ n hn).removePod_error herror, insert_of_lookup hn]
    exact .inl rfl

theorem written_putNode (nodeTree : NodeTree) (node : Node) :
    ∃ drawn ≤ 2, Written drawn c (c.putNode nodeTree node) := by
  obtain ⟨n, found, hfound, hdata, _, hnodes⟩ := nodes_putNode c nodeTree node
  have hwithin : AffinityWithin found := by
    rcases hfound with hfound | ⟨_, _, rfl⟩
    · exact hc _ found hfound
    · exact affinityWithin_new _
  have hgen : n.generation = (c.putNode nodeTree node).generation := by
    have hlookup : (c.putNode nodeTree node).nodes.lookup node.name = some n := by
      rw [hnodes, lookup_insert]
    simp only [putNode, lookup_insert, Option.some.injEq] at hlookup
    rw [← hlookup]
    rfl
  refine ⟨if (c.nodes.lookup node.name).isSome then 1 else 2, by split_ifs <;> omega,
    by split_ifs <;> decide, ?_, node.name, .inr ⟨n, hgen, hwithin.of_podData hdata, hnodes⟩⟩
  simp only [putNode]
  split_ifs with hsome
  · rfl
  · rw [Int64.add_assoc]
    rfl

theorem written_removeNode {node : Node} (h : (c.removeNode node).state? = some c') : Written 1 c c' := by
  rw [removeNode] at h
  split at h
  · cases h
  · rename_i n hn
    cases h
    refine ⟨one_pos, rfl, node.name, ?_⟩
    rcases nodes_keepNodeInfo c.nodes node.name (n.removeNode (c.generation + 1)) with
      hnodes | hnodes
    · exact .inl hnodes
    · exact .inr ⟨n.removeNode (c.generation + 1), rfl, (hc _ n hn).of_podData rfl, hnodes⟩

end Written

/-! ### The snapshot during a run -/

def Stamped (drawn : Nat) (nodes nodeNameToInfo : GoMap String NodeInfo) : Prop :=
  ∃ written copied : String → Nat, StampedCopy NodeInfo.generation Int64.ofNat drawn nodes
    nodeNameToInfo written copied

variable {nodeNameToInfo}

theorem Stamped.written {drawn more : Nat}
    (h : Stamped drawn c.nodes nodeNameToInfo) (hclock : c.generation = Int64.ofNat drawn) (hwr : Written more c c') :
    Stamped (drawn + more) c'.nodes nodeNameToInfo ∧ c'.generation = Int64.ofNat (drawn + more) := by
  obtain ⟨written, copied, hcopy⟩ := h
  have hpos := hwr.pos
  have hclock' : c'.generation = Int64.ofNat (drawn + more) := by
    rw [hwr.generation, hclock, ofNat_add]
  refine ⟨?_, hclock'⟩
  obtain ⟨name, hnodes | ⟨n, hgen, _, hnodes⟩⟩ := hwr.nodes
  · rw [hnodes]
    exact ⟨written, copied, hcopy.erase (by omega) name⟩
  · rw [hnodes]
    exact ⟨_, copied, hcopy.insert (by omega) (hgen.trans hclock')⟩

/-- As long as the counter has not wrapped around, every `NodeInfo` of the cache and of the snapshot
is identified by its generation. -/
structure Fresh (s : Snapshotting) : Prop where
  clock : s.cache.generation = Int64.ofNat s.drawn
  assumed : s.cache.assumedPods.card ≤ s.drawn
  within : AllWithin s.cache.nodes
  stamped : Stamped s.drawn s.cache.nodes s.nodeNameToInfo

theorem PodSteps.stamped {drawn : Nat} (hsteps : PodSteps c k c') (hclock : c.generation = Int64.ofNat drawn)
    (hwithin : AllWithin c.nodes) (h : Stamped drawn c.nodes nodeNameToInfo) :
    AllWithin c'.nodes ∧ Stamped (drawn + k) c'.nodes nodeNameToInfo := by
  induction hsteps with
  | refl => exact ⟨hwithin, h⟩
  | book _ _ _ ih => exact ih
  | @add k c' hsteps pod more hmore ih =>
    have hwr := written_addPodLocked ih.1 pod
    rw [← hmore] at hwr
    have hclock' : c'.generation = Int64.ofNat (drawn + k) := by
      rw [hsteps.generation, hclock, ofNat_add]
    refine ⟨hwr.allWithin ih.1, ?_⟩
    rw [← add_assoc]
    exact (ih.2.written hclock' hwr).1
  | @remove k c' c'' hsteps pod more hrem hmore ih =>
    have hclock' : c'.generation = Int64.ofNat (drawn + k) := by
      rw [hsteps.generation, hclock, ofNat_add]
    rw [← add_assoc]
    rcases written_removePodLocked ih.1 hrem with rfl | hwr
    · obtain ⟨written, copied, hcopy⟩ := ih.2
      exact ⟨ih.1, written, copied, hcopy.tick (le_add_right _ _)⟩
    · refine ⟨hwr.allWithin ih.1, ?_⟩
      have hone : more = 1 := by
        have hgen := hmore.2.symm.trans hwr.generation
        rcases le_one_iff_eq_zero_or_eq_one.mp hmore.1 with rfl | rfl
        · exact absurd ((Int64.add_right_inj c'.generation).mp hgen) (by decide)
        · rfl
      rw [hone]
      exact (ih.2.written hclock' hwr).1

variable (nodeNameToInfo)

theorem draws_eq (hstate : (c.perform op).state? = some c')
    (hgen : c'.generation = c.generation + Int64.ofNat k) (hk : k < 2 ^ 64) : c.draws op = k := by
  have hnext : c.next op = c' := by rw [next, hstate, Option.getD_some]
  rw [draws, hnext, hgen, Int64.add_comm, Int64.add_sub_cancel, toUInt64_ofNat', UInt64.toNat_ofNat', mod_eq_of_lt hk]

theorem Fresh.next_call (hstate : (s.cache.perform op).state? = some c') (hk : k < 2 ^ 64)
    (hgen : c'.generation = s.cache.generation + Int64.ofNat k) :
    s.next (.call op) = { s with cache := c', drawn := s.drawn + k } := by
  have hnext : s.cache.next op = c' := by rw [next, hstate, Option.getD_some]
  rw [Snapshotting.next, hnext, draws_eq hstate hgen hk]

theorem Fresh.written (h : Fresh s) (hstate : (s.cache.perform op).state? = some c') (hk : k ≤ 2)
    (hwr : Written k s.cache c') (hasm : c'.assumedPods = s.cache.assumedPods) : Fresh (s.next (.call op)) := by
  rw [Fresh.next_call hstate (by omega) hwr.generation]
  obtain ⟨hstamped, hclock⟩ := h.stamped.written h.clock hwr
  refine ⟨hclock, ?_, hwr.allWithin h.within, hstamped⟩
  rw [hasm]
  exact h.assumed.trans (le_add_right _ _)

section
variable (h : Fresh s) (hbound : s.drawn < 2 ^ 64)
include h hbound

theorem Fresh.call (hposs : s.cache.returns op = true) : Fresh (s.next (.call op)) := by
  have hstep : cacheSystem.step s.cache op (s.cache.next op) := ⟨hposs, rfl⟩
  obtain ⟨hvis, hstate⟩ := cacheSystem_step hstep
  generalize s.cache.next op = c' at hstate
  by_cases hop : op.onNode = false
  · obtain ⟨k, hk, hsteps⟩ := perform_podSteps hop hvis hstate
    have hasm := h.assumed
    rw [Fresh.next_call hstate (by omega) hsteps.generation]
    obtain ⟨hwithin, hstamped⟩ := hsteps.stamped h.clock h.within h.stamped
    refine ⟨?_, hsteps.card_assumedPods.trans (Nat.add_le_add_right hasm k), hwithin, hstamped⟩
    rw [hsteps.generation, h.clock, ofNat_add]
  · cases op with
    | addNode node =>
      obtain ⟨k, hk, hwr⟩ := written_putNode h.within (s.cache.nodeTree.addNode node) node
      exact h.written rfl hk hwr rfl
    | updateNode oldNode newNode =>
      obtain ⟨k, hk, hwr⟩ := written_putNode h.within (s.cache.nodeTree.updateNode oldNode newNode) newNode
      exact h.written rfl hk hwr rfl
    | removeNode =>
      refine h.written hstate (by decide) (written_removeNode h.within hstate) ?_
      simp only [perform, removeNode] at hstate
      split at hstate
      · cases hstate
      · cases hstate; rfl
    | _ => exact absurd rfl hop

theorem Fresh.same {name : String}
    (hn : s.cache.nodes.lookup name = some n) (hn' : s.nodeNameToInfo.lookup name = some n')
    (hgen : n.generation = n'.generation) : n = n' := by
  obtain ⟨_, _, hcopy⟩ := h.stamped
  refine hcopy.eq_of_stamp ?_ hn hn' hgen
  intro i hi j hj heq
  have hnat := congrArg (fun stamp => stamp.toUInt64.toNat) heq
  simp only [toUInt64_ofNat', UInt64.toNat_ofNat'] at hnat
  rwa [mod_eq_of_lt (by omega), mod_eq_of_lt (by omega)] at hnat

theorem Fresh.update {order order' : List String} (hposs : s.possible (.updateNodeNameToInfoMap order order') = true) :
    s.next (.updateNodeNameToInfoMap order order') = { s with nodeNameToInfo := s.cache.nodes } := by
  obtain ⟨hord, hord'⟩ := of_decide_eq_true hposs
  rw [Snapshotting.next, updateNodeNameToInfoMap_eq hord hord' fun _ _ _ hinfo hcur => h.same hbound hinfo hcur]

end

theorem fresh_start (ttl : Int) : Fresh (Snapshotting.start ttl) := by
  refine ⟨rfl, le_refl 0, ?_, fun _ => 0, fun _ => 0, ?_, ?_, ?_⟩
  · intro _ _ hn; cases hn
  · intro _ _ hn; cases hn
  · intro _ _ hn; cases hn
  · intro _ _ _ hn; cases hn

theorem fresh_run {ttl : Int} {ops : List SnapshotOp}
    (hrun : snapshotSystem.Run (Snapshotting.start ttl) ops s) : s.drawn < 2 ^ 64 → Fresh s := by
  refine hrun.invariant (fun s => s.drawn < 2 ^ 64 → Fresh s) ?_ ?_
  · rintro s op _ ⟨hposs, rfl⟩ ih hbound
    cases op with
    | call =>
      have hbefore : s.drawn < 2 ^ 64 := lt_of_le_of_lt (le_add_right _ _) hbound
      exact (ih hbefore).call hbefore hposs
    | updateNodeNameToInfoMap =>
      have h := ih hbound
      rw [h.update hbound hposs]
      obtain ⟨written, _, hcopy⟩ := h.stamped
      exact ⟨h.clock, h.assumed, h.within, written, written, hcopy.refresh⟩
  · exact fun _ => fresh_start ttl

/-- **The incremental snapshot equals the full one.** In every run that drew fewer than `2^64`
generation numbers, equal generations mean equal contents, and an update makes the snapshot equal to
the `NodeInfo`s of the cache. -/
theorem snapshot_eq_nodes {ttl : Int} {ops : List SnapshotOp} {s : Snapshotting}
    (hrun : snapshotSystem.Run (Snapshotting.start ttl) ops s) (hbound : s.drawn < 2 ^ 64) :
    (∀ name n n', s.cache.nodes.lookup name = some n → s.nodeNameToInfo.lookup name = some n' →
      n.generation = n'.generation → n = n') ∧
    ∀ order order' t, snapshotSystem.step s (.updateNodeNameToInfoMap order order') t →
      t.cache = s.cache ∧ t.nodeNameToInfo = s.cache.nodes := by
  have h := fresh_run hrun hbound
  refine ⟨fun _ _ _ hn hn' => h.same hbound hn hn', ?_⟩
  rintro _ _ _ ⟨hpossible, rfl⟩
  rw [h.update hbound hpossible]
  exact ⟨rfl, rfl⟩

def plainNode : Node := bareNode "a"
def taintedNode : Node := { bareNode "a" with taints := [⟨"dedicated", "", .noSchedule⟩] }

def readded : List SnapshotOp :=
  [.call (.addNode plainNode), .updateNodeNameToInfoMap ["a"] ["a"],
    .call (.removeNode plainNode), .call (.addNode taintedNode)]

theorem snapshot_eq_nodes_readded : ∃ s t, snapshotSystem.Run (Snapshotting.start 0) readded s ∧
      snapshotSystem.step s (.updateNodeNameToInfoMap ["a"] ["a"]) t ∧
      (s.nodeNameToInfo.lookup "a").map NodeInfo.taints = some [] ∧
      (t.nodeNameToInfo.lookup "a").map NodeInfo.taints = some taintedNode.taints ∧
      t.nodeNameToInfo = t.cache.nodes := by
  have hrun : snapshotSystem.Run (Snapshotting.start 0) readded
      (readded.foldl Snapshotting.next (Snapshotting.start 0)) := System.run_foldl (by decide)
  have hstep : snapshotSystem.step (readded.foldl Snapshotting.next (Snapshotting.start 0))
      (.updateNodeNameToInfoMap ["a"] ["a"]) _ := ⟨by decide, rfl⟩
  obtain ⟨hcache, hnodes⟩ := (snapshot_eq_nodes hrun (by decide)).2 _ _ _ hstep
  exact ⟨_, _, hrun, hstep, by decide, by decide, hnodes.trans (congrArg _ hcache.symm)⟩

/-! ### When the counter has wrapped around -/

def cacheOf (node : Node) (generation : Int64) : SchedulerCache :=
  { newSchedulerCache 0 with
    nodes := Finmap.insert "a" ((newNodeInfo 1).setNode node generation) ∅
    nodeTree := NodeTree.addNode {} plainNode
    generation }

theorem next_addNode_cacheOf : (cacheOf taintedNode generation).next
    (.addNode taintedNode) = cacheOf taintedNode (generation + 1) := rfl

theorem draws_addNode_cacheOf : (cacheOf taintedNode generation).draws (.addNode taintedNode) = 1 := by
  have hstate : ((cacheOf taintedNode generation).perform (.addNode taintedNode)).state? =
      some (cacheOf taintedNode (generation + 1)) := rfl
  exact draws_eq hstate rfl (by decide)

theorem run_replicate_addNode (generation : Int64)
    (drawn times : Nat) : snapshotSystem.Run ⟨cacheOf taintedNode generation, nodeNameToInfo, drawn⟩
      (List.replicate times (.call (.addNode taintedNode)))
      ⟨cacheOf taintedNode (generation + Int64.ofNat times), nodeNameToInfo, drawn + times⟩ := by
  induction times with
  | zero =>
    rw [List.replicate_zero, Nat.add_zero, show Int64.ofNat 0 = 0 from rfl, Int64.add_zero]
    exact .nil _
  | succ _ ih =>
    rw [List.replicate_succ']
    refine ih.snoc ⟨rfl, ?_⟩
    rw [Snapshotting.next, next_addNode_cacheOf, draws_addNode_cacheOf, Int64.add_assoc,
      ← Nat.add_assoc, Int64.ofNat_add]
    rfl

/-- The node is set, copied to the snapshot, and then set `2^64` times to another object, so that the
counter comes back to the generation of the copy. -/
def wrapAround : List SnapshotOp :=
  [.call (.addNode plainNode), .updateNodeNameToInfoMap ["a"] ["a"], .call (.addNode taintedNode)] ++
    List.replicate (2 ^ 64 - 1) (.call (.addNode taintedNode))

/-- After `2^64` numbers an update can leave an outdated clone in the snapshot. -/
theorem snapshot_stale : ∃ s t, snapshotSystem.Run (Snapshotting.start 0) wrapAround s ∧
    snapshotSystem.step s (.updateNodeNameToInfoMap ["a"] ["a"]) t ∧
    (t.cache.nodes.lookup "a").map NodeInfo.taints = some taintedNode.taints ∧
    (t.nodeNameToInfo.lookup "a").map NodeInfo.taints = some [] ∧ t.nodeNameToInfo ≠ t.cache.nodes := by
  have hstart : snapshotSystem.Run (Snapshotting.start 0)
      [.call (.addNode plainNode), .updateNodeNameToInfoMap ["a"] ["a"],
        .call (.addNode taintedNode)] ⟨cacheOf taintedNode 3, (cacheOf plainNode 2).nodes, 3⟩ :=
    System.run_foldl (by decide)
  have hwrap := hstart.append (run_replicate_addNode (cacheOf plainNode 2).nodes 3 3 (2 ^ 64 - 1))
  refine ⟨_, _, hwrap, ⟨by decide, rfl⟩, by decide, by decide, ?_⟩
  intro hsame
  have htaints := congrArg (fun nodes => (lookup "a" nodes).map NodeInfo.taints) hsame
  exact absurd htaints (by decide)

end LeanKube.Scheduler
