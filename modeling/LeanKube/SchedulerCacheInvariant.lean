import LeanKube.SchedulerCacheEffect

/-! The structure of the scheduler cache. To its callers the cache is a placement: a partial map from
pod keys to node names. The `NodeInfo`s hold the pods of a placement, each once and on its node, and
every call moves the placement and the `NodeInfo`s together. -/

namespace LeanKube.Scheduler
open SchedulerCache GoMap Function Option Finset List Finmap Nat Outcome NodeInfo

variable (nodes : GoMap String NodeInfo)

def podsAt (name : String) : List Pod :=
  ((nodes.lookup name).map NodeInfo.pods).getD []

variable {name : String} {nodes : GoMap String NodeInfo} {n : NodeInfo} {key : String} {pod : Pod}
  {c : SchedulerCache} {ps : PodState} {c' : SchedulerCache}

theorem podsAt_of_lookup (h : nodes.lookup name = some n) : podsAt nodes name = n.pods := by
  rw [podsAt, h]
  rfl

theorem podsAt_of_lookup_none (h : nodes.lookup name = none) : podsAt nodes name = [] := by
  rw [podsAt, h]
  rfl

variable (nodes)

theorem podsAt_insert (name name' : String) (n : NodeInfo) :
    podsAt (nodes.insert name n) name' = if name' = name then n.pods else podsAt nodes name' := by
  rw [podsAt, lookup_insert_ite]
  split_ifs <;> rfl

theorem podsAt_erase (name name' : String) :
    podsAt (nodes.erase name) name' = if name' = name then [] else podsAt nodes name' := by
  rw [podsAt, lookup_erase_ite]
  split_ifs <;> rfl

variable {nodes}

def occurrences (key : String) (pods : List Pod) : Nat := pods.countP fun pod => pod.uid = key

theorem occurrences_pos {pods : List Pod} : 0 < occurrences key pods ↔ ∃ pod ∈ pods, pod.uid = key := by
  simp only [occurrences, countP_pos_iff, decide_eq_true_eq]

theorem occurrences_cons (key : String) (pod : Pod) (pods : List Pod) :
    occurrences key (pod :: pods) = occurrences key pods + if pod.uid = key then 1 else 0 := by
  rw [occurrences, countP_cons, occurrences]
  simp only [decide_eq_true_eq]

theorem occurrences_perm {pods pods' : List Pod} (h : pods.Perm pods') : occurrences key pods = occurrences key pods' :=
  h.countP_eq _

theorem occurrences_extra {more fewer : String → List Pod} {place : String}
    (hplace : (more place).Perm (pod :: fewer place))
    (hother : ∀ name, name ≠ place → more name = fewer name) (name key : String) :
    occurrences key (more name) = occurrences key (fewer name) + if name = place ∧ pod.uid = key then 1 else 0 := by
  by_cases hname : name = place
  · subst hname
    rw [occurrences_perm hplace, occurrences_cons]
    simp only [true_and]
  · rw [hother name hname, if_neg fun hboth => hname hboth.1, add_zero]

/-- The `NodeInfo`s hold the pods of a placement, and none is kept without a node or a pod. -/
structure Placed (nodes : GoMap String NodeInfo) (placement : String → Option String) : Prop where
  count : ∀ name key, occurrences key (podsAt nodes name) = if placement key = some name then 1 else 0
  populated : ∀ name n, nodes.lookup name = some n → n.node = none → n.pods ≠ []

variable {nodes' : GoMap String NodeInfo}

section Placement
variable {placement : String → Option String}

theorem Placed.count_update (h : Placed nodes placement) (moved : String) (target : Option String)
    (hmoved : ∀ name, occurrences moved (podsAt nodes' name) = if target = some name then 1 else 0)
    (hother : ∀ name key, key ≠ moved → occurrences key (podsAt nodes' name) = occurrences key (podsAt nodes name)) :
    ∀ name key, occurrences key (podsAt nodes' name) =
      if Function.update placement moved target key = some name then 1 else 0 := by
  intro name key
  by_cases hkey : key = moved
  · subst hkey
    rw [update_self]
    exact hmoved name
  · rw [update_of_ne hkey, hother name key hkey]
    exact h.count name key

/-! ### Adding and removing a pod -/

theorem lookup_addPodLocked (c : SchedulerCache) (pod : Pod) : ∃ n generation, (c.nodes.lookup pod.nodeName = some n ∨
        c.nodes.lookup pod.nodeName = none ∧ ∃ drawn, n = newNodeInfo drawn) ∧
      (c.addPodLocked pod).nodes = c.nodes.insert pod.nodeName (n.addPod pod generation) := by
  rw [addPodLocked]
  cases hn : c.nodes.lookup pod.nodeName with
  | none => exact ⟨_, _, .inr ⟨rfl, _, rfl⟩, rfl⟩
  | some => exact ⟨_, _, .inl rfl, rfl⟩

theorem Placed.addPodLocked (h : Placed c.nodes placement) (hnew : placement pod.uid = none) :
    ∃ nodes generation, c.addPodLocked pod = { c with nodes := nodes, generation := generation } ∧
      Placed nodes (Function.update placement pod.uid (some pod.nodeName)) := by
  have hadd : c.addPodLocked pod =
      { c with nodes := (c.addPodLocked pod).nodes, generation := (c.addPodLocked pod).generation } := by
    rw [SchedulerCache.addPodLocked]
    split <;> rfl
  refine ⟨_, _, hadd, ?_⟩
  obtain ⟨n, generation, hn, hnodes⟩ := lookup_addPodLocked c pod
  have hpods : podsAt c.nodes pod.nodeName = n.pods := by
    rcases hn with hn | ⟨hn, _, rfl⟩
    · exact podsAt_of_lookup hn
    · exact podsAt_of_lookup_none hn
  rw [hnodes]
  have hplace : (podsAt (c.nodes.insert pod.nodeName (n.addPod pod generation)) pod.nodeName).Perm
      (pod :: podsAt c.nodes pod.nodeName) := by
    rw [podsAt_insert, if_pos rfl, pods_addPod, hpods]
    exact perm_append_singleton pod n.pods
  have hadded := occurrences_extra hplace fun name hname => by rw [podsAt_insert, if_neg hname]
  constructor
  · apply h.count_update
    · intro name
      rw [hadded, h.count, hnew, if_neg (some_ne_none _).symm, zero_add]
      simp only [and_true, some.injEq, eq_comm]
    · intro name key hkey
      rw [hadded, if_neg fun hboth => hkey hboth.2.symm, add_zero]
  · exact forall_insert h.populated fun _ => append_ne_nil_of_right_ne_nil _ (cons_ne_nil _ _)

theorem podsAt_keepNodeInfo (name name' : String) (n : NodeInfo) :
    podsAt (keepNodeInfo nodes name n) name' = if name' = name then n.pods else podsAt nodes name' := by
  rw [keepNodeInfo]
  split
  · next hgone => rw [podsAt_erase, hgone.1]
  · exact podsAt_insert nodes name name' n

theorem lookup_keepNodeInfo {name' : String} {n' : NodeInfo} (h : (keepNodeInfo nodes name n).lookup name' = some n') :
    name' = name ∧ n' = n ∧ (n.node = none → n.pods ≠ []) ∨ nodes.lookup name' = some n' := by
  rw [keepNodeInfo] at h
  split_ifs at h with hgone
  · exact .inr (of_lookup_erase h).2
  · rcases of_lookup_insert h with ⟨hname, rfl⟩ | ⟨-, hold⟩
    · exact .inl ⟨hname, rfl, fun hnode hpods => hgone ⟨hpods, hnode⟩⟩
    · exact .inr hold

theorem Placed.removePodLocked (h : Placed c.nodes placement)
    (hkey : pod.uid ≠ "") (hplace : placement pod.uid = some pod.nodeName) :
    ∃ nodes generation, c.removePodLocked pod = .ok { c with nodes := nodes, generation := generation } ∧
      Placed nodes (Function.update placement pod.uid none) := by
  have hone : occurrences pod.uid (podsAt c.nodes pod.nodeName) = 1 := by
    rw [h.count, if_pos hplace]
  obtain ⟨_, hpres, huid⟩ := occurrences_pos.mp (hone ▸ one_pos)
  cases hn : c.nodes.lookup pod.nodeName with
  | none =>
    rw [podsAt_of_lookup_none hn] at hpres
    exact absurd hpres not_mem_nil
  | some n =>
    rw [podsAt_of_lookup hn] at hpres
    obtain ⟨found, rest, hrem, hfound, hperm⟩ := exists_removeFirst_hasKey hkey hpres huid
    obtain ⟨n', hn', hpods⟩ : ∃ n', n.removePod pod (c.generation + 1) = .ok n' ∧
        n'.pods = rest := ⟨_, removePod_found hkey hrem _, rfl⟩
    refine ⟨keepNodeInfo c.nodes pod.nodeName n', c.generation + 1, ?_, ?_, ?_⟩
    · simp only [SchedulerCache.removePodLocked, hn, hn']
    · have hcons : (podsAt c.nodes pod.nodeName).Perm
          (found :: podsAt (keepNodeInfo c.nodes pod.nodeName n') pod.nodeName) := by
        rw [podsAt_of_lookup hn, podsAt_keepNodeInfo, if_pos rfl, hpods]
        exact hperm
      have hremoved := occurrences_extra hcons fun name hname => by
        rw [podsAt_keepNodeInfo, if_neg hname]
      rw [hfound] at hremoved
      apply h.count_update
      · intro name
        have hcnt := hremoved name pod.uid
        rw [h.count, hplace] at hcnt
        simp only [some.injEq, and_true, eq_comm] at hcnt
        rw [if_neg (some_ne_none _).symm]
        omega
      · intro name key hkey'
        rw [hremoved, if_neg fun hboth => hkey' hboth.2.symm, add_zero]
    · intro name n' hlookup hnode
      rcases lookup_keepNodeInfo hlookup with ⟨_, rfl, hpopulated⟩ | hlookup
      · exact hpopulated hnode
      · exact h.populated name n' hlookup hnode

/-! ### Nodes that come and go -/

theorem Placed.of_podsAt (h : Placed nodes placement) (hpods : ∀ name, podsAt nodes' name = podsAt nodes name)
    (hpopulated : ∀ name n, nodes'.lookup name = some n →
      (n.node = none → n.pods ≠ []) ∨ nodes.lookup name = some n) : Placed nodes' placement := by
  constructor
  · intro name key
    rw [hpods]
    exact h.count name key
  · intro name n hn hnode
    rcases hpopulated name n hn with hnew | hold
    · exact hnew hnode
    · exact h.populated name n hold hnode

theorem nodes_putNode (c : SchedulerCache) (nodeTree : NodeTree) (node : Node) :
    ∃ n found, (c.nodes.lookup node.name = some found ∨
        c.nodes.lookup node.name = none ∧ ∃ drawn, found = newNodeInfo drawn) ∧
      n.podData = found.podData ∧ n.node = some node ∧
      (c.putNode nodeTree node).nodes = c.nodes.insert node.name n := by
  simp only [putNode]
  cases c.nodes.lookup node.name with
  | none =>
    refine ⟨_, newNodeInfo (c.generation + 1), .inr ⟨rfl, _, rfl⟩, ?_, ?_, rfl⟩
    · exact podData_setNode _ _ _
    · exact node_setNode _ _ _
  | some found =>
    refine ⟨_, found, .inl rfl, ?_, ?_, rfl⟩
    · exact podData_setNode _ _ _
    · exact node_setNode _ _ _

theorem Placed.putNode (h : Placed c.nodes placement)
    (nodeTree : NodeTree) (node : Node) : Placed (c.putNode nodeTree node).nodes placement := by
  obtain ⟨n, found, hfound, hdata, hnode, hnodes⟩ := nodes_putNode c nodeTree node
  have hpods : n.pods = podsAt c.nodes node.name := by
    have hsame : n.pods = found.pods := congrArg Prod.fst hdata
    rcases hfound with hfound | ⟨hfound, _, rfl⟩
    · rw [hsame, podsAt_of_lookup hfound]
    · rw [hsame, podsAt_of_lookup_none hfound]
      rfl
  rw [hnodes]
  refine h.of_podsAt ?_ ?_
  · intro name
    rw [podsAt_insert]
    split_ifs with hname
    · rw [hpods, hname]
    · rfl
  · intro name n' hlookup
    rcases of_lookup_insert hlookup with ⟨-, rfl⟩ | ⟨-, hold⟩
    · rw [hnode]
      exact .inl fun hnone => absurd hnone (some_ne_none node)
    · exact .inr hold

theorem Placed.removeNode (h : Placed c.nodes placement)
    {node : Node} (hn : c.nodes.lookup node.name = some n) (generation : Int64) :
    Placed (keepNodeInfo c.nodes node.name (n.removeNode generation)) placement := by
  refine h.of_podsAt ?_ ?_
  · intro name
    rw [podsAt_keepNodeInfo]
    split_ifs with hname
    · rw [hname, podsAt_of_lookup hn]
      rfl
    · rfl
  · intro name n' hlookup
    rcases lookup_keepNodeInfo hlookup with ⟨_, rfl, hpopulated⟩ | hold
    · exact .inl hpopulated
    · exact .inr hold

end Placement

/-! ### The invariant -/

def SchedulerCache.placement (c : SchedulerCache) (key : String) : Option String :=
  (c.podStates.lookup key).map fun ps => ps.pod.nodeName

structure Structured (c : SchedulerCache) : Prop where
  keyed : ∀ key ps, c.podStates.lookup key = some ps → ps.pod.uid = key ∧ key ≠ ""
  assumed : ∀ key ∈ c.assumedPods, key ∈ c.podStates
  placed : Placed c.nodes c.placement
  deadline : ∀ key ∈ c.assumedPods, ∀ ps, c.podStates.lookup key = some ps →
    ps.bindingFinished = true → ps.deadline ≠ none

theorem structured_new (ttl : Int) : Structured (newSchedulerCache ttl) where
  keyed _ _ h := by cases h
  assumed _ h := by cases h
  placed :=
    { count := fun _ _ => rfl
      populated := fun _ _ h => by cases h }
  deadline _ h := by cases h

theorem placement_of_lookup_none (h : c.podStates.lookup key = none) : c.placement key = none := by
  rw [placement, h]
  rfl

theorem placement_of_lookup (h : c.podStates.lookup key = some ps) : c.placement key = some ps.pod.nodeName := by
  rw [placement, h]
  rfl

/-- The state of one pod is set or dropped, and the `NodeInfo`s follow. -/
theorem Structured.rebook (h : Structured c) {ps? : Option PodState}
    (hstates : ∀ other, c'.podStates.lookup other = if other = key then ps? else c.podStates.lookup other)
    (hplaced : Placed c'.nodes (Function.update c.placement key (ps?.map fun ps => ps.pod.nodeName)))
    (hkeyed : ∀ ps ∈ ps?, ps.pod.uid = key ∧ key ≠ "")
    (hothers : ∀ other ∈ c'.assumedPods, other ≠ key → other ∈ c.assumedPods)
    (hassumed : key ∈ c'.assumedPods → ∃ ps, ps? = some ps ∧ (ps.bindingFinished = true → ps.deadline ≠ none)) :
    Structured c' := by
  have hplacement : c'.placement = Function.update c.placement key (ps?.map fun ps => ps.pod.nodeName) := by
    funext other
    rw [placement, hstates, update_apply]
    split_ifs <;> rfl
  constructor
  · intro other ps hps
    rw [hstates] at hps
    split_ifs at hps with hother
    · exact hother ▸ hkeyed ps hps
    · exact h.keyed other ps hps
  · intro other hother
    rw [mem_iff, hstates]
    split_ifs with hkey
    · exact (hassumed (hkey ▸ hother)).imp fun _ => And.left
    · exact mem_iff.mp (h.assumed other (hothers other hother hkey))
  · rw [hplacement]
    exact hplaced
  · intro other hother ps hps
    rw [hstates] at hps
    split_ifs at hps with hkey
    · obtain ⟨_, rfl, hdeadline⟩ := hassumed (hkey ▸ hother)
      cases hps
      exact hdeadline
    · exact h.deadline other (hothers other hother hkey) ps hps

/-! ### The calls -/

/-- How a call from a structured cache may end: in a structured cache, in an error that changes
nothing, or in the deliberate exit of a corrupted cache; but not in a panic. -/
inductive Sound (c : SchedulerCache) : Outcome SchedulerCache → Prop where
  | ok {c' : SchedulerCache} : Structured c' → Sound c (.ok c')
  | error (message : String) : Sound c (.error c message)
  | fatal : Sound c .fatal

theorem Sound.structured {outcome : Outcome SchedulerCache} (hsound : Sound c outcome)
    (h : Structured c) (hstate : outcome.state? = some c') : Structured c' := by
  cases hsound with
  | ok hstruct => cases hstate; exact hstruct
  | error => cases hstate; exact h
  | fatal => cases hstate

theorem sound_of_key {rest : String → Outcome SchedulerCache} (h : pod.uid ≠ "" → Sound c (rest pod.uid)) :
    Sound c (match getPodKey pod with
      | .error message => .error c message
      | .ok key => rest key) := by
  rcases getPodKey_cases pod with ⟨hkey, hget⟩ | ⟨message, hget⟩
  · rw [hget]
    exact h hkey
  · rw [hget]
    exact .error message

section
variable (h : Structured c)
include h

theorem Structured.assumePod (pod : Pod) : Sound c (c.assumePod pod) := by
  refine sound_of_key fun hkey => ?_
  cases hps : c.podStates.lookup pod.uid with
  | some => exact .error _
  | none =>
    obtain ⟨_, _, hadd, hplaced⟩ := h.placed.addPodLocked (placement_of_lookup_none hps)
    simp only [hadd]
    refine .ok (h.rebook (fun _ => lookup_insert_ite ..) hplaced ?_ ?_ fun _ => ⟨_, rfl, nofun⟩)
    · rintro _ ⟨⟩
      exact ⟨rfl, hkey⟩
    · intro other hother hne
      exact mem_of_mem_insert_of_ne hother hne

theorem Structured.finishBinding (pod : Pod) (now : Int) : Sound c (c.finishBinding pod now) := by
  refine sound_of_key fun hkey => ?_
  cases hps : c.podStates.lookup pod.uid with
  | none => exact .ok h
  | some ps =>
    split_ifs
    · refine .ok (h.rebook (fun _ => lookup_insert_ite ..) ?_ ?_ (fun _ hother _ => hother) fun _ => ⟨_, rfl, ?_⟩)
      · rw [map_some, ← placement_of_lookup hps, update_eq_self]
        exact h.placed
      · rintro _ ⟨⟩
        exact h.keyed _ ps hps
      · exact fun _ => some_ne_none _
    · exact .ok h

theorem Structured.removePodLocked (hps : c.podStates.lookup pod.uid = some ps)
    (hnode : ps.pod.nodeName = pod.nodeName) :
    ∃ nodes generation, c.removePodLocked pod = .ok { c with nodes := nodes, generation := generation } ∧
      Placed nodes (Function.update c.placement pod.uid none) := by
  refine h.placed.removePodLocked (h.keyed _ ps hps).2 ?_
  rw [placement_of_lookup hps, hnode]

theorem Structured.dropPod (hps : c.podStates.lookup pod.uid = some ps) (hnode : ps.pod.nodeName = pod.nodeName) :
    ∃ nodes generation, c.removePodLocked pod = .ok { c with nodes := nodes, generation := generation } ∧
      ∀ assumedPods : Finset String, (∀ key ∈ assumedPods, key ∈ c.assumedPods) → pod.uid ∉ assumedPods →
        Structured { c with nodes, generation, assumedPods, podStates := c.podStates.erase pod.uid } := by
  obtain ⟨nodes, generation, hrem, hplaced⟩ := h.removePodLocked hps hnode
  refine ⟨nodes, generation, hrem, fun assumedPods hsub hgone => ?_⟩
  exact h.rebook (fun _ => lookup_erase_ite ..) hplaced nofun (fun other hother _ => hsub other hother)
    fun hkey => absurd hkey hgone

theorem Structured.forgetPod (pod : Pod) : Sound c (c.forgetPod pod) := by
  refine sound_of_key fun _ => ?_
  cases hps : c.podStates.lookup pod.uid with
  | none => exact .error _
  | some =>
    simp only
    split_ifs with hnode hasm
    · exact .error _
    · obtain ⟨_, _, hrem, hdrop⟩ := h.dropPod hps (not_not.mp hnode)
      simp only [hrem, andThen]
      exact .ok (hdrop _ (fun _ => mem_of_mem_erase) (notMem_erase _ _))
    · exact .error _

variable {oldPod newPod : Pod}

theorem Structured.replacePod (hps : c.podStates.lookup oldPod.uid = some ps)
    (hnode : ps.pod.nodeName = oldPod.nodeName) (huid : newPod.uid = oldPod.uid) :
    ∃ removed nodes generation, c.removePodLocked oldPod = .ok removed ∧
      removed.addPodLocked newPod = { c with nodes := nodes, generation := generation } ∧
      Placed nodes (Function.update c.placement newPod.uid (some newPod.nodeName)) := by
  obtain ⟨_, _, hrem, hplaced⟩ := h.removePodLocked hps hnode
  rw [← huid] at hplaced
  obtain ⟨_, _, hadd, hadded⟩ := Placed.addPodLocked (c := { c with nodes := _, generation := _ }) hplaced
    (update_self ..)
  rw [update_idem] at hadded
  exact ⟨_, _, _, hrem, hadd, hadded⟩

theorem Structured.addPod (pod : Pod) : Sound c (c.addPod pod) := by
  refine sound_of_key fun hkey => ?_
  have hkeyed {ps : PodState} (hpod : ps.pod = pod) : ∀ ps' ∈ some ps, ps'.pod.uid = pod.uid ∧ pod.uid ≠ "" := by
    rintro _ ⟨⟩
    exact ⟨congrArg Pod.uid hpod, hkey⟩
  cases hps : c.podStates.lookup pod.uid with
  | none =>
    obtain ⟨_, _, hadd, hplaced⟩ := h.placed.addPodLocked (placement_of_lookup_none hps)
    simp only [hadd]
    exact .ok (h.rebook (fun _ => lookup_insert_ite ..) hplaced (hkeyed rfl) (fun _ hother _ => hother)
      fun _ => ⟨_, rfl, nofun⟩)
  | some ps =>
    simp only
    split_ifs with hasm hnode
    · -- confirmed on another node than the one it was assumed on
      have huid := (h.keyed _ ps hps).1
      obtain ⟨_, _, _, hrem, hadd, hplaced⟩ := h.replacePod (huid.symm ▸ hps) rfl huid.symm
      simp only [hrem, dropError, andThen, hadd]
      exact .ok (h.rebook (fun _ => lookup_insert_ite ..) hplaced (hkeyed rfl)
        (fun _ hother _ => mem_of_mem_erase hother) fun hstill => absurd hstill (notMem_erase _ _))
    · -- confirmed where it was assumed: the `NodeInfo` keeps the assumed object
      refine .ok (h.rebook (fun _ => lookup_insert_ite ..) ?_ (hkeyed rfl)
        (fun _ hother _ => mem_of_mem_erase hother) fun hstill => absurd hstill (notMem_erase _ _))
      rw [map_some, ← not_not.mp hnode, ← placement_of_lookup hps, update_eq_self]
      exact h.placed
    · exact .error _

theorem Structured.updatePod (huid : oldPod.uid = newPod.uid)
    (hold : ∀ ps, c.podStates.lookup oldPod.uid = some ps →
      ps.pod.nodeName = oldPod.nodeName) : Sound c (c.updatePod oldPod newPod) := by
  refine sound_of_key fun hkey => ?_
  cases hps : c.podStates.lookup oldPod.uid with
  | none => exact .error _
  | some ps =>
    simp only
    split_ifs with hasm hnode
    · exact .error _
    · exact .fatal
    · obtain ⟨_, _, _, hrem, hadd, hplaced⟩ := h.replacePod hps (hold ps hps) huid.symm
      simp only [updatePodLocked, hrem, andThen, hadd]
      rw [← huid] at hplaced
      refine .ok (h.rebook (fun _ => lookup_insert_ite ..) hplaced ?_ (fun _ hother _ => hother)
        fun hstill => absurd hstill hasm)
      rintro _ ⟨⟩
      exact ⟨huid.symm, hkey⟩

theorem Structured.removePod (pod : Pod) : Sound c (c.removePod pod) := by
  refine sound_of_key fun _ => ?_
  cases hps : c.podStates.lookup pod.uid with
  | none => exact .error _
  | some ps =>
    simp only
    split_ifs with hasm hnode
    · exact .error _
    · exact .fatal
    · have huid := (h.keyed _ ps hps).1
      obtain ⟨_, _, hrem, hdrop⟩ := h.dropPod (huid.symm ▸ hps) rfl
      rw [huid] at hdrop
      simp only [hrem, andThen]
      exact .ok (hdrop _ (fun _ => id) hasm)

theorem Structured.putNode (nodeTree : NodeTree) (node : Node) : Structured (c.putNode nodeTree node) :=
  { h with placed := h.placed.putNode nodeTree node }

theorem Structured.removeNode {node : Node} (hnode : node.name ∈ c.nodes) : Sound c (c.removeNode node) := by
  obtain ⟨n, hn⟩ := mem_iff.mp hnode
  simp only [SchedulerCache.removeNode, hn]
  exact .ok { h with placed := h.placed.removeNode hn _ }

theorem Structured.cleanupAssumedPod (hkey : key ∈ c.assumedPods) (now : Int) :
    ∃ c', c.cleanupAssumedPod now key = .ok c' ∧ Structured c' ∧
      ∀ other ∈ c.assumedPods, other ≠ key → other ∈ c'.assumedPods := by
  obtain ⟨ps, hps⟩ := mem_iff.mp (h.assumed key hkey)
  simp only [SchedulerCache.cleanupAssumedPod, hps]
  split_ifs with hfin
  · exact ⟨c, rfl, h, fun other hother _ => hother⟩
  · have hdeadline := h.deadline key hkey ps hps (by rwa [Bool.not_eq_false] at hfin)
    obtain ⟨deadline, hdl⟩ := ne_none_iff_exists'.mp hdeadline
    simp only [hdl]
    split_ifs
    · have huid := (h.keyed _ ps hps).1
      obtain ⟨_, _, hrem, hdrop⟩ := h.dropPod (huid.symm ▸ hps) rfl
      rw [huid] at hdrop
      simp only [expirePod, hrem, andThen, dropError]
      exact ⟨_, rfl, hdrop _ (fun _ => mem_of_mem_erase) (notMem_erase _ _),
        fun other hother hne => Finset.mem_erase.mpr ⟨hne, hother⟩⟩
    · exact ⟨c, rfl, h, fun other hother _ => hother⟩

theorem Structured.cleanupAssumedPods (now : Int) {order : List String} (hnodup : order.Nodup)
    (hord : ∀ key ∈ order, key ∈ c.assumedPods) : ∃ c', c.cleanupAssumedPods now order = .ok c' ∧ Structured c' := by
  induction order generalizing c with
  | nil => exact ⟨c, rfl, h⟩
  | cons key _ ih =>
    obtain ⟨hkey, hrest⟩ := nodup_cons.mp hnodup
    obtain ⟨_, hturn, hstruct, hkept⟩ := h.cleanupAssumedPod (hord key (mem_cons_self ..)) now
    simp only [cleanupAssumedPods, hturn, andThen]
    refine ih hstruct hrest fun other hother => ?_
    refine hkept other (hord other (mem_cons_of_mem key hother)) ?_
    rintro rfl
    exact hkey hother

/-- **Every call that keeps the promises of the callers is sound.** -/
theorem Structured.perform {op : CacheOp} (hprom : op.promised c = true) (hvis : op.visits c = true) :
    Sound c (c.perform op) := by
  cases op with
  | assumePod pod => exact h.assumePod pod
  | finishBinding pod now => exact h.finishBinding pod now
  | forgetPod pod => exact h.forgetPod pod
  | addPod pod => exact h.addPod pod
  | updatePod =>
    obtain ⟨huid, hold⟩ := of_decide_eq_true hprom
    refine h.updatePod huid fun _ hps => ?_
    rw [hps] at hold
    exact of_decide_eq_true hold
  | removePod pod => exact h.removePod pod
  | addNode node => exact .ok (h.putNode _ node)
  | updateNode _ newNode => exact .ok (h.putNode _ newNode)
  | removeNode => exact h.removeNode (of_decide_eq_true hprom)
  | cleanupAssumedPods now =>
    obtain ⟨hnodup, hord⟩ := of_decide_eq_true hvis
    obtain ⟨_, hrun, hstruct⟩ := h.cleanupAssumedPods now hnodup fun _ hkey => by
      rw [← hord, List.mem_toFinset]
      exact hkey
    rw [SchedulerCache.perform, hrun]
    exact .ok hstruct

end

theorem run_structured {ttl : Int} {ops : List CacheOp}
    (hrun : promisedSystem.Run (newSchedulerCache ttl) ops c) : Structured c := by
  refine hrun.invariant Structured ?_ (structured_new ttl)
  intro c op c' hstep h
  obtain ⟨hprom, hstep⟩ := promisedSystem_step hstep
  obtain ⟨hvis, hstate⟩ := cacheSystem_step hstep
  exact (h.perform hprom hvis).structured h hstate

/-- **In every run the assumed pods are cached, every cached pod is on its node and nowhere else,
no other pod is anywhere, an assumed pod that is bound has a deadline, no `NodeInfo` is left without
a node and a pod, and the next call neither panics nor changes anything when it fails.** -/
theorem cache_structure {ttl : Int} {ops : List CacheOp} {c : SchedulerCache}
    (hrun : promisedSystem.Run (newSchedulerCache ttl) ops c) :
    (∀ key ∈ c.assumedPods, key ∈ c.podStates) ∧
    (∀ key ps, c.podStates.lookup key = some ps → ∀ name,
      occurrences key (podsAt c.nodes name) = if name = ps.pod.nodeName then 1 else 0) ∧
    (∀ name, ∀ pod ∈ podsAt c.nodes name, pod.uid ∈ c.podStates) ∧
    (∀ key ∈ c.assumedPods, ∀ ps, c.podStates.lookup key = some ps → ps.bindingFinished = true → ps.deadline ≠ none) ∧
    (∀ name n, c.nodes.lookup name = some n → n.node = none → n.pods ≠ []) ∧
    ∀ op, op.promised c = true → op.visits c = true → c.perform op ≠ .panic ∧
      ∀ c' message, c.perform op = .error c' message → c' = c := by
  have h := run_structured hrun
  refine ⟨h.assumed, ?_, ?_, h.deadline, h.placed.populated, ?_⟩
  · intro key ps hps name
    rw [h.placed.count, placement_of_lookup hps]
    simp only [some.injEq, eq_comm]
  · intro name pod hpod
    have hpos : 0 < occurrences pod.uid (podsAt c.nodes name) := occurrences_pos.mpr ⟨pod, hpod, rfl⟩
    rw [h.placed.count] at hpos
    rw [mem_iff_lookup_ne_none]
    intro hnone
    rw [placement, hnone] at hpos
    exact absurd hpos (lt_irrefl 0)
  · intro op hpromised hvisits
    have hsound := h.perform hpromised hvisits
    generalize c.perform op = outcome at hsound
    cases hsound with
    | ok | fatal => exact ⟨fun hpanic => (by cases hpanic), fun _ _ herror => by cases herror⟩
    | error => exact ⟨fun hpanic => (by cases hpanic), fun _ _ herror => by cases herror; rfl⟩

def idlePod (uid nodeName : String) : Pod :=
  { name := uid, uid, nodeName, containers := [], initContainers := [], affinity := none }

def bareNode (name : String) : Node :=
  { name, labels := ∅, allocatable := .empty, taints := [], conditions := [], images := [] }

/-- A pod is assumed on one node, confirmed on another one and updated there, while another assumed
pod expires and the first node goes. -/
def relocation : List CacheOp :=
  [.addNode (bareNode "a"), .assumePod (idlePod "moved" "a"), .assumePod (idlePod "late" "a"),
    .finishBinding (idlePod "late" "a") 5, .cleanupAssumedPods 40 ["moved", "late"],
    .addPod (idlePod "moved" "b"), .updatePod (idlePod "moved" "b") (idlePod "moved" "b"),
    .removePod (idlePod "late" "a"), .removeNode (bareNode "a")]

theorem cache_structure_relocation :
    let c := relocation.foldl next (newSchedulerCache 30)
    c.podStates.lookup "moved" = some { pod := idlePod "moved" "b" } ∧
    ∀ name, occurrences "moved" (podsAt c.nodes name) = if name = "b" then 1 else 0 := by
  have hcached : (relocation.foldl next (newSchedulerCache 30)).podStates.lookup
      "moved" = some { pod := idlePod "moved" "b" } := by decide
  have hrun : promisedSystem.Run (newSchedulerCache 30) relocation
      (relocation.foldl next (newSchedulerCache 30)) :=
    System.run_foldl (by decide)
  exact ⟨hcached, (cache_structure hrun).2.1 "moved" _ hcached⟩

end LeanKube.Scheduler
