import LeanKube.PredicateMetadataEntries

/-! What `getMetadata` computes for a pod and a cluster: the entries of all pods in the cluster, for
every order in which the nodes are processed. -/

namespace LeanKube.Scheduler
open Storage TopologyPairsMaps List Option Finset Finmap Computes PodSlice NodeInfo AddsBoth
variable {t a b : TopologyPairsMaps} {mem mem' mem'' : MetadataMemory} {R R' S S' : Entries} {pod : Pod}

/-! ### New maps -/

namespace TopologyPairsMaps

theorem Fresh.of_frames {T : Set TopologyPairsMaps} (h : t.Fresh mem') (hframes : Frames T mem mem') : t.Fresh mem :=
  ⟨fun hlive => h.1 (hframes.livePods _ hlive), fun hlive => h.2 (hframes.livePairs _ hlive)⟩

structure NewMaps (a b : TopologyPairsMaps) (mem mem' : MetadataMemory) : Prop where
  fst : a.Denotes mem' ∅
  snd : b.Denotes mem' ∅
  apart : a.Apart b
  fresh_fst : a.Fresh mem
  fresh_snd : b.Fresh mem
  frames : Frames ∅ mem mem'

theorem newMaps (mem : MetadataMemory) :
    NewMaps (newTopologyPairsMaps mem).1 (newTopologyPairsMaps (newTopologyPairsMaps mem).2).1 mem
      (newTopologyPairsMaps (newTopologyPairsMaps mem).2).2 := by
  obtain ⟨ha, hframes, hfresh⟩ := newTopologyPairsMaps_spec mem
  obtain ⟨hb, hframes', hfresh'⟩ := newTopologyPairsMaps_spec (newTopologyPairsMaps mem).2
  exact ⟨ha.frame_empty hframes', hb, ha.apart hfresh', hfresh, hfresh'.of_frames hframes, hframes.trans hframes'⟩

theorem AddsBoth.frames_of_new (h : AddsBoth a b mem' mem'' R R' S S') (hnew : NewMaps a b mem mem') :
    Frames ∅ mem mem'' := by
  have hall : Frames (insert a (insert b ∅)) mem mem'' :=
    (hnew.frames.of_empty _).trans (h.frames.mono (by simp))
  exact (hall.of_fresh hnew.fresh_fst).of_fresh hnew.fresh_snd

theorem AddsBoth.of_frames (hframes : Frames ∅ mem mem') (h : AddsBoth a b mem' mem'' R R' S S') :
    AddsBoth a b mem mem'' R R' S S' :=
  ⟨h.fst, h.snd, (hframes.of_empty _).trans h.frames⟩

end TopologyPairsMaps

/-! ### Incoming affinity and anti-affinity -/

structure IncomingTerms.Of (terms : IncomingTerms) (pod : Pod) : Prop where
  pod_eq : terms.pod = pod
  affinityTerms_eq : terms.affinityTerms = pod.affinityTerms
  antiAffinityTerms_eq : terms.antiAffinityTerms = pod.antiAffinityTerms
  properties_eq : getAffinityTermProperties pod pod.affinityTerms = some terms.affinityProperties

theorem mem_affinityEntries_iff {node : Node} {existingPod : Pod} (e : TopologyPair × Pod) :
    e ∈ affinityEntries pod node existingPod ↔
      (pod.affinityTerms ≠ [] ∧ ∀ term ∈ pod.affinityTerms, termMatches pod term existingPod) ∧
        e ∈ termEntries node existingPod pod.affinityTerms := by
  constructor
  · rintro ⟨hall, term, hterm, he⟩
    exact ⟨⟨ne_nil_of_mem hterm, hall⟩, term, hterm, he⟩
  · rintro ⟨⟨-, hall⟩, he⟩
    exact ⟨hall, he⟩

variable {terms : IncomingTerms} (rt : Runtime)

theorem addAffinity_adds (hterms : terms.Of pod) (node : Node) (existingPod : Pod) (h : a.Denotes mem R) : a.Adds mem
      (if podMatchesAllAffinityTermProperties existingPod terms.affinityProperties then
        a.addTermPairs node existingPod mem terms.affinityTerms
      else mem) R (affinityEntries pod node existingPod) := by
  refine addTermPairs_adds_ite h node existingPod terms.affinityTerms fun e => ?_
  rw [podMatchesAllAffinityTermProperties_iff hterms.properties_eq, hterms.affinityTerms_eq]
  exact mem_affinityEntries_iff e

theorem processPods_cons (terms : IncomingTerms) (node : Node) (existingPod : Pod) (existing : List Pod)
    (a b : TopologyPairsMaps) (mem : MetadataMemory) :
    processPods terms node a b (existingPod :: existing) mem =
      (b.addMatchingTermPairs node terms.pod existingPod existingPod terms.antiAffinityTerms
        (if podMatchesAllAffinityTermProperties existingPod terms.affinityProperties then
          a.addTermPairs node existingPod mem terms.affinityTerms
        else mem)).bind (processPods terms node a b existing) := by
  rw [processPods]
  cases b.addMatchingTermPairs node terms.pod existingPod existingPod terms.antiAffinityTerms _ <;> rfl

theorem processPods_computes (hterms : terms.Of pod) (node : Node) (existing : List Pod)
    (ha : a.Denotes mem R) (hb : b.Denotes mem S) (hapart : a.Apart b) :
    Computes (processPods terms node a b existing mem)
      (existing ≠ [] → ValidTerms pod.antiAffinityTerms) fun mem' =>
        AddsBoth a b mem mem' R {e | ∃ q ∈ existing, e ∈ affinityEntries pod node q}
          S {e | ∃ q ∈ existing, e ∈ antiAffinityEntries pod node q} := by
  induction existing generalizing mem R S with
  | nil =>
    rw [entries_nil, entries_nil]
    exact of_some (by simp) (refl ha hb)
  | cons existingPod existing ih =>
    have hfirst := addAffinity_adds hterms node existingPod ha
    have hsnd := addMatchingTermPairs_computes node pod existingPod existingPod pod.antiAffinityTerms
      (hb.frame hfirst.frames (by simpa using hapart.symm))
    rw [entries_cons, entries_cons, processPods_cons, hterms.pod_eq, hterms.antiAffinityTerms_eq]
    refine (hsnd.bind fun _ hadds => ?_).congr
      (show _ ∧ (existing ≠ [] → ValidTerms pod.antiAffinityTerms) ↔ _ by simp; tauto)
    have hone := of_adds hfirst hadds hapart
    exact (ih hone.fst hone.snd).mono fun _ hrest => hone.trans hrest

theorem appendResult_adds (ha : a.Denotes mem R) (hb : b.Denotes mem S) (hapart : b.Apart a) :
    a.Adds mem (appendResult rt mem a b) R S := by
  rw [appendResult]
  split_ifs with hpairs
  · exact appendMaps_adds rt ha hb hapart
  · have hnone : S = ∅ := by
      apply Set.eq_empty_of_forall_notMem
      rintro ⟨pair, existingPod⟩ hmem
      have hkey := (SetMaps.mem_keys_iff hb.fullPods pair).mpr ⟨existingPod, (hb.mem_pods _ _).mpr hmem⟩
      exact hpairs (card_pos.mpr ⟨pair, hkey⟩)
    rw [hnone]
    exact Adds.refl ha

def nodeEntries (f : Node → Pod → Entries) (nodeInfo : NodeInfo) : Entries :=
  {e | ∃ node ∈ nodeInfo.node, ∃ q ∈ nodeInfo.pods, e ∈ f node q}

theorem nodeEntries_of_some {f : Node → Pod → Entries} {nodeInfo : NodeInfo} {node : Node}
    (h : nodeInfo.node = some node) : nodeEntries f nodeInfo = {e | ∃ q ∈ nodeInfo.pods, e ∈ f node q} := by
  simp [nodeEntries, h]

theorem processNodes_computes (hterms : terms.Of pod) (nodeInfos : List NodeInfo)
    (ha : a.Denotes mem R) (hb : b.Denotes mem S) (hapart : a.Apart b)
    (hnodes : ∀ nodeInfo ∈ nodeInfos, nodeInfo.node.isSome) :
    Computes (processNodes rt terms a b nodeInfos mem)
      (∀ nodeInfo ∈ nodeInfos, nodeInfo.pods ≠ [] → ValidTerms pod.antiAffinityTerms) fun mem' =>
        AddsBoth a b mem mem' R {e | ∃ nodeInfo ∈ nodeInfos, e ∈ nodeEntries (affinityEntries pod) nodeInfo}
          S {e | ∃ nodeInfo ∈ nodeInfos, e ∈ nodeEntries (antiAffinityEntries pod) nodeInfo} := by
  induction nodeInfos generalizing mem R S with
  | nil =>
    rw [entries_nil, entries_nil]
    exact of_some (by simp) (refl ha hb)
  | cons nodeInfo _ ih =>
    rw [List.forall_mem_cons] at hnodes
    obtain ⟨node, hnode⟩ := isSome_iff_exists.mp hnodes.1
    have hnew := newMaps mem
    have hpods := processPods_computes hterms node nodeInfo.pods hnew.fst hnew.snd hnew.apart
    rw [entries_cons, entries_cons, nodeEntries_of_some hnode, nodeEntries_of_some hnode,
      List.forall_mem_cons, processNodes, hnode]
    simp only
    by_cases hvalid : nodeInfo.pods ≠ [] → ValidTerms pod.antiAffinityTerms
    · obtain ⟨_, hmem₁, hfound⟩ := hpods.exists_some hvalid
      rw [hmem₁]
      -- The maps of the node are new, so that the maps of all nodes are as before.
      have hframes := hfound.frames_of_new hnew
      have hfst := appendResult_adds rt (ha.frame_empty hframes) hfound.fst (ha.apart hnew.fresh_fst).symm
      have hsnd := appendResult_adds rt
        ((hb.frame_empty hframes).frame hfst.frames (by simpa using hapart.symm))
        (hfound.snd.frame hfst.frames (by simpa using (ha.apart hnew.fresh_snd).symm))
        (hb.apart hnew.fresh_snd).symm
      rw [Set.empty_union] at hfst hsnd
      have hone := (of_adds hfst hsnd hapart).of_frames hframes
      refine ((ih hone.fst hone.snd hnodes.2).mono fun _ hrest => hone.trans hrest).congr ?_
      exact (and_iff_right hvalid).symm
    · rw [hpods.eq_none hvalid]
      exact of_none fun hboth => hvalid hboth.1

/-! ### The whole cluster -/

def Lists (pods : NodeInfo → List Pod) (cluster : Cluster) (node : Node) (pod : Pod) : Prop :=
  ∃ name nodeInfo, cluster.lookup name = some nodeInfo ∧ nodeInfo.node = some node ∧ pod ∈ pods nodeInfo

def clusterEntries (pods : NodeInfo → List Pod) (f : Node → Pod → Entries) (cluster : Cluster) : Entries :=
  {e | ∃ node q, Lists pods cluster node q ∧ e ∈ f node q}

def existingAntiAffinity (pod : Pod) : Cluster → Entries :=
  clusterEntries NodeInfo.podsWithAffinity (existingEntries pod)

def incomingAffinity (pod : Pod) : Cluster → Entries := clusterEntries NodeInfo.pods (affinityEntries pod)

def incomingAntiAffinity (pod : Pod) : Cluster → Entries :=
  clusterEntries NodeInfo.pods (antiAffinityEntries pod)

/-- When there is metadata: all nodes are set, and all selectors that are looked at are valid. The
anti-affinity of the pod is looked at for each existing pod only. -/
structure ValidFor (pod : Pod) (cluster : Cluster) : Prop where
  nodes : ∀ name nodeInfo, cluster.lookup name = some nodeInfo → nodeInfo.node.isSome
  existing : ∀ node q, Lists NodeInfo.podsWithAffinity cluster node q → ValidTerms q.antiAffinityTerms
  affinity : ValidTerms pod.affinityTerms
  antiAffinity : ∀ node q, Lists NodeInfo.pods cluster node q → ValidTerms pod.antiAffinityTerms

noncomputable instance : Inhabited Runtime where
  default :=
    { range := fun _ s => s.toList
      mem_range := fun _ _ _ => mem_toList
      nodup_range := fun _ s => s.nodup_toList
      capacity := fun _ n => n
      le_capacity := fun _ _ => Nat.le_refl _ }

section Cluster
variable {cluster : Cluster} (schedule : Schedule cluster)

noncomputable instance : Inhabited (Schedule cluster) where
  default :=
    { names := cluster.keys.toList
      ranges := ⟨Finset.nodup_toList _, fun name => by rw [Finset.mem_toList, Finmap.mem_keys]⟩
      existing := (cluster.keys.toList.filterMap cluster.lookup).flatMap fun nodeInfo =>
        nodeInfo.node.toList.flatMap fun node => nodeInfo.podsWithAffinity.map (node, ·)
      mem_existing := fun node pod => by
        simp only [List.mem_flatMap, List.mem_filterMap, Finset.mem_toList, Finmap.mem_keys,
          Option.mem_toList, List.mem_map, Prod.mk.injEq]
        constructor
        · rintro ⟨nodeInfo, ⟨name, -, hlookup⟩, _, hnode, _, hpod, rfl, rfl⟩
          exact ⟨name, nodeInfo, hlookup, hnode, hpod⟩
        · rintro ⟨name, nodeInfo, hlookup, hnode, hpod⟩
          exact ⟨nodeInfo, ⟨name, Finmap.mem_of_lookup_eq_some hlookup, hlookup⟩, node, hnode, pod, hpod, rfl, rfl⟩ }

theorem Schedule.mem_nodeInfos (nodeInfo : NodeInfo) :
    nodeInfo ∈ schedule.nodeInfos ↔ ∃ name, cluster.lookup name = some nodeInfo := by
  rw [nodeInfos, List.mem_filterMap]
  refine exists_congr fun _ => and_iff_right_of_imp fun hlookup => ?_
  rw [schedule.ranges.2]
  exact mem_of_lookup_eq_some hlookup

theorem Schedule.entries_eq (f : Node → Pod → Entries) :
    {e | ∃ nodeInfo ∈ schedule.nodeInfos, e ∈ nodeEntries f nodeInfo} = clusterEntries pods f cluster := by
  ext e
  constructor
  · rintro ⟨nodeInfo, hmem, node, hnode, q, hq, he⟩
    obtain ⟨name, hlookup⟩ := (schedule.mem_nodeInfos nodeInfo).mp hmem
    exact ⟨node, q, ⟨name, nodeInfo, hlookup, hnode, hq⟩, he⟩
  · rintro ⟨node, q, ⟨name, nodeInfo, hlookup, hnode, hq⟩, he⟩
    exact ⟨nodeInfo, (schedule.mem_nodeInfos nodeInfo).mpr ⟨name, hlookup⟩, node, hnode, q, hq, he⟩

theorem getTPMapMatchingExistingAntiAffinity_computes (rt : Runtime) (pod : Pod) (mem : MetadataMemory) :
    Computes (getTPMapMatchingExistingAntiAffinity rt pod schedule mem)
      ((∀ nodeInfo ∈ schedule.nodeInfos, nodeInfo.node.isSome) ∧
        ∀ node q, Lists podsWithAffinity cluster node q → ValidTerms q.antiAffinityTerms)
      fun found =>
      found.1.Denotes found.2 (existingAntiAffinity pod cluster) ∧ Frames ∅ mem found.2 := by
  obtain ⟨hden, hframes, hfresh⟩ := newTopologyPairsMaps_spec mem
  have hexi := processExisting_computes rt pod schedule.existing hden
  have hents : {e | ∃ x ∈ schedule.existing, e ∈ existingEntries pod x.1 x.2} = existingAntiAffinity pod cluster := by
    simp only [existingAntiAffinity, clusterEntries, Prod.exists, schedule.mem_existing]
    rfl
  have hvalid : (∀ x ∈ schedule.existing, ValidTerms x.2.antiAffinityTerms) ↔
      ∀ node q, Lists podsWithAffinity cluster node q → ValidTerms q.antiAffinityTerms := by
    simp only [Prod.forall, schedule.mem_existing]
    rfl
  rw [hents, hvalid] at hexi
  rw [getTPMapMatchingExistingAntiAffinity]
  simp only [List.any_eq_true, Option.isNone_iff_eq_none]
  split_ifs with hnode
  · refine of_none fun hboth => ?_
    obtain ⟨nodeInfo, hmem, hnone⟩ := hnode
    have hsome := hboth.1 nodeInfo hmem
    rw [hnone] at hsome
    cases hsome
  · refine (hexi.map fun _ hadds => ?_).congr (and_iff_right ?_).symm
    · have hholds := hadds.denotes
      rw [Set.empty_union] at hholds
      exact ⟨hholds, hadds.frames_of_fresh hframes hfresh⟩
    · intro nodeInfo hmem
      rw [isSome_iff_ne_none]
      exact fun hnone => hnode ⟨nodeInfo, hmem, hnone⟩

variable {affinity : Affinity}

theorem Pod.affinityTerms_of_some (h : pod.affinity = some affinity) :
    pod.affinityTerms = getPodAffinityTerms affinity := by
  rw [affinityTerms, h]
  rfl

theorem incomingAffinity_of_nil (h : pod.affinityTerms = []) : incomingAffinity pod cluster = ∅ := by
  simp [incomingAffinity, clusterEntries, affinityEntries, termEntries, h]

theorem incomingAntiAffinity_of_nil (h : pod.antiAffinityTerms = []) : incomingAntiAffinity pod cluster = ∅ := by
  simp [incomingAntiAffinity, clusterEntries, antiAffinityEntries, matchingEntries, h]

/-- The maps of the incoming affinity and anti-affinity are new maps with the entries of the cluster. -/
structure IncomingMaps (pod : Pod) (cluster : Cluster) (mem : MetadataMemory)
    (found : TopologyPairsMaps × TopologyPairsMaps × MetadataMemory) : Prop where
  affinity : found.1.Denotes found.2.2 (incomingAffinity pod cluster)
  antiAffinity : found.2.1.Denotes found.2.2 (incomingAntiAffinity pod cluster)
  apart : found.1.Apart found.2.1
  fresh_affinity : found.1.Fresh mem
  fresh_antiAffinity : found.2.1.Fresh mem
  frames : Frames ∅ mem found.2.2

theorem IncomingMaps.of_adds (hnew : NewMaps a b mem mem')
    (h : AddsBoth a b mem' mem'' ∅ (incomingAffinity pod cluster) ∅ (incomingAntiAffinity pod cluster)) :
    IncomingMaps pod cluster mem (a, b, mem'') where
  affinity := by
    have hfst := h.fst
    rwa [Set.empty_union] at hfst
  antiAffinity := by
    have hsnd := h.snd
    rwa [Set.empty_union] at hsnd
  apart := hnew.apart
  fresh_affinity := hnew.fresh_fst
  fresh_antiAffinity := hnew.fresh_snd
  frames := h.frames_of_new hnew

theorem Schedule.forall_pods_iff (hnodes : ∀ nodeInfo ∈ schedule.nodeInfos, nodeInfo.node.isSome) {P : Prop} :
    (∀ nodeInfo ∈ schedule.nodeInfos, nodeInfo.pods ≠ [] → P) ↔ ∀ node q, Lists pods cluster node q → P := by
  constructor
  · rintro h node q ⟨name, nodeInfo, hlookup, -, hq⟩
    exact h nodeInfo ((schedule.mem_nodeInfos nodeInfo).mpr ⟨name, hlookup⟩) (ne_nil_of_mem hq)
  · intro h nodeInfo hmem hpods
    obtain ⟨name, hlookup⟩ := (schedule.mem_nodeInfos nodeInfo).mp hmem
    obtain ⟨node, hnode⟩ := isSome_iff_exists.mp (hnodes nodeInfo hmem)
    obtain ⟨q, hq⟩ := exists_mem_of_ne_nil _ hpods
    exact h node q ⟨name, nodeInfo, hlookup, hnode, hq⟩

theorem getTPMapMatchingIncomingAffinityAntiAffinity_computes (rt : Runtime) (pod : Pod)
    (mem : MetadataMemory) (hnodes : ∀ nodeInfo ∈ schedule.nodeInfos, nodeInfo.node.isSome) :
    Computes (getTPMapMatchingIncomingAffinityAntiAffinity rt pod schedule mem)
      (ValidTerms pod.affinityTerms ∧ ∀ node q, Lists pods cluster node q → ValidTerms pod.antiAffinityTerms)
      (IncomingMaps pod cluster mem) := by
  have hnew := newMaps mem
  have hnothing (hterms : pod.affinityTerms = []) (hantiTerms : pod.antiAffinityTerms = []) :
      IncomingMaps pod cluster mem ((newTopologyPairsMaps mem).1, (newTopologyPairsMaps (newTopologyPairsMaps mem).2).1,
        (newTopologyPairsMaps (newTopologyPairsMaps mem).2).2) := by
    apply IncomingMaps.of_adds hnew
    rw [incomingAffinity_of_nil hterms, incomingAntiAffinity_of_nil hantiTerms]
    exact refl hnew.fst hnew.snd
  rw [getTPMapMatchingIncomingAffinityAntiAffinity]
  cases haff : pod.affinity with
  | none =>
    have hterms : pod.affinityTerms = [] := by rw [Pod.affinityTerms, haff]; rfl
    have hantiTerms := Pod.antiAffinityTerms_of_none haff
    exact of_some (by simp [ValidTerms, hterms, hantiTerms]) (hnothing hterms hantiTerms)
  | some =>
    have hterms := Pod.affinityTerms_of_some haff
    have hantiTerms := Pod.antiAffinityTerms_of_some haff
    simp only [Bool.and_eq_true, Bool.not_eq_true']
    split_ifs with hset
    · rw [getPodAffinityTerms, hset.1] at hterms
      rw [getPodAntiAffinityTerms, hset.2] at hantiTerms
      exact of_some (by simp [ValidTerms, hterms, hantiTerms]) (hnothing hterms hantiTerms)
    · rw [← hterms, ← hantiTerms]
      have hcomp := getAffinityTermProperties_computes pod pod.affinityTerms
      by_cases hvalid : ValidTerms pod.affinityTerms
      · obtain ⟨properties, hprops, -⟩ := hcomp.exists_some hvalid
        have hof : IncomingTerms.Of ⟨pod, pod.affinityTerms, properties, pod.antiAffinityTerms⟩ pod :=
          ⟨rfl, rfl, rfl, hprops⟩
        have hall := processNodes_computes rt hof schedule.nodeInfos hnew.fst hnew.snd hnew.apart hnodes
        rw [schedule.entries_eq, schedule.entries_eq, schedule.forall_pods_iff hnodes] at hall
        rw [hprops, and_iff_right hvalid]
        exact hall.map fun _ hadds => .of_adds hnew hadds
      · rw [hcomp.eq_none hvalid]
        exact of_none fun hboth => hvalid hboth.1

end Cluster

/-! ### The metadata -/

/-- The entries of the three maps of the metadata. -/
@[ext]
structure AffinityEntries where
  existing : Entries
  affinity : Entries
  antiAffinity : Entries

/-- The entries that the metadata of a pod has for a cluster. -/
def AffinityEntries.of (pod : Pod) (cluster : Cluster) : AffinityEntries :=
  ⟨existingAntiAffinity pod cluster, incomingAffinity pod cluster, incomingAntiAffinity pod cluster⟩

/-- The three maps of the metadata stand for the entries and share nothing. -/
structure AffinityMetadata.Denotes (metadata : AffinityMetadata) (mem : MetadataMemory) (E : AffinityEntries) :
    Prop where
  existing : metadata.topologyPairsAntiAffinityPodsMap.Denotes mem E.existing
  affinity : metadata.topologyPairsPotentialAffinityPods.Denotes mem E.affinity
  antiAffinity : metadata.topologyPairsPotentialAntiAffinityPods.Denotes mem E.antiAffinity
  existing_apart_affinity : metadata.topologyPairsAntiAffinityPodsMap.Apart metadata.topologyPairsPotentialAffinityPods
  existing_apart_antiAffinity :
    metadata.topologyPairsAntiAffinityPodsMap.Apart metadata.topologyPairsPotentialAntiAffinityPods
  affinity_apart_antiAffinity :
    metadata.topologyPairsPotentialAffinityPods.Apart metadata.topologyPairsPotentialAntiAffinityPods
  list_lt : metadata.serviceAffinityMatchingPodList.array < mem.arrays.length

structure TopologyPairs where
  existingAntiAffinity : Contents
  incomingAffinity : Contents
  incomingAntiAffinity : Contents

def AffinityMetadata.topologyPairs (metadata : AffinityMetadata) (mem : MetadataMemory) : TopologyPairs where
  existingAntiAffinity := metadata.topologyPairsAntiAffinityPodsMap.contents mem
  incomingAffinity := metadata.topologyPairsPotentialAffinityPods.contents mem
  incomingAntiAffinity := metadata.topologyPairsPotentialAntiAffinityPods.contents mem

theorem AffinityMetadata.Denotes.topologyPairs_eq_iff {metadata metadata' : AffinityMetadata}
    {E E' : AffinityEntries} (h : metadata.Denotes mem E) (h' : metadata'.Denotes mem' E') :
    metadata.topologyPairs mem = metadata'.topologyPairs mem' ↔ E = E' := by
  rw [topologyPairs, topologyPairs, TopologyPairs.mk.injEq, AffinityEntries.ext_iff,
    h.existing.contents_eq_iff h'.existing,
    h.affinity.contents_eq_iff h'.affinity, h.antiAffinity.contents_eq_iff h'.antiAffinity]

variable (mem : MetadataMemory) (elements : List Pod)

theorem PodSlice.ofList_frames : Frames ∅ mem (ofList rt mem elements).2 := by
  refine ⟨fun _ _ _ => rfl, fun _ _ _ => rfl, fun _ => id, fun _ => id, fun i hi => ?_, ?_⟩
  · exact List.getElem?_append_left hi
  · simp [ofList]

theorem PodSlice.ofList_lt : (ofList rt mem elements).1.array < (ofList rt mem elements).2.arrays.length := by
  simp [ofList]

theorem getMetadata_computes (pod : Pod) {cluster : Cluster} (schedule : Schedule cluster)
    (service : ServiceAffinity) (mem : MetadataMemory) :
    Computes (getMetadata rt pod schedule service mem) (ValidFor pod cluster) fun found =>
      found.1.pod = pod ∧ found.1.Denotes found.2 (.of pod cluster) ∧ Frames ∅ mem found.2 := by
  have hexi := getTPMapMatchingExistingAntiAffinity_computes schedule rt pod mem
  rw [getMetadata]
  cases hfirst : getTPMapMatchingExistingAntiAffinity rt pod schedule mem with
  | none =>
    refine of_none fun hvalid => hexi.not_valid_of_none hfirst ⟨fun nodeInfo hmem => ?_, hvalid.existing⟩
    obtain ⟨name, hlookup⟩ := (schedule.mem_nodeInfos nodeInfo).mp hmem
    exact hvalid.nodes name nodeInfo hlookup
  | some first =>
    obtain ⟨hnodes, hvalidExisting⟩ := hexi.valid_of_some hfirst
    obtain ⟨hden, hframes⟩ := hexi.post first hfirst
    have hinc := getTPMapMatchingIncomingAffinityAntiAffinity_computes schedule rt pod first.2 hnodes
    have hvalid : (ValidTerms pod.affinityTerms ∧
        ∀ node q, Lists pods cluster node q → ValidTerms pod.antiAffinityTerms) ↔
        ValidFor pod cluster := by
      constructor
      · rintro ⟨haff, hanti⟩
        refine ⟨fun name nodeInfo hlookup => ?_, hvalidExisting, haff, hanti⟩
        exact hnodes nodeInfo ((schedule.mem_nodeInfos nodeInfo).mpr ⟨name, hlookup⟩)
      · intro h
        exact ⟨h.affinity, h.antiAffinity⟩
    rw [hvalid] at hinc
    simp only
    cases hsnd : getTPMapMatchingIncomingAffinityAntiAffinity rt pod schedule first.2 with
    | none => exact of_none (hinc.not_valid_of_none hsnd)
    | some second =>
      have hmaps := hinc.post second hsnd
      have hlist := ofList_frames rt second.2.2 service.matchingPodList
      refine of_some (hinc.valid_of_some hsnd)
        ⟨rfl, ?_, (hframes.trans hmaps.frames).trans hlist⟩
      exact ⟨(hden.frame_empty hmaps.frames).frame_empty hlist, hmaps.affinity.frame_empty hlist,
        hmaps.antiAffinity.frame_empty hlist, hden.apart hmaps.fresh_affinity,
        hden.apart hmaps.fresh_antiAffinity, hmaps.apart, ofList_lt ..⟩

end LeanKube.Scheduler
