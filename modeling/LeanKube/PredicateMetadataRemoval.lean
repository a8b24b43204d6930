import LeanKube.PredicateMetadataCluster

/-! `removePod` on metadata, and on a copy of it, leaves what `getMetadata` finds without the pod. -/

namespace LeanKube.Scheduler
open TopologyPairsMaps List NodeInfo
variable {t u : TopologyPairsMaps} {mem mem' : MetadataMemory} {R : Entries} {E : AffinityEntries} {pod p : Pod}
  {metadata : AffinityMetadata} (rt : Runtime)

/-! ### Clusters without a pod -/

variable (cluster : Cluster)

def InCluster (pod : Pod) : Prop :=
  ∃ name nodeInfo, cluster.lookup name = some nodeInfo ∧ (pod ∈ nodeInfo.pods ∨ pod ∈ nodeInfo.podsWithAffinity)

def DistinctNames : Prop :=
  ∀ q q', InCluster cluster q → InCluster cluster q' → getPodFullName q = getPodFullName q' → q = q'

structure NodeWithout (p : Pod) (nodeInfo nodeInfo' : NodeInfo) : Prop where
  node_eq : nodeInfo'.node = nodeInfo.node
  mem_pods : ∀ q, q ∈ nodeInfo'.pods ↔ q ∈ nodeInfo.pods ∧ q ≠ p
  mem_podsWithAffinity : ∀ q, q ∈ nodeInfo'.podsWithAffinity ↔ q ∈ nodeInfo.podsWithAffinity ∧ q ≠ p

def Without (p : Pod) (cluster' : Cluster) : Prop :=
  ∀ name, Option.Rel (NodeWithout p) (cluster.lookup name) (cluster'.lookup name)

section Without
variable {cluster cluster' : Cluster} (hwithout : Without cluster p cluster')
include hwithout

theorem Without.lookup_left {name : String} {nodeInfo : NodeInfo} (h : cluster.lookup name = some nodeInfo) :
    ∃ nodeInfo', cluster'.lookup name = some nodeInfo' ∧ NodeWithout p nodeInfo nodeInfo' := by
  have hrel := hwithout name
  rw [h] at hrel
  generalize cluster'.lookup name = found at hrel ⊢
  cases hrel with
  | some hnode => exact ⟨_, rfl, hnode⟩

theorem Without.lookup_right {name : String} {nodeInfo' : NodeInfo} (h : cluster'.lookup name = some nodeInfo') :
    ∃ nodeInfo, cluster.lookup name = some nodeInfo ∧ NodeWithout p nodeInfo nodeInfo' := by
  have hrel := hwithout name
  rw [h] at hrel
  generalize cluster.lookup name = found at hrel ⊢
  cases hrel with
  | some hnode => exact ⟨_, rfl, hnode⟩

variable {pods : NodeInfo → List Pod}

section
variable (hpods : ∀ nodeInfo nodeInfo', NodeWithout p nodeInfo nodeInfo' → ∀ q, q ∈ pods nodeInfo' ↔
    q ∈ pods nodeInfo ∧ q ≠ p)
include hpods

theorem Without.lists_iff (node : Node) (q : Pod) : Lists pods cluster' node q ↔ Lists pods cluster node q ∧ q ≠ p := by
  constructor
  · rintro ⟨name, nodeInfo', hlookup', hnode', hq'⟩
    obtain ⟨nodeInfo, hlookup, hrel⟩ := hwithout.lookup_right hlookup'
    obtain ⟨hq, hne⟩ := (hpods _ _ hrel q).mp hq'
    exact ⟨⟨name, nodeInfo, hlookup, hrel.node_eq ▸ hnode', hq⟩, hne⟩
  · rintro ⟨⟨name, nodeInfo, hlookup, hnode, hq⟩, hne⟩
    obtain ⟨nodeInfo', hlookup', hrel⟩ := hwithout.lookup_left hlookup
    exact ⟨name, nodeInfo', hlookup', hrel.node_eq.trans hnode, (hpods _ _ hrel q).mpr ⟨hq, hne⟩⟩

theorem Without.clusterEntries_eq {f : Node → Pod → Entries} (hf : ∀ node q, ∀ e ∈ f node q, e.2 = q) :
    clusterEntries pods f cluster' = dropPod (clusterEntries pods f cluster) p := by
  ext e
  constructor
  · rintro ⟨node, q, hlists, he⟩
    obtain ⟨hlists, hne⟩ := (hwithout.lists_iff hpods node q).mp hlists
    exact ⟨⟨node, q, hlists, he⟩, (hf node q e he).symm ▸ hne⟩
  · rintro ⟨⟨node, q, hlists, he⟩, hne⟩
    refine ⟨node, q, (hwithout.lists_iff hpods node q).mpr ⟨hlists, ?_⟩, he⟩
    rwa [hf node q e he] at hne

end

theorem Without.validFor (h : ValidFor pod cluster) : ValidFor pod cluster' := by
  refine ⟨fun name _ hlookup' => ?_, fun node q hlists => ?_, h.affinity, fun node q hlists => ?_⟩
  · obtain ⟨nodeInfo, hlookup, hrel⟩ := hwithout.lookup_right hlookup'
    rw [hrel.node_eq]
    exact h.nodes name nodeInfo hlookup
  · exact h.existing node q ((hwithout.lists_iff (fun _ _ hrel => hrel.mem_podsWithAffinity) node q).mp hlists).1
  · exact h.antiAffinity node q ((hwithout.lists_iff (fun _ _ hrel => hrel.mem_pods) node q).mp hlists).1

end Without

/-! ### How the cache removes a pod -/

theorem mem_dropKey_iff {pods : List Pod} (hkey : p.uid ≠ "") (hnodup : pods.Nodup)
    (huid : ∀ q ∈ pods, q.uid = p.uid → q = p) (q : Pod) : q ∈ dropKey p.uid pods ↔ q ∈ pods ∧ q ≠ p := by
  rw [dropKey]
  cases hrem : removeFirst (hasKey p.uid) pods with
  | none =>
    refine (and_iff_left_of_imp fun hq => ?_).symm
    rintro rfl
    exact (removeFirst_hasKey_eq_none hkey).mp hrem q hq rfl
  | some result =>
    obtain ⟨hfound, hperm⟩ := removeFirst_eq_some hrem
    have hp : result.1 = p := huid _ (hperm.mem_iff.mpr mem_cons_self) ((hasKey_iff hkey _).mp hfound)
    rw [hp] at hperm
    have hnot : p ∉ result.2 := (nodup_cons.mp (hperm.nodup_iff.mp hnodup)).1
    rw [hperm.mem_iff, mem_cons]
    constructor
    · intro hq
      exact ⟨.inr hq, fun heq => hnot (heq ▸ hq)⟩
    · rintro ⟨hq, hne⟩
      exact hq.resolve_left hne

variable {nodeInfo nodeInfo' : NodeInfo}

theorem nodeWithout_of_removePod {generation : Int64}
    (h : nodeInfo.removePod p generation = .ok nodeInfo') (hpods : nodeInfo.pods.Nodup)
    (hpodsWithAffinity : nodeInfo.podsWithAffinity.Nodup)
    (huid : ∀ q, q ∈ nodeInfo.pods ∨ q ∈ nodeInfo.podsWithAffinity → q.uid = p.uid → q = p) :
    NodeWithout p nodeInfo nodeInfo' := by
  rw [NodeInfo.removePod, getPodKey] at h
  split_ifs at h with hkey
  cases hrem : removeFirst (hasKey p.uid) nodeInfo.pods with
  | none =>
    simp only [hrem] at h
    split at h <;> cases h
  | some result =>
    simp only [hrem, Outcome.ok.injEq] at h
    subst h
    have hdrop : result.2 = dropKey p.uid nodeInfo.pods := by
      rw [dropKey, hrem]
    refine ⟨rfl, fun q => ?_, mem_dropKey_iff hkey hpodsWithAffinity fun q hq => huid q (.inr hq)⟩
    refine Iff.trans ?_ (mem_dropKey_iff hkey hpods (fun q hq => huid q (.inl hq)) q)
    rw [← hdrop]
    rfl

variable {cluster : Cluster}

theorem without_insert {name : String}
    (hlookup : cluster.lookup name = some nodeInfo) (hnode : NodeWithout p nodeInfo nodeInfo')
    (honly : ∀ name' info, cluster.lookup name' = some info → name' ≠ name →
      p ∉ info.pods ∧ p ∉ info.podsWithAffinity) : Without cluster p (cluster.insert name nodeInfo') := by
  intro name'
  rw [GoMap.lookup_insert_ite]
  split_ifs with hname
  · rw [hname, hlookup]
    exact .some hnode
  · cases hinfo : cluster.lookup name' with
    | none => exact .none
    | some info =>
      obtain ⟨hpods, hpodsWithAffinity⟩ := honly name' info hinfo hname
      have hsame : ∀ {pods : List Pod}, p ∉ pods → ∀ q, q ∈ pods ↔ q ∈ pods ∧ q ≠ p :=
        fun hp q => (and_iff_left_of_imp fun hq => ne_of_mem_of_not_mem hq hp).symm
      exact .some ⟨rfl, hsame hpods, hsame hpodsWithAffinity⟩

/-! ### `removePod` -/

theorem TopologyPairsMaps.Denotes.with_arrays (h : t.Denotes mem R) (arrays : List (List (Option Pod))) :
    t.Denotes { mem with arrays } R :=
  ⟨h.livePods, h.livePairs, h.fullPods, h.fullPairs, h.mem_pods, h.mem_pairs⟩

theorem AffinityMetadata.Denotes.with_arrays (h : metadata.Denotes mem E) {list : PodSlice}
    {arrays : List (List (Option Pod))} (hlist : list.array < arrays.length) :
    AffinityMetadata.Denotes { metadata with serviceAffinityMatchingPodList := list }
      { mem with arrays } E :=
  { h with
    existing := h.existing.with_arrays arrays
    affinity := h.affinity.with_arrays arrays
    antiAffinity := h.antiAffinity.with_arrays arrays
    list_lt := hlist }

def AffinityEntries.All (P : Entries → Prop) (E : AffinityEntries) : Prop :=
  P E.existing ∧ P E.affinity ∧ P E.antiAffinity

def AffinityEntries.dropPod (E : AffinityEntries) (p : Pod) : AffinityEntries :=
  ⟨Scheduler.dropPod E.existing p, Scheduler.dropPod E.affinity p, Scheduler.dropPod E.antiAffinity p⟩

namespace AffinityMetadata

def maps (metadata : AffinityMetadata) : Set TopologyPairsMaps :=
  {metadata.topologyPairsAntiAffinityPodsMap, metadata.topologyPairsPotentialAffinityPods,
    metadata.topologyPairsPotentialAntiAffinityPods}

def removeFromMaps (rt : Runtime) (metadata : AffinityMetadata) (mem : MetadataMemory) (p : Pod) : MetadataMemory :=
  metadata.topologyPairsPotentialAntiAffinityPods.removePod rt
    (metadata.topologyPairsPotentialAffinityPods.removePod rt
      (metadata.topologyPairsAntiAffinityPodsMap.removePod rt mem p) p) p

section
variable (h : metadata.Denotes mem E) (hE : E.All (OnlyNamed · p))
include h hE

theorem removeFromMaps_spec :
    metadata.Denotes (removeFromMaps rt metadata mem p) (E.dropPod p) ∧
      Frames metadata.maps mem (removeFromMaps rt metadata mem p) := by
  obtain ⟨hexi, hframes⟩ := removePod_spec rt h.existing hE.1
  have haffinity₁ := h.affinity.frame hframes (by simpa using h.existing_apart_affinity.symm)
  have hantiAffinity₁ := h.antiAffinity.frame hframes (by simpa using h.existing_apart_antiAffinity.symm)
  obtain ⟨haff, hframes₁⟩ := removePod_spec rt haffinity₁ hE.2.1
  have hexisting₂ := hexi.frame hframes₁ (by simpa using h.existing_apart_affinity)
  have hantiAffinity₂ := hantiAffinity₁.frame hframes₁ (by simpa using h.affinity_apart_antiAffinity.symm)
  obtain ⟨hanti, hframes₂⟩ := removePod_spec rt hantiAffinity₂ hE.2.2
  have hall : Frames metadata.maps mem (removeFromMaps rt metadata mem p) :=
    ((hframes.mono (by simp [maps])).trans (hframes₁.mono (by simp [maps]))).trans
      (hframes₂.mono (by simp [maps]))
  refine ⟨{ h with
    existing := hexisting₂.frame hframes₂ (by simpa using h.existing_apart_antiAffinity)
    affinity := haff.frame hframes₂ (by simpa using h.affinity_apart_antiAffinity)
    antiAffinity := hanti
    list_lt := Nat.lt_of_lt_of_le h.list_lt hall.arrays_le }, hall⟩

/-- `removePod` leaves metadata that stands for the entries, and what is apart from it as it was. -/
def Removes (rt : Runtime) (metadata : AffinityMetadata) (mem : MetadataMemory) (p : Pod) (E : AffinityEntries) :
    Prop :=
  ∃ removed mem', metadata.removePod rt mem p = .ok (removed, mem') ∧ removed.Denotes mem' E ∧
    (∀ (u : TopologyPairsMaps) R, u.Denotes mem R → (∀ t ∈ metadata.maps, u.Apart t) → u.Denotes mem' R) ∧
    ∀ i, i < mem.arrays.length → i ≠ metadata.serviceAffinityMatchingPodList.array → mem'.arrays[i]? = mem.arrays[i]?

theorem removePod_spec (hother : getPodFullName p ≠ getPodFullName metadata.pod) :
    Removes rt metadata mem p (E.dropPod p) := by
  obtain ⟨hden, hframes⟩ := removeFromMaps_spec rt h hE
  have hsame : ∀ (u : TopologyPairsMaps) R, u.Denotes mem R → (∀ t ∈ metadata.maps, u.Apart t) →
      u.Denotes (removeFromMaps rt metadata mem p) R := fun u R hu hapart => hu.frame hframes hapart
  have hkept : ∀ i, i < mem.arrays.length → i ≠ metadata.serviceAffinityMatchingPodList.array →
      (removeFromMaps rt metadata mem p).arrays[i]? = mem.arrays[i]? := fun i hi _ => hframes.arrays i hi
  rw [Removes, removePod]
  simp only [hother, if_false]
  split_ifs
  · split
    · exact ⟨_, _, rfl, hden, hsame, hkept⟩
    · refine ⟨_, _, rfl, hden.with_arrays ?_, fun u R hu hapart => (hsame u R hu hapart).with_arrays _,
        fun i hi hne => ?_⟩
      · rw [length_set]
        exact hden.list_lt
      · exact (List.getElem?_set_ne hne.symm).trans (hkept i hi hne)
  · exact ⟨_, _, rfl, hden, hsame, hkept⟩

end
end AffinityMetadata

/-! ### `shallowCopy` -/

def copyMaps (rt : Runtime) (t : TopologyPairsMaps) (mem : MetadataMemory) : TopologyPairsMaps × MetadataMemory :=
  ((newTopologyPairsMaps mem).1, (newTopologyPairsMaps mem).1.appendMaps rt (newTopologyPairsMaps mem).2 (some t))

theorem copyMaps_spec (h : t.Denotes mem R) :
    (copyMaps rt t mem).1.Denotes (copyMaps rt t mem).2 R ∧ Frames ∅ mem (copyMaps rt t mem).2 ∧
      (copyMaps rt t mem).1.Fresh mem := by
  obtain ⟨hden, hframes, hfresh⟩ := newTopologyPairsMaps_spec mem
  have hadds := appendMaps_adds rt hden (h.frame_empty hframes) (h.apart hfresh)
  refine ⟨?_, hadds.frames_of_fresh hframes hfresh, hfresh⟩
  have hall := hadds.denotes
  rwa [Set.empty_union] at hall

theorem AffinityMetadata.shallowCopy_spec (h : metadata.Denotes mem E) :
    (metadata.shallowCopy rt mem).1.pod = metadata.pod ∧
      (metadata.shallowCopy rt mem).1.Denotes (metadata.shallowCopy rt mem).2 E ∧
      Frames ∅ mem (metadata.shallowCopy rt mem).2 ∧
      (∀ t ∈ (metadata.shallowCopy rt mem).1.maps, t.Fresh mem) ∧
      mem.arrays.length ≤ (metadata.shallowCopy rt mem).1.serviceAffinityMatchingPodList.array := by
  obtain ⟨haff, hframes₁, hfresh₁⟩ := copyMaps_spec rt h.affinity
  obtain ⟨hanti, hframes₂, hfresh₂⟩ := copyMaps_spec rt (h.antiAffinity.frame_empty hframes₁)
  have hframes₁₂ := hframes₁.trans hframes₂
  obtain ⟨hexi, hframes₃, hfresh₃⟩ := copyMaps_spec rt (h.existing.frame_empty hframes₁₂)
  have hframes₁₃ := hframes₁₂.trans hframes₃
  have hlist : Frames ∅ _ (metadata.shallowCopy rt mem).2 :=
    PodSlice.ofList_frames rt (copyMaps rt metadata.topologyPairsAntiAffinityPodsMap _).2 _
  have haffinity₃ := (haff.frame_empty hframes₂).frame_empty hframes₃
  have hantiAffinity₃ := hanti.frame_empty hframes₃
  refine ⟨rfl, ?_, hframes₁₃.trans hlist, ?_, hframes₁₃.arrays_le⟩
  · exact ⟨hexi.frame_empty hlist, haffinity₃.frame_empty hlist, hantiAffinity₃.frame_empty hlist,
      ((haff.frame_empty hframes₂).apart hfresh₃).symm, (hanti.apart hfresh₃).symm,
      haff.apart hfresh₂, PodSlice.ofList_lt ..⟩
  · rintro t (rfl | rfl | rfl)
    · exact hfresh₃.of_frames hframes₁₂
    · exact hfresh₁
    · exact hfresh₂.of_frames hframes₁

/-! ### Agreement -/

theorem inCluster_of_mem {pods : NodeInfo → List Pod} {f : Node → Pod → Entries} {e : TopologyPair × Pod}
    (hpods : ∀ nodeInfo, ∀ q ∈ pods nodeInfo, q ∈ nodeInfo.pods ∨ q ∈ nodeInfo.podsWithAffinity)
    (hf : ∀ node q, e ∈ f node q → e.2 = q) (h : e ∈ clusterEntries pods f cluster) : InCluster cluster e.2 := by
  obtain ⟨node, q, ⟨name, nodeInfo, hlookup, -, hq⟩, he⟩ := h
  exact ⟨name, nodeInfo, hlookup, hf node q he ▸ hpods nodeInfo q hq⟩

theorem AffinityEntries.all_inCluster (pod : Pod) (cluster : Cluster) :
    (AffinityEntries.of pod cluster).All fun R => ∀ e ∈ R, InCluster cluster e.2 :=
  ⟨fun _ => inCluster_of_mem (fun _ _ => .inr) fun _ _ => matchingEntries_snd,
    fun _ => inCluster_of_mem (fun _ _ => .inl) fun _ _ he => termEntries_snd he.2,
    fun _ => inCluster_of_mem (fun _ _ => .inl) fun _ _ => matchingEntries_snd⟩

namespace TopologyPairsMaps.Contents

structure MutuallyInverse (c : Contents) : Prop where
  mem_pairs : ∀ name pair, pair ∈ (c.podToTopologyPairs.lookup name).getD ∅ ↔
    ∃ q ∈ (c.topologyPairToPods.lookup pair).getD ∅, getPodFullName q = name
  eq_of_name : ∀ pair pair' q q', q ∈ (c.topologyPairToPods.lookup pair).getD ∅ →
    q' ∈ (c.topologyPairToPods.lookup pair').getD ∅ → getPodFullName q = getPodFullName q' → q = q'

def NoEmptySet (c : Contents) : Prop :=
  (∀ pair, c.topologyPairToPods.lookup pair ≠ some ∅) ∧ ∀ name, c.podToTopologyPairs.lookup name ≠ some ∅

end TopologyPairsMaps.Contents

theorem TopologyPairsMaps.Denotes.noEmptySet (h : t.Denotes mem R) : (t.contents mem).NoEmptySet :=
  ⟨h.fullPods, h.fullPairs⟩

theorem TopologyPairsMaps.Denotes.mutuallyInverse (h : t.Denotes mem R)
    (hdist : ∀ e ∈ R, ∀ e' ∈ R, getPodFullName e.2 = getPodFullName e'.2 → e.2 = e'.2) :
    (t.contents mem).MutuallyInverse where
  mem_pairs name pair := by
    refine (h.mem_pairs name pair).trans (exists_congr fun q => ?_)
    rw [and_comm, ← h.mem_pods]
    rfl
  eq_of_name pair pair' q q' hq hq' hname :=
    hdist _ ((h.mem_pods pair q).mp hq) _ ((h.mem_pods pair' q').mp hq') hname

def TopologyPairs.All (P : Contents → Prop) (m : TopologyPairs) : Prop :=
  P m.existingAntiAffinity ∧ P m.incomingAffinity ∧ P m.incomingAntiAffinity

section Agreement
variable {cluster cluster' : Cluster}

theorem topologyPairs_wellFormed (hdist : DistinctNames cluster) (h : metadata.Denotes mem (.of pod cluster)) :
    (metadata.topologyPairs mem).All fun c => c.MutuallyInverse ∧ c.NoEmptySet := by
  obtain ⟨hexi, haff, hanti⟩ := AffinityEntries.all_inCluster pod cluster
  exact ⟨⟨h.existing.mutuallyInverse fun e he e' he' => hdist _ _ (hexi e he) (hexi e' he'), h.existing.noEmptySet⟩,
    ⟨h.affinity.mutuallyInverse fun e he e' he' => hdist _ _ (haff e he) (haff e' he'), h.affinity.noEmptySet⟩,
    ⟨h.antiAffinity.mutuallyInverse fun e he e' he' => hdist _ _ (hanti e he) (hanti e' he'),
      h.antiAffinity.noEmptySet⟩⟩

section
variable (hwithout : Without cluster p cluster')
include hwithout

theorem Without.distinctNames (h : DistinctNames cluster) : DistinctNames cluster' := by
  have hin : ∀ q, InCluster cluster' q → InCluster cluster q := by
    rintro q ⟨name, _, hlookup', hq⟩
    obtain ⟨nodeInfo, hlookup, hrel⟩ := hwithout.lookup_right hlookup'
    rw [hrel.mem_pods, hrel.mem_podsWithAffinity] at hq
    exact ⟨name, nodeInfo, hlookup, hq.imp And.left And.left⟩
  exact fun q q' hq hq' => h q q' (hin q hq) (hin q' hq')

theorem Without.affinityEntries_eq (pod : Pod) :
    AffinityEntries.of pod cluster' = (AffinityEntries.of pod cluster).dropPod p :=
  AffinityEntries.ext
    (hwithout.clusterEntries_eq (fun _ _ hrel => hrel.mem_podsWithAffinity) fun _ _ _ => matchingEntries_snd)
    (hwithout.clusterEntries_eq (fun _ _ hrel => hrel.mem_pods) fun _ _ _ he => termEntries_snd he.2)
    (hwithout.clusterEntries_eq (fun _ _ hrel => hrel.mem_pods) fun _ _ _ => matchingEntries_snd)

theorem removePod_entries (hdist : DistinctNames cluster) (hp : InCluster cluster p) (rt : Runtime)
    (h : metadata.Denotes mem (.of pod cluster))
    (hother : getPodFullName p ≠ getPodFullName metadata.pod) : metadata.Removes rt mem p (.of pod cluster') := by
  have honly : ∀ {R : Entries}, (∀ e ∈ R, InCluster cluster e.2) → OnlyNamed R p :=
    fun hR _ other hmem hname => hdist other p (hR _ hmem) hp hname
  obtain ⟨hexi, haff, hanti⟩ := AffinityEntries.all_inCluster pod cluster
  rw [hwithout.affinityEntries_eq]
  exact AffinityMetadata.removePod_spec rt h ⟨honly hexi, honly haff, honly hanti⟩ hother

end

/-- `removePod`, on the metadata or on a copy of it, leaves the maps that `getMetadata` makes for the
cluster without the pod, and on a copy it does not change the metadata. -/
theorem metadata_removePod (hdistinct : DistinctNames cluster) (hp : InCluster cluster p)
    (hother : getPodFullName p ≠ getPodFullName pod) (hwithout : Without cluster p cluster')
    {rt : Runtime} {schedule : Schedule cluster} {service : ServiceAffinity} {mem₀ mem : MetadataMemory}
    {metadata : AffinityMetadata} (h : getMetadata rt pod schedule service mem₀ = some (metadata, mem))
    (copying removing rt' : Runtime) (schedule' : Schedule cluster') (service' : ServiceAffinity)
    (mem₀' : MetadataMemory) :
    ∃ scratch mem', getMetadata rt' pod schedule' service' mem₀' = some (scratch, mem') ∧
      (∃ removed mem₁, metadata.removePod removing mem p = .ok (removed, mem₁) ∧
        removed.topologyPairs mem₁ = scratch.topologyPairs mem' ∧
        (removed.topologyPairs mem₁).All fun c => c.MutuallyInverse ∧ c.NoEmptySet) ∧
      ∃ copy mem₁ removed mem₂, metadata.shallowCopy copying mem = (copy, mem₁) ∧
        copy.removePod removing mem₁ p = .ok (removed, mem₂) ∧
        removed.topologyPairs mem₂ = scratch.topologyPairs mem' ∧
        ((removed.topologyPairs mem₂).All fun c => c.MutuallyInverse ∧ c.NoEmptySet) ∧
        metadata.topologyPairs mem₂ = metadata.topologyPairs mem ∧
        metadata.serviceAffinityMatchingPodList.toList mem₂ = metadata.serviceAffinityMatchingPodList.toList mem := by
  have hcomputes := getMetadata_computes rt pod schedule service mem₀
  obtain ⟨hpod, hdenotes, -⟩ := hcomputes.post _ h
  obtain ⟨⟨scratch, mem'⟩, hscratch, -, hdenotes', -⟩ :=
    (getMetadata_computes rt' pod schedule' service' mem₀').exists_some
      (hwithout.validFor (hcomputes.valid_of_some h))
  have hdistinct' := hwithout.distinctNames hdistinct
  refine ⟨scratch, mem', hscratch, ?_, ?_⟩
  · obtain ⟨removed, mem₁, hremove, hremoved, -⟩ :=
      removePod_entries hwithout hdistinct hp removing hdenotes (by rwa [hpod])
    exact ⟨removed, mem₁, hremove, (hremoved.topologyPairs_eq_iff hdenotes').mpr rfl,
      topologyPairs_wellFormed hdistinct' hremoved⟩
  · obtain ⟨hcopyPod, hcopy, hframes, hfresh, hlist⟩ := AffinityMetadata.shallowCopy_spec copying hdenotes
    obtain ⟨removed, mem₂, hremove, hremoved, hsame, harrays⟩ :=
      removePod_entries hwithout hdistinct hp removing hcopy (by rwa [hcopyPod, hpod])
    -- The maps of the copy were not there when the metadata was made.
    have hkept : ∀ (u : TopologyPairsMaps) R, u.Denotes mem R → u.Denotes mem₂ R := fun u R hu =>
      hsame u R (hu.frame_empty hframes) fun t ht => hu.apart (hfresh t ht)
    have harray : mem₂.arrays[metadata.serviceAffinityMatchingPodList.array]? =
        mem.arrays[metadata.serviceAffinityMatchingPodList.array]? :=
      calc mem₂.arrays[metadata.serviceAffinityMatchingPodList.array]?
          = (metadata.shallowCopy copying mem).2.arrays[metadata.serviceAffinityMatchingPodList.array]? :=
            harrays _ (Nat.lt_of_lt_of_le hdenotes.list_lt hframes.arrays_le)
              (Nat.ne_of_lt (Nat.lt_of_lt_of_le hdenotes.list_lt hlist))
        _ = mem.arrays[metadata.serviceAffinityMatchingPodList.array]? := hframes.arrays _ hdenotes.list_lt
    refine ⟨_, _, removed, mem₂, rfl, hremove, (hremoved.topologyPairs_eq_iff hdenotes').mpr rfl,
      topologyPairs_wellFormed hdistinct' hremoved, ?_, ?_⟩
    · rw [AffinityMetadata.topologyPairs, AffinityMetadata.topologyPairs, TopologyPairs.mk.injEq]
      exact ⟨((hkept _ _ hdenotes.existing).contents_eq_iff hdenotes.existing).mpr rfl,
        ((hkept _ _ hdenotes.affinity).contents_eq_iff hdenotes.affinity).mpr rfl,
        ((hkept _ _ hdenotes.antiAffinity).contents_eq_iff hdenotes.antiAffinity).mpr rfl⟩
    · rw [PodSlice.toList, PodSlice.toList, PodSlice.cells, PodSlice.cells, harray]

end Agreement

/-! ### One node -/

instance (terms : List PodAffinityTerm) : Decidable (ValidTerms terms) :=
  inferInstanceAs (Decidable (∀ term ∈ terms, _))

def oneNode (nodeInfo : NodeInfo) : Cluster := (∅ : Cluster).insert "a" nodeInfo

theorem lookup_oneNode (nodeInfo : NodeInfo) : (oneNode nodeInfo).lookup "a" = some nodeInfo :=
  Finmap.lookup_insert _

theorem eq_of_lookup_oneNode {name : String} (h : (oneNode nodeInfo).lookup name = some nodeInfo') :
    name = "a" ∧ nodeInfo' = nodeInfo := by
  rcases GoMap.of_lookup_insert h with heq | ⟨-, hold⟩
  · exact heq
  · simp at hold

theorem validFor_oneNode (hnode : nodeInfo.node.isSome)
    (hexi : ∀ q ∈ nodeInfo.podsWithAffinity, ValidTerms q.antiAffinityTerms)
    (haff : ValidTerms pod.affinityTerms) (hanti : ValidTerms pod.antiAffinityTerms) :
    ValidFor pod (oneNode nodeInfo) where
  nodes name info hlookup := by
    rw [(eq_of_lookup_oneNode hlookup).2]
    exact hnode
  existing := by
    rintro _ q ⟨_, _, hlookup, -, hq⟩
    rw [(eq_of_lookup_oneNode hlookup).2] at hq
    exact hexi q hq
  affinity := haff
  antiAffinity _ _ _ := hanti

def keepAway (topologyKey : String) (namespaces : List String) : PodAffinityTerm :=
  { labelSelector := some { matchLabels := [], matchExpressions := [] }, namespaces, topologyKey }

def loner (name : String) (terms : List PodAffinityTerm) : Pod :=
  { name, uid := name, nodeName := "a", containers := [], initContainers := [], namespace_ := "default"
    affinity := some { podAffinity := false, podAntiAffinity := true, podAntiAffinityTerms := terms } }

def rackInfo : NodeInfo where
  node := some
    { name := "a", labels := ((∅ : GoMap String String).insert "zone" "z").insert "rack" "r"
      allocatable := .empty, taints := [], conditions := [], images := [] }
  generation := 0

def resident : Pod := loner "old" [keepAway "zone" []]

def occupied : NodeInfo := rackInfo.addPod resident 1

theorem inCluster_occupied_iff (q : Pod) : InCluster (oneNode occupied) q ↔ q = resident := by
  constructor
  · rintro ⟨_, _, hlookup, hq⟩
    rw [(eq_of_lookup_oneNode hlookup).2] at hq
    exact hq.elim mem_singleton.mp mem_singleton.mp
  · rintro rfl
    exact ⟨"a", _, lookup_oneNode _, .inl (mem_singleton_self _)⟩

def vacated : NodeInfo := NodeInfo.subtractPod { occupied with podsWithAffinity := [], pods := [] } resident 2

theorem occupied_without : Without (oneNode occupied) resident ((oneNode occupied).insert "a" vacated) := by
  have hrem : occupied.removePod resident 2 = .ok vacated := removePod_found (by decide) rfl 2
  refine without_insert (lookup_oneNode occupied) (nodeWithout_of_removePod hrem (nodup_singleton _)
    (nodup_singleton _) fun q hq _ => ?_) fun _ _ hinfo hname => ?_
  · exact hq.elim mem_singleton.mp mem_singleton.mp
  · exact absurd (eq_of_lookup_oneNode hinfo).1 hname

theorem metadata_removePod_resident : ∃ metadata mem, getMetadata default (loner "new" [keepAway "zone" []])
        (default : Schedule (oneNode occupied)) {} {} = some (metadata, mem) ∧
      ∃ scratch mem', getMetadata default (loner "new" [keepAway "zone" []])
          (default : Schedule ((oneNode occupied).insert "a" vacated)) {} {} = some (scratch, mem') ∧
        ∃ removed mem₁, metadata.removePod default mem resident = .ok (removed, mem₁) ∧
          removed.topologyPairs mem₁ = scratch.topologyPairs mem' := by
  have hdistinct : DistinctNames (oneNode occupied) := fun q q' hq hq' _ =>
    ((inCluster_occupied_iff q).mp hq).trans ((inCluster_occupied_iff q').mp hq').symm
  have hvalid : ValidFor (loner "new" [keepAway "zone" []]) (oneNode occupied) :=
    validFor_oneNode rfl (by decide) (by decide) (by decide)
  obtain ⟨⟨metadata, mem⟩, h, -⟩ := (getMetadata_computes default _ default {} {}).exists_some hvalid
  obtain ⟨scratch, mem', hscratch, ⟨removed, mem₁, hremove, heq, -⟩, -⟩ :=
    metadata_removePod hdistinct ((inCluster_occupied_iff resident).mpr rfl) (by decide) occupied_without h
      default default default default {} {}
  exact ⟨metadata, mem, h, scratch, mem', hscratch, removed, mem₁, hremove, heq⟩

end LeanKube.Scheduler
