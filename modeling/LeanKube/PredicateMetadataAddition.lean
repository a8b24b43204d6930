import LeanKube.PredicateMetadataRemoval

/-! `addPod` on metadata against `getMetadata` for the cluster with the pod. They differ in the
anti-affinity of the incoming pod: `addPod` notes the added pod for all terms if it matches one of
them, `getMetadata` for the terms that it matches. -/

namespace LeanKube.Scheduler
open TopologyPairsMaps Option Finmap List Pod NodeInfo PodSlice Computes
variable {mem mem' : MetadataMemory} {E : AffinityEntries} {pod p : Pod} {metadata : AffinityMetadata}
  {node : Node} (rt : Runtime)

/-! ### What `addPod` adds -/

theorem validTerms_of_termMatches {terms : List PodAffinityTerm} {owner target : Pod}
    (h : ∀ term ∈ terms, termMatches owner term target) : ValidTerms terms := by
  intro term hterm
  exact isSome_of_any (h term hterm)

theorem targetPodMatchesAffinityOfPod_iff (pod targetPod : Pod) : targetPodMatchesAffinityOfPod pod targetPod ↔
      pod.affinityTerms ≠ [] ∧ ∀ term ∈ pod.affinityTerms, termMatches pod term targetPod := by
  rw [targetPodMatchesAffinityOfPod]
  cases haff : pod.affinity with
  | none => simp [affinityTerms, haff]
  | some affinity =>
    have hterms := affinityTerms_of_some haff
    by_cases hset : affinity.podAffinity
    · simp only [hset, Bool.not_true, Bool.false_eq_true, if_false, ← hterms]
      cases hprops : getAffinityTermProperties pod pod.affinityTerms with
      | none =>
        have hvalid := (getAffinityTermProperties_computes pod _).not_valid_of_none hprops
        simpa using fun _ => fun hall => hvalid (validTerms_of_termMatches hall)
      | some => exact podMatchesAllAffinityTermProperties_iff hprops targetPod
    · simp [hterms, getPodAffinityTerms, hset]

theorem targetPodMatchesAntiAffinityOfPod_iff (pod targetPod : Pod) : targetPodMatchesAntiAffinityOfPod pod targetPod ↔
      ValidTerms pod.antiAffinityTerms ∧ ∃ term ∈ pod.antiAffinityTerms, termMatches pod term targetPod := by
  rw [targetPodMatchesAntiAffinityOfPod]
  cases haff : pod.affinity with
  | none => simp [antiAffinityTerms, haff]
  | some affinity =>
    have hterms := antiAffinityTerms_of_some haff
    by_cases hset : affinity.podAntiAffinity
    · simp only [hset, Bool.not_true, Bool.false_eq_true, if_false, ← hterms]
      have hcomp := getAffinityTermProperties_computes pod pod.antiAffinityTerms
      cases hprops : getAffinityTermProperties pod pod.antiAffinityTerms with
      | none => simp [hcomp.not_valid_of_none hprops]
      | some =>
        rw [and_iff_right (hcomp.valid_of_some hprops)]
        exact podMatchesAnyAffinityTermProperties_iff hprops targetPod
    · simp [hterms, getPodAntiAffinityTerms, hset]

/-- What `addPod` adds to the incoming anti-affinity: all pairs if the pod matches one of the terms. -/
def addedAntiAffinityEntries (pod : Pod) (node : Node) (addedPod : Pod) : Entries :=
  {e | (ValidTerms pod.antiAffinityTerms ∧ ∃ term ∈ pod.antiAffinityTerms, termMatches pod term addedPod) ∧
    e ∈ termEntries node addedPod pod.antiAffinityTerms}

def AffinityEntries.addPod (E : AffinityEntries) (pod : Pod) (node : Node) (addedPod : Pod) : AffinityEntries :=
  ⟨E.existing ∪ existingEntries pod node addedPod, E.affinity ∪ affinityEntries pod node addedPod,
    E.antiAffinity ∪ addedAntiAffinityEntries pod node addedPod⟩

section
variable (h : metadata.Denotes mem E)
include h

theorem addIncoming_addsBoth (hbound : p.nodeName ≠ "") (node : Node) :
    AddsBoth metadata.topologyPairsPotentialAffinityPods metadata.topologyPairsPotentialAntiAffinityPods mem
      (metadata.addIncoming mem p node) E.affinity (affinityEntries metadata.pod node p)
      E.antiAffinity (addedAntiAffinityEntries metadata.pod node p) := by
  rw [AffinityMetadata.addIncoming]
  cases haff : metadata.pod.affinity with
  | none =>
    have hfst : affinityEntries metadata.pod node p = ∅ := by
      simp [affinityEntries, termEntries, affinityTerms, haff]
    have hsnd : addedAntiAffinityEntries metadata.pod node p = ∅ := by
      simp [addedAntiAffinityEntries, antiAffinityTerms, haff]
    rw [hfst, hsnd]
    exact AddsBoth.refl h.affinity h.antiAffinity
  | some =>
    have hlen : p.nodeName.length > 0 := by
      rw [gt_iff_lt, Nat.pos_iff_ne_zero, Ne, String.length_eq_zero_iff]
      exact hbound
    simp only [hlen, if_true, ← affinityTerms_of_some haff, ← antiAffinityTerms_of_some haff]
    have hfst := addTermPairs_adds_ite h.affinity node p metadata.pod.affinityTerms
      (c := targetPodMatchesAffinityOfPod metadata.pod p) (S := affinityEntries metadata.pod node p) <| by
        intro e
        rw [targetPodMatchesAffinityOfPod_iff]
        exact mem_affinityEntries_iff e
    have hsnd := addTermPairs_adds_ite
      (h.antiAffinity.frame hfst.frames (by simpa using h.affinity_apart_antiAffinity.symm)) node p
      metadata.pod.antiAffinityTerms (c := targetPodMatchesAntiAffinityOfPod metadata.pod p)
      (S := addedAntiAffinityEntries metadata.pod node p) <| by
        intro e
        rw [targetPodMatchesAntiAffinityOfPod_iff]
        rfl
    exact AddsBoth.of_adds hfst hsnd h.affinity_apart_antiAffinity

theorem PodSlice.append_denotes (p : Pod) : AffinityMetadata.Denotes
      { metadata with
        serviceAffinityMatchingPodList := (metadata.serviceAffinityMatchingPodList.append rt mem p).1 }
      (metadata.serviceAffinityMatchingPodList.append rt mem p).2 E := by
  rw [append]
  split_ifs
  · exact h.with_arrays (by rw [length_set]; exact h.list_lt)
  · exact h.with_arrays (ofList_lt rt mem _)

theorem addPod_computes {nodeInfo : NodeInfo} (hnode : nodeInfo.node = some node) (hbound : p.nodeName ≠ "")
    (hother : getPodFullName p ≠ getPodFullName metadata.pod) :
    Computes (metadata.addPod rt mem p nodeInfo).toOption (ValidTerms p.antiAffinityTerms) fun added =>
      added.1.Denotes added.2 (E.addPod metadata.pod node p) := by
  have hmatching := getMatchingAntiAffinityTopologyPairsOfPod_computes rt metadata.pod p node mem
  rw [AffinityMetadata.addPod, if_neg hother, hnode]
  simp only
  cases hfound : getMatchingAntiAffinityTopologyPairsOfPod metadata.pod p node mem with
  | none => exact of_none (hmatching.not_valid_of_none hfound)
  | some found =>
    have hvalid := hmatching.valid_of_some hfound
    have hadds := hmatching.post found hfound _ _ h.existing
    set mem₁ := metadata.topologyPairsAntiAffinityPodsMap.appendMaps rt found.2 found.1 with hmem₁
    have h₁ : metadata.Denotes mem₁ { E with existing := E.existing ∪ existingEntries metadata.pod node p } :=
      { h with
        existing := hadds.denotes
        affinity := h.affinity.frame hadds.frames (by simpa using h.existing_apart_affinity.symm)
        antiAffinity := h.antiAffinity.frame hadds.frames (by simpa using h.existing_apart_antiAffinity.symm)
        list_lt := Nat.lt_of_lt_of_le h.list_lt hadds.frames.arrays_le }
    have hboth := addIncoming_addsBoth h₁ hbound node
    have h₂ : metadata.Denotes (metadata.addIncoming mem₁ p node) (E.addPod metadata.pod node p) :=
      { h₁ with
        existing := h₁.existing.frame hboth.frames
          (by simpa using ⟨h.existing_apart_affinity, h.existing_apart_antiAffinity⟩)
        affinity := hboth.fst
        antiAffinity := hboth.snd
        list_lt := Nat.lt_of_lt_of_le h₁.list_lt hboth.frames.arrays_le }
    simp only [← hmem₁]
    split_ifs
    · exact of_some hvalid (append_denotes rt h₂ p)
    · exact of_some hvalid h₂

end

/-! ### Agreement -/

section Agreement
variable {cluster : Cluster} {nodeInfo nodeInfo' : NodeInfo} {name : String}

section
variable {pods : NodeInfo → List Pod} {c : Prop} (hlookup : cluster.lookup name = some nodeInfo)
  (hnode : nodeInfo.node = some node) (hnode' : nodeInfo'.node = some node)
  (hpods : ∀ q, q ∈ pods nodeInfo' ↔ q ∈ pods nodeInfo ∨ (c ∧ q = p))
include hlookup hnode hnode' hpods

theorem lists_insert_iff (node' : Node) (q : Pod) :
    Lists pods (cluster.insert name nodeInfo') node' q ↔ Lists pods cluster node' q ∨ (c ∧ node' = node ∧ q = p) := by
  constructor
  · rintro ⟨name', info, hinfo, hinfoNode, hq⟩
    rcases GoMap.of_lookup_insert hinfo with ⟨-, rfl⟩ | ⟨-, hold⟩
    · obtain rfl := some.inj (hnode'.symm.trans hinfoNode)
      rcases (hpods q).mp hq with hq | ⟨hc, rfl⟩
      · exact .inl ⟨name, nodeInfo, hlookup, hnode, hq⟩
      · exact .inr ⟨hc, rfl, rfl⟩
    · exact .inl ⟨name', info, hold, hinfoNode, hq⟩
  · rintro (⟨name', info, hinfo, hinfoNode, hq⟩ | ⟨hc, rfl, rfl⟩)
    · by_cases hname : name' = name
      · subst hname
        obtain rfl := some.inj (hlookup.symm.trans hinfo)
        obtain rfl := some.inj (hnode.symm.trans hinfoNode)
        exact ⟨name', nodeInfo', lookup_insert _, hnode', (hpods q).mpr (.inl hq)⟩
      · exact ⟨name', info, (lookup_insert_of_ne _ hname).trans hinfo, hinfoNode, hq⟩
    · exact ⟨name, nodeInfo', lookup_insert _, hnode', (hpods q).mpr (.inr ⟨hc, rfl⟩)⟩

theorem clusterEntries_insert (f : Node → Pod → Entries) :
    clusterEntries pods f (cluster.insert name nodeInfo') = clusterEntries pods f cluster ∪ {e | c ∧ e ∈ f node p} := by
  ext e
  simp only [clusterEntries, lists_insert_iff hlookup hnode hnode' hpods, or_and_right, exists_or]
  refine or_congr_right ?_
  constructor
  · rintro ⟨_, _, ⟨hc, rfl, rfl⟩, he⟩
    exact ⟨hc, he⟩
  · rintro ⟨hc, he⟩
    exact ⟨node, p, ⟨hc, rfl, rfl⟩, he⟩

end

variable (generation : Int64)

theorem mem_addPod_pods (q : Pod) : q ∈ (nodeInfo.addPod p generation).pods ↔ q ∈ nodeInfo.pods ∨ (True ∧ q = p) := by
  simp [addPod]

theorem mem_addPod_podsWithAffinity (q : Pod) :
    q ∈ (nodeInfo.addPod p generation).podsWithAffinity ↔
      q ∈ nodeInfo.podsWithAffinity ∨ (hasPodAffinityConstraints p ∧ q = p) := by
  rw [addPod]
  split_ifs with hconstraints <;> simp [hconstraints]

theorem hasPodAffinityConstraints_of_mem {term : PodAffinityTerm} (h : term ∈ p.antiAffinityTerms) :
    hasPodAffinityConstraints p := by
  rw [antiAffinityTerms] at h
  cases haff : p.affinity with
  | none => simp [haff] at h
  | some affinity =>
    rw [haff] at h
    cases hset : affinity.podAntiAffinity with
    | false => simp [getPodAntiAffinityTerms, hset] at h
    | true => simp [hasPodAffinityConstraints, haff, hset]

variable (hlookup : cluster.lookup name = some nodeInfo) (hnode : nodeInfo.node = some node)
  (generation : Int64)
include hlookup hnode

theorem existingAntiAffinity_insert : existingAntiAffinity pod (cluster.insert name (nodeInfo.addPod p generation)) =
      existingAntiAffinity pod cluster ∪ existingEntries pod node p := by
  have hents := clusterEntries_insert hlookup hnode (show (nodeInfo.addPod p generation).node = some node from hnode)
    (mem_addPod_podsWithAffinity generation) (existingEntries pod)
  refine hents.trans (congrArg _ ?_)
  ext e
  refine and_iff_right_of_imp ?_
  rintro ⟨_, hterm, -⟩
  exact hasPodAffinityConstraints_of_mem hterm

theorem podsEntries_insert (f : Node → Pod → Entries) :
    clusterEntries pods f (cluster.insert name (nodeInfo.addPod p generation)) =
      clusterEntries pods f cluster ∪ f node p := by
  have hents := clusterEntries_insert hlookup hnode
    (show (nodeInfo.addPod p generation).node = some node from hnode) (mem_addPod_pods generation) f
  simpa using hents

theorem validFor_insert_iff (h : ValidFor pod cluster) :
    ValidFor pod (cluster.insert name (nodeInfo.addPod p generation)) ↔
      ValidTerms p.antiAffinityTerms ∧ ValidTerms pod.antiAffinityTerms := by
  have hnode' : (nodeInfo.addPod p generation).node = some node := hnode
  have hpods := lists_insert_iff hlookup hnode hnode' (mem_addPod_pods (p := p) generation)
  have hpodsWithAffinity := lists_insert_iff hlookup hnode hnode' (mem_addPod_podsWithAffinity (p := p) generation)
  constructor
  · intro hvalid
    refine ⟨fun term hterm => ?_, hvalid.antiAffinity node p ((hpods node p).mpr (.inr ⟨trivial, rfl, rfl⟩))⟩
    exact hvalid.existing node p
      ((hpodsWithAffinity node p).mpr (.inr ⟨hasPodAffinityConstraints_of_mem hterm, rfl, rfl⟩)) term hterm
  · rintro ⟨hp, hpod⟩
    refine ⟨GoMap.forall_insert h.nodes ?_, fun node' q hlists => ?_, h.affinity, fun _ _ _ => hpod⟩
    · rw [hnode']
      rfl
    · rcases (hpodsWithAffinity node' q).mp hlists with hlists | ⟨-, -, rfl⟩
      · exact h.existing node' q hlists
      · exact hp

end Agreement

/-- Each anti-affinity term of `pod` that names a label of the node names the same label as a term that
matches `p`. -/
def CoveredByMatches (pod : Pod) (node : Node) (p : Pod) : Prop :=
  ∀ term ∈ pod.antiAffinityTerms, term.topologyKey ∈ node.labels →
    ∃ term' ∈ pod.antiAffinityTerms, term'.topologyKey = term.topologyKey ∧ termMatches pod term' p

theorem antiAffinityEntries_eq_iff (hvalid : ValidTerms pod.antiAffinityTerms) :
    addedAntiAffinityEntries pod node p = antiAffinityEntries pod node p ↔
      (∀ term ∈ pod.antiAffinityTerms, ¬ termMatches pod term p) ∨ CoveredByMatches pod node p := by
  constructor
  · intro heq
    by_cases hmatch : ∃ term ∈ pod.antiAffinityTerms, termMatches pod term p
    · refine .inr fun term hterm hlabel => ?_
      obtain ⟨value, hval⟩ := mem_iff.mp hlabel
      have hadded : ((⟨term.topologyKey, value⟩, p) : TopologyPair × Pod) ∈ addedAntiAffinityEntries pod node p :=
        ⟨⟨hvalid, hmatch⟩, term, hterm, rfl, rfl, hval⟩
      rw [heq] at hadded
      obtain ⟨term', hterm', hmat, -, hkey, -⟩ := hadded
      exact ⟨term', hterm', hkey.symm, hmat⟩
    · exact .inl fun term hterm hmat => hmatch ⟨term, hterm, hmat⟩
  · intro hagrees
    ext e
    constructor
    · rintro ⟨⟨-, matching, hmatching, hmat⟩, term, hterm, he, hkey, hval⟩
      rcases hagrees with hnone | hcovered
      · exact absurd hmat (hnone matching hmatching)
      · have hlabel : term.topologyKey ∈ node.labels := hkey ▸ mem_of_lookup_eq_some hval
        obtain ⟨term', hterm', hkey', hmat'⟩ := hcovered term hterm hlabel
        exact ⟨term', hterm', hmat', he, hkey.trans hkey'.symm, hval⟩
    · rintro ⟨term, hterm, hmat, he⟩
      exact ⟨⟨hvalid, term, hterm, hmat⟩, term, hterm, he⟩

theorem union_eq_union_iff {R S T : Entries} (hR : ∀ e ∈ R, e.2 ≠ p) (hS : ∀ e ∈ S, e.2 = p)
    (hT : ∀ e ∈ T, e.2 = p) : R ∪ S = R ∪ T ↔ S = T := by
  have hdisjoint : ∀ {U : Entries}, (∀ e ∈ U, e.2 = p) → Disjoint R U := fun hU =>
    Set.disjoint_left.mpr fun e he he' => hR e he (hU e he')
  constructor
  · intro h
    have hdiff := congrArg (· \ R) h
    simpa only [Set.union_sdiff_left, (hdisjoint hS).sdiff_eq_right, (hdisjoint hT).sdiff_eq_right] using hdiff
  · rintro rfl
    rfl

/-- When `addPod` and `getMetadata` agree: both fail because of the pod that is added, or the selectors
of the incoming anti-affinity are valid and the pod matches none of its terms, or for each label of the
node that they name one that names it. -/
def AdditionAgrees (pod : Pod) (node : Node) (p : Pod) : Prop :=
  ¬ ValidTerms p.antiAffinityTerms ∨ ValidTerms pod.antiAffinityTerms ∧
      ((∀ term ∈ pod.antiAffinityTerms, ¬ termMatches pod term p) ∨ CoveredByMatches pod node p)

/-- `addPod` on the metadata of a cluster yields the three maps that `getMetadata` makes for the cluster
with the pod exactly if `AdditionAgrees`. -/
theorem metadata_addPod_iff {cluster : Cluster} {nodeInfo : NodeInfo}
    (hlookup : cluster.lookup p.nodeName = some nodeInfo) (hnode : nodeInfo.node = some node)
    (hbound : p.nodeName ≠ "") (hdistinct : ∀ q, InCluster cluster q → getPodFullName q ≠ getPodFullName p)
    (hother : getPodFullName p ≠ getPodFullName pod)
    {rt : Runtime} {schedule : Schedule cluster} {service : ServiceAffinity} {mem₀ mem : MetadataMemory}
    {metadata : AffinityMetadata} (h : getMetadata rt pod schedule service mem₀ = some (metadata, mem))
    (adding rt' : Runtime) (generation : Int64)
    (schedule' : Schedule (cluster.insert p.nodeName (nodeInfo.addPod p generation)))
    (service' : ServiceAffinity) (mem₀' : MetadataMemory) :
    (metadata.addPod adding mem p (nodeInfo.addPod p generation)).toOption.map
        (fun added => added.1.topologyPairs added.2) =
      (getMetadata rt' pod schedule' service' mem₀').map (fun scratch => scratch.1.topologyPairs scratch.2) ↔
      AdditionAgrees pod node p := by
  have hcomputes := getMetadata_computes rt pod schedule service mem₀
  obtain ⟨hpod, hdenotes, -⟩ := hcomputes.post _ h
  have hnode' : (nodeInfo.addPod p generation).node = some node := hnode
  have hadd := addPod_computes adding hdenotes hnode' hbound (by rwa [hpod])
  have hscratch := getMetadata_computes rt' pod schedule' service' mem₀'
  rw [hpod] at hadd
  rw [validFor_insert_iff hlookup hnode generation (hcomputes.valid_of_some h), AffinityEntries.of,
    existingAntiAffinity_insert hlookup hnode, incomingAffinity, podsEntries_insert hlookup hnode,
    incomingAntiAffinity, podsEntries_insert hlookup hnode] at hscratch
  by_cases hp : ValidTerms p.antiAffinityTerms
  · obtain ⟨_, hadded, haddedDenotes⟩ := hadd.exists_some hp
    rw [hadded, map_some, AdditionAgrees, or_iff_right (not_not.mpr hp)]
    by_cases hvalid : ValidTerms pod.antiAffinityTerms
    · obtain ⟨_, hfound, -, hfoundDenotes, -⟩ := hscratch.exists_some ⟨hp, hvalid⟩
      have hnew : ∀ e ∈ incomingAntiAffinity pod cluster, e.2 ≠ p := by
        rintro e he rfl
        exact hdistinct e.2 ((AffinityEntries.all_inCluster pod cluster).2.2 e he) rfl
      have hanti := union_eq_union_iff hnew (S := addedAntiAffinityEntries pod node p)
        (T := antiAffinityEntries pod node p) (fun _ he => termEntries_snd he.2) fun _ => matchingEntries_snd
      rw [hfound, map_some, some.injEq, haddedDenotes.topologyPairs_eq_iff hfoundDenotes,
        AffinityEntries.addPod, AffinityEntries.mk.injEq, and_iff_right hvalid, ← antiAffinityEntries_eq_iff hvalid,
          ← hanti]
      exact (and_iff_right rfl).trans (and_iff_right rfl)
    · rw [hscratch.eq_none fun hboth => hvalid hboth.2]
      simp [hvalid]
  · rw [hadd.eq_none hp, hscratch.eq_none fun hboth => hp hboth.1]
    exact iff_of_true rfl (.inl hp)

theorem not_inCluster_rackInfo (q : Pod) : ¬ InCluster (oneNode rackInfo) q := by
  rintro ⟨_, _, hlookup, hq⟩
  rw [(eq_of_lookup_oneNode hlookup).2] at hq
  exact hq.elim not_mem_nil not_mem_nil

theorem metadata_addPod_iff_resident : ∃ metadata mem, getMetadata default (loner "new" [keepAway "zone" []])
        (default : Schedule (oneNode rackInfo)) {} {} = some (metadata, mem) ∧
      (metadata.addPod default mem resident occupied).toOption.map
          (fun added => added.1.topologyPairs added.2) =
        (getMetadata default (loner "new" [keepAway "zone" []])
          (default : Schedule ((oneNode rackInfo).insert "a" occupied)) {} {}).map
            fun scratch => scratch.1.topologyPairs scratch.2 := by
  obtain ⟨⟨metadata, mem⟩, h, -⟩ := (getMetadata_computes default (loner "new" [keepAway "zone" []])
    (default : Schedule (oneNode rackInfo)) {} {}).exists_some
      (validFor_oneNode rfl (by decide) (by decide) (by decide))
  refine ⟨metadata, mem, h, (metadata_addPod_iff (lookup_oneNode rackInfo) rfl (by decide)
    (fun q hq => absurd hq (not_inCluster_rackInfo q)) (by decide) h default default 1 default {} {}).mpr ?_⟩
  refine .inr ⟨by decide, .inr fun term hterm _ => ⟨term, hterm, rfl, ?_⟩⟩
  obtain rfl := mem_singleton.mp hterm
  decide

/-- A pod that keeps away from its own namespace in its zone, and from another one in its rack. -/
def choosy : Pod := loner "new" [keepAway "zone" [], keepAway "rack" ["batch"]]

/-- A pod in the namespace of the incoming pod is added, and noted for the rack too. -/
theorem metadata_addPod_differs :
    ∃ metadata mem, getMetadata default choosy (default : Schedule (oneNode rackInfo)) {} {} = some (metadata, mem) ∧
      ∃ added mem₁, metadata.addPod default mem resident occupied = .ok (added, mem₁) ∧
      ∃ scratch mem', getMetadata default choosy
        (default : Schedule ((oneNode rackInfo).insert "a" occupied)) {} {} = some (scratch, mem') ∧
      resident ∈ ((added.topologyPairs mem₁).incomingAntiAffinity.topologyPairToPods.lookup
        ⟨"rack", "r"⟩).getD ∅ ∧
      resident ∉ ((scratch.topologyPairs mem').incomingAntiAffinity.topologyPairToPods.lookup
        ⟨"rack", "r"⟩).getD ∅ := by
  have hvalid : ValidFor choosy (oneNode rackInfo) := validFor_oneNode rfl (by decide) (by decide) (by decide)
  have hvalid' : ValidFor choosy ((oneNode rackInfo).insert "a" occupied) :=
    (validFor_insert_iff (lookup_oneNode rackInfo) rfl 1 hvalid).mpr ⟨by decide, by decide⟩
  obtain ⟨⟨metadata, mem⟩, h, hpod, hdenotes, -⟩ :=
    (getMetadata_computes default _ default {} {}).exists_some hvalid
  have hadd := addPod_computes default hdenotes (show occupied.node = some _ from rfl)
    (show resident.nodeName ≠ "" by decide) (by rw [hpod]; decide)
  obtain ⟨⟨added, mem₁⟩, hadded, haddedDenotes⟩ := hadd.exists_some (by decide)
  obtain ⟨⟨scratch, mem'⟩, hscratch, -, hscratchDenotes, -⟩ :=
    (getMetadata_computes default _ default {} {}).exists_some hvalid'
  refine ⟨metadata, mem, h, added, mem₁, ?_, scratch, mem', hscratch,
    (haddedDenotes.antiAffinity.mem_pods _ _).mpr (.inr ?_), fun hmem => ?_⟩
  · cases hresult : metadata.addPod default mem resident occupied with
    | error =>
      rw [hresult] at hadded
      cases hadded
    | ok =>
      rw [hresult] at hadded
      rw [some.inj hadded]
  · rw [hpod]
    exact ⟨⟨by decide, keepAway "zone" [], by decide, by decide⟩, keepAway "rack" ["batch"], by decide, rfl,
      rfl, by decide⟩
  · have hentry := (hscratchDenotes.antiAffinity.mem_pods _ _).mp hmem
    rw [AffinityEntries.of, incomingAntiAffinity, occupied, podsEntries_insert (lookup_oneNode rackInfo) rfl] at hentry
    rcases hentry with hentry | ⟨_, hterm, hmatches, -, hkey, -⟩
    · exact not_inCluster_rackInfo _ ((AffinityEntries.all_inCluster _ _).2.2 _ hentry)
    · rcases mem_cons.mp hterm with rfl | hterm
      · exact absurd hkey (by decide)
      · obtain rfl := mem_singleton.mp hterm
        exact absurd hmatches (by decide)

end LeanKube.Scheduler
