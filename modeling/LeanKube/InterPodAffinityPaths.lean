import LeanKube.InterPodAffinity

/-! When the inter-pod affinity predicate has the same verdict with the metadata of a cluster and
without metadata. Without metadata one pod has to match all terms of the incoming pod, for affinity
as for anti-affinity; with metadata each affinity term may have a pod of its own, and one anti-affinity
term is enough. Pods that match all affinity terms on nodes without the labels are not in the maps. -/

namespace LeanKube.Scheduler
open List Storage TopologyPairsMaps PodAffinityChecker NodeInfo Pod Computes
variable {rt : Runtime} {c : PodAffinityChecker} {pod q : Pod} {node target : Node} {nodeInfo : NodeInfo}
  {mem : MetadataMemory} {terms : List PodAffinityTerm} {R : Entries} {name : String}

/-- The pods that the checker lists are on nodes that it knows, under the name of the node, and those
with affinity constraints are listed apart. -/
structure PodAffinityChecker.Placed (c : PodAffinityChecker) : Prop where
  node : ∀ name nodeInfo, c.podLister.lookup name = some nodeInfo →
    ∃ node, nodeInfo.node = some node ∧ node.name = name ∧ c.info.lookup name = some node
  nodeName : ∀ name nodeInfo, c.podLister.lookup name = some nodeInfo → ∀ q ∈ nodeInfo.pods, q.nodeName = name
  mem_podsWithAffinity : ∀ name nodeInfo, c.podLister.lookup name = some nodeInfo →
    ∀ q, q ∈ nodeInfo.podsWithAffinity ↔ q ∈ nodeInfo.pods ∧ hasPodAffinityConstraints q

variable (cluster : Cluster)

abbrev Hosts : Node → Pod → Prop := Lists NodeInfo.pods cluster

def SameTopology (node target : Node) (topologyKey : String) : Prop :=
  ∃ value, node.labels.lookup topologyKey = some value ∧ target.labels.lookup topologyKey = some value

/-! ### Lookups -/

variable {t : TopologyPairsMaps}

section
variable (h : t.Denotes mem R)
include h

theorem hasPair_iff (pair : TopologyPair) : hasPair t mem pair ↔ ∃ q, (pair, q) ∈ R := by
  rw [hasPair, Option.isSome_iff_ne_none, ← GoMap.mem_iff_lookup_ne_none, ← Finmap.mem_keys,
    SetMaps.mem_keys_iff h.fullPods]
  exact exists_congr fun q => h.mem_pods pair q

theorem numPairs_eq_zero_iff : t.numPairs mem = 0 ↔ R = ∅ := by
  rw [numPairs, Finset.card_eq_zero, Finset.eq_empty_iff_forall_notMem, Set.eq_empty_iff_forall_notMem]
  constructor
  · rintro hnone ⟨pair, q⟩ hq
    exact hnone pair ((SetMaps.mem_keys_iff h.fullPods pair).mpr ⟨q, (h.mem_pods pair q).mpr hq⟩)
  · intro hnone pair hpair
    obtain ⟨q, hq⟩ := (SetMaps.mem_keys_iff h.fullPods pair).mp hpair
    exact hnone (pair, q) ((h.mem_pods pair q).mp hq)

variable (node : Node)

theorem any_hasPair_iff (topologyKey : String) :
    ((node.labels.lookup topologyKey).any fun value => hasPair t mem ⟨topologyKey, value⟩) ↔
      ∃ value q, node.labels.lookup topologyKey = some value ∧ (⟨topologyKey, value⟩, q) ∈ R := by
  cases node.labels.lookup topologyKey with
  | none => simp
  | some => simp [hasPair_iff h]

theorem anyLabelPair_iff : anyLabelPair rt t mem node ↔
      ∃ topologyKey value q, node.labels.lookup topologyKey = some value ∧ (⟨topologyKey, value⟩, q) ∈ R := by
  rw [anyLabelPair, any_eq_true]
  refine exists_congr fun _ => ?_
  rw [any_hasPair_iff h]
  refine and_iff_right_of_imp ?_
  rintro ⟨_, _, hval, -⟩
  rw [rt.mem_range, Finmap.mem_keys]
  exact Finmap.mem_of_lookup_eq_some hval

theorem nodeMatchesAllTopologyTerms_iff : nodeMatchesAllTopologyTerms t mem node terms ↔
      ∀ term ∈ terms, ∃ value q, node.labels.lookup term.topologyKey = some value ∧
        (⟨term.topologyKey, value⟩, q) ∈ R := by
  simp only [nodeMatchesAllTopologyTerms, all_eq_true, any_hasPair_iff h]

theorem nodeMatchesAnyTopologyTerm_iff : nodeMatchesAnyTopologyTerm t mem node terms ↔
      ∃ term ∈ terms, ∃ value q, node.labels.lookup term.topologyKey = some value ∧
        (⟨term.topologyKey, value⟩, q) ∈ R := by
  simp only [nodeMatchesAnyTopologyTerm, any_eq_true, any_hasPair_iff h]

end

/-! ### The listed pods -/

theorem nodesHaveSameTopologyKey_iff {topologyKey : String} (h : topologyKey ≠ "") (nodeA nodeB : Node) :
    nodesHaveSameTopologyKey nodeA nodeB topologyKey ↔ SameTopology nodeA nodeB topologyKey := by
  have hlen : ¬ topologyKey.length = 0 := by rwa [String.length_eq_zero_iff]
  rw [nodesHaveSameTopologyKey, if_neg hlen, SameTopology]
  cases nodeA.labels.lookup topologyKey with
  | none => simp
  | some =>
    cases nodeB.labels.lookup topologyKey with
    | none => simp
    | some => simp [eq_comm]

section Placed
variable (hplaced : c.Placed)
include hplaced

theorem PodAffinityChecker.Placed.getNodeInfo (h : Hosts c.podLister target q) :
    c.getNodeInfo q.nodeName = .ok target := by
  obtain ⟨name, nodeInfo, hlookup, hnode, hq⟩ := h
  obtain ⟨_, hnode', -, hinfo⟩ := hplaced.node name nodeInfo hlookup
  rw [hnode] at hnode'
  cases hnode'
  rw [PodAffinityChecker.getNodeInfo, hplaced.nodeName name nodeInfo hlookup q hq, hinfo]

theorem PodAffinityChecker.Placed.filter (hlookup : c.podLister.lookup name = some nodeInfo)
    (h : Hosts c.podLister target q) : nodeInfo.filter q := by
  obtain ⟨name', nodeInfo', hlookup', -, hq⟩ := h
  obtain ⟨node, hnode, hname, -⟩ := hplaced.node name nodeInfo hlookup
  have hnodeName := hplaced.nodeName name' nodeInfo' hlookup' q hq
  rw [NodeInfo.filter]
  split_ifs with hother
  · rfl
  · rw [Ne, not_not, hnode, Option.map_some, Option.some_inj, hname] at hother
    rw [← hnodeName, hother, hlookup] at hlookup'
    cases hlookup'
    exact any_eq_true.mpr ⟨q, hq, by simp⟩

theorem PodAffinityChecker.Placed.mem_filteredList (hlookup : c.podLister.lookup name = some nodeInfo)
    (rt : Runtime) (mem : MetadataMemory) (q : Pod) :
    q ∈ c.filteredList rt mem nodeInfo.filter everything ↔ ∃ target, Hosts c.podLister target q := by
  have heverything : everything.matchesLabels q.labels = true := by
    simp [everything, LabelSelector.matchesLabels]
  simp only [filteredList, mem_flatMap, mem_filterMap, mem_filter, heverything, Bool.and_true]
  constructor
  · rintro ⟨nodeInfo', ⟨name', -, hlookup'⟩, hq, -⟩
    obtain ⟨target, htgt, -⟩ := hplaced.node name' nodeInfo' hlookup'
    exact ⟨target, name', nodeInfo', hlookup', htgt, hq⟩
  · rintro ⟨target, hhosts⟩
    have hfilter := hplaced.filter hlookup hhosts
    obtain ⟨name', nodeInfo', hlookup', -, hq⟩ := hhosts
    refine ⟨nodeInfo', ⟨name', ?_, hlookup'⟩, hq, hfilter⟩
    rw [rt.mem_range, Finmap.mem_keys]
    exact Finmap.mem_of_lookup_eq_some hlookup'

end Placed

/-! ### Terms of the pod without metadata -/

def KeysSet (terms : List PodAffinityTerm) : Prop := ∀ term ∈ terms, term.topologyKey ≠ ""

instance (terms : List PodAffinityTerm) : Decidable (KeysSet terms) :=
  inferInstanceAs (Decidable (∀ term ∈ terms, _))

def MatchesAll (pod : Pod) (terms : List PodAffinityTerm) (q : Pod) : Prop :=
  ∀ term ∈ terms, termMatches pod term q

instance (pod : Pod) (terms : List PodAffinityTerm) (q : Pod) : Decidable (MatchesAll pod terms q) :=
  inferInstanceAs (Decidable (∀ term ∈ terms, _))

def SameTopologies (node target : Node) (terms : List PodAffinityTerm) : Prop :=
  ∀ term ∈ terms, SameTopology node target term.topologyKey

theorem matchesTopologies_eq (hkeys : KeysSet terms) (node target : Node) :
    ∃ same : Bool, matchesTopologies node target terms = .ok (same, true) ∧
      (same ↔ SameTopologies node target terms) := by
  induction terms with
  | nil => exact ⟨true, rfl, by simp [SameTopologies]⟩
  | cons term _ ih =>
    rw [KeysSet, forall_mem_cons] at hkeys
    have hlen : ¬ term.topologyKey.length = 0 := by
      rw [String.length_eq_zero_iff]
      exact hkeys.1
    have hiff := nodesHaveSameTopologyKey_iff hkeys.1 node target
    rw [matchesTopologies, if_neg hlen, SameTopologies, forall_mem_cons, ← hiff]
    cases nodesHaveSameTopologyKey node target term.topologyKey with
    | false => exact ⟨false, rfl, by simp⟩
    | true =>
      obtain ⟨same, hsame, hsameIff⟩ := ih hkeys.2
      exact ⟨same, hsame, by simpa [SameTopologies] using hsameIff⟩

theorem podMatchesPodAffinityTerms_eq (hplaced : c.Placed) (hq : Hosts c.podLister target q)
    (hterms : terms ≠ []) (hvalid : ValidTerms terms) (hkeys : KeysSet terms) (pod : Pod) (node : Node) :
    ∃ same : Bool, c.podMatchesPodAffinityTerms pod q node terms = .ok (same, decide (MatchesAll pod terms q)) ∧
      (same ↔ MatchesAll pod terms q ∧ SameTopologies node target terms) := by
  have hlen : ¬ terms.length = 0 := by rwa [length_eq_zero_iff]
  obtain ⟨props, hprops, -⟩ := (getAffinityTermProperties_computes pod terms).exists_some hvalid
  have hall := podMatchesAllAffinityTermProperties_iff hprops q
  rw [podMatchesPodAffinityTerms, if_neg hlen, hprops]
  simp only
  by_cases hmat : MatchesAll pod terms q
  · rw [hall.mpr ⟨hterms, hmat⟩, hplaced.getNodeInfo hq]
    obtain ⟨same, hsame, hiff⟩ := matchesTopologies_eq hkeys node target
    exact ⟨same, by simp [hsame, hmat], by simp [hiff, hmat]⟩
  · have hfalse : podMatchesAllAffinityTermProperties q props = false := by
      rw [← Bool.not_eq_true, hall]
      exact fun hboth => hmat hboth.2
    exact ⟨false, by simp [hfalse, hmat], by simp [hmat]⟩

/-- A pod of the cluster that matches all terms and is on a node in the topologies of all of them. -/
def MatchesNear (pod : Pod) (node : Node) (terms : List PodAffinityTerm) (q : Pod) : Prop :=
  ∃ target, Hosts cluster target q ∧ MatchesAll pod terms q ∧ SameTopologies node target terms

section Placed
variable (hplaced : c.Placed)
include hplaced

section
variable (hq : Hosts c.podLister target q)
include hq

theorem matchesNear_iff :
    MatchesNear c.podLister pod node terms q ↔ MatchesAll pod terms q ∧ SameTopologies node target terms := by
  constructor
  · rintro ⟨_, hq', hboth⟩
    have heq := (hplaced.getNodeInfo hq').symm.trans (hplaced.getNodeInfo hq)
    cases heq
    exact hboth
  · intro hboth
    exact ⟨target, hq, hboth⟩

variable (hvalid : ValidTerms terms) (hkeys : KeysSet terms) (pod : Pod) (node : Node)
include hvalid hkeys

theorem checkAffinity_eq (matchFound selectorMatchFound : Bool) :
    ∃ near selected : Bool, c.checkAffinity pod q node terms matchFound selectorMatchFound =
        .ok (matchFound || near, selectorMatchFound || selected) ∧
      (matchFound = false → (near ↔ terms ≠ [] ∧ MatchesNear c.podLister pod node terms q)) ∧
      (matchFound = false → (selected ↔ terms ≠ [] ∧ MatchesAll pod terms q)) := by
  rw [checkAffinity]
  by_cases hskip : matchFound = false ∧ terms ≠ []
  · obtain ⟨same, hsame, hiff⟩ := podMatchesPodAffinityTerms_eq hplaced hq hskip.2 hvalid hkeys pod node
    have hlen : 0 < terms.length := length_pos_of_ne_nil hskip.2
    refine ⟨same, decide (MatchesAll pod terms q), by simp [hskip.1, hlen, hsame], fun _ => ?_, fun _ => ?_⟩
    · rw [hiff, ← matchesNear_iff hplaced hq, and_iff_right hskip.2]
    · simp [hskip.2]
  · refine ⟨false, false, ?_, fun hfound => ?_, fun hfound => ?_⟩
    · have hno : ¬ ((!matchFound && decide (terms.length > 0)) = true) := by
        simpa [length_pos_iff] using hskip
      rw [if_neg hno, Bool.or_false, Bool.or_false]
    · simpa using fun hterms => absurd ⟨hfound, hterms⟩ hskip
    · simpa using fun hterms => absurd ⟨hfound, hterms⟩ hskip

theorem checkAntiAffinity_iff :
    c.checkAntiAffinity pod q node terms ↔ terms ≠ [] ∧ MatchesNear c.podLister pod node terms q := by
  rw [checkAntiAffinity]
  by_cases hterms : terms = []
  · simp [hterms]
  · obtain ⟨_, hsame, hiff⟩ := podMatchesPodAffinityTerms_eq hplaced hq hterms hvalid hkeys pod node
    rw [if_pos (length_pos_of_ne_nil hterms), hsame, and_iff_right hterms, matchesNear_iff hplaced hq]
    exact hiff

end

/-- The loop over the pods fails exactly if the anti-affinity of the pod matches one of them. Otherwise
it finds out whether some pod matches all affinity terms in the topologies of the node and, if there is
none, whether some pod matches all terms elsewhere. -/
theorem checkPods_computes {antiTerms : List PodAffinityTerm} (pod : Pod) (node : Node) (pods : List Pod)
    (hpods : ∀ q ∈ pods, ∃ target, Hosts c.podLister target q)
    (hvalid : ValidTerms terms) (hvalidAnti : pods ≠ [] → ValidTerms antiTerms)
    (hkeys : KeysSet terms) (hkeysAnti : KeysSet antiTerms) (matchFound selectorMatchFound : Bool) :
    Computes (c.checkPods pod node terms antiTerms pods matchFound selectorMatchFound).toOption
      (¬ ∃ q ∈ pods, antiTerms ≠ [] ∧ MatchesNear c.podLister pod node antiTerms q) fun found =>
      (found.1 ↔ matchFound ∨ ∃ q ∈ pods, terms ≠ [] ∧ MatchesNear c.podLister pod node terms q) ∧
      (found.1 = false → (found.2 ↔ selectorMatchFound ∨ ∃ q ∈ pods, terms ≠ [] ∧ MatchesAll pod terms q)) := by
  induction pods generalizing matchFound selectorMatchFound with
  | nil => exact of_some (by simp) (by simp)
  | cons q pods ih =>
    rw [forall_mem_cons] at hpods
    obtain ⟨_, hq⟩ := hpods.1
    have hanti := checkAntiAffinity_iff hplaced hq (hvalidAnti (cons_ne_nil q pods)) hkeysAnti pod node
    obtain ⟨near, selected, haff, hnear, hselected⟩ :=
      checkAffinity_eq hplaced hq hvalid hkeys pod node matchFound selectorMatchFound
    rw [checkPods, haff]
    split_ifs with hfails
    · refine of_none fun hnone => hnone ?_
      exact ⟨q, mem_cons_self, hanti.mp hfails⟩
    · have hrest := ih hpods.2 (fun _ => hvalidAnti (cons_ne_nil q pods)) (matchFound || near)
        (selectorMatchFound || selected)
      rw [hanti] at hfails
      refine (hrest.mono ?_).congr ?_
      · rintro found ⟨hfound, hsel⟩
        cases matchFound with
        | true =>
          have htrue : found.1 = true := hfound.mpr (by simp)
          simp [htrue]
        | false =>
          rw [Bool.false_or, hnear rfl] at hfound
          rw [Bool.or_eq_true, hselected rfl] at hsel
          simp only [mem_cons, exists_eq_or_imp, Bool.false_eq_true, false_or, or_assoc] at hsel ⊢
          exact ⟨hfound, hsel⟩
      · simp [hfails]

end Placed

/-! ### Terms of existing pods -/

/-- An anti-affinity term of an existing pod keeps the incoming pod away from the node. -/
def KeptAway (pod : Pod) (node : Node) : Prop :=
  ∃ target q, Hosts cluster target q ∧
    ∃ term ∈ q.antiAffinityTerms, termMatches q term pod ∧ SameTopology node target term.topologyKey

theorem keptAway_iff {cluster : Cluster} : (∃ topologyKey value q, node.labels.lookup topologyKey = some value ∧
      (⟨topologyKey, value⟩, q) ∈ clusterEntries pods (existingEntries pod) cluster) ↔
      KeptAway cluster pod node := by
  constructor
  · rintro ⟨topologyKey, value, _, hlabel, target, q, hq, term, hterm, hmat, -, rfl, htgt⟩
    exact ⟨target, q, hq, term, hterm, hmat, value, hlabel, htgt⟩
  · rintro ⟨target, q, hq, term, hterm, hmat, value, hlabel, htgt⟩
    exact ⟨term.topologyKey, value, q, hlabel, target, q, hq, term, hterm, hmat, rfl, rfl, htgt⟩

theorem appendMatching_cons (existingPod : Pod) (pods : List Pod) (t : TopologyPairsMaps)
    (h : c.getNodeInfo existingPod.nodeName = .ok target) (mem : MetadataMemory) :
    c.appendMatching rt pod t (existingPod :: pods) mem =
      (getMatchingAntiAffinityTopologyPairsOfPod pod existingPod target mem).bind fun found =>
        c.appendMatching rt pod t pods (t.appendMaps rt found.2 found.1) := by
  rw [appendMatching, h]
  simp only
  cases getMatchingAntiAffinityTopologyPairsOfPod pod existingPod target mem <;> rfl

/-- The entries for the anti-affinity terms of some of the pods. -/
def entriesOf (pod : Pod) (pods : List Pod) : Entries :=
  {e | ∃ q ∈ pods, ∃ target, Hosts cluster target q ∧ e ∈ existingEntries pod target q}

section Placed
variable (hplaced : c.Placed)
include hplaced

theorem existingAntiAffinity_eq :
    existingAntiAffinity pod c.podLister = clusterEntries pods (existingEntries pod) c.podLister := by
  ext e
  constructor
  · rintro ⟨target, q, ⟨name, nodeInfo, hlookup, hnode, hq⟩, he⟩
    have hpods := ((hplaced.mem_podsWithAffinity name nodeInfo hlookup q).mp hq).1
    exact ⟨target, q, ⟨name, nodeInfo, hlookup, hnode, hpods⟩, he⟩
  · rintro ⟨target, q, ⟨name, nodeInfo, hlookup, hnode, hq⟩, he⟩
    obtain ⟨_, hterm, -⟩ := id he
    have haff := (hplaced.mem_podsWithAffinity name nodeInfo hlookup q).mpr
      ⟨hq, hasPodAffinityConstraints_of_mem hterm⟩
    exact ⟨target, q, ⟨name, nodeInfo, hlookup, hnode, haff⟩, he⟩

theorem appendMatching_computes (rt : Runtime) (pod : Pod) (pods : List Pod)
    (hpods : ∀ q ∈ pods, ∃ target, Hosts c.podLister target q) {t : TopologyPairsMaps} (h : t.Denotes mem R) :
    Computes (c.appendMatching rt pod t pods mem) (∀ q ∈ pods, ValidTerms q.antiAffinityTerms) fun mem' =>
      t.Adds mem mem' R (entriesOf c.podLister pod pods) := by
  induction pods generalizing mem R with
  | nil =>
    have hnone : entriesOf c.podLister pod [] = ∅ := by simp [entriesOf]
    rw [hnone]
    exact of_some (by simp) (Adds.refl h)
  | cons q pods ih =>
    rw [forall_mem_cons] at hpods
    obtain ⟨target, hq⟩ := hpods.1
    have hinfo := hplaced.getNodeInfo hq
    have hfirst : entriesOf c.podLister pod (q :: pods) =
        existingEntries pod target q ∪ entriesOf c.podLister pod pods := by
      ext e
      simp only [entriesOf, mem_cons, exists_eq_or_imp, Set.mem_union, Set.mem_ofPred_eq]
      refine or_congr_left ⟨?_, fun he => ⟨target, hq, he⟩⟩
      rintro ⟨_, hq', he⟩
      have heq := (hplaced.getNodeInfo hq').symm.trans hinfo
      cases heq
      exact he
    rw [appendMatching_cons q pods t hinfo, hfirst, forall_mem_cons]
    have hfound := getMatchingAntiAffinityTopologyPairsOfPod_computes rt pod q target mem
    exact hfound.bind fun _ hadds =>
      (ih hpods.2 (hadds t R h).denotes).mono fun _ hrest => (hadds t R h).trans hrest

theorem getMatchingAntiAffinityTopologyPairsOfPods_computes {pods : List Pod}
    (hpods : ∀ q, q ∈ pods ↔ ∃ target, Hosts c.podLister target q) (rt : Runtime) (pod : Pod) (mem : MetadataMemory) :
    Computes (c.getMatchingAntiAffinityTopologyPairsOfPods rt pod pods mem)
      (∀ q ∈ pods, ValidTerms q.antiAffinityTerms) fun found =>
      found.1.Denotes found.2 (clusterEntries NodeInfo.pods (existingEntries pod) c.podLister) := by
  obtain ⟨hden, -, -⟩ := newTopologyPairsMaps_spec mem
  have hall := appendMatching_computes hplaced rt pod pods (fun q => (hpods q).mp) hden
  refine hall.map fun _ hadds => ?_
  have hents : ∅ ∪ entriesOf c.podLister pod pods =
      clusterEntries NodeInfo.pods (existingEntries pod) c.podLister := by
    rw [Set.empty_union]
    ext e
    constructor
    · rintro ⟨q, -, target, hq, he⟩
      exact ⟨target, q, hq, he⟩
    · rintro ⟨target, q, hq, he⟩
      exact ⟨q, (hpods q).mpr ⟨target, hq⟩, target, hq, he⟩
  rw [← hents]
  exact hadds.denotes

end Placed

/-! ### The verdict -/

def MatchExists (pod : Pod) : Prop :=
  ∃ target q, Hosts cluster target q ∧ MatchesAll pod pod.affinityTerms q

/-- A pod of the cluster that matches all affinity terms, on a node in the topology of one of them. -/
def MatchNearTerm (pod : Pod) (node : Node) (term : PodAffinityTerm) : Prop :=
  ∃ target q, Hosts cluster target q ∧ MatchesAll pod pod.affinityTerms q ∧ SameTopology node target term.topologyKey

/-- A pod of the cluster that matches all affinity terms, on a node with the label of one of them. -/
def MatchLabelled (pod : Pod) : Prop :=
  ∃ target q, Hosts cluster target q ∧ MatchesAll pod pod.affinityTerms q ∧
    ∃ term ∈ pod.affinityTerms, target.labels.lookup term.topologyKey ≠ none

/-- A pod of the cluster that matches one anti-affinity term, on a node in its topology. -/
def ConflictOfTerm (pod : Pod) (node : Node) : Prop :=
  ∃ term ∈ pod.antiAffinityTerms, ∃ target q, Hosts cluster target q ∧ termMatches pod term q ∧
    SameTopology node target term.topologyKey

/-- A pod of the cluster that matches all anti-affinity terms, on a node in all their topologies. -/
def ConflictOfTerms (pod : Pod) (node : Node) : Prop :=
  pod.antiAffinityTerms ≠ [] ∧ ∃ q, MatchesNear cluster pod node pod.antiAffinityTerms q

/-- The affinity of the pod is satisfied as the path without metadata has it: by one pod that matches
all terms in all topologies, or by no pod that matches and the pod itself. -/
def SatisfiedByOnePod (pod : Pod) (node : Node) : Prop :=
  pod.affinityTerms = [] ∨ (∃ q, MatchesNear cluster pod node pod.affinityTerms q) ∨
    ¬ MatchExists cluster pod ∧ MatchesAll pod pod.affinityTerms pod

/-- The affinity of the pod is satisfied as the path with metadata has it: each term by a pod, or by no
pod that matches on a node with a label and the pod itself. -/
def SatisfiedByTerm (pod : Pod) (node : Node) : Prop :=
  pod.affinityTerms = [] ∨ (∀ term ∈ pod.affinityTerms, MatchNearTerm cluster pod node term) ∨
    ¬ MatchLabelled cluster pod ∧ MatchesAll pod pod.affinityTerms pod

theorem fit_iff (hnode : nodeInfo.node = some node) (metadata : Option AffinityMetadata) :
    (c.interPodAffinityMatches rt pod metadata nodeInfo mem).fit ↔
      (c.satisfiesExistingPodsAntiAffinity rt pod metadata nodeInfo mem).1 = none ∧
      ∀ affinity, pod.affinity = some affinity → affinity.podAffinity ∨ affinity.podAntiAffinity →
        c.satisfiesPodsAffinityAntiAffinity rt pod metadata nodeInfo affinity
          (c.satisfiesExistingPodsAntiAffinity rt pod metadata nodeInfo mem).2 = none := by
  rw [interPodAffinityMatches, hnode]
  rcases c.satisfiesExistingPodsAntiAffinity rt pod metadata nodeInfo mem with ⟨_ | _, mem'⟩
  · cases pod.affinity with
    | none => simp
    | some affinity =>
      simp only [true_and, Option.some_inj, forall_eq']
      by_cases hset : affinity.podAffinity ∨ affinity.podAntiAffinity
      · have hset' : ¬ ((!affinity.podAffinity && !affinity.podAntiAffinity) = true) := by
          simpa [or_iff_not_imp_left] using hset
        rw [if_neg hset', imp_iff_right hset]
        cases c.satisfiesPodsAffinityAntiAffinity rt pod metadata nodeInfo affinity mem' <;> simp
      · rw [if_pos (by simpa [not_or] using hset)]
        simp [hset]
  · simp

theorem affinityTerms_of_not_set (h : ∀ affinity, pod.affinity = some affinity →
    ¬ (affinity.podAffinity ∨ affinity.podAntiAffinity)) : pod.affinityTerms = [] ∧ pod.antiAffinityTerms = [] := by
  rw [affinityTerms, antiAffinityTerms]
  cases haff : pod.affinity with
  | none => exact ⟨rfl, rfl⟩
  | some affinity =>
    have hset := not_or.mp (h affinity haff)
    simp [getPodAffinityTerms, getPodAntiAffinityTerms, hset]

theorem forall_affinity_iff {P : Affinity → Prop} {Q : Prop}
    (hP : ∀ affinity, pod.affinity = some affinity → (P affinity ↔ Q))
    (hQ : pod.affinityTerms = [] → pod.antiAffinityTerms = [] → Q) :
    (∀ affinity, pod.affinity = some affinity → affinity.podAffinity ∨ affinity.podAntiAffinity → P affinity) ↔ Q := by
  constructor
  · intro h
    by_cases hset : ∃ affinity, pod.affinity = some affinity ∧ (affinity.podAffinity ∨ affinity.podAntiAffinity)
    · obtain ⟨affinity, haff, hset⟩ := hset
      exact (hP affinity haff).mp (h affinity haff hset)
    · have hterms := affinityTerms_of_not_set fun affinity haff hany =>
        hset ⟨affinity, haff, hany⟩
      exact hQ hterms.1 hterms.2
  · intro hq affinity haff _
    exact (hP affinity haff).mpr hq

section Metadata
variable {metadata : AffinityMetadata} {cluster : Cluster}

theorem matchNearTerm_iff {term : PodAffinityTerm} (hterm : term ∈ pod.affinityTerms) :
    (∃ value q, node.labels.lookup term.topologyKey = some value ∧
      (⟨term.topologyKey, value⟩, q) ∈ incomingAffinity pod cluster) ↔ MatchNearTerm cluster pod node term := by
  constructor
  · rintro ⟨value, _, hlabel, target, q, hq, hall, _, -, -, -, htgt⟩
    exact ⟨target, q, hq, hall, value, hlabel, htgt⟩
  · rintro ⟨target, q, hq, hall, value, hlabel, htgt⟩
    exact ⟨value, q, hlabel, target, q, hq, hall, term, hterm, rfl, rfl, htgt⟩

theorem incomingAffinity_eq_empty_iff : incomingAffinity pod cluster = ∅ ↔ ¬ MatchLabelled cluster pod := by
  rw [Set.eq_empty_iff_forall_notMem]
  constructor
  · rintro hnone ⟨target, q, hq, hall, term, hterm, hlabel⟩
    obtain ⟨value, hval⟩ := Option.ne_none_iff_exists'.mp hlabel
    exact hnone (⟨term.topologyKey, value⟩, q) ⟨target, q, hq, hall, term, hterm, rfl, rfl, hval⟩
  · rintro hnone ⟨⟨topologyKey, value⟩, _⟩ ⟨target, q, hq, hall, term, hterm, -, rfl, hval⟩
    exact hnone ⟨target, q, hq, hall, term, hterm, by rw [hval]; exact Option.some_ne_none _⟩

theorem conflictOfTerm_iff :
    (∃ term ∈ pod.antiAffinityTerms, ∃ value q, node.labels.lookup term.topologyKey = some value ∧
      (⟨term.topologyKey, value⟩, q) ∈ incomingAntiAffinity pod cluster) ↔ ConflictOfTerm cluster pod node := by
  constructor
  · rintro ⟨term, -, value, _, hlabel, target, q, hq, other, hother, hmat, -, hkey, htgt⟩
    change term.topologyKey = other.topologyKey at hkey
    rw [hkey] at hlabel htgt
    exact ⟨other, hother, target, q, hq, hmat, value, hlabel, htgt⟩
  · rintro ⟨term, hterm, target, q, hq, hmat, value, hlabel, htgt⟩
    exact ⟨term, hterm, value, q, hlabel, target, q, hq, term, hterm, hmat, rfl, rfl, htgt⟩

theorem satisfiesWithMetadata_eq_none_iff {affinity : Affinity} (haff : pod.affinity = some affinity)
    (h : metadata.Denotes mem (.of pod cluster)) :
    satisfiesWithMetadata pod metadata node affinity mem = none ↔
      SatisfiedByTerm cluster pod node ∧ ¬ ConflictOfTerm cluster pod node := by
  have hall : nodeMatchesAllTopologyTerms metadata.topologyPairsPotentialAffinityPods mem node pod.affinityTerms ↔
      ∀ term ∈ pod.affinityTerms, MatchNearTerm cluster pod node term := by
    rw [nodeMatchesAllTopologyTerms_iff h.affinity]
    exact forall₂_congr fun term hterm => matchNearTerm_iff hterm
  have hempty : metadata.topologyPairsPotentialAffinityPods.numPairs mem = 0 ↔ ¬ MatchLabelled cluster pod :=
    (numPairs_eq_zero_iff h.affinity).trans incomingAffinity_eq_empty_iff
  have haffinityFails : (pod.affinityTerms.length > 0 &&
      !nodeMatchesAllTopologyTerms metadata.topologyPairsPotentialAffinityPods mem node pod.affinityTerms &&
      !(metadata.topologyPairsPotentialAffinityPods.numPairs mem = 0 && targetPodMatchesAffinityOfPod pod pod)) = true ↔
      ¬ SatisfiedByTerm cluster pod node := by
    simp only [Bool.and_eq_true, decide_eq_true_eq, Bool.not_eq_true', ← Bool.not_eq_true, gt_iff_lt,
      length_pos_iff, targetPodMatchesAffinityOfPod_iff, hall, hempty, SatisfiedByTerm, MatchesAll]
    tauto
  have hantiAffinityFails : (pod.antiAffinityTerms.length > 0 &&
      nodeMatchesAnyTopologyTerm metadata.topologyPairsPotentialAntiAffinityPods mem node
        pod.antiAffinityTerms) = true ↔ ConflictOfTerm cluster pod node := by
    rw [Bool.and_eq_true, (nodeMatchesAnyTopologyTerm_iff h.antiAffinity _).trans conflictOfTerm_iff]
    refine and_iff_right_of_imp ?_
    rintro ⟨term, hterm, -⟩
    simpa using length_pos_of_mem hterm
  rw [satisfiesWithMetadata, ← affinityTerms_of_some haff, ← antiAffinityTerms_of_some haff]
  simp only
  split_ifs with hfirst hsnd
  · simp [haffinityFails.mp hfirst]
  · simp [hantiAffinityFails.mp hsnd]
  · rw [haffinityFails, not_not] at hfirst
    rw [hantiAffinityFails] at hsnd
    exact iff_of_true rfl ⟨hfirst, hsnd⟩

theorem fit_with_metadata_iff (c : PodAffinityChecker) (rt : Runtime) (hnode : nodeInfo.node = some node)
    (hexi : existingAntiAffinity pod cluster = clusterEntries pods (existingEntries pod) cluster)
    (h : metadata.Denotes mem (.of pod cluster)) :
    (c.interPodAffinityMatches rt pod (some metadata) nodeInfo mem).fit ↔
      ¬ KeptAway cluster pod node ∧ SatisfiedByTerm cluster pod node ∧ ¬ ConflictOfTerm cluster pod node := by
  have hkept : anyLabelPair rt metadata.topologyPairsAntiAffinityPodsMap mem node ↔ KeptAway cluster pod node := by
    rw [anyLabelPair_iff h.existing, AffinityEntries.of, hexi, keptAway_iff]
  have hfirst : c.satisfiesExistingPodsAntiAffinity rt pod (some metadata) nodeInfo mem =
      (if anyLabelPair rt metadata.topologyPairsAntiAffinityPodsMap mem node then
        some (errExistingPodsAntiAffinityRulesNotMatch, none) else none, mem) := by
    rw [satisfiesExistingPodsAntiAffinity, hnode]
    simp only
    split_ifs <;> rfl
  rw [fit_iff hnode, hfirst]
  refine and_congr (by simp [hkept]) (forall_affinity_iff (fun _ haff => ?_) fun hterms hanti => ?_)
  · rw [satisfiesPodsAffinityAntiAffinity, hnode]
    exact satisfiesWithMetadata_eq_none_iff haff h
  · exact ⟨.inl hterms, by simp [ConflictOfTerm, hanti]⟩

end Metadata

section Pods
variable (hplaced : c.Placed)
include hplaced

theorem satisfiesWithPods_eq_none_iff {listed : List Pod}
    (hpods : ∀ q, q ∈ listed ↔ ∃ target, Hosts c.podLister target q) {affinity : Affinity}
    (haff : pod.affinity = some affinity) (hvalid : ValidFor pod c.podLister) (hkeys : KeysSet pod.affinityTerms)
    (hkeysAnti : KeysSet pod.antiAffinityTerms) : c.satisfiesWithPods pod listed node affinity = none ↔
      SatisfiedByOnePod c.podLister pod node ∧ ¬ ConflictOfTerms c.podLister pod node := by
  have hvalidAnti : listed ≠ [] → ValidTerms pod.antiAffinityTerms := by
    intro hne
    obtain ⟨q, hq⟩ := exists_mem_of_ne_nil _ hne
    obtain ⟨target, hhosts⟩ := (hpods q).mp hq
    exact hvalid.antiAffinity target q hhosts
  have hloop := checkPods_computes hplaced pod node _ (fun q => (hpods q).mp) hvalid.affinity
    hvalidAnti hkeys hkeysAnti false false
  have hnear (terms : List PodAffinityTerm) : (∃ q ∈ listed, terms ≠ [] ∧ MatchesNear c.podLister pod node terms q) ↔
      terms ≠ [] ∧ ∃ q, MatchesNear c.podLister pod node terms q := by
    constructor
    · rintro ⟨q, -, hterms, hnear⟩
      exact ⟨hterms, q, hnear⟩
    · rintro ⟨hterms, q, target, hq, hnear⟩
      exact ⟨q, (hpods q).mpr ⟨target, hq⟩, hterms, target, hq, hnear⟩
  have hexists : (∃ q ∈ listed, pod.affinityTerms ≠ [] ∧ MatchesAll pod pod.affinityTerms q) ↔
      pod.affinityTerms ≠ [] ∧ MatchExists c.podLister pod := by
    constructor
    · rintro ⟨q, hq, hterms, hall⟩
      obtain ⟨target, hhosts⟩ := (hpods q).mp hq
      exact ⟨hterms, target, q, hhosts, hall⟩
    · rintro ⟨hterms, target, q, hq, hall⟩
      exact ⟨q, (hpods q).mpr ⟨target, hq⟩, hterms, hall⟩
  rw [hnear, ← ConflictOfTerms] at hloop
  rw [satisfiesWithPods, ← affinityTerms_of_some haff, ← antiAffinityTerms_of_some haff]
  cases hres : c.checkPods pod node pod.affinityTerms pod.antiAffinityTerms listed false false with
  | error failure =>
    rw [hres] at hloop
    have hyes := not_not.mp (hloop.not_valid_of_none rfl)
    simp [hyes]
  | ok found =>
    rw [hres] at hloop
    obtain ⟨hfound, hsel⟩ := hloop.post found rfl
    rw [hnear] at hfound
    rw [hexists] at hsel
    rw [and_iff_left (hloop.valid_of_some rfl), SatisfiedByOnePod]
    obtain ⟨_ | _, selectorMatchFound⟩ := found
    · have hnone := mt hfound.mpr Bool.false_ne_true
      by_cases hterms : pod.affinityTerms = []
      · simp [hterms]
      · have hself := targetPodMatchesAffinityOfPod_iff pod pod
        rw [← MatchesAll, and_iff_right hterms] at hself
        have hselected := hsel rfl
        simp only [Bool.false_eq_true, false_or, ne_eq, hterms, not_false_eq_true, true_and] at hselected hnone
        simp only [hterms, hnone, ← hselected, ← hself, false_or]
        cases selectorMatchFound <;> cases targetPodMatchesAffinityOfPod pod pod <;> simp [hterms, length_pos_iff]
    · have hsome := hfound.mp rfl
      simp only [Bool.false_eq_true, false_or] at hsome
      exact iff_of_true rfl (.inr (.inl hsome.2))

variable (hlookup : c.podLister.lookup name = some nodeInfo)
include hlookup

theorem satisfiesExisting_without_metadata_iff (hnode : nodeInfo.node = some node) (hvalid : ValidFor pod c.podLister) :
    (c.satisfiesExistingPodsAntiAffinity rt pod none nodeInfo mem).1 = none ↔ ¬ KeptAway c.podLister pod node := by
  have hpods := hplaced.mem_filteredList hlookup rt mem
  have hterms : ∀ q ∈ c.filteredList rt mem nodeInfo.filter everything, ValidTerms q.antiAffinityTerms := by
    intro q hq term hterm
    obtain ⟨target, name', nodeInfo', hlookup', hnode', hq'⟩ := (hpods q).mp hq
    have haff := (hplaced.mem_podsWithAffinity name' nodeInfo' hlookup' q).mpr
      ⟨hq', hasPodAffinityConstraints_of_mem hterm⟩
    exact hvalid.existing target q ⟨name', nodeInfo', hlookup', hnode', haff⟩ term hterm
  obtain ⟨⟨t, mem'⟩, hfound, hden⟩ :=
    (getMatchingAntiAffinityTopologyPairsOfPods_computes hplaced hpods rt pod mem).exists_some hterms
  have hkept : anyLabelPair rt t mem' node ↔ KeptAway c.podLister pod node := by
    rw [anyLabelPair_iff hden, keptAway_iff]
  rw [satisfiesExistingPodsAntiAffinity, hnode]
  simp only [hfound]
  split_ifs with hany
  · simp [hkept.mp hany]
  · simpa using fun haway => hany (hkept.mpr haway)

theorem fit_without_metadata_iff (hnode : nodeInfo.node = some node) (hvalid : ValidFor pod c.podLister)
    (hkeys : KeysSet pod.affinityTerms) (hkeysAnti : KeysSet pod.antiAffinityTerms) (rt : Runtime)
    (mem : MetadataMemory) :
    (c.interPodAffinityMatches rt pod none nodeInfo mem).fit ↔
      ¬ KeptAway c.podLister pod node ∧ SatisfiedByOnePod c.podLister pod node ∧
        ¬ ConflictOfTerms c.podLister pod node := by
  rw [fit_iff hnode, satisfiesExisting_without_metadata_iff hplaced hlookup hnode hvalid]
  refine and_congr_right fun _ => forall_affinity_iff (fun _ haff => ?_) fun hterms hanti => ?_
  · rw [satisfiesPodsAffinityAntiAffinity, hnode]
    exact satisfiesWithPods_eq_none_iff hplaced (hplaced.mem_filteredList hlookup rt _) haff hvalid hkeys hkeysAnti
  · exact ⟨.inl hterms, by simp [ConflictOfTerms, hanti]⟩

end Pods

/-! ### Agreement -/

section Agreement
variable {cluster : Cluster}

/-- The affinity is satisfied with metadata only: each term has a matching pod in its topology but no
pod is in all of them, or the pod matches itself and the pods that match are on nodes without labels. -/
def SatisfiedByTermOnly (cluster : Cluster) (pod : Pod) (node : Node) : Prop :=
  pod.affinityTerms ≠ [] ∧ (¬ ∃ q, MatchesNear cluster pod node pod.affinityTerms q) ∧
    ((∀ term ∈ pod.affinityTerms, MatchNearTerm cluster pod node term) ∨
      MatchExists cluster pod ∧ ¬ MatchLabelled cluster pod ∧ MatchesAll pod pod.affinityTerms pod)

/-- No existing pod keeps the pod away, and either the affinity is satisfied with metadata only and no
pod matches an anti-affinity term, or the affinity is satisfied by one pod, and some pod matches one of
the anti-affinity terms in its topology but none matches all of them. -/
def PathsDiffer (cluster : Cluster) (pod : Pod) (node : Node) : Prop :=
  ¬ KeptAway cluster pod node ∧ (SatisfiedByTermOnly cluster pod node ∧ ¬ ConflictOfTerm cluster pod node ∨
      SatisfiedByOnePod cluster pod node ∧ ConflictOfTerm cluster pod node ∧ ¬ ConflictOfTerms cluster pod node)

theorem matchExists_of_nearTerm (hterms : pod.affinityTerms ≠ [])
    (h : ∀ term ∈ pod.affinityTerms, MatchNearTerm cluster pod node term) : MatchExists cluster pod := by
  obtain ⟨term, hterm⟩ := exists_mem_of_ne_nil _ hterms
  obtain ⟨target, q, hq, hall, -⟩ := h term hterm
  exact ⟨target, q, hq, hall⟩

theorem nearTerm_of_matchesNear (h : MatchesNear cluster pod node pod.affinityTerms q) :
    ∀ term ∈ pod.affinityTerms, MatchNearTerm cluster pod node term := by
  obtain ⟨target, hq, hall, hsame⟩ := h
  exact fun term hterm => ⟨target, q, hq, hall, hsame term hterm⟩

theorem conflictOfTerm_of_terms (h : ConflictOfTerms cluster pod node) : ConflictOfTerm cluster pod node := by
  obtain ⟨hterms, q, target, hq, hall, hsame⟩ := h
  obtain ⟨term, hterm⟩ := exists_mem_of_ne_nil _ hterms
  exact ⟨term, hterm, target, q, hq, hall term hterm, hsame term hterm⟩

theorem MatchLabelled.matchExists (h : MatchLabelled cluster pod) : MatchExists cluster pod := by
  obtain ⟨target, q, hq, hall, -⟩ := h
  exact ⟨target, q, hq, hall⟩

theorem satisfiedByTerm_iff : SatisfiedByTerm cluster pod node ↔
      SatisfiedByOnePod cluster pod node ∨ SatisfiedByTermOnly cluster pod node := by
  by_cases hterms : pod.affinityTerms = []
  · simp [SatisfiedByTerm, SatisfiedByOnePod, hterms]
  · have hnear : (∃ q, MatchesNear cluster pod node pod.affinityTerms q) →
        ∀ term ∈ pod.affinityTerms, MatchNearTerm cluster pod node term :=
      fun ⟨_, hq⟩ => nearTerm_of_matchesNear hq
    have hlabelled : MatchLabelled cluster pod → MatchExists cluster pod := MatchLabelled.matchExists
    simp only [SatisfiedByTerm, SatisfiedByOnePod, SatisfiedByTermOnly, hterms, false_or, ne_eq,
      not_false_eq_true, true_and]
    tauto

theorem satisfiedByTermOnly_not_onePod (h : SatisfiedByTermOnly cluster pod node) :
    ¬ SatisfiedByOnePod cluster pod node := by
  obtain ⟨hterms, hnone, hother⟩ := h
  have hexists : MatchExists cluster pod := hother.elim (matchExists_of_nearTerm hterms) And.left
  rintro (hnil | hnear | ⟨hno, -⟩)
  · exact hterms hnil
  · exact hnone hnear
  · exact hno hexists

/-- The two paths have the same verdict exactly if none of the differences shows. -/
theorem interPodAffinityMatches_fit_eq_iff (hplaced : c.Placed)
    (hkeys : ∀ term ∈ pod.affinityTerms ++ pod.antiAffinityTerms, term.topologyKey ≠ "")
    {schedule : Schedule c.podLister} {service : ServiceAffinity} {metadata : AffinityMetadata}
    {mem₀ mem mem' : MetadataMemory} {computing checking listing : Runtime}
    (h : getMetadata computing pod schedule service mem₀ = some (metadata, mem))
    (hlookup : c.podLister.lookup name = some nodeInfo) (hnode : nodeInfo.node = some node) :
    (c.interPodAffinityMatches checking pod (some metadata) nodeInfo mem).fit =
        (c.interPodAffinityMatches listing pod none nodeInfo mem').fit ↔ ¬ PathsDiffer c.podLister pod node := by
  have hcomputes := getMetadata_computes computing pod schedule service mem₀
  obtain ⟨-, hdenotes, -⟩ := hcomputes.post _ h
  have hvalid := hcomputes.valid_of_some h
  rw [List.forall_mem_append] at hkeys
  have hfast := fit_with_metadata_iff c checking hnode (existingAntiAffinity_eq hplaced) hdenotes
  have hslow := fit_without_metadata_iff hplaced hlookup hnode hvalid hkeys.1 hkeys.2 listing mem'
  have hstrict : SatisfiedByTermOnly c.podLister pod node → ¬ SatisfiedByOnePod c.podLister pod node :=
    satisfiedByTermOnly_not_onePod
  have hconflict : ConflictOfTerms c.podLister pod node → ConflictOfTerm c.podLister pod node :=
    conflictOfTerm_of_terms
  rw [Bool.eq_iff_iff, hfast, hslow, satisfiedByTerm_iff, PathsDiffer]
  clear hfast hslow hdenotes hcomputes hvalid hkeys hplaced h hlookup hnode
  tauto

end Agreement

/-! ### One node -/

def oneNodeChecker (node : Node) (nodeInfo : NodeInfo) : PodAffinityChecker where
  info := (∅ : GoMap String Node).insert "a" node
  podLister := oneNode nodeInfo

theorem placed_oneNode (hnode : nodeInfo.node = some node) (hname : node.name = "a")
    (hpods : ∀ q ∈ nodeInfo.pods, q.nodeName = "a")
    (haff : ∀ q, q ∈ nodeInfo.podsWithAffinity ↔ q ∈ nodeInfo.pods ∧ hasPodAffinityConstraints q) :
    (oneNodeChecker node nodeInfo).Placed where
  node name info hlookup := by
    obtain ⟨rfl, rfl⟩ := eq_of_lookup_oneNode hlookup
    exact ⟨node, hnode, hname, by simp [oneNodeChecker]⟩
  nodeName name info hlookup := by
    obtain ⟨rfl, rfl⟩ := eq_of_lookup_oneNode hlookup
    exact hpods
  mem_podsWithAffinity name info hlookup := by
    obtain ⟨rfl, rfl⟩ := eq_of_lookup_oneNode hlookup
    exact haff

theorem hosts_oneNode_iff (hnode : nodeInfo.node = some node) :
    Hosts (oneNode nodeInfo) target q ↔ target = node ∧ q ∈ nodeInfo.pods := by
  constructor
  · rintro ⟨_, _, hlookup, htgt, hq⟩
    obtain ⟨rfl, rfl⟩ := eq_of_lookup_oneNode hlookup
    exact ⟨Option.some.inj (htgt.symm.trans hnode), hq⟩
  · rintro ⟨rfl, hq⟩
    exact ⟨"a", nodeInfo, lookup_oneNode nodeInfo, hnode, hq⟩

def rackNode : Node where
  name := "a"
  labels := ((∅ : GoMap String String).insert "zone" "z").insert "rack" "r"
  allocatable := .empty
  taints := []
  conditions := []
  images := []

def neighbour : Pod := loner "old" []

def shared : NodeInfo := rackInfo.addPod neighbour 1

def sharedChecker : PodAffinityChecker := oneNodeChecker rackNode shared

theorem placed_shared : sharedChecker.Placed := by
  refine placed_oneNode rfl rfl (fun q hq => ?_) fun q => ?_
  · rw [mem_singleton.mp hq]
    rfl
  · refine (and_iff_left_of_imp fun hq => ?_).symm
    rw [mem_singleton.mp hq]
    rfl

theorem hosts_shared_iff : Hosts sharedChecker.podLister target q ↔ target = rackNode ∧ q = neighbour := by
  rw [sharedChecker, oneNodeChecker, hosts_oneNode_iff (show shared.node = some rackNode from rfl)]
  exact and_congr_right fun _ => mem_singleton

theorem not_keptAway_shared : ¬ KeptAway sharedChecker.podLister pod rackNode := by
  rintro ⟨_, q, hq, _, hterm, -⟩
  rw [(hosts_shared_iff.mp hq).2] at hterm
  cases hterm

theorem interPodAffinityMatches_fit_eq_iff_shared :
    ∃ metadata mem, getMetadata default (loner "new" [keepAway "zone" []])
        (default : Schedule sharedChecker.podLister) {} {} = some (metadata, mem) ∧
      (sharedChecker.interPodAffinityMatches default (loner "new" [keepAway "zone" []]) (some metadata)
        shared mem).fit =
      (sharedChecker.interPodAffinityMatches default (loner "new" [keepAway "zone" []]) none shared {}).fit := by
  have hvalid : ValidFor (loner "new" [keepAway "zone" []]) sharedChecker.podLister :=
    validFor_oneNode rfl (by decide) (by decide) (by decide)
  obtain ⟨⟨metadata, mem⟩, h, -⟩ := (getMetadata_computes default _ default {} {}).exists_some hvalid
  refine ⟨metadata, mem, h, (interPodAffinityMatches_fit_eq_iff placed_shared (by decide) h
    (lookup_oneNode shared) (show shared.node = some rackNode from rfl)).mpr ?_⟩
  rintro ⟨-, ⟨⟨hterms, -⟩, -⟩ | ⟨-, -, hno⟩⟩
  · exact hterms rfl
  · refine hno ⟨by decide, neighbour, rackNode, hosts_shared_iff.mpr ⟨rfl, rfl⟩, by decide, fun _ hterm => ?_⟩
    rw [List.mem_singleton.mp hterm]
    exact ⟨"z", rfl, rfl⟩

/-- A pod that keeps away from its own namespace in its zone and from another one in its rack is kept
off the node with the metadata, and admitted without it. -/
theorem interPodAffinityMatches_fit_differs :
    ∃ metadata mem, getMetadata default choosy (default : Schedule sharedChecker.podLister) {} {} =
        some (metadata, mem) ∧
      (sharedChecker.interPodAffinityMatches default choosy (some metadata) shared mem).fit = false ∧
      (sharedChecker.interPodAffinityMatches default choosy none shared {}).fit = true := by
  have hvalid : ValidFor choosy sharedChecker.podLister :=
    validFor_oneNode rfl (by decide) (by decide) (by decide)
  obtain ⟨⟨metadata, mem⟩, h, -, hdenotes, -⟩ := (getMetadata_computes default _ default {} {}).exists_some hvalid
  have hnode : shared.node = some rackNode := rfl
  refine ⟨metadata, mem, h, ?_, ?_⟩
  · rw [← Bool.not_eq_true, fit_with_metadata_iff _ _ hnode (existingAntiAffinity_eq placed_shared) hdenotes]
    exact fun hfit => hfit.2.2 ⟨keepAway "zone" [], List.mem_cons_self, rackNode, neighbour,
      hosts_shared_iff.mpr ⟨rfl, rfl⟩, by decide, "z", rfl, rfl⟩
  · rw [fit_without_metadata_iff placed_shared (lookup_oneNode shared) hnode hvalid (by decide) (by decide)]
    refine ⟨not_keptAway_shared, .inl rfl, ?_⟩
    rintro ⟨-, q, _, hq, hall, -⟩
    rw [(hosts_shared_iff.mp hq).2] at hall
    revert hall
    decide

end LeanKube.Scheduler
