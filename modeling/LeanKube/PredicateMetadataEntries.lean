import LeanKube.PredicateMetadataPairs

/-! The entries that the metadata of a pod holds for a cluster. Each pod of the cluster adds its own,
by the terms that match, so that the order in which nodes and pods are visited has no influence. -/

namespace LeanKube.Scheduler
open Storage TopologyPairsMaps Option List Set Adds

/-! ### Computations that may fail -/

structure Computes {α : Type} (result : Option α) (valid : Prop) (post : α → Prop) : Prop where
  isSome_iff : result.isSome ↔ valid
  post : ∀ x, result = some x → post x

namespace Computes
variable {α β : Type} {result : Option α} {valid valid' : Prop} {post : α → Prop} {post' : β → Prop}

theorem of_some {x : α} (hvalid : valid) (h : post x) : Computes (some x) valid post :=
  ⟨by simp [hvalid], by simpa using h⟩

theorem of_none (hvalid : ¬ valid) : Computes (none : Option α) valid post := ⟨by simp [hvalid], by simp⟩

variable (h : Computes result valid post)
include h

theorem eq_none (hvalid : ¬ valid) : result = none := by
  rw [← h.isSome_iff] at hvalid
  simpa using hvalid

theorem exists_some (hvalid : valid) : ∃ x, result = some x ∧ post x := by
  obtain ⟨x, hx⟩ := isSome_iff_exists.mp (h.isSome_iff.mpr hvalid)
  exact ⟨x, hx, h.post x hx⟩

theorem valid_of_some {x : α} (hx : result = some x) : valid := h.isSome_iff.mp (by rw [hx]; rfl)

theorem not_valid_of_none (hnone : result = none) : ¬ valid := by
  rw [← h.isSome_iff, hnone]
  exact Bool.false_ne_true

theorem bind {f : α → Option β} (hf : ∀ x, post x → Computes (f x) valid' post') :
    Computes (result.bind f) (valid ∧ valid') post' := by
  by_cases hvalid : valid
  · obtain ⟨x, rfl, hx⟩ := h.exists_some hvalid
    exact ⟨by simp [(hf x hx).isSome_iff, hvalid], by simpa using (hf x hx).post⟩
  · rw [h.eq_none hvalid]
    exact of_none fun hboth => hvalid hboth.1

theorem map {f : α → β} (hf : ∀ x, post x → post' (f x)) : Computes (result.map f) valid post' :=
  ⟨by rw [isSome_map, h.isSome_iff], by
    rintro _ hy
    obtain ⟨x, hx, rfl⟩ := map_eq_some_iff.mp hy
    exact hf x (h.post x hx)⟩

theorem mono {post' : α → Prop} (hpost : ∀ x, post x → post' x) : Computes result valid post' :=
  ⟨h.isSome_iff, fun x hx => hpost x (h.post x hx)⟩

theorem congr (hvalid : valid ↔ valid') : Computes result valid' post := ⟨h.isSome_iff.trans hvalid, h.post⟩

end Computes

/-! ### Terms -/

def Pod.affinityTerms (pod : Pod) : List PodAffinityTerm := (pod.affinity.map getPodAffinityTerms).getD []

def Pod.antiAffinityTerms (pod : Pod) : List PodAffinityTerm :=
  (pod.affinity.map getPodAntiAffinityTerms).getD []

def ValidTerms (terms : List PodAffinityTerm) : Prop :=
  ∀ term ∈ terms, (labelSelectorAsSelector term.labelSelector).isSome

def termMatches (owner : Pod) (term : PodAffinityTerm) (target : Pod) : Bool :=
  (labelSelectorAsSelector term.labelSelector).any
    (podMatchesTermsNamespaceAndSelector target (getNamespacesFromPodAffinityTerm owner term))

variable {terms : List PodAffinityTerm} (rt : Runtime) (pod : Pod)

theorem validTerms_cons {term : PodAffinityTerm} :
    ValidTerms (term :: terms) ↔ (labelSelectorAsSelector term.labelSelector).isSome ∧ ValidTerms terms :=
  forall_mem_cons

theorem getAffinityTermProperties_cons (term : PodAffinityTerm) (terms : List PodAffinityTerm) :
    getAffinityTermProperties pod (term :: terms) = (labelSelectorAsSelector term.labelSelector).bind fun selector =>
        (getAffinityTermProperties pod terms).map (⟨getNamespacesFromPodAffinityTerm pod term, selector⟩ :: ·) := by
  rw [getAffinityTermProperties, getAffinityTermProperties, mapM_cons]
  cases labelSelectorAsSelector term.labelSelector with
  | none => rfl
  | some => simp [bind_eq_bind, map_eq_bind]

theorem getAffinityTermProperties_computes (terms : List PodAffinityTerm) :
    Computes (getAffinityTermProperties pod terms) (ValidTerms terms) fun properties =>
      ∀ target, properties.map (fun property =>
        podMatchesTermsNamespaceAndSelector target property.namespaces property.selector) =
      terms.map fun term => termMatches pod term target := by
  induction terms with
  | nil => exact Computes.of_some (by simp [ValidTerms]) fun _ => rfl
  | cons term _ ih =>
    rw [getAffinityTermProperties_cons, validTerms_cons]
    cases hsel : labelSelectorAsSelector term.labelSelector with
    | none => exact Computes.of_none (by simp)
    | some =>
      refine (ih.map fun _ hprops _ => ?_).congr (by simp)
      rw [map_cons, map_cons, hprops, termMatches, hsel, any_some]

section
variable {properties : List AffinityTermProperties} {pod : Pod}
  (h : getAffinityTermProperties pod terms = some properties) (target : Pod)
include h

theorem podMatchesAllAffinityTermProperties_iff :
    podMatchesAllAffinityTermProperties target properties ↔
      terms ≠ [] ∧ ∀ term ∈ terms, termMatches pod term target := by
  have hmap := (getAffinityTermProperties_computes pod terms).post properties h target
  have hlen := congrArg List.length hmap
  have hall := congrArg (List.all · id) hmap
  simp only [List.length_map, List.all_map, Function.comp_def, id_eq] at hlen hall
  rw [podMatchesAllAffinityTermProperties, hall, hlen]
  cases terms <;> simp

theorem podMatchesAnyAffinityTermProperties_iff :
    podMatchesAnyAffinityTermProperties target properties ↔ ∃ term ∈ terms, termMatches pod term target := by
  have hmap := (getAffinityTermProperties_computes pod terms).post properties h target
  have hlen := congrArg List.length hmap
  have hany := congrArg (List.any · id) hmap
  simp only [List.length_map, List.any_map, Function.comp_def, id_eq] at hlen hany
  rw [podMatchesAnyAffinityTermProperties, hany, hlen]
  cases terms <;> simp

end

/-! ### The entries of one pod -/

variable (node : Node)

def pairEntries (pod : Pod) (term : PodAffinityTerm) : Entries :=
  {e | e.2 = pod ∧ e.1.key = term.topologyKey ∧ node.labels.lookup e.1.key = some e.1.value}

def termEntries (pod : Pod) (terms : List PodAffinityTerm) : Entries :=
  {e | ∃ term ∈ terms, e ∈ pairEntries node pod term}

def matchingEntries (owner target pod : Pod) (terms : List PodAffinityTerm) : Entries :=
  {e | ∃ term ∈ terms, termMatches owner term target ∧ e ∈ pairEntries node pod term}

variable {node} in
theorem termEntries_snd {pod : Pod} {e : TopologyPair × Pod} (h : e ∈ termEntries node pod terms) : e.2 = pod := by
  obtain ⟨_, _, he, _⟩ := h
  exact he

variable {node} in
theorem matchingEntries_snd {owner target pod : Pod} {e : TopologyPair × Pod}
    (h : e ∈ matchingEntries node owner target pod terms) : e.2 = pod := by
  obtain ⟨_, _, _, he, _⟩ := h
  exact he

variable (existingPod : Pod)

def existingEntries : Entries :=
  matchingEntries node existingPod pod existingPod existingPod.antiAffinityTerms

/-- What a pod on a node adds to the incoming affinity: all pairs if it matches all terms. -/
def affinityEntries : Entries :=
  {e | (∀ term ∈ pod.affinityTerms, termMatches pod term existingPod) ∧
    e ∈ termEntries node existingPod pod.affinityTerms}

/-- What a pod on a node adds to the incoming anti-affinity: the pairs of the terms it matches. -/
def antiAffinityEntries : Entries :=
  matchingEntries node pod existingPod existingPod pod.antiAffinityTerms

variable {t a b : TopologyPairsMaps} {mem mem' mem'' : MetadataMemory} {R R' S S' : Entries}

namespace TopologyPairsMaps

theorem addTermPair_adds (h : t.Denotes mem R) (node : Node) (pod : Pod) (term : PodAffinityTerm) :
    t.Adds mem (t.addTermPair node pod mem term) R (pairEntries node pod term) := by
  rw [addTermPair]
  cases hlabel : node.labels.lookup term.topologyKey with
  | none =>
    have hempty : pairEntries node pod term = ∅ := by
      ext ⟨pair, other⟩
      simp only [pairEntries, mem_ofPred_eq, mem_empty_iff_false, iff_false]
      rintro ⟨-, hkey, hval⟩
      rw [hkey, hlabel] at hval
      cases hval
    rw [hempty]
    exact refl h
  | some topologyValue =>
    have hone : pairEntries node pod term = {(⟨term.topologyKey, topologyValue⟩, pod)} := by
      ext ⟨⟨key, value⟩, other⟩
      simp only [pairEntries, mem_ofPred_eq, mem_singleton_iff, Prod.mk.injEq, TopologyPair.mk.injEq]
      constructor
      · rintro ⟨rfl, rfl, hval⟩
        rw [hlabel] at hval
        exact ⟨⟨rfl, (some.inj hval).symm⟩, rfl⟩
      · rintro ⟨⟨rfl, rfl⟩, rfl⟩
        exact ⟨rfl, rfl, hlabel⟩
    rw [hone]
    exact addTopologyPair_adds h _ pod

theorem addTermPairs_adds (h : t.Denotes mem R) (node : Node) (pod : Pod) (terms : List PodAffinityTerm) :
    t.Adds mem (t.addTermPairs node pod mem terms) R (termEntries node pod terms) :=
  adds_foldl h fun term _ _ _ hadds => addTermPair_adds hadds.denotes node pod term

theorem addTermPairs_adds_ite (h : t.Denotes mem R) (node : Node) (pod : Pod) (terms : List PodAffinityTerm)
    {c : Bool} {S : Entries} (hS : ∀ e, e ∈ S ↔ c ∧ e ∈ termEntries node pod terms) :
    t.Adds mem (if c then t.addTermPairs node pod mem terms else mem) R S := by
  split_ifs with hc
  · have hall : S = termEntries node pod terms := by
      ext e
      rw [hS, and_iff_right hc]
    rw [hall]
    exact addTermPairs_adds h node pod terms
  · have hnone : S = ∅ := by
      ext e
      simp [hS, hc]
    rw [hnone]
    exact refl h

theorem addMatchingTermPairs_computes (node : Node) (owner target pod : Pod)
    (terms : List PodAffinityTerm) (h : t.Denotes mem R) :
    Computes (t.addMatchingTermPairs node owner target pod terms mem) (ValidTerms terms) fun mem' =>
      t.Adds mem mem' R (matchingEntries node owner target pod terms) := by
  induction terms generalizing mem R with
  | nil =>
    have hnone : matchingEntries node owner target pod [] = ∅ :=
      entries_nil fun term => {e | termMatches owner term target ∧ e ∈ pairEntries node pod term}
    rw [hnone]
    exact Computes.of_some (by simp [ValidTerms]) (refl h)
  | cons term terms ih =>
    have hsplit : matchingEntries node owner target pod (term :: terms) =
        {e | termMatches owner term target ∧ e ∈ pairEntries node pod term} ∪
          matchingEntries node owner target pod terms :=
      entries_cons (fun term => {e | termMatches owner term target ∧ e ∈ pairEntries node pod term}) ..
    rw [addMatchingTermPairs, validTerms_cons, hsplit]
    cases hsel : labelSelectorAsSelector term.labelSelector with
    | none => exact Computes.of_none (by simp)
    | some selector =>
      have hmat : termMatches owner term target =
          podMatchesTermsNamespaceAndSelector target (getNamespacesFromPodAffinityTerm owner term)
            selector := by
        rw [termMatches, hsel, any_some]
      simp only [← hmat]
      have hfirst : t.Adds mem
          (if termMatches owner term target then t.addTermPair node pod mem term else mem) R
          {e | termMatches owner term target ∧ e ∈ pairEntries node pod term} := by
        split_ifs with hmatch
        · simpa [hmatch] using addTermPair_adds h node pod term
        · simpa [hmatch] using refl h
      exact ((ih hfirst.denotes).mono fun _ hrest => hfirst.trans hrest).congr (by simp)

/-! ### New maps, and several maps at once -/

theorem Frames.of_empty (h : Frames ∅ mem mem') (T : Set TopologyPairsMaps) : Frames T mem mem' :=
  h.mono (empty_subset T)

theorem Denotes.frame_empty (h : t.Denotes mem R) (hframes : Frames ∅ mem mem') : t.Denotes mem' R :=
  h.frame hframes (by simp)

theorem Adds.of_frames (hframes : Frames ∅ mem mem') (h : t.Adds mem' mem'' R S) : t.Adds mem mem'' R S :=
  ⟨h.denotes, (hframes.of_empty _).trans h.frames⟩

theorem Adds.frames_of_fresh (h : t.Adds mem' mem'' R S) (hframes : Frames ∅ mem mem')
    (hfresh : t.Fresh mem) : Frames ∅ mem mem'' := by
  have hall : Frames (insert t ∅) mem mem'' := (hframes.of_empty _).trans (h.frames.mono (by simp))
  exact hall.of_fresh hfresh

structure AddsBoth (a b : TopologyPairsMaps) (mem mem' : MetadataMemory) (R R' S S' : Entries) : Prop where
  fst : a.Denotes mem' (R ∪ R')
  snd : b.Denotes mem' (S ∪ S')
  frames : Frames {a, b} mem mem'

theorem AddsBoth.refl (ha : a.Denotes mem R) (hb : b.Denotes mem S) : AddsBoth a b mem mem R ∅ S ∅ :=
  ⟨by rwa [union_empty], by rwa [union_empty], .refl _ _⟩

theorem AddsBoth.trans {R'' S'' : Entries} (h : AddsBoth a b mem mem' R R' S S')
    (h' : AddsBoth a b mem' mem'' (R ∪ R') R'' (S ∪ S') S'') : AddsBoth a b mem mem'' R (R' ∪ R'') S (S' ∪ S'') :=
  ⟨by rw [← union_assoc]; exact h'.fst, by rw [← union_assoc]; exact h'.snd, h.frames.trans h'.frames⟩

theorem AddsBoth.of_adds (ha : a.Adds mem mem' R R') (hb : b.Adds mem' mem'' S S') (hapart : a.Apart b) :
    AddsBoth a b mem mem'' R R' S S' :=
  ⟨ha.denotes.frame hb.frames (by simpa using hapart), hb.denotes,
    (ha.frames.mono (by simp)).trans (hb.frames.mono (by simp))⟩

theorem Apart.symm (h : a.Apart b) : b.Apart a := ⟨h.1.symm, h.2.symm⟩

end TopologyPairsMaps

/-! ### Existing anti-affinity -/

theorem Pod.antiAffinityTerms_of_none {pod : Pod} (h : pod.affinity = none) : pod.antiAffinityTerms = [] := by
  rw [antiAffinityTerms, h]
  rfl

theorem Pod.antiAffinityTerms_of_some {pod : Pod} {affinity : Affinity} (h : pod.affinity = some affinity) :
    pod.antiAffinityTerms = getPodAntiAffinityTerms affinity := by
  rw [antiAffinityTerms, h]
  rfl

theorem existingEntries_of_nil {pod existingPod : Pod} {node : Node}
    (h : existingPod.antiAffinityTerms = []) : existingEntries pod node existingPod = ∅ := by
  simp [existingEntries, matchingEntries, h]

theorem getMatchingAntiAffinityTopologyPairsOfPod_computes (newPod existingPod : Pod) (node : Node)
    (mem : MetadataMemory) :
    Computes (getMatchingAntiAffinityTopologyPairsOfPod newPod existingPod node mem)
      (ValidTerms existingPod.antiAffinityTerms) fun found =>
        ∀ (t : TopologyPairsMaps) (R : Entries), t.Denotes mem R →
          t.Adds mem (t.appendMaps rt found.2 found.1) R (existingEntries newPod node existingPod) := by
  have hnothing (hterms : existingPod.antiAffinityTerms = []) :
      Computes (some (none, mem)) (ValidTerms existingPod.antiAffinityTerms) fun found =>
        ∀ (t : TopologyPairsMaps) (R : Entries), t.Denotes mem R →
          t.Adds mem (t.appendMaps rt found.2 found.1) R (existingEntries newPod node existingPod) := by
    rw [existingEntries_of_nil hterms, hterms]
    exact Computes.of_some (by simp [ValidTerms]) fun t R h => refl h
  rw [getMatchingAntiAffinityTopologyPairsOfPod]
  cases haff : existingPod.affinity with
  | none => exact hnothing (Pod.antiAffinityTerms_of_none haff)
  | some affinity =>
    have hterms := Pod.antiAffinityTerms_of_some haff
    simp only [Bool.not_eq_true']
    split_ifs with hset
    · exact hnothing (by rw [hterms, getPodAntiAffinityTerms, hset]; rfl)
    · obtain ⟨hden, hframes, hfresh⟩ := newTopologyPairsMaps_spec mem
      rw [← hterms]
      refine (addMatchingTermPairs_computes node existingPod newPod existingPod
        existingPod.antiAffinityTerms hden).map ?_
      intro mem' hfound t R h
      have hframes' := hfound.frames_of_fresh hframes hfresh
      have happend := appendMaps_adds rt (h.frame_empty hframes') hfound.denotes (h.apart hfresh).symm
      rw [empty_union] at happend
      exact happend.of_frames hframes'

theorem processExisting_cons (node : Node) (existing : List (Node × Pod))
    (t : TopologyPairsMaps) (mem : MetadataMemory) :
    processExisting rt pod t ((node, existingPod) :: existing) mem =
      (getMatchingAntiAffinityTopologyPairsOfPod pod existingPod node mem).bind fun found =>
        processExisting rt pod t existing (t.appendMaps rt found.2 found.1) := by
  rw [processExisting]
  cases getMatchingAntiAffinityTopologyPairsOfPod pod existingPod node mem <;> rfl

theorem processExisting_computes (existing : List (Node × Pod)) (h : t.Denotes mem R) :
    Computes (processExisting rt pod t existing mem)
      (∀ x ∈ existing, ValidTerms x.2.antiAffinityTerms) fun mem' =>
        t.Adds mem mem' R {e | ∃ x ∈ existing, e ∈ existingEntries pod x.1 x.2} := by
  induction existing generalizing mem R with
  | nil =>
    rw [entries_nil fun x : Node × Pod => existingEntries pod x.1 x.2]
    exact Computes.of_some (by simp) (refl h)
  | cons x _ ih =>
    obtain ⟨node, existingPod⟩ := x
    rw [processExisting_cons, entries_cons fun x : Node × Pod => existingEntries pod x.1 x.2, forall_mem_cons]
    refine (getMatchingAntiAffinityTopologyPairsOfPod_computes rt pod existingPod node mem).bind ?_
    intro found hadds
    exact (ih (hadds t R h).denotes).mono fun _ hrest => (hadds t R h).trans hrest

end LeanKube.Scheduler
