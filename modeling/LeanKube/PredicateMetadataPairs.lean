import LeanKube.PredicateMetadata

/-! What a pair of topology maps stands for: a set of entries, each a topology pair with a pod. The
operations on the maps are operations on that set, and they leave all other maps as they are. -/

namespace LeanKube.Scheduler
open SetMaps Set List Nat

abbrev Entries := Set (TopologyPair × Pod)

def dropPod (R : Entries) (pod : Pod) : Entries := {e ∈ R | e.2 ≠ pod}

def OnlyNamed (R : Entries) (pod : Pod) : Prop :=
  ∀ pair other, (pair, other) ∈ R → getPodFullName other = getPodFullName pod → other = pod

variable {α : Type} (f : α → Entries) (rt : Runtime)

theorem entries_nil : {e | ∃ x ∈ ([] : List α), e ∈ f x} = ∅ := by
  simp

theorem entries_cons (x : α) (l : List α) : {e | ∃ y ∈ x :: l, e ∈ f y} = f x ∪ {e | ∃ y ∈ l, e ∈ f y} := by
  ext
  simp

theorem entries_append (l : List α) (x : α) : {e | ∃ y ∈ l ++ [x], e ∈ f y} = {e | ∃ y ∈ l, e ∈ f y} ∪ f x := by
  ext
  simp [or_and_right, exists_or]

namespace TopologyPairsMaps

/-- The two maps are inverse to each other, without empty sets, and hold the entries `R`. -/
structure Denotes (t : TopologyPairsMaps) (mem : MetadataMemory) (R : Entries) : Prop where
  livePods : mem.pods.Live t.topologyPairToPods
  livePairs : mem.pairs.Live t.podToTopologyPairs
  fullPods : mem.pods.Full t.topologyPairToPods
  fullPairs : mem.pairs.Full t.podToTopologyPairs
  mem_pods : ∀ pair pod, pod ∈ mem.pods.get t.topologyPairToPods pair ↔ (pair, pod) ∈ R
  mem_pairs : ∀ name pair, pair ∈ mem.pairs.get t.podToTopologyPairs name ↔
    ∃ pod, getPodFullName pod = name ∧ (pair, pod) ∈ R

structure Contents where
  topologyPairToPods : GoMap TopologyPair (Finset Pod)
  podToTopologyPairs : GoMap String (Finset TopologyPair)

variable (t : TopologyPairsMaps) (mem : MetadataMemory)

def contents : Contents where
  topologyPairToPods := mem.pods.value t.topologyPairToPods
  podToTopologyPairs := mem.pairs.value t.podToTopologyPairs

def Apart (t u : TopologyPairsMaps) : Prop :=
  t.topologyPairToPods ≠ u.topologyPairToPods ∧ t.podToTopologyPairs ≠ u.podToTopologyPairs

def Fresh : Prop :=
  ¬ mem.pods.Live t.topologyPairToPods ∧ ¬ mem.pairs.Live t.podToTopologyPairs

structure Frames (T : Set TopologyPairsMaps) (mem mem' : MetadataMemory) : Prop where
  pods : ∀ i, mem.pods.Live i → (∀ t ∈ T, i ≠ t.topologyPairToPods) → mem'.pods.value i = mem.pods.value i
  pairs : ∀ i, mem.pairs.Live i → (∀ t ∈ T, i ≠ t.podToTopologyPairs) → mem'.pairs.value i = mem.pairs.value i
  livePods : ∀ i, mem.pods.Live i → mem'.pods.Live i
  livePairs : ∀ i, mem.pairs.Live i → mem'.pairs.Live i
  arrays : ∀ i, i < mem.arrays.length → mem'.arrays[i]? = mem.arrays[i]?
  arrays_le : mem.arrays.length ≤ mem'.arrays.length

variable {t u : TopologyPairsMaps} {T : Set TopologyPairsMaps} {mem mem' mem'' : MetadataMemory}
  {R S : Entries}

theorem Frames.refl (T : Set TopologyPairsMaps) (mem : MetadataMemory) : Frames T mem mem where
  pods _ _ _ := rfl
  pairs _ _ _ := rfl
  livePods _ := id
  livePairs _ := id
  arrays _ _ := rfl
  arrays_le := le_refl _

theorem Frames.trans (h : Frames T mem mem') (h' : Frames T mem' mem'') : Frames T mem mem'' where
  pods i hi hT := (h'.pods i (h.livePods i hi) hT).trans (h.pods i hi hT)
  pairs i hi hT := (h'.pairs i (h.livePairs i hi) hT).trans (h.pairs i hi hT)
  livePods i hi := h'.livePods i (h.livePods i hi)
  livePairs i hi := h'.livePairs i (h.livePairs i hi)
  arrays i hi := (h'.arrays i (lt_of_lt_of_le hi h.arrays_le)).trans (h.arrays i hi)
  arrays_le := le_trans h.arrays_le h'.arrays_le

theorem Frames.mono {T' : Set TopologyPairsMaps} (h : Frames T mem mem') (hT : T ⊆ T') : Frames T' mem mem' :=
  { h with
    pods := fun i hi hT' => h.pods i hi fun t ht => hT' t (hT ht)
    pairs := fun i hi hT' => h.pairs i hi fun t ht => hT' t (hT ht) }

theorem Frames.of_fresh (h : Frames (insert t T) mem mem') (hfresh : t.Fresh mem) : Frames T mem mem' :=
  { h with
    pods := fun i hi hT => h.pods i hi fun u hu => by
      rcases hu with rfl | hu
      · exact fun heq => hfresh.1 (heq ▸ hi)
      · exact hT u hu
    pairs := fun i hi hT => h.pairs i hi fun u hu => by
      rcases hu with rfl | hu
      · exact fun heq => hfresh.2 (heq ▸ hi)
      · exact hT u hu }

theorem Denotes.frame (h : u.Denotes mem R) (hframes : Frames T mem mem')
    (hT : ∀ t ∈ T, u.Apart t) : u.Denotes mem' R := by
  have hpods := hframes.pods _ h.livePods fun t ht => (hT t ht).1
  have hpairs := hframes.pairs _ h.livePairs fun t ht => (hT t ht).2
  refine ⟨hframes.livePods _ h.livePods, hframes.livePairs _ h.livePairs, ?_, ?_, ?_, ?_⟩
  · rw [SetMaps.Full, hpods]
    exact h.fullPods
  · rw [SetMaps.Full, hpairs]
    exact h.fullPairs
  · simp only [SetMaps.get, hpods]
    exact h.mem_pods
  · simp only [SetMaps.get, hpairs]
    exact h.mem_pairs

theorem Denotes.apart (h : u.Denotes mem R) (hfresh : t.Fresh mem) : u.Apart t :=
  ⟨fun heq => hfresh.1 (heq ▸ h.livePods), fun heq => hfresh.2 (heq ▸ h.livePairs)⟩

theorem Denotes.contents_eq_iff (h : t.Denotes mem R) (h' : u.Denotes mem' S) :
    t.contents mem = u.contents mem' ↔ R = S := by
  constructor
  · intro hcont
    have hval : mem.pods.value t.topologyPairToPods = mem'.pods.value u.topologyPairToPods :=
      congrArg Contents.topologyPairToPods hcont
    ext ⟨pair, pod⟩
    rw [← h.mem_pods, ← h'.mem_pods, SetMaps.get, SetMaps.get, hval]
  · rintro rfl
    have hpods := value_eq h.fullPods h'.fullPods fun pair => by
      ext pod
      rw [h.mem_pods, h'.mem_pods]
    have hpairs := value_eq h.fullPairs h'.fullPairs fun _ => by
      ext pair
      rw [h.mem_pairs, h'.mem_pairs]
    rw [contents, contents, hpods, hpairs]

/-! ### Making maps and adding entries -/

theorem newTopologyPairsMaps_spec (mem : MetadataMemory) :
    (newTopologyPairsMaps mem).1.Denotes (newTopologyPairsMaps mem).2 ∅ ∧
      Frames ∅ mem (newTopologyPairsMaps mem).2 ∧ (newTopologyPairsMaps mem).1.Fresh mem := by
  refine ⟨⟨mem.pods.live_make, mem.pairs.live_make, mem.pods.full_make, mem.pairs.full_make, fun pair _ => ?_,
    fun name _ => ?_⟩, ⟨fun i _ _ => mem.pods.value_make i, fun i _ _ => mem.pairs.value_make i,
      fun _ => Live.make, fun _ => Live.make, fun _ _ => rfl, le_refl _⟩, lt_irrefl _, lt_irrefl _⟩
  · simp [newTopologyPairsMaps, get_make]
  · simp [newTopologyPairsMaps, get_make]

/-- The maps `t` hold `R` more than the ones they had in `mem`, and nothing else has changed. -/
structure Adds (t : TopologyPairsMaps) (mem mem' : MetadataMemory) (R S : Entries) : Prop where
  denotes : t.Denotes mem' (R ∪ S)
  frames : Frames {t} mem mem'

theorem addTopologyPair_adds (h : t.Denotes mem R) (pair : TopologyPair) (pod : Pod) :
    t.Adds mem (t.addTopologyPair mem pair pod) R {(pair, pod)} := by
  constructor
  · rw [union_singleton]
    refine ⟨(live_insert _ _).mpr h.livePods, (live_insert _ _).mpr h.livePairs,
      h.fullPods.insert h.livePods _ _, h.fullPairs.insert h.livePairs _ _, ?_, ?_⟩
    · intro pair' pod'
      rw [addTopologyPair, get_insert h.livePods, mem_insert_iff, Prod.mk.injEq]
      by_cases hpair : pair' = pair
      · simp [hpair, h.mem_pods]
      · simp [hpair, h.mem_pods]
    · intro name pair'
      rw [addTopologyPair, get_insert h.livePairs]
      split_ifs with hname
      · rw [Finset.mem_insert, h.mem_pairs, hname.2]
        constructor
        · rintro (rfl | ⟨pod', hpod', hmem⟩)
          · exact ⟨pod, rfl, mem_insert _ _⟩
          · exact ⟨pod', hpod', mem_insert_of_mem _ hmem⟩
        · rintro ⟨pod', hpod', hmem⟩
          rcases hmem with heq | hmem
          · exact .inl (Prod.mk.inj heq).1
          · exact .inr ⟨pod', hpod', hmem⟩
      · rw [h.mem_pairs]
        refine exists_congr fun pod' => and_congr_right fun hpod' => ?_
        rw [mem_insert_iff, or_iff_right]
        intro heq
        refine hname ⟨rfl, ?_⟩
        rw [← hpod', (Prod.mk.inj heq).2]
  · exact ⟨fun i _ hi => value_insert_of_ne h.livePods (hi t rfl) _ _,
      fun i _ hi => value_insert_of_ne h.livePairs (hi t rfl) _ _,
      fun i hi => (live_insert _ _).mpr hi, fun i hi => (live_insert _ _).mpr hi,
      fun _ _ => rfl, le_refl _⟩

theorem Adds.refl (h : t.Denotes mem R) : t.Adds mem mem R ∅ := ⟨by rwa [union_empty], .refl _ _⟩

theorem Adds.trans {S' : Entries} (h : t.Adds mem mem' R S) (h' : t.Adds mem' mem'' (R ∪ S) S') :
    t.Adds mem mem'' R (S ∪ S') :=
  ⟨by rw [← union_assoc]; exact h'.denotes, h.frames.trans h'.frames⟩

section
variable (h : t.Denotes mem R)
include h

theorem adds_foldl {α : Type} {f : MetadataMemory → α → MetadataMemory} {g : α → Entries} {l : List α}
    (hstep : ∀ x ∈ l, ∀ mem' S, t.Adds mem mem' R S → t.Adds mem' (f mem' x) (R ∪ S) (g x)) :
    t.Adds mem (l.foldl f mem) R {e | ∃ x ∈ l, e ∈ g x} := by
  induction l using List.reverseRecOn with
  | nil =>
    rw [entries_nil]
    exact Adds.refl h
  | append_singleton l x ih =>
    rw [foldl_append, entries_append]
    have hbefore := ih fun y hy => hstep y (mem_append_left _ hy)
    have hlast := hstep x (mem_append_right _ (mem_singleton_self x)) _ _ hbefore
    exact hbefore.trans hlast

theorem appendMaps_adds (h' : u.Denotes mem S) (hapart : u.Apart t) :
    t.Adds mem (t.appendMaps rt mem (some u)) R S := by
  have hother : ∀ mem' S', t.Adds mem mem' R S' → u.Denotes mem' S := fun mem' S' hadds =>
    h'.frame hadds.frames (by simpa using hapart)
  have hall : S = {e | ∃ pair ∈ rt.range mem (mem.pods.value u.topologyPairToPods).keys,
      e ∈ {e : TopologyPair × Pod | e.1 = pair ∧ e ∈ S}} := by
    ext ⟨pair, pod⟩
    simp only [mem_ofPred_eq, rt.mem_range, mem_keys_iff h'.fullPods]
    constructor
    · intro hmem
      exact ⟨pair, ⟨pod, (h'.mem_pods pair pod).mpr hmem⟩, rfl, hmem⟩
    · rintro ⟨_, -, -, hmem⟩
      exact hmem
  rw [hall]
  refine adds_foldl h fun pair _ mem₁ S₁ hadds => ?_
  have hu := hother mem₁ S₁ hadds
  have hpair : {e : TopologyPair × Pod | e.1 = pair ∧ e ∈ S} =
      {e | ∃ pod ∈ rt.range mem₁ (mem₁.pods.get u.topologyPairToPods pair), e ∈ ({(pair, pod)} : Entries)} := by
    ext ⟨pair', pod⟩
    simp only [mem_ofPred_eq, rt.mem_range, hu.mem_pods, mem_singleton_iff, Prod.mk.injEq]
    constructor
    · rintro ⟨rfl, hmem⟩
      exact ⟨pod, hmem, rfl, rfl⟩
    · rintro ⟨_, hmem, rfl, rfl⟩
      exact ⟨rfl, hmem⟩
  rw [hpair]
  exact adds_foldl hadds.denotes fun pod _ _ _ hadds₂ => addTopologyPair_adds hadds₂.denotes pair pod

/-! ### Removing a pod -/

theorem removeLoop_spec (pod : Pod) (pairs : List TopologyPair) :
    let mem' := pairs.foldl
      (fun mem pair => { mem with pods := mem.pods.remove t.topologyPairToPods pair pod }) mem
    (mem'.pods.Live t.topologyPairToPods ∧ mem'.pods.Full t.topologyPairToPods ∧
      ∀ pair pod', pod' ∈ mem'.pods.get t.topologyPairToPods pair ↔ (pair, pod') ∈ R ∧ ¬ (pair ∈ pairs ∧ pod' = pod)) ∧
    mem'.pairs = mem.pairs ∧ Frames {t} mem mem' := by
  induction pairs using List.reverseRecOn with
  | nil => exact ⟨⟨h.livePods, h.fullPods, by simpa using h.mem_pods⟩, rfl, .refl _ _⟩
  | append_singleton _ pair ih =>
    obtain ⟨⟨hlive, hfull, hmem⟩, hpairs, hframes⟩ := ih
    rw [foldl_append]
    refine ⟨⟨(live_remove _ _).mpr hlive, hfull.remove hlive _ _, ?_⟩, hpairs, hframes.trans ?_⟩
    · intro pair' pod'
      change pod' ∈ (remove _ t.topologyPairToPods pair pod).get t.topologyPairToPods pair' ↔ _
      rw [get_remove hlive]
      by_cases hpair : pair' = pair
      · subst hpair
        simp only [and_self, if_true, Finset.mem_erase, hmem, List.mem_append, List.mem_singleton, or_true, true_and]
        tauto
      · simp only [hpair, and_false, if_false, hmem, List.mem_append, List.mem_singleton, or_false]
    · exact ⟨fun i _ hi => value_remove_of_ne hlive (hi t rfl) _ _, fun _ _ _ => rfl,
        fun i hi => (live_remove _ _).mpr hi, fun _ => id, fun _ _ => rfl, le_refl _⟩

theorem removePod_spec {pod : Pod} (honly : OnlyNamed R pod) :
    t.Denotes (t.removePod rt mem pod) (dropPod R pod) ∧ Frames {t} mem (t.removePod rt mem pod) := by
  obtain ⟨⟨hlive, hfull, hmem⟩, hpairs, hframes⟩ := removeLoop_spec h pod
    (rt.range mem (mem.pairs.get t.podToTopologyPairs (getPodFullName pod)))
  have hlivePairs := h.livePairs
  have hfullPairs := h.fullPairs
  have hmemPairs := h.mem_pairs
  rw [← hpairs] at hlivePairs hfullPairs hmemPairs
  refine ⟨⟨hlive, (live_eraseKey _).mpr hlivePairs, hfull, hfullPairs.eraseKey hlivePairs _, ?_, ?_⟩, hframes.trans ?_⟩
  · intro pair other
    refine (hmem pair other).trans ?_
    simp only [rt.mem_range, h.mem_pairs, dropPod, mem_ofPred_eq]
    constructor
    · rintro ⟨hR, hnot⟩
      refine ⟨hR, ?_⟩
      rintro rfl
      exact hnot ⟨⟨other, rfl, hR⟩, rfl⟩
    · rintro ⟨hR, hne⟩
      exact ⟨hR, fun hboth => hne hboth.2⟩
  · intro name pair
    change pair ∈ (eraseKey _ t.podToTopologyPairs (getPodFullName pod)).get
      t.podToTopologyPairs name ↔ _
    rw [get_eraseKey hlivePairs]
    split_ifs with hname
    · simp only [Finset.notMem_empty, dropPod, mem_ofPred_eq, false_iff, not_exists, not_and, not_not]
      intro other hother hR
      exact honly pair other hR (hother.trans hname.2)
    · rw [hmemPairs]
      refine exists_congr fun other => and_congr_right fun hother => ?_
      refine (and_iff_left ?_).symm
      rintro rfl
      exact hname ⟨rfl, hother.symm⟩
  · exact ⟨fun _ _ _ => rfl, fun i _ hi => value_eraseKey_of_ne hlivePairs (hi t rfl) _, fun _ => id,
      fun i hi => (live_eraseKey _).mpr hi, fun _ _ => rfl, le_refl _⟩

end
end TopologyPairsMaps
end LeanKube.Scheduler
