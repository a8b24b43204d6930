import LeanKube.SchedulerCacheInvariant
import Mathlib.Algebra.Order.Ring.Int

/-! The totals of a `NodeInfo` against its pods. The totals are kept by adding and subtracting, and
what is subtracted are the requests of the object at hand, not of the object that was added; they
stay the sums over the pods as long as the objects under one UID agree on their requests. -/

namespace LeanKube.Scheduler
open List NodeInfo Int64 GoMap Resource

def totalOf (amount : Pod → Int64) (pods : List Pod) : Int := (pods.map fun pod => (amount pod).toInt).sum

variable {pods : List Pod} {pod : Pod} {rest : List Pod} {found : Pod} {n n' : NodeInfo}
  {c' c : SchedulerCache} (amount : Pod → Int64) (r res : Resource) (d : Dimension)

theorem totalOf_cons (pod : Pod) (pods : List Pod) :
    totalOf amount (pod :: pods) = (amount pod).toInt + totalOf amount pods := by
  rw [totalOf, map_cons, sum_cons, totalOf]

theorem totalOf_perm {pods' : List Pod} (h : pods.Perm pods') : totalOf amount pods = totalOf amount pods' :=
  (h.map _).sum_eq

theorem totalOf_concat (pods : List Pod) (pod : Pod) :
    totalOf amount (pods ++ [pod]) = totalOf amount pods + (amount pod).toInt := by
  rw [totalOf_perm amount (perm_append_singleton pod pods), totalOf_cons, Int.add_comm]

def IsTotal (value : Int64) (amount : Pod → Int64) (pods : List Pod) : Prop :=
  value = Int64.ofInt (totalOf amount pods)

variable {amount : Pod → Int64}

theorem IsTotal.add {value : Int64} (h : IsTotal value amount pods)
    (pod : Pod) : IsTotal (value + amount pod) amount (pods ++ [pod]) := by
  calc value + amount pod
      = Int64.ofInt (totalOf amount pods) + Int64.ofInt (amount pod).toInt := by
        rw [h, ofInt_toInt]
    _ = Int64.ofInt (totalOf amount (pods ++ [pod])) := by
        rw [totalOf_concat, ofInt_add]

theorem IsTotal.sub {value : Int64} (h : IsTotal value amount pods)
    (hperm : pods.Perm (found :: rest)) (hsame : amount pod = amount found) :
    IsTotal (value - amount pod) amount rest := by
  calc value - amount pod
      = Int64.ofInt (totalOf amount (found :: rest)) - Int64.ofInt (amount found).toInt := by
        rw [h, totalOf_perm amount hperm, hsame, ofInt_toInt]
    _ = Int64.ofInt (totalOf amount rest) := by
        rw [← ofInt_sub, totalOf_cons, add_sub_cancel_left]

/-! ### What the totals depend on -/

def Pod.requests (pod : Pod) : List ResourceList := pod.containers.map Container.requests

def SameSpec (pod pod' : Pod) : Prop := pod.requests = pod'.requests ∧ pod.affinity = pod'.affinity

instance sameSpecDecidable (pod pod' : Pod) : Decidable (SameSpec pod pod') :=
  inferInstanceAs (Decidable (_ ∧ _))

theorem calculateResource_congr {pod' : Pod} (h : pod.requests = pod'.requests) :
    calculateResource pod = calculateResource pod' := by
  have hfold : ∀ pod : Pod, calculateResource pod = pod.requests.foldl
      (fun total requests => (total.1.add requests,
        total.2.1 + (getNonzeroRequests requests).1, total.2.2 + (getNonzeroRequests requests).2))
      ({}, 0, 0) := by
    intro pod
    rw [calculateResource, Pod.requests, foldl_map]
  rw [hfold, hfold, h]

theorem SameSpec.hasPodAffinityConstraints {pod' : Pod} (h : SameSpec pod pod') :
    hasPodAffinityConstraints pod = hasPodAffinityConstraints pod' := by
  rw [Scheduler.hasPodAffinityConstraints, h.2, Scheduler.hasPodAffinityConstraints]

theorem amount_update (op : Int64 → Int64 → Int64) [RightCommutative op]
    (hzero : ∀ a, op a 0 = a) (r res : Resource) (d : Dimension) :
    (r.update op res).amount d = op (r.amount d) (res.amount d) := by
  cases d with
  | scalar name =>
    simp only [amount, scalar, update, lookup_accumulate]
    cases res.scalarResources.lookup name with
    | none => exact (hzero _).symm
    | some => rfl
  | _ => rfl

theorem amount_update_add : (r.update (· + ·) res).amount d = r.amount d + res.amount d :=
  amount_update (· + ·) Int64.add_zero r res d

theorem amount_update_sub : (r.update (· - ·) res).amount d = r.amount d - res.amount d :=
  amount_update (· - ·) Int64.sub_zero r res d

/-! ### The pods with affinity -/

/-- `podsWithAffinity` has the pods with affinity constraints, as far as `view` tells pods apart. -/
def AffinityListed {β : Type} (view : Pod → β) (n : NodeInfo) : Prop :=
  (n.podsWithAffinity.map view).Perm ((n.pods.filter hasPodAffinityConstraints).map view)

def SeesUID {β : Type} (view : Pod → β) : Prop := ∀ pod pod', view pod = view pod' → pod.uid = pod'.uid

section Affinity
variable {β : Type} {view : Pod → β} {n : NodeInfo} (h : AffinityListed view n)
include h

theorem AffinityListed.addPod (pod : Pod) (generation : Int64) : AffinityListed view (n.addPod pod generation) := by
  unfold AffinityListed
  rw [pods_addPod, filter_append, map_append]
  show ((if hasPodAffinityConstraints pod then n.podsWithAffinity ++ [pod]
    else n.podsWithAffinity).map view).Perm _
  by_cases haff : hasPodAffinityConstraints pod = true
  · rw [if_pos haff, map_append, filter_cons_of_pos haff]
    exact h.append_right _
  · rw [if_neg haff, filter_cons_of_neg haff, filter_nil, map_nil, append_nil]
    exact h

theorem AffinityListed.exists_pod {pod : Pod} (hpod : pod ∈ n.podsWithAffinity) :
    ∃ other ∈ n.pods, hasPodAffinityConstraints other = true ∧ view other = view pod := by
  obtain ⟨other, hother, hview⟩ := mem_map.mp (h.mem_iff.mp (mem_map_of_mem hpod))
  obtain ⟨hmem, haff⟩ := mem_filter.mp hother
  exact ⟨other, hmem, haff, hview⟩

theorem AffinityListed.dropKey_eq (hview : SeesUID view) {key : String} (hkey : key ≠ "")
    (hnone : ∀ pod ∈ n.pods, hasPodAffinityConstraints pod = true → pod.uid ≠ key) :
    dropKey key n.podsWithAffinity = n.podsWithAffinity := by
  have hmiss : removeFirst (hasKey key) n.podsWithAffinity = none := by
    rw [removeFirst_hasKey_eq_none hkey]
    intro pod hpod huid
    obtain ⟨other, hother, haff, hsame⟩ := h.exists_pod hpod
    exact hnone other hother haff ((hview other pod hsame).trans huid)
  rw [dropKey, hmiss]

theorem AffinityListed.delete (hview : SeesUID view) {found : Pod} {rest : List Pod}
    (hkey : found.uid ≠ "") (hperm : n.pods.Perm (found :: rest))
    (hsame : ∀ pod ∈ n.pods, pod.uid = found.uid → view pod = view found ∧
      hasPodAffinityConstraints pod = hasPodAffinityConstraints found) :
    ((dropKey found.uid n.podsWithAffinity).map view).Perm
      ((rest.filter hasPodAffinityConstraints).map view) := by
  have hlisted := h.trans ((hperm.filter hasPodAffinityConstraints).map view)
  by_cases haff : hasPodAffinityConstraints found = true
  · rw [filter_cons_of_pos haff, map_cons] at hlisted
    obtain ⟨pod, hpod, hpodview⟩ := mem_map.mp (hlisted.mem_iff.mpr mem_cons_self)
    obtain ⟨deleted, _, hrem, hdel, hleft⟩ := exists_removeFirst_hasKey hkey hpod (hview pod found hpodview)
    -- the deleted entry stands for a pod of the same key, so it looks like the found one
    obtain ⟨other, hother, _, hotherview⟩ := h.exists_pod (hleft.mem_iff.mpr mem_cons_self)
    have huid : other.uid = found.uid := (hview other deleted hotherview).trans hdel
    have hdeletedview : view deleted = view found := hotherview.symm.trans (hsame other hother huid).1
    have hcons := (hleft.map view).symm.trans hlisted
    rw [map_cons, hdeletedview] at hcons
    rw [dropKey, hrem]
    exact hcons.cons_inv
  · rw [filter_cons_of_neg haff] at hlisted
    rw [h.dropKey_eq hview hkey fun pod hpod hpodaffinity huid =>
      haff ((hsame pod hpod huid).2 ▸ hpodaffinity)]
    exact hlisted

end Affinity

/-! ### One `NodeInfo` -/

theorem removePod_state {generation : Int64} (h : (n.removePod pod generation).state? = some n') :
    n' = n ∨ pod.uid ≠ "" ∧ ((∃ found rest, found.uid = pod.uid ∧ n.pods.Perm (found :: rest) ∧
        n' = subtractPod { n with
          podsWithAffinity := dropKey pod.uid n.podsWithAffinity
          pods := rest } pod generation) ∨
      (∀ other ∈ n.pods, other.uid ≠ pod.uid) ∧
        n' = { n with podsWithAffinity := dropKey pod.uid n.podsWithAffinity }) := by
  rw [removePod] at h
  rcases getPodKey_cases pod with ⟨hkey, hget⟩ | ⟨_, hget⟩
  · simp only [hget] at h
    refine .inr ⟨hkey, ?_⟩
    cases hrem : removeFirst (hasKey pod.uid) n.pods with
    | some result =>
      obtain ⟨found, rest⟩ := result
      obtain ⟨hfound, hperm⟩ := removeFirst_eq_some hrem
      rw [hrem] at h
      cases h
      exact .inl ⟨found, rest, (hasKey_iff hkey found).mp hfound, hperm, rfl⟩
    | none =>
      rw [hrem] at h
      simp only at h
      refine .inr ⟨(removeFirst_hasKey_eq_none hkey).mp hrem, ?_⟩
      split at h
      · cases h; rfl
      · cases h
  · simp only [hget] at h
    cases h
    exact .inl rfl

def RequestedTotal (n : NodeInfo) : Prop :=
  ∀ d, IsTotal (n.requestedResource.amount d) (fun pod => (calculateResource pod).1.amount d) n.pods

theorem RequestedTotal.addPod (h : RequestedTotal n) (pod : Pod) (generation : Int64) :
    RequestedTotal (n.addPod pod generation) := by
  intro d
  have hsum := (h d).add pod
  rw [← amount_update_add] at hsum
  exact hsum

theorem RequestedTotal.subtractPod (h : RequestedTotal n) (hperm : n.pods.Perm (found :: rest))
    (hsame : calculateResource pod = calculateResource found) (podsWithAffinity : List Pod)
    (generation : Int64) : RequestedTotal
      (subtractPod { n with podsWithAffinity, pods := rest } pod generation) := by
  intro d
  have hsum := (h d).sub hperm (congrArg (fun res => res.1.amount d) hsame)
  rw [← amount_update_sub] at hsum
  exact hsum

structure Accounts (known : Pod → Prop) (n : NodeInfo) : Prop where
  known : ∀ pod ∈ n.pods, known pod
  requested : RequestedTotal n
  nonzeroCPU : IsTotal n.nonzeroRequest.milliCPU (fun pod => (calculateResource pod).2.1) n.pods
  nonzeroMemory : IsTotal n.nonzeroRequest.memory (fun pod => (calculateResource pod).2.2) n.pods
  affinity : AffinityListed Pod.uid n

section NodeInfos
variable {known : Pod → Prop} {n : NodeInfo}

theorem accounts_new (generation : Int64) : Accounts known (newNodeInfo generation) where
  known _ h := by cases h
  requested d := amount_empty d
  nonzeroCPU := rfl
  nonzeroMemory := rfl
  affinity := List.Perm.refl _

theorem Accounts.addPod (h : Accounts known n) {pod : Pod} (hpod : known pod)
    (generation : Int64) : Accounts known (n.addPod pod generation) where
  known other hother := by
    rw [pods_addPod, mem_append, mem_singleton] at hother
    rcases hother with hother | rfl
    · exact h.known other hother
    · exact hpod
  requested := h.requested.addPod pod generation
  nonzeroCPU := h.nonzeroCPU.add pod
  nonzeroMemory := h.nonzeroMemory.add pod
  affinity := h.affinity.addPod pod generation

theorem Accounts.of_podData {n' : NodeInfo} (h : Accounts known n)
    (hdata : n'.podData = n.podData) : Accounts known n' := by
  obtain ⟨hpods, haff, hreq, hnonzero⟩ : n'.pods = n.pods ∧ n'.podsWithAffinity = n.podsWithAffinity ∧
        n'.requestedResource = n.requestedResource ∧ n'.nonzeroRequest = n.nonzeroRequest := by
    simpa only [podData, Prod.mk.injEq] using hdata
  constructor
  · rw [hpods]; exact h.known
  · rw [RequestedTotal, hpods, hreq]; exact h.requested
  · rw [hpods, hnonzero]; exact h.nonzeroCPU
  · rw [hpods, hnonzero]; exact h.nonzeroMemory
  · rw [AffinityListed, hpods, haff]; exact h.affinity

theorem Accounts.removePod (hspec : ∀ pod pod', known pod → known pod' → pod.uid = pod'.uid → SameSpec pod pod')
    (h : Accounts known n) {pod : Pod} (hpod : known pod) {generation : Int64} {n' : NodeInfo}
    (hstate : (n.removePod pod generation).state? = some n') : Accounts known n' := by
  rcases removePod_state hstate with rfl | ⟨hkey, ⟨found, _, huid, hperm, rfl⟩ | ⟨hnone, rfl⟩⟩
  · exact h
  · have hfound : found ∈ n.pods := hperm.mem_iff.mpr mem_cons_self
    have hcalc : calculateResource pod = calculateResource found :=
      calculateResource_congr (hspec pod found hpod (h.known found hfound) huid.symm).1
    constructor
    · intro other hother
      exact h.known other (hperm.mem_iff.mpr (mem_cons_of_mem found hother))
    · exact h.requested.subtractPod hperm hcalc _ _
    · exact h.nonzeroCPU.sub hperm (congrArg (fun res => res.2.1) hcalc)
    · exact h.nonzeroMemory.sub hperm (congrArg (fun res => res.2.2) hcalc)
    · have hdel := h.affinity.delete (fun _ _ => id) (huid ▸ hkey) hperm
        fun other hother hsame => ⟨hsame, (hspec other found (h.known other hother)
          (h.known found hfound) hsame).hasPodAffinityConstraints⟩
      rw [huid] at hdel
      exact hdel
  · rw [h.affinity.dropKey_eq (fun _ _ => id) hkey fun other hother _ => hnone other hother]
    exact h

end NodeInfos

/-! ### All `NodeInfo`s -/

theorem lookup_removePodLocked {name : String} (h : (c.removePodLocked pod).state? = some c')
    (hn' : c'.nodes.lookup name = some n') :
    c.nodes.lookup name = some n' ∨ ∃ n, c.nodes.lookup pod.nodeName = some n ∧
      (n.removePod pod (c.generation + 1)).state? = some n' := by
  rcases removePodLocked_cases h with rfl | ⟨n, _, hn, ⟨hok, rfl⟩ | ⟨_, herror, rfl⟩⟩
  · exact .inl hn'
  · rcases lookup_keepNodeInfo hn' with ⟨_, rfl, _⟩ | hold
    · exact .inr ⟨n, hn, by rw [hok]; rfl⟩
    · exact .inl hold
  · rcases of_lookup_insert hn' with ⟨-, rfl⟩ | ⟨-, hold⟩
    · exact .inr ⟨n, hn, by rw [herror]; rfl⟩
    · exact .inl hold

theorem NodesEffect.forall_nodeInfo {known : Pod → Prop} {J : NodeInfo → Prop}
    {nodes : GoMap String NodeInfo} (heff : NodesEffect known c nodes) (hnew : ∀ generation, J (newNodeInfo generation))
    (hadd : ∀ n pod generation, known pod → J n → J (n.addPod pod generation))
    (hrem : ∀ name n pod generation n', c.nodes.lookup name = some n → known pod →
      (n.removePod pod generation).state? = some n' → J n → J n')
    (hdata : ∀ n n', n'.podData = n.podData → J n → J n') (hJ : ∀ name n, c.nodes.lookup name = some n → J n) :
    ∀ name n, nodes.lookup name = some n → J n := by
  have hafterAdd : ∀ (c : SchedulerCache) (pod : Pod), known pod → (∀ name n, c.nodes.lookup name = some n → J n) →
      ∀ name n, (c.addPodLocked pod).nodes.lookup name = some n → J n := by
    intro c pod hpod hJ
    obtain ⟨_, _, hn', hnodes⟩ := lookup_addPodLocked c pod
    rw [hnodes]
    refine forall_insert hJ (hadd _ _ _ hpod ?_)
    rcases hn' with hn' | ⟨_, drawn, rfl⟩
    · exact hJ _ _ hn'
    · exact hnew drawn
  have hafterRemove : ∀ (c' : SchedulerCache) (pod : Pod), known pod → (c.removePodLocked pod).state? = some c' →
      ∀ name n, c'.nodes.lookup name = some n → J n := by
    intro c' pod hpod hstate name n hn
    rcases lookup_removePodLocked hstate hn with hold | ⟨n', hn', hremoved⟩
    · exact hJ name n hold
    · exact hrem _ n' pod _ n hn' hpod hremoved (hJ _ n' hn')
  cases heff with
  | same => exact hJ
  | add hpod => exact hafterAdd c _ hpod hJ
  | remove hpod hstate => exact hafterRemove _ _ hpod hstate
  | replace hold hpod hstate => exact hafterAdd _ _ hpod (hafterRemove _ _ hold hstate)
  | putNode nodeTree node =>
    obtain ⟨_, found, hfound, hpodData, _, hnodes⟩ := nodes_putNode c nodeTree node
    rw [hnodes]
    refine forall_insert hJ (hdata found _ hpodData ?_)
    rcases hfound with hfound | ⟨_, drawn, rfl⟩
    · exact hJ _ _ hfound
    · exact hnew drawn
  | @removeNode node n hn generation =>
    intro name n' hlookup
    rcases lookup_keepNodeInfo hlookup with ⟨_, rfl, _⟩ | hold
    · exact hdata n _ rfl (hJ _ n hn)
    · exact hJ name n' hold

/-! ### Runs -/

def UniformSpecs (ops : List CacheOp) : Prop :=
  ∀ pod ∈ ops.flatMap CacheOp.pods, ∀ pod' ∈ ops.flatMap CacheOp.pods, pod.uid = pod'.uid → SameSpec pod pod'

instance uniformSpecsDecidable (ops : List CacheOp) : Decidable (UniformSpecs ops) := by
  unfold UniformSpecs
  infer_instance

variable {ops : List CacheOp}

theorem run_accounts {ttl : Int} (hrun : cacheSystem.Run (newSchedulerCache ttl) ops c) (huniform : UniformSpecs ops) :
    ∀ name n, c.nodes.lookup name = some n → Accounts (· ∈ ops.flatMap CacheOp.pods) n := by
  have hI : ∀ c c' : SchedulerCache, Effect (· ∈ ops.flatMap CacheOp.pods) c c' →
      (∀ name n, c.nodes.lookup name = some n → Accounts (· ∈ ops.flatMap CacheOp.pods) n) →
      ∀ name n, c'.nodes.lookup name = some n → Accounts (· ∈ ops.flatMap CacheOp.pods) n := by
    intro c c' heff h
    refine heff.nodes.forall_nodeInfo accounts_new ?_ ?_ ?_ h
    · intro n pod generation hpod hn
      exact hn.addPod hpod generation
    · intro _ n pod generation n' _ hpod hstate hn
      refine hn.removePod ?_ hpod hstate
      intro pod pod' hpod hpod' huid
      exact huniform pod hpod pod' hpod' huid
    · intro n n' hdata hn
      exact hn.of_podData hdata
  refine (run_keeps hI hrun ?_ ?_).holds
  · intro _ _ hn
    cases hn
  · intro op hop pod hpod
    exact mem_flatMap.mpr ⟨op, hop, hpod⟩

def CacheOp.keepsUID : CacheOp → Bool
  | .updatePod oldPod newPod => oldPod.uid = newPod.uid
  | _ => true

structure Exact (c : SchedulerCache) : Prop where
  structured : Structured c
  affinity : ∀ name n, c.nodes.lookup name = some n → AffinityListed id n

theorem Structured.eq_of_uid (h : Structured c) {name : String} (hn : c.nodes.lookup name = some n)
    (hperm : n.pods.Perm (found :: rest)) (hpod : pod ∈ n.pods) (huid : pod.uid = found.uid) : pod = found := by
  have hcnt := h.placed.count name found.uid
  rw [podsAt_of_lookup hn, occurrences_perm hperm, occurrences_cons, if_pos rfl] at hcnt
  rcases mem_cons.mp (hperm.mem_iff.mp hpod) with hhead | hrest
  · exact hhead
  · have hpos : 0 < occurrences found.uid rest := occurrences_pos.mpr ⟨pod, hrest, huid⟩
    split_ifs at hcnt
    omega

theorem AffinityListed.of_podData (h : AffinityListed id n) (hdata : n'.podData = n.podData) :
    AffinityListed id n' := by
  have hpods : n'.pods = n.pods := congrArg Prod.fst hdata
  have haff : n'.podsWithAffinity = n.podsWithAffinity := congrArg (·.2.1) hdata
  rw [AffinityListed, hpods, haff]
  exact h

section
variable (h : Exact c)
include h

theorem Exact.effect {known : Pod → Prop} (heff : Effect known c c') :
    ∀ name n, c'.nodes.lookup name = some n → AffinityListed id n := by
  refine heff.nodes.forall_nodeInfo (fun _ => List.Perm.refl _) ?_ ?_ ?_ h.affinity
  · intro n pod generation _ hn
    exact hn.addPod pod generation
  · intro name n pod generation n' hlookup _ hstate hn
    have hview : SeesUID (id : Pod → Pod) := fun _ _ => congrArg Pod.uid
    rcases removePod_state hstate with rfl | ⟨hkey, ⟨_, _, huid, hperm, rfl⟩ | ⟨hnone, rfl⟩⟩
    · exact hn
    · have hdel := hn.delete hview (huid ▸ hkey) hperm fun other hother hsame => by
        rw [h.structured.eq_of_uid hlookup hperm hother hsame]
        exact ⟨rfl, rfl⟩
      rw [huid] at hdel
      exact hdel
    · rw [AffinityListed, hn.dropKey_eq hview hkey fun other hother _ => hnone other hother]
      exact hn
  · intro n n' hdata hn
    exact hn.of_podData hdata

theorem Exact.removePodLocked_misplaced (hkey : pod.uid ≠ "")
    (hplace : c.placement pod.uid ≠ some pod.nodeName) (rest : SchedulerCache → Outcome SchedulerCache)
    (hstate : ((c.removePodLocked pod).andThen rest).state? = some c') : c' = c := by
  rw [SchedulerCache.removePodLocked] at hstate
  cases hn : c.nodes.lookup pod.nodeName with
  | none =>
    simp only [hn, getPodKey_of_ne hkey] at hstate
    cases hstate
  | some n =>
    have hnone : ∀ other ∈ n.pods, other.uid ≠ pod.uid := by
      intro other hother huid
      have hpos : 0 < occurrences pod.uid (podsAt c.nodes pod.nodeName) :=
        occurrences_pos.mpr ⟨other, podsAt_of_lookup hn ▸ hother, huid⟩
      rw [h.structured.placed.count, if_neg hplace] at hpos
      exact absurd hpos (Nat.lt_irrefl 0)
    have hmiss : removeFirst (hasKey pod.uid) n.pods = none := (removeFirst_hasKey_eq_none hkey).mpr hnone
    have hdrop := (h.affinity _ n hn).dropKey_eq (fun _ _ => congrArg Pod.uid) hkey
      fun other hother _ => hnone other hother
    simp only [hn, removePod, getPodKey_of_ne hkey, hmiss, hdrop] at hstate
    cases hnode : n.node with
    | none => rw [hnode] at hstate; cases hstate
    | some =>
      rw [hnode] at hstate
      cases hstate
      rw [insert_of_lookup]
      rw [hn, ← hnode]

theorem Exact.updatePod {oldPod newPod : Pod} (huid : oldPod.uid = newPod.uid)
    (hstate : (c.updatePod oldPod newPod).state? = some c') : Structured c' := by
  by_cases hold : ∀ ps, c.podStates.lookup oldPod.uid = some ps → ps.pod.nodeName = oldPod.nodeName
  · exact (h.structured.updatePod huid hold).structured h.structured hstate
  · obtain ⟨ps, hps⟩ := not_forall.mp hold
    obtain ⟨hlookup, hnode⟩ := Classical.not_imp.mp hps
    have hkey := (h.structured.keyed _ ps hlookup).2
    have hplace : c.placement oldPod.uid ≠ some oldPod.nodeName := by
      rw [placement_of_lookup hlookup]
      exact fun heq => hnode (Option.some.inj heq)
    rw [SchedulerCache.updatePod] at hstate
    simp only [getPodKey_of_ne hkey, hlookup] at hstate
    split_ifs at hstate
    · cases hstate; exact h.structured
    · cases hstate
    · rw [SchedulerCache.updatePodLocked, Outcome.andThen_assoc] at hstate
      rw [h.removePodLocked_misplaced hkey hplace _ hstate]
      exact h.structured

theorem Exact.perform_structured {op : CacheOp} (huid : op.keepsUID = true)
    (hvis : op.visits c = true) (hstate : (c.perform op).state? = some c') : Structured c' := by
  by_cases hprom : op.promised c = true
  · exact (h.structured.perform hprom hvis).structured h.structured hstate
  · cases op with
    | updatePod => exact h.updatePod (of_decide_eq_true huid) hstate
    | removeNode node =>
      -- without a `NodeInfo` the call panics
      have hnone : c.nodes.lookup node.name = none := by
        by_contra hsome
        exact hprom (decide_eq_true ((mem_iff_lookup_ne_none _ _).mpr hsome))
      simp only [SchedulerCache.perform, SchedulerCache.removeNode, hnone] at hstate
      cases hstate
    | _ => exact absurd rfl hprom

theorem Exact.cleanupAssumedPods {now : Int} {order : List String}
    (hnodup : order.Nodup) (hord : ∀ key ∈ order, key ∈ c.assumedPods)
    (hstate : (c.cleanupAssumedPods now order).state? = some c') :
    ∀ name n, c'.nodes.lookup name = some n → AffinityListed id n := by
  induction order generalizing c with
  | nil => cases hstate; exact h.affinity
  | cons key _ ih =>
    obtain ⟨hkey, hrest⟩ := nodup_cons.mp hnodup
    obtain ⟨middle, hturn, hstruct, hkept⟩ := h.structured.cleanupAssumedPod (hord key mem_cons_self) now
    have heff : Effect (fun _ => True) c middle :=
      (podCall_cleanupAssumedPod (fun _ _ _ => trivial) (by rw [hturn]; rfl)).effect
    simp only [SchedulerCache.cleanupAssumedPods, hturn, Outcome.andThen] at hstate
    refine ih ⟨hstruct, h.effect heff⟩ hrest ?_ hstate
    intro other hother
    refine hkept other (hord other (mem_cons_of_mem key hother)) ?_
    rintro rfl
    exact hkey hother

end

theorem run_exact {ttl : Int}
    (hrun : cacheSystem.Run (newSchedulerCache ttl) ops c) (huid : ∀ op ∈ ops, op.keepsUID = true) : Exact c := by
  induction hrun with
  | nil => exact ⟨structured_new ttl, fun _ _ hn => by cases hn⟩
  | @snoc _ middle labels op _ hstep ih =>
    have h := ih fun op' hop' => huid op' (mem_append_left [op] hop')
    have hop := huid op (mem_append_right labels mem_cons_self)
    obtain ⟨hvis, hstate⟩ := cacheSystem_step hstep
    refine ⟨h.perform_structured hop hvis hstate, ?_⟩
    have hknown : ∀ pod ∈ op.pods, (fun _ : Pod => True) pod := fun _ _ => trivial
    rcases perform_effect (fun _ _ _ => trivial) hknown hstate with heff | ⟨_, _, rfl⟩
    · exact h.effect heff
    · obtain ⟨hnodup, hord⟩ := of_decide_eq_true hvis
      refine h.cleanupAssumedPods hnodup ?_ hstate
      intro key hkey
      rw [← hord, mem_toFinset]
      exact hkey

/-- **The totals of every `NodeInfo` are the sums over its pods, modulo `2^64`, and
`podsWithAffinity` has the UIDs of the pods with affinity constraints, each as often as they have
it. If updates keep the UID it has the very objects.** -/
theorem totals_eq_sums {ttl : Int} {ops : List CacheOp} {c : SchedulerCache}
    (hrun : cacheSystem.Run (newSchedulerCache ttl) ops c) (huniform : UniformSpecs ops)
    {name : String} {n : NodeInfo} (hn : c.nodes.lookup name = some n) :
    (∀ d, IsTotal (n.requestedResource.amount d)
      (fun pod => (calculateResource pod).1.amount d) n.pods) ∧
    IsTotal n.nonzeroRequest.milliCPU (fun pod => (calculateResource pod).2.1) n.pods ∧
    IsTotal n.nonzeroRequest.memory (fun pod => (calculateResource pod).2.2) n.pods ∧
    (n.podsWithAffinity.map Pod.uid).Perm
      ((n.pods.filter hasPodAffinityConstraints).map Pod.uid) ∧
    ((∀ op ∈ ops, op.keepsUID = true) → n.podsWithAffinity.Perm (n.pods.filter hasPodAffinityConstraints)) := by
  have h := run_accounts hrun huniform name n hn
  refine ⟨h.requested, h.nonzeroCPU, h.nonzeroMemory, h.affinity, ?_⟩
  intro huid
  have hexact := (run_exact hrun huid).affinity name n hn
  unfold AffinityListed at hexact
  rwa [List.map_id, List.map_id] at hexact

def ResourceList.single (rName : String) (quantity : Quantity) : ResourceList :=
  ⟨[(rName, quantity)], List.nodup_singleton rName⟩

def cpuPod (name uid : String) (milliCPU : Int64) (affinity : Option Affinity) : Pod :=
  { name, uid, nodeName := "a", affinity, initContainers := []
    containers := [{ requests := .single resourceCPU (.int64Amount milliCPU (-3)), ports := [] }] }

def apart : Option Affinity := some { podAffinity := false, podAntiAffinity := true }

/-- Two objects of the pod `"y"` come to one node, because an update turns the pod `"x"` into it. The
deletion of `"plain"` moves the second one to the front of `pods`, but not of `podsWithAffinity`. -/
def twoObjects : List CacheOp :=
  [.addPod (cpuPod "plain" "plain" 10 none), .addPod (cpuPod "x" "x" 10 apart), .addPod (cpuPod "first" "y" 10 apart),
    .updatePod (cpuPod "x" "x" 10 apart) (cpuPod "second" "y" 10 apart),
    .removePod (cpuPod "plain" "plain" 10 none), .removePod (cpuPod "first" "y" 10 apart)]

/-- An update that changes the UID can leave an object in `podsWithAffinity` that is not in `pods`. -/
theorem podsWithAffinity_stale : ∃ c n, cacheSystem.Run (newSchedulerCache 0) twoObjects c ∧
    UniformSpecs twoObjects ∧ c.nodes.lookup "a" = some n ∧
    n.pods = [cpuPod "first" "y" 10 apart] ∧
    n.podsWithAffinity = [cpuPod "second" "y" 10 apart] ∧
    ¬n.podsWithAffinity.Perm (n.pods.filter hasPodAffinityConstraints) := by
  have hlookup : ((twoObjects.foldl SchedulerCache.next (newSchedulerCache 0)).nodes.lookup
      "a").map (fun n => (n.pods, n.podsWithAffinity)) =
        some ([cpuPod "first" "y" 10 apart], [cpuPod "second" "y" 10 apart]) := by decide
  obtain ⟨n, hn, hslices⟩ := Option.map_eq_some_iff.mp hlookup
  obtain ⟨hpods, haffinity⟩ := Prod.mk.injEq .. ▸ hslices
  refine ⟨_, n, System.run_foldl (by decide), by decide, hn, hpods, haffinity, ?_⟩
  rw [hpods, haffinity]
  decide

/-- Two pods are assumed and confirmed, one under an updated object, and a third one goes again. -/
def confirmations : List CacheOp :=
  [.addNode (bareNode "a"), .assumePod (cpuPod "web" "web" 250 none),
    .assumePod (cpuPod "db" "db" 500 apart), .addPod (cpuPod "web" "web" 250 none),
    .addPod (cpuPod "gone" "gone" 100 apart), .removePod (cpuPod "gone" "gone" 100 apart),
    .addPod (cpuPod "db" "db" 500 apart),
    .updatePod (cpuPod "web" "web" 250 none) (cpuPod "renamed" "web" 250 none)]

theorem totals_eq_sums_confirmations :
    ∃ n, (confirmations.foldl SchedulerCache.next (newSchedulerCache 30)).nodes.lookup "a" =
        some n ∧ n.requestedResource.milliCPU = 750 ∧
      (∀ d, IsTotal (n.requestedResource.amount d)
        (fun pod => (calculateResource pod).1.amount d) n.pods) ∧
      n.podsWithAffinity.Perm (n.pods.filter hasPodAffinityConstraints) := by
  have hrun : cacheSystem.Run (newSchedulerCache 30) confirmations
      (confirmations.foldl SchedulerCache.next (newSchedulerCache 30)) :=
    System.run_foldl (by decide)
  have huniform : UniformSpecs confirmations := by decide
  have hlookup : ((confirmations.foldl SchedulerCache.next (newSchedulerCache 30)).nodes.lookup
      "a").map (fun n => n.requestedResource.milliCPU) = some 750 := by decide
  obtain ⟨n, hn, hcpu⟩ := Option.map_eq_some_iff.mp hlookup
  obtain ⟨htotals, _, _, _, hexact⟩ := totals_eq_sums hrun huniform hn
  exact ⟨n, hn, hcpu, htotals, hexact (by decide)⟩

end LeanKube.Scheduler
