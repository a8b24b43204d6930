import LeanKube.SchedulingQueue

/-! The nominated pods: the lists of the nodes and the map from UIDs to nodes agree after every
operation, which then only deletes the pods of one UID and nominates one pod anew. -/

namespace LeanKube.Scheduler
open List GoMap
namespace NominatedPodMap

structure Consistent (npm : NominatedPodMap) : Prop where
  inverse : ∀ uid nodeName, npm.nominatedPodToNode.lookup uid = some nodeName ↔
    ∃ pod ∈ npm.podsForNode nodeName, pod.uid = uid
  once : ∀ nodeName, ((npm.podsForNode nodeName).map Pod.uid).Nodup
  nonempty : ∀ nodeName, npm.nominatedPods.lookup nodeName ≠ some []

theorem consistent_empty : Consistent {} where
  inverse uid nodeName := iff_of_false (by simp) (by simp [podsForNode])
  once nodeName := by simp [podsForNode]
  nonempty nodeName := by simp

def others (uid : String) (pods : List Pod) : List Pod := pods.filter fun pod => pod.uid ≠ uid

variable {pod : Pod} {pods : List Pod} {uid nodeName : String}

theorem mem_others : pod ∈ others uid pods ↔ pod ∈ pods ∧ pod.uid ≠ uid := by
  simp [others]

theorem others_eq_self (h : ∀ pod ∈ pods, pod.uid ≠ uid) : others uid pods = pods :=
  filter_eq_self.mpr fun pod hpod => decide_eq_true (h pod hpod)

theorem eraseP_eq_others (h : (pods.map Pod.uid).Nodup) : pods.eraseP (fun np => np.uid = uid) = others uid pods := by
  induction pods with
  | nil => rfl
  | cons pod rest ih =>
    rw [map_cons, nodup_cons] at h
    by_cases huid : pod.uid = uid
    · have hrest : ∀ other ∈ rest, other.uid ≠ uid := by
        intro other hother heq
        exact h.1 (huid ▸ heq ▸ mem_map_of_mem hother)
      rw [eraseP_cons_of_pos (by simpa using huid), others, filter_cons_of_neg (by simpa using huid)]
      exact (others_eq_self hrest).symm
    · rw [eraseP_cons_of_neg (by simpa using huid), ih h.2]
      exact (filter_cons_of_pos (by simpa using huid)).symm

variable {npm : NominatedPodMap}

theorem Consistent.node_eq (h : npm.Consistent) (hpod : pod ∈ npm.podsForNode nodeName) :
    npm.nominatedPodToNode.lookup pod.uid = some nodeName :=
  (h.inverse pod.uid nodeName).mpr ⟨pod, hpod, rfl⟩

variable (pods : GoMap String (List Pod)) (toNode : GoMap String String)

theorem podsForNode_insert (key : String) (value : List Pod) (nodeName : String) :
    podsForNode ⟨pods.insert key value, toNode⟩ nodeName =
      if nodeName = key then value else podsForNode ⟨pods, toNode⟩ nodeName := by
  rw [podsForNode, lookup_insert_ite]
  split_ifs <;> rfl

theorem podsForNode_erase (key : String) (nodeName : String) :
    podsForNode ⟨pods.erase key, toNode⟩ nodeName =
      if nodeName = key then [] else podsForNode ⟨pods, toNode⟩ nodeName := by
  rw [podsForNode, lookup_erase_ite]
  split_ifs <;> rfl

/-! ### Deleting a pod -/

theorem lookup_delete (npm : NominatedPodMap) (p : Pod) (uid : String) : (npm.delete p).nominatedPodToNode.lookup uid =
      if uid = p.uid then none else npm.nominatedPodToNode.lookup uid := by
  rw [delete]
  split
  · next hnone =>
      split_ifs with huid
      · rw [huid, hnone]
      · rfl
  · exact lookup_erase_ite ..

section
variable (h : npm.Consistent) (p : Pod)
include h p

variable (nodeName : String)

theorem podsForNode_delete : (npm.delete p).podsForNode nodeName = others p.uid (npm.podsForNode nodeName) := by
  -- a list without the UID is left as it is
  have hkept : npm.nominatedPodToNode.lookup p.uid ≠ some nodeName →
      npm.podsForNode nodeName = others p.uid (npm.podsForNode nodeName) := by
    intro hne
    refine (others_eq_self fun _ hpod huid => hne ?_).symm
    rw [← huid]
    exact h.node_eq hpod
  rw [delete]
  cases hnode : npm.nominatedPodToNode.lookup p.uid with
  | none => exact hkept (by simp [hnode])
  | some nnn =>
    have hany : (npm.podsForNode nnn).any (fun np => np.uid = p.uid) = true := by
      simpa using (h.inverse p.uid nnn).mp hnode
    simp only [hany, if_true]
    by_cases hnnn : nodeName = nnn
    · subst hnnn
      rw [← eraseP_eq_others (h.once nodeName)]
      split_ifs with hempty
      · rw [podsForNode_erase, if_pos rfl, eq_nil_of_length_eq_zero hempty]
      · rw [podsForNode_insert, if_pos rfl]
    · have hother := hkept fun heq => hnnn (Option.some.inj (heq.symm.trans hnode))
      split_ifs
      · rw [podsForNode_erase, if_neg hnnn]
        exact hother
      · rw [podsForNode_insert, if_neg hnnn]
        exact hother

theorem nonempty_delete : (npm.delete p).nominatedPods.lookup nodeName ≠ some [] := by
  rw [delete]
  split
  · exact h.nonempty nodeName
  · simp only
    split_ifs with hany hempty
    · exact fun hnil => h.nonempty nodeName (of_lookup_erase hnil).2
    · intro hnil
      rcases of_lookup_insert hnil with ⟨-, heq⟩ | ⟨-, hold⟩
      · exact hempty (by rw [← heq]; rfl)
      · exact h.nonempty nodeName hold
    · exact h.nonempty nodeName

theorem Consistent.delete : (npm.delete p).Consistent where
  inverse uid nodeName := by
    rw [lookup_delete, podsForNode_delete h]
    split_ifs with huid
    · refine iff_of_false (by simp) ?_
      rintro ⟨pod, hpod, rfl⟩
      exact (mem_others.mp hpod).2 huid
    · rw [h.inverse]
      constructor
      · rintro ⟨pod, hpod, rfl⟩
        exact ⟨pod, mem_others.mpr ⟨hpod, huid⟩, rfl⟩
      · rintro ⟨pod, hpod, rfl⟩
        exact ⟨pod, (mem_others.mp hpod).1, rfl⟩
  once nodeName := by
    rw [podsForNode_delete h]
    exact (h.once nodeName).sublist (filter_sublist.map _)
  nonempty := nonempty_delete h p

end

/-! ### Adding a pod -/

variable (h : npm.Consistent)
include h
variable (p : Pod)

theorem add_eq (nodeName : String) : npm.add p nodeName = if (nodeToNominate p nodeName).length = 0 then npm.delete p
      else
        { nominatedPods := (npm.delete p).nominatedPods.insert (nodeToNominate p nodeName)
            ((npm.delete p).podsForNode (nodeToNominate p nodeName) ++ [p])
          nominatedPodToNode :=
            (npm.delete p).nominatedPodToNode.insert p.uid (nodeToNominate p nodeName) } := by
  have hnone : ∀ nodeName, ((npm.delete p).podsForNode nodeName).any (fun np => np.uid = p.uid) = false := by
    intro nodeName
    rw [podsForNode_delete h, any_eq_false]
    intro pod hpod
    simpa using (mem_others.mp hpod).2
  refine if_congr Iff.rfl rfl (if_neg ?_)
  change ¬((npm.delete p).podsForNode (nodeToNominate p nodeName)).any _ = true
  simp [hnone]

theorem podsForNode_add (nodeName nodeName' : String) :
    (npm.add p nodeName).podsForNode nodeName' = others p.uid (npm.podsForNode nodeName') ++
        if nodeToNominate p nodeName ≠ "" ∧ nodeName' = nodeToNominate p nodeName then [p] else [] := by
  rw [add_eq h]
  split_ifs with hempty hadded hadded
  · rw [String.length_eq_zero_iff] at hempty
    exact absurd hempty hadded.1
  · rw [podsForNode_delete h, append_nil]
  · rw [podsForNode_insert, if_pos hadded.2, podsForNode_delete h, hadded.2]
  · rw [String.length_eq_zero_iff] at hempty
    have hne : nodeName' ≠ nodeToNominate p nodeName := fun heq => hadded ⟨hempty, heq⟩
    rw [podsForNode_insert, if_neg hne, append_nil]
    exact podsForNode_delete h p nodeName'

theorem lookup_add (nodeName uid : String) : (npm.add p nodeName).nominatedPodToNode.lookup uid =
      if uid ≠ p.uid then npm.nominatedPodToNode.lookup uid
      else if nodeToNominate p nodeName = "" then none else some (nodeToNominate p nodeName) := by
  rw [add_eq h]
  by_cases hempty : nodeToNominate p nodeName = ""
  · rw [if_pos (by rw [hempty]; rfl), lookup_delete]
    simp only [hempty, if_true, ne_eq, ite_not]
  · rw [if_neg (by rwa [String.length_eq_zero_iff]), lookup_insert_ite, lookup_delete]
    by_cases huid : uid = p.uid
    · simp only [huid, hempty, if_true, if_false, ne_eq, not_true]
    · simp only [huid, if_false, ne_eq, not_false_eq_true, if_true]

variable {nodeName' : String}

theorem mem_podsForNode_add {p : Pod} :
    pod ∈ (npm.add p nodeName).podsForNode nodeName' ↔ (pod ∈ npm.podsForNode nodeName' ∧ pod.uid ≠ p.uid) ∨
        pod = p ∧ nodeToNominate p nodeName ≠ "" ∧ nodeName' = nodeToNominate p nodeName := by
  rw [podsForNode_add h, mem_append, mem_others]
  split_ifs with hadded
  · simp only [mem_singleton, hadded.1, hadded.2, ne_eq, not_false_eq_true, and_self, and_true]
  · simp only [not_mem_nil, hadded, and_false]

theorem Consistent.add (nodeName : String) : (npm.add p nodeName).Consistent where
  inverse uid nodeName' := by
    simp only [mem_podsForNode_add h, lookup_add h]
    by_cases huid : uid = p.uid
    · subst huid
      constructor
      · intro hnode
        simp only [ne_eq, not_true, if_false] at hnode
        split_ifs at hnode with hempty
        exact ⟨p, .inr ⟨rfl, hempty, (Option.some.inj hnode).symm⟩, rfl⟩
      · rintro ⟨pod, ⟨-, hne⟩ | ⟨rfl, hempty, hnode⟩, hpod⟩
        · exact absurd hpod hne
        · simp [hempty, hnode]
    · rw [if_pos huid, h.inverse]
      constructor
      · rintro ⟨pod, hpod, rfl⟩
        exact ⟨pod, .inl ⟨hpod, huid⟩, rfl⟩
      · rintro ⟨pod, ⟨hpod, -⟩ | ⟨rfl, -⟩, rfl⟩
        · exact ⟨pod, hpod, rfl⟩
        · exact absurd rfl huid
  once nodeName' := by
    have hothers : ((others p.uid (npm.podsForNode nodeName')).map Pod.uid).Nodup :=
      (h.once nodeName').sublist (filter_sublist.map _)
    rw [podsForNode_add h, map_append]
    split_ifs
    · refine nodup_append.mpr ⟨hothers, nodup_singleton _, ?_⟩
      intro uid huid uid' huid'
      obtain ⟨pod, hpod, rfl⟩ := mem_map.mp huid
      rw [mem_singleton.mp huid']
      exact (mem_others.mp hpod).2
    · simpa using hothers
  nonempty nodeName' := by
    rw [add_eq h]
    split_ifs
    · exact nonempty_delete h p nodeName'
    · rw [lookup_insert_ite]
      split_ifs
      · simp
      · exact nonempty_delete h p nodeName'

theorem Consistent.place_eq {i i' : Nat} {pod' : Pod} (hpod : (npm.podsForNode nodeName)[i]? = some pod)
    (hpod' : (npm.podsForNode nodeName')[i']? = some pod') (huid : pod.uid = pod'.uid) :
    nodeName = nodeName' ∧ i = i' := by
  have hnode := h.node_eq (mem_of_getElem? hpod)
  have hnode' := h.node_eq (mem_of_getElem? hpod')
  rw [huid] at hnode
  obtain rfl := Option.some.inj (hnode.symm.trans hnode')
  refine ⟨rfl, ?_⟩
  obtain ⟨hi, hat⟩ := List.getElem?_eq_some_iff.mp hpod
  obtain ⟨hi', hat'⟩ := List.getElem?_eq_some_iff.mp hpod'
  have hinj := nodup_iff_injective_get.mp (h.once nodeName)
  have heq : (⟨i, by simpa using hi⟩ : Fin ((npm.podsForNode nodeName).map Pod.uid).length) =
      ⟨i', by simpa using hi'⟩ := hinj (by simp [hat, hat', huid])
  exact congrArg Fin.val heq

end NominatedPodMap
end LeanKube.Scheduler
