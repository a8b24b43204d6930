import LeanKube.SchedulerSnapshot
import LeanKube.SchedulingQueue

/-! The first loop of preemption on a node (`selectVictimsOnNode` of `core/generic_scheduler.go`). It ranges over the
pods of a clone while it deletes from the same array: the range keeps the length that the slice had at the start, and
reads each cell when it comes to it. -/

namespace LeanKube.Scheduler
open List

structure VictimSelection where
  nodeInfoCopy : NodeInfo
  /-- The array that the range reads. The slice of the pods is the front of it. -/
  array : List Pod
  evaluated : List Pod
  potentialVictims : List Pod

variable (podPriority : Int32) (generation : Nat → Int64)

/-- One turn of the loop, `none` for a panic. `RemovePod` writes inside of the slice and shortens it, and its error is
dropped. -/
def VictimSelection.evaluate (s : VictimSelection) (i : Nat) : Option VictimSelection := do
  let p ← s.array[i]?
  let s := { s with evaluated := s.evaluated ++ [p] }
  if getPodPriority p < podPriority then
    let nodeInfoCopy ← (s.nodeInfoCopy.removePod p (generation i)).state?
    return { s with
      nodeInfoCopy
      array := nodeInfoCopy.pods ++ s.array.drop nodeInfoCopy.pods.length
      potentialVictims := s.potentialVictims ++ [p] }
  else return s

variable (nodeInfo : NodeInfo)

def selectPotentialVictims : Option VictimSelection :=
  (range' 0 nodeInfo.clone.pods.length).foldlM (VictimSelection.evaluate podPriority generation)
    ⟨nodeInfo.clone, nodeInfo.clone.pods, [], []⟩

/-- The pods `front` have been evaluated, and the cells from there on hold the pods `back` as at the start. -/
structure Evaluated (front back : List Pod) (s : VictimSelection) : Prop where
  live : s.array.drop front.length = back
  slice : s.nodeInfoCopy.pods <+: s.array
  pods : s.nodeInfoCopy.pods.Perm (front.filter (podPriority ≤ getPodPriority ·) ++ back)
  evaluated : s.evaluated = front
  potentialVictims : s.potentialVictims = front.filter (getPodPriority · < podPriority)

variable {podPriority} {front back : List Pod} {p : Pod} {s : VictimSelection}

theorem Evaluated.evaluate (h : Evaluated podPriority front (p :: back) s) (hkey : p.uid ≠ "")
    (hnodup : ((front ++ p :: back).map Pod.uid).Nodup) :
    ∃ s', s.evaluate podPriority generation front.length = some s' ∧ Evaluated podPriority (front ++ [p]) back s' := by
  have hcell : s.array[front.length]? = some p := by
    rw [← Nat.add_zero front.length, ← getElem?_drop, h.live]
    rfl
  have hlive : s.array.drop (front.length + 1) = back := by
    rw [← drop_drop, h.live]
    rfl
  rw [VictimSelection.evaluate, hcell]
  simp only [Option.bind_eq_bind, Option.bind_some]
  split_ifs with hlower
  · have hmem : p ∈ s.nodeInfoCopy.pods := h.pods.mem_iff.mpr (mem_append_right _ mem_cons_self)
    obtain ⟨found, rest, hfound, huid, hperm⟩ := exists_removeFirst_hasKey hkey hmem rfl
    obtain ⟨tail, htail⟩ := h.slice
    -- The slice ends before the cell, or the pod that is deleted is the one in the cell.
    have hwrites := removeFirst_append_drop hfound tail (k := front.length) fun q hq => by
      have hq' : s.array[front.length]? = some q := by
        rw [← htail, getElem?_append_left (List.getElem?_eq_some_iff.mp hq).1]
        exact hq
      rw [Option.some.inj (hq'.symm.trans hcell)]
      exact (hasKey_iff hkey p).mpr rfl
    have hsame : found = p := by
      refine inj_on_of_nodup_map ?_ (hperm.mem_iff.mpr mem_cons_self) hmem huid
      refine (h.pods.map _).nodup_iff.mpr (hnodup.sublist (Sublist.map _ ?_))
      exact filter_sublist.append_right _
    subst hsame
    rw [NodeInfo.removePod_found hkey hfound]
    refine ⟨_, rfl, ?_, prefix_append _ _, ?_, congrArg (· ++ [found]) h.evaluated, ?_⟩
    · rw [length_append, ← hlive, ← htail]
      exact hwrites
    · have hkept := (perm_cons found).mp (hperm.symm.trans (h.pods.trans perm_middle))
      simpa [NodeInfo.subtractPod, Int32.not_le.mpr hlower] using hkept
    · rw [filter_append, ← h.potentialVictims]
      simp [hlower]
  · refine ⟨_, rfl, ?_, h.slice, ?_, congrArg (· ++ [p]) h.evaluated, ?_⟩
    · rw [length_append]
      exact hlive
    · simpa [Int32.not_lt.mp hlower] using h.pods
    · rw [filter_append, ← h.potentialVictims]
      simp [hlower]

theorem Evaluated.foldlM (h : Evaluated podPriority front back s) (hkeys : ∀ p ∈ back, p.uid ≠ "")
    (hnodup : ((front ++ back).map Pod.uid).Nodup) :
    ∃ s', (range' front.length back.length).foldlM (VictimSelection.evaluate podPriority generation) s = some s' ∧
      Evaluated podPriority (front ++ back) [] s' := by
  induction back generalizing front s with
  | nil => exact ⟨s, rfl, by rwa [append_nil]⟩
  | cons p back ih =>
    obtain ⟨hkey, hkeys⟩ := forall_mem_cons.mp hkeys
    obtain ⟨s', hstep, hs'⟩ := h.evaluate generation hkey hnodup
    rw [append_cons] at hnodup ⊢
    obtain ⟨s'', hrest, hs''⟩ := ih hs' hkeys hnodup
    refine ⟨s'', ?_, hs''⟩
    rw [length_append] at hrest
    rw [length_cons, range'_succ, foldlM_cons, hstep]
    exact hrest

/-- **Deleting while iterating.** Each pod of the node is evaluated once, in order; those below the priority are the
potential victims, and the others are left on the node. -/
theorem selectPotentialVictims_each_once (podPriority : Int32) (generation : Nat → Int64)
    (hkeys : ∀ p ∈ nodeInfo.pods, ∃ key, getPodKey p = .ok key) (hdistinct : (nodeInfo.pods.map getPodKey).Nodup) :
    ∃ s, selectPotentialVictims podPriority generation nodeInfo = some s ∧ s.evaluated = nodeInfo.pods ∧
      s.nodeInfoCopy.pods.Perm (nodeInfo.pods.filter (podPriority ≤ getPodPriority ·)) ∧
      s.potentialVictims = nodeInfo.pods.filter (getPodPriority · < podPriority) := by
  have hkey : ∀ p ∈ nodeInfo.pods, p.uid ≠ "" := by
    intro p hp hempty
    obtain ⟨key, hok⟩ := hkeys p hp
    rw [getPodKey, if_pos hempty] at hok
    cases hok
  have hnodup : (nodeInfo.pods.map Pod.uid).Nodup := by
    rw [map_congr_left fun p hp => getPodKey_of_ne (hkey p hp)] at hdistinct
    exact .of_map (@Except.ok String _) (by rwa [map_map])
  have hstart : Evaluated podPriority [] nodeInfo.pods ⟨nodeInfo.clone, nodeInfo.clone.pods, [], []⟩ :=
    ⟨rfl, prefix_rfl, .refl _, rfl, rfl⟩
  obtain ⟨s, hloop, hs⟩ := hstart.foldlM generation hkey hnodup
  exact ⟨s, hloop, hs.evaluated, by simpa using hs.pods, hs.potentialVictims⟩

def mixedNode : NodeInfo :=
  { pods := [("low", 1), ("high", 9), ("last", 1)].map fun (uid, value) =>
      { idlePod uid "node" with priority := some value }
    generation := 0 }

theorem selectPotentialVictims_mixed : ∃ s, selectPotentialVictims 5 (fun _ => 0) mixedNode = some s ∧
    s.evaluated = mixedNode.pods ∧ s.nodeInfoCopy.pods.Perm (mixedNode.pods.filter (5 ≤ getPodPriority ·)) ∧
    s.potentialVictims = mixedNode.pods.filter (getPodPriority · < 5) :=
  selectPotentialVictims_each_once mixedNode 5 _ (fun p hp => ⟨p.uid, getPodKey_of_ne (by revert p; decide)⟩)
    (by decide)

end LeanKube.Scheduler
