import LeanKube.SchedulingNominations
import LeanKube.SchedulingQueueSteps

/-! The invariant of the scheduling queue over any calls about pods with valid names: no pod is in
both queues, a pod leaves them through `Pop` or `Delete` only, `Pop` returns a pod that comes first,
and the two maps of the nominated pods agree. -/

namespace LeanKube.Scheduler
open List Finmap GoMap

/-! ### Names -/

def dns1123LabelMaxLength : Nat := 63

def isDNS1123Label (value : List Char) : Bool :=
  decide (value.length ≤ dns1123LabelMaxLength) &&
    matchesDelimited isLowerAlphanumeric (fun c => isLowerAlphanumeric c || c = '-') value

/-- The names that the API server accepts: a DNS subdomain in a namespace that is a DNS label. -/
def HasValidName (pod : Pod) : Prop :=
  isDNS1123Subdomain pod.name.toList = true ∧ isDNS1123Label pod.namespace_.toList = true

instance hasValidNameDecidable (pod : Pod) : Decidable (HasValidName pod) :=
  inferInstanceAs (Decidable (_ ∧ _))

def podId (pod : Pod) : String × String := (pod.namespace_, pod.name)

theorem mem_intercalate {c d : Char} {pieces : List (List Char)} (h : c ∈ [d].intercalate pieces) :
    c = d ∨ ∃ piece ∈ pieces, c ∈ piece := by
  induction pieces with
  | nil => simp at h
  | cons piece rest ih =>
    cases rest with
    | nil => exact .inr ⟨piece, mem_cons_self, by simpa using h⟩
    | cons =>
      rw [intercalate_cons_cons, append_assoc, mem_append, mem_append] at h
      rcases h with hpiece | hsep | hrest
      · exact .inr ⟨piece, mem_cons_self, hpiece⟩
      · exact .inl (mem_singleton.mp hsep)
      · rcases ih hrest with hsep | ⟨other, hother, hc⟩
        · exact .inl hsep
        · exact .inr ⟨other, mem_cons_of_mem _ hother, hc⟩

section Delimiter
variable {c : Char} (hc : isLowerAlphanumeric c = false) (hdash : c ≠ '-')
include hc hdash

theorem notMem_of_matchesDelimited {text : List Char}
    (h : matchesDelimited isLowerAlphanumeric (fun c => isLowerAlphanumeric c || c = '-') text = true) :
    c ∉ text := by
  intro hmem
  simp only [matchesDelimited, Bool.and_eq_true, all_eq_true] at h
  have := h.1.1 c hmem
  simp [hc, hdash] at this

theorem notMem_namespace {pod : Pod} (h : HasValidName pod) : c ∉ pod.namespace_.toList :=
  notMem_of_matchesDelimited hc hdash (Bool.and_eq_true_iff.mp h.2).2

theorem notMem_name (hdot : c ≠ '.') {pod : Pod} (h : HasValidName pod) : c ∉ pod.name.toList := by
  intro hmem
  have hpieces := all_eq_true.mp (Bool.and_eq_true_iff.mp h.1).2
  have hjoined : ['.'].intercalate (pod.name.toList.splitOn '.') = pod.name.toList := intercalate_splitOn '.'
  rw [← hjoined] at hmem
  rcases mem_intercalate hmem with hsep | ⟨piece, hpiece, hin⟩
  · exact hdot hsep
  · exact notMem_of_matchesDelimited hc hdash (hpieces piece hpiece) hin

end Delimiter

theorem join_inj {a b a' b' : String} {c : Char} (ha : c ∉ a.toList) (hb : c ∉ b.toList)
    (h : a ++ String.singleton c ++ b = a' ++ String.singleton c ++ b') : a = a' ∧ b = b' := by
  have hlist := congrArg String.toList h
  simp only [String.toList_append, String.toList_singleton, append_assoc, singleton_append] at hlist
  obtain ⟨hfirst, -, hsnd⟩ := (append_cons_inj_of_notMem ha hb).mp hlist
  exact ⟨String.toList_inj.mp hfirst, String.toList_inj.mp hsnd⟩

section Keys
variable {pod pod' : Pod} (h : HasValidName pod) (h' : HasValidName pod')

theorem activeKey_of_valid (h : HasValidName pod) : activeKey pod = pod.namespace_ ++ "/" ++ pod.name := by
  rw [activeKey, if_pos]
  have hmatch := (Bool.and_eq_true_iff.mp h.2).2
  apply Nat.pos_of_ne_zero
  intro hzero
  rw [eq_nil_of_length_eq_zero hzero] at hmatch
  exact absurd hmatch (by decide)

include h

theorem getPodFullName_inj : getPodFullName pod = getPodFullName pod' ↔ podId pod = podId pod' := by
  constructor
  · intro heq
    obtain ⟨hname, hns⟩ := join_inj (c := '_') (notMem_name (by decide) (by decide) (by decide) h)
      (notMem_namespace (by decide) (by decide) h) heq
    exact Prod.ext hns hname
  · intro heq
    simp only [podId, Prod.mk.injEq] at heq
    rw [getPodFullName, getPodFullName, heq.1, heq.2]

include h'

theorem activeKey_inj : activeKey pod = activeKey pod' ↔ podId pod = podId pod' := by
  rw [activeKey_of_valid h, activeKey_of_valid h']
  constructor
  · intro heq
    obtain ⟨hns, hname⟩ := join_inj (c := '/') (notMem_namespace (by decide) (by decide) h)
      (notMem_name (by decide) (by decide) (by decide) h) heq
    exact Prod.ext hns hname
  · intro heq
    simp only [podId, Prod.mk.injEq] at heq
    rw [heq.1, heq.2]

end Keys

/-! ### The two queues -/

namespace QueueContents
variable (c : QueueContents) {c' : QueueContents} {pod : Pod}

def Active (pod : Pod) : Prop := ∃ key, c.active.lookup key = some pod

def Unschedulable (pod : Pod) : Prop := ∃ key, c.unschedulable.lookup key = some pod

def Holds (id : String × String) : Prop :=
  ∃ pod, (c.Active pod ∨ c.Unschedulable pod) ∧ podId pod = id

def Disjoint : Prop :=
  ∀ pod pod', c.Active pod → c.Unschedulable pod' → podId pod ≠ podId pod'

def Named : Prop := ∀ pod, c.Active pod ∨ c.Unschedulable pod → HasValidName pod

variable {c}

structure Valid (c : QueueContents) : Prop where
  keyed : c.Keyed
  named : c.Named
  disjoint : c.Disjoint

variable {pod' : Pod} {id : String × String} {m : GoMap String Pod} {key : String}

theorem of_insert (h : ∃ key', (m.insert key pod).lookup key' = some pod') :
    pod' = pod ∨ ∃ key', m.lookup key' = some pod' := by
  obtain ⟨key', hkey'⟩ := h
  rcases of_lookup_insert hkey' with ⟨-, heq⟩ | ⟨-, hold⟩
  · exact .inl heq
  · exact .inr ⟨key', hold⟩

theorem of_erase (h : ∃ key', (m.erase key).lookup key' = some pod') : ∃ key', m.lookup key' = some pod' := by
  obtain ⟨key', hkey'⟩ := h
  exact ⟨key', (of_lookup_erase hkey').2⟩

section
variable (h : c.Valid) (hpod : HasValidName pod)
include h hpod

theorem Valid.activate : (c.activate pod).Valid where
  keyed := ⟨forall_insert h.keyed.active rfl,
    fun key pod' hkey => h.keyed.unschedulable key pod' (of_lookup_erase hkey).2⟩
  named pod' hin := by
    rcases hin with hactive | hparked
    · rcases of_insert hactive with rfl | hold
      · exact hpod
      · exact h.named pod' (.inl hold)
    · exact h.named pod' (.inr (of_erase hparked))
  disjoint pod₁ pod₂ hactive hparked := by
    rcases of_insert hactive with rfl | hold
    · intro hid
      obtain ⟨key, hkey⟩ := hparked
      obtain ⟨hne, hkey⟩ := of_lookup_erase hkey
      rw [← getPodFullName_inj hpod, h.keyed.unschedulable key pod₂ hkey] at hid
      exact hne hid.symm
    · exact h.disjoint pod₁ pod₂ hold (of_erase hparked)

theorem Valid.refresh (hpres : c.active.lookup (activeKey pod) ≠ none) : (c.refresh pod).Valid where
  keyed := ⟨forall_insert h.keyed.active rfl, h.keyed.unschedulable⟩
  named pod' hin := by
    rcases hin with hactive | hparked
    · rcases of_insert hactive with rfl | hold
      · exact hpod
      · exact h.named pod' (.inl hold)
    · exact h.named pod' (.inr hparked)
  disjoint pod₁ pod₂ hactive hparked := by
    rcases of_insert hactive with rfl | hold
    · -- the pod that is replaced has the same name
      obtain ⟨old, hold⟩ := Option.ne_none_iff_exists'.mp hpres
      have hvalid := h.named old (.inl ⟨_, hold⟩)
      have hid := (activeKey_inj hvalid hpod).mp (h.keyed.active _ old hold)
      rw [← hid]
      exact h.disjoint old pod₂ ⟨_, hold⟩ hparked
    · exact h.disjoint pod₁ pod₂ hold hparked

theorem Valid.park (habsent : c.active.lookup (activeKey pod) = none) : (c.park pod).Valid where
  keyed := ⟨h.keyed.active, forall_insert h.keyed.unschedulable rfl⟩
  named pod' hin := by
    rcases hin with hactive | hparked
    · exact h.named pod' (.inl hactive)
    · rcases of_insert hparked with rfl | hold
      · exact hpod
      · exact h.named pod' (.inr hold)
  disjoint pod₁ pod₂ hactive hparked := by
    rcases of_insert hparked with rfl | hold
    · intro hid
      obtain ⟨key, hkey⟩ := hactive
      have hvalid := h.named pod₁ (.inl ⟨key, hkey⟩)
      have heq := (activeKey_inj hvalid hpod).mpr hid
      rw [h.keyed.active key pod₁ hkey] at heq
      rw [← heq] at habsent
      exact absurd (habsent.symm.trans hkey) (by simp)
    · exact h.disjoint pod₁ pod₂ hactive hold

end

theorem Moves.valid (h : Moves HasValidName c c') (hc : c.Valid) : c'.Valid := by
  induction h with
  | refl => exact hc
  | activate _ hpod ih => exact ih.activate hpod
  | refresh _ hpod hpres ih => exact ih.refresh hpod hpres
  | park _ hpod habsent ih => exact ih.park hpod habsent

theorem Valid.of_subset (h : c.Valid) (hkeyed : c'.Keyed) (hactive : ∀ pod, c'.Active pod → c.Active pod)
    (hparked : ∀ pod, c'.Unschedulable pod → c.Unschedulable pod) : c'.Valid where
  keyed := hkeyed
  named pod hin := h.named pod (hin.imp (hactive pod) (hparked pod))
  disjoint pod₁ pod₂ h₁ h₂ := h.disjoint pod₁ pod₂ (hactive pod₁ h₁) (hparked pod₂ h₂)

/-! ### Pods stay in the queues -/

theorem active_self_refresh (c : QueueContents) (pod : Pod) : (c.refresh pod).Active pod :=
  ⟨activeKey pod, lookup_insert _⟩

theorem holds_refresh_active (h : c.Valid) (hpod : HasValidName pod) (hactive : c.Active pod') :
    ∃ pod'', (c.refresh pod).Active pod'' ∧ podId pod'' = podId pod' := by
  obtain ⟨key, hkey⟩ := hactive
  by_cases heq : key = activeKey pod
  · refine ⟨pod, c.active_self_refresh pod, ?_⟩
    have hvalid := h.named pod' (.inl ⟨key, hkey⟩)
    rw [← activeKey_inj hpod hvalid, h.keyed.active key pod' hkey, heq]
  · exact ⟨pod', ⟨key, (lookup_insert_of_ne _ heq).trans hkey⟩, rfl⟩

section
variable (h : c.Holds id) (hc : c.Valid) (hpod : HasValidName pod)
include h hc hpod

theorem Holds.activate : (c.activate pod).Holds id := by
  obtain ⟨pod', hactive | ⟨key, hkey⟩, rfl⟩ := h
  · obtain ⟨pod'', hactive', hid⟩ := holds_refresh_active hc hpod hactive
    exact ⟨pod'', .inl hactive', hid⟩
  · by_cases heq : key = getPodFullName pod
    · refine ⟨pod, .inl (c.active_self_refresh pod), ?_⟩
      rw [← getPodFullName_inj hpod, hc.keyed.unschedulable key pod' hkey, heq]
    · exact ⟨pod', .inr ⟨key, (lookup_erase_ne heq).trans hkey⟩, rfl⟩

theorem Holds.refresh : (c.refresh pod).Holds id := by
  obtain ⟨pod', hactive | hparked, rfl⟩ := h
  · obtain ⟨pod'', hactive', hid⟩ := holds_refresh_active hc hpod hactive
    exact ⟨pod'', .inl hactive', hid⟩
  · exact ⟨pod', .inr hparked, rfl⟩

theorem Holds.park : (c.park pod).Holds id := by
  obtain ⟨pod', hactive | ⟨key, hkey⟩, rfl⟩ := h
  · exact ⟨pod', .inl hactive, rfl⟩
  · by_cases heq : key = getPodFullName pod
    · refine ⟨pod, .inr ⟨_, lookup_insert _⟩, ?_⟩
      rw [← getPodFullName_inj hpod, hc.keyed.unschedulable key pod' hkey, heq]
    · exact ⟨pod', .inr ⟨key, (lookup_insert_of_ne _ heq).trans hkey⟩, rfl⟩

end

theorem Moves.holds (h : Moves HasValidName c c') (hc : c.Valid) (hid : c.Holds id) : c'.Holds id := by
  induction h with
  | refl => exact hid
  | activate hmoves hpod ih => exact ih.activate (hmoves.valid hc) hpod
  | refresh hmoves hpod _ ih => exact ih.refresh (hmoves.valid hc) hpod
  | park hmoves hpod _ ih => exact ih.park (hmoves.valid hc) hpod

end QueueContents

/-! ### Any calls -/

namespace PriorityQueue
open QueueContents
variable {p p' : PriorityQueue} {call : Call}

structure Inv (p : PriorityQueue) : Prop where
  contents : p.contents.Valid
  nominated : p.nominatedPods.Consistent

theorem inv_newPriorityQueue : newPriorityQueue.Inv where
  contents := by
    have hactive : ∀ pod, ¬ newPriorityQueue.contents.Active pod := by
      rintro pod ⟨key, hkey⟩
      cases hkey
    have hparked : ∀ pod, ¬ newPriorityQueue.contents.Unschedulable pod := by
      rintro pod ⟨key, hkey⟩
      cases hkey
    exact ⟨newPriorityQueue.contents_keyed, fun pod h => (h.elim (hactive pod) (hparked pod)).elim,
      fun pod _ h => (hactive pod h).elim⟩
  nominated := NominatedPodMap.consistent_empty

variable {pod : Pod} {c : QueueContents}

theorem perform_valid (h : p.perform call = some p') (hcall : call.All HasValidName)
    (hp : p.contents.Valid) : p'.contents.Valid := by
  have hmoves := (perform_spec h).2 hcall fun key pod hpod => hp.named pod (.inr ⟨key, hpod⟩)
  cases call with
  | pop =>
    obtain ⟨pod, hpop⟩ := perform_pop h
    refine hp.of_subset p'.contents_keyed (fun other => ?_) (fun other => ?_)
    · rw [(pop_spec hpop).2.1]
      exact of_erase
    · rw [(pop_spec hpop).2.1]
      exact id
  | delete pod =>
    cases h
    rcases (p.delete_spec pod).1 with hcont | hcont
    · refine hp.of_subset (p.delete pod).contents_keyed (fun other => ?_) (fun other => ?_)
      · rw [hcont]
        exact of_erase
      · rw [hcont]
        exact id
    · refine hp.of_subset (p.delete pod).contents_keyed (fun other => ?_) (fun other => ?_)
      · rw [hcont]
        exact id
      · rw [hcont]
        exact of_erase
  | _ => exact (hmoves (by simp) (by simp)).valid hp

theorem perform_consistent (h : p.perform call = some p') (hp : p.nominatedPods.Consistent) :
    p'.nominatedPods.Consistent := by
  rw [perform_nominatedPods h]
  cases call with
  | add pod | updateNominatedPodForNode pod nodeName => exact hp.add pod _
  | addIfNotPresent pod | addUnschedulableIfNotPresent pod cycle =>
    simp only [nominate]
    split_ifs
    · exact hp
    · exact hp.add pod ""
  | update oldPod newPod =>
    simp only [nominate]
    split_ifs
    · exact (hp.delete oldPod).add newPod ""
    · exact hp.add newPod ""
  | delete pod | deleteNominatedPodIfExists pod => exact hp.delete pod
  | _ => exact hp

theorem run_inv {calls : List Call} (hrun : system.Run newPriorityQueue calls p)
    (hnames : ∀ call ∈ calls, call.All HasValidName) : p.Inv := by
  refine hrun.history (fun calls p => (∀ call ∈ calls, call.All HasValidName) → p.Inv) ?_
    (fun _ => inv_newPriorityQueue) hnames
  intro calls p call p' hstep ih hnames
  have hp := ih fun call hcall => hnames call (mem_append_left _ hcall)
  have hcall := hnames call (mem_append_right _ (mem_singleton_self call))
  exact ⟨perform_valid hstep hcall hp.contents, perform_consistent hstep hp.nominated⟩

/-- The pod that a call takes out of the queues: the one that `Pop` returns or `Delete` is given. -/
def Call.Takes (p : PriorityQueue) (id : String × String) : Call → Prop
  | .pop => ∃ pod p', p.pop = some (pod, p') ∧ podId pod = id
  | .delete pod => podId pod = id
  | _ => False

variable {id : String × String}

theorem holds_of_erase {c' : QueueContents} (hc : c.Valid) (hpod : HasValidName pod)
    (hid : c.Holds id) (hc' : c' = { c with active := c.active.erase (activeKey pod) } ∨
      c' = { c with unschedulable := c.unschedulable.erase (getPodFullName pod) }) :
    c'.Holds id ∨ podId pod = id := by
  obtain ⟨other, hin, rfl⟩ := hid
  rcases hc' with rfl | rfl
  · rcases hin with ⟨key, hkey⟩ | hparked
    · by_cases heq : key = activeKey pod
      · have hvalid := hc.named other (.inl ⟨key, hkey⟩)
        right
        rw [← activeKey_inj hpod hvalid, hc.keyed.active key other hkey, heq]
      · exact .inl ⟨other, .inl ⟨key, (lookup_erase_ne heq).trans hkey⟩, rfl⟩
    · exact .inl ⟨other, .inr hparked, rfl⟩
  · rcases hin with hactive | ⟨key, hkey⟩
    · exact .inl ⟨other, .inl hactive, rfl⟩
    · by_cases heq : key = getPodFullName pod
      · right
        rw [← getPodFullName_inj hpod, hc.keyed.unschedulable key other hkey, heq]
      · exact .inl ⟨other, .inr ⟨key, (lookup_erase_ne heq).trans hkey⟩, rfl⟩

theorem perform_takes (h : p.perform call = some p') (hcall : call.All HasValidName)
    (hp : p.contents.Valid) (hid : p.contents.Holds id) (hgone : ¬ p'.contents.Holds id) : call.Takes p id := by
  have hmoves := (perform_spec h).2 hcall fun key pod hpod => hp.named pod (.inr ⟨key, hpod⟩)
  cases call with
  | pop =>
    obtain ⟨pod, hpop⟩ := perform_pop h
    have hspec := pop_spec hpop
    have hpod := hp.named pod (.inl ⟨_, hspec.1⟩)
    rcases holds_of_erase hp hpod hid (.inl hspec.2.1) with hholds | heq
    · exact absurd hholds hgone
    · exact ⟨pod, p', hpop, heq⟩
  | delete pod =>
    cases h
    rcases holds_of_erase hp hcall hid (p.delete_spec pod).1 with hholds | heq
    · exact absurd hholds hgone
    · exact heq
  | _ => exact absurd ((hmoves (by simp) (by simp)).holds hp hid) hgone

theorem pop_first {other : Pod} (h : p.pop = some (pod, p')) (hother : p.contents.Active other) :
    getPodPriority other ≤ getPodPriority pod ∧
      (getPodPriority other = getPodPriority pod → podTimestamp pod ≤ podTimestamp other) := by
  obtain ⟨key, hkey⟩ := hother
  have hfirst := activeQComp_eq_false.mp ((pop_spec h).2.2.2.2.2 key other hkey)
  exact ⟨Int32.le_iff_toInt_le.mpr hfirst.1, hfirst.2⟩

/-- **The queue invariant**: no pod is in both queues, `Pop` returns a first pod of the active one if there is any, a
pod leaves the queues only by a call that takes it, and the two maps of the nominations are inverse to each other. -/
theorem queue_invariant {calls : List Call} {p : PriorityQueue} (hrun : system.Run newPriorityQueue calls p)
    (hnames : ∀ call ∈ calls, call.All HasValidName) :
    p.contents.Disjoint ∧
    (p.activeQ.data.WellFormed ∧ p.activeQ.data.Ordered activeQLess) ∧
    (p.pop = none ↔ ∀ pod, ¬ p.contents.Active pod) ∧
    (∀ pod p', p.pop = some (pod, p') → p.contents.Active pod ∧
      ∀ other, p.contents.Active other → getPodPriority other ≤ getPodPriority pod ∧
        (getPodPriority other = getPodPriority pod → podTimestamp pod ≤ podTimestamp other)) ∧
    (∀ call p', p.perform call = some p' → call.All HasValidName →
      ∀ id, p.contents.Holds id → ¬ p'.contents.Holds id → call.Takes p id) ∧
    (∀ uid nodeName, p.nominatedPods.nominatedPodToNode.lookup uid = some nodeName ↔
      ∃ pod ∈ p.nominatedPods.podsForNode nodeName, pod.uid = uid) ∧
    (∀ nodeName nodeName' (i i' : Nat) (pod pod' : Pod), (p.nominatedPods.podsForNode nodeName)[i]? = some pod →
      (p.nominatedPods.podsForNode nodeName')[i']? = some pod' →
      pod.uid = pod'.uid → nodeName = nodeName' ∧ i = i') ∧
    ∀ nodeName, p.nominatedPods.nominatedPods.lookup nodeName ≠ some [] := by
  obtain ⟨hcontents, hnominated⟩ := run_inv hrun hnames
  refine ⟨hcontents.disjoint, ⟨p.activeQ.wellFormed, p.activeQ.ordered⟩, ?_, ?_, ?_,
    hnominated.inverse, ?_, hnominated.nonempty⟩
  · rw [pop_eq_none_iff]
    constructor
    · rintro hnone pod ⟨key, hkey⟩
      rw [hnone key] at hkey
      cases hkey
    · intro hnone key
      rw [Option.eq_none_iff_forall_ne_some]
      exact fun pod hkey => hnone pod ⟨key, hkey⟩
  · intro pod p' hpop
    exact ⟨⟨_, (pop_spec hpop).1⟩, fun _ hother => pop_first hpop hother⟩
  · intro call p' hstep hcall id
    exact perform_takes hstep hcall hcontents
  · intro nodeName nodeName' i i' pod pod'
    exact hnominated.place_eq

def namedPod (name : String) : Pod where
  name := name
  uid := name
  nodeName := ""
  containers := []
  initContainers := []
  affinity := none
  namespace_ := "default"

def triedPod : Pod :=
  { namedPod "web" with
    status := { conditions := [⟨.podScheduled, .conditionFalse, podReasonUnschedulable, 0, 0⟩] } }

/-- A pod that waits, and one that was tried without success and is nominated. -/
def twoPods : List Call :=
  [.add (namedPod "db"), .addUnschedulableIfNotPresent triedPod 0, .updateNominatedPodForNode triedPod "n1"]

theorem queue_invariant_two_pods : ∃ p, system.Run newPriorityQueue twoPods p ∧
    (∀ pod, p.contents.Active pod → podId pod ≠ podId triedPod) ∧
    (∃ pod p', p.pop = some (pod, p') ∧ getPodPriority (namedPod "db") ≤ getPodPriority pod) ∧
    ∃ pod ∈ p.nominatedPods.podsForNode "n1", pod.uid = "web" := by
  have hrun : system.Run newPriorityQueue twoPods _ := (((System.Run.nil _).snoc rfl).snoc rfl).snoc rfl
  have hvalid : HasValidName (namedPod "db") ∧ HasValidName triedPod := by decide
  obtain ⟨hdisjoint, -, hnone, hfirst, -, hnominated, -⟩ := queue_invariant hrun (by simp [twoPods, Call.All, hvalid])
  refine ⟨_, hrun, fun pod hactive => hdisjoint pod triedPod hactive ⟨"web_default", rfl⟩, ?_,
    (hnominated "web" "n1").mp rfl⟩
  obtain ⟨⟨pod, p'⟩, hpop⟩ := Option.ne_none_iff_exists'.mp fun h => hnone.mp h (namedPod "db") ⟨"default/db", rfl⟩
  exact ⟨pod, p', hpop, ((hfirst pod p' hpop).2 _ ⟨"default/db", rfl⟩).1⟩

end PriorityQueue
end LeanKube.Scheduler
