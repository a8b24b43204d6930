import LeanKube.SchedulingQueueInvariant

/-! The two counters of the scheduling queue. A pod that was popped before a move request and found
unschedulable after it is tried again at once: the cycle in which it was popped is then not after
the cycle of the last move request. The counters have 64 bits. -/

namespace LeanKube.Scheduler
open Int64 List
namespace PriorityQueue
open QueueContents
variable {p p' : PriorityQueue} {call : Call}

/-- The calls that move unschedulable pods. The timer does so only if it finds a pod to move. -/
def isMoveRequest (p : PriorityQueue) : Call → Bool
  | .moveAllToActiveQueue _ | .assignedPodAdded _ _ | .assignedPodUpdated _ _ => true
  | .flushUnschedulableQLeftover currentTime order => (p.leftover currentTime order).length > 0
  | _ => false

def moveRequested : PriorityQueue → List Call → Bool
  | _, [] => false
  | p, call :: calls =>
    p.isMoveRequest call ||
      match p.perform call with
      | none => false
      | some p' => moveRequested p' calls

structure Ticks (p : PriorityQueue) (call : Call) (p' : PriorityQueue) : Prop where
  schedulingCycle : p'.schedulingCycle = p.schedulingCycle + if call = .pop then 1 else 0
  moveRequestCycle : p'.moveRequestCycle = if p.isMoveRequest call then p.schedulingCycle else p.moveRequestCycle

theorem ticks_of_same (hpop : call ≠ .pop) (hmove : p.isMoveRequest call = false)
    (hcycle : p'.schedulingCycle = p.schedulingCycle)
    (hreq : p'.moveRequestCycle = p.moveRequestCycle) : p.Ticks call p' where
  schedulingCycle := by rw [hcycle, if_neg hpop, Int64.add_zero]
  moveRequestCycle := by rw [hreq, hmove]; rfl

theorem ticks_movePodsToActiveQueue (hpop : call ≠ .pop) (hmove : p.isMoveRequest call = true)
    (pods : List Pod) : p.Ticks call (p.movePodsToActiveQueue pods) where
  schedulingCycle := by
    rw [if_neg hpop, Int64.add_zero]
    exact (p.foldl_movePod_spec pods).2.2
  moveRequestCycle := by
    rw [if_pos hmove]
    exact (p.foldl_movePod_spec pods).2.2

variable (p)

theorem addActive_cycles (pod : Pod) : (p.addActive pod).1.schedulingCycle = p.schedulingCycle ∧
      (p.addActive pod).1.moveRequestCycle = p.moveRequestCycle := by
  rw [addActive]
  split <;> exact ⟨rfl, rfl⟩

theorem update_cycles (oldPod newPod : Pod) :
    (p.update oldPod newPod).1.schedulingCycle = p.schedulingCycle ∧
      (p.update oldPod newPod).1.moveRequestCycle = p.moveRequestCycle := by
  rw [update]
  cases p.inActiveQ newPod with
  | true =>
    simp only [if_true]
    split <;> exact ⟨rfl, rfl⟩
  | false =>
    cases p.unschedulableQ.get newPod with
    | none => exact p.addActive_cycles newPod
    | some =>
      cases isPodUpdated oldPod newPod with
      | true =>
        simp only [Bool.false_eq_true, if_false, if_true]
        split <;> exact ⟨rfl, rfl⟩
      | false => exact ⟨rfl, rfl⟩

variable {p}

theorem perform_ticks (h : p.perform call = some p') : p.Ticks call p' := by
  cases call with
  | add =>
    cases h
    apply ticks_of_same (by simp) rfl
    all_goals rw [add]; split <;> rfl
  | addIfNotPresent pod =>
    cases h
    have hcycles := p.addActive_cycles pod
    apply ticks_of_same (by simp) rfl
    all_goals rw [addIfNotPresent]; split_ifs
    all_goals first | rfl | exact hcycles.1 | exact hcycles.2
  | addUnschedulableIfNotPresent pod =>
    cases h
    have hcycles := p.addActive_cycles pod
    apply ticks_of_same (by simp) rfl
    all_goals rw [addUnschedulableIfNotPresent]; split_ifs
    all_goals first | rfl | exact hcycles.1 | exact hcycles.2
  | update oldPod newPod =>
    cases h
    have hcycles := p.update_cycles oldPod newPod
    exact ticks_of_same (by simp) rfl hcycles.1 hcycles.2
  | delete =>
    cases h
    apply ticks_of_same (by simp) rfl
    all_goals rw [delete]; simp only; split <;> rfl
  | pop =>
    obtain ⟨pod, hpop⟩ := perform_pop h
    exact ⟨(pop_spec hpop).2.2.2.1, (pop_spec hpop).2.2.2.2.1⟩
  | moveAllToActiveQueue =>
    obtain ⟨-, rfl⟩ := perform_moveAllToActiveQueue h
    exact ⟨(Int64.add_zero _).symm, rfl⟩
  | assignedPodAdded | assignedPodUpdated =>
    obtain ⟨pods, -, rfl⟩ := perform_assignedPod h
    exact ticks_movePodsToActiveQueue (by simp) rfl pods
  | flushUnschedulableQLeftover currentTime order =>
    rw [perform_flushUnschedulableQLeftover h]
    split_ifs with hmove
    · have hreq : p.isMoveRequest (.flushUnschedulableQLeftover currentTime order) = true :=
        decide_eq_true hmove
      exact ticks_movePodsToActiveQueue (by simp) hreq _
    · exact ticks_of_same (by simp) (decide_eq_false hmove) rfl rfl
  | updateNominatedPodForNode | deleteNominatedPodIfExists =>
    cases h
    exact ticks_of_same (by simp) rfl rfl rfl

/-! ### Runs -/

variable {calls : List Call}

theorem run_schedulingCycle {n : Nat} (hrun : system.Run p calls p') (hp : p.schedulingCycle = Int64.ofNat n) :
    p'.schedulingCycle = Int64.ofNat (n + calls.count .pop) := by
  refine hrun.history (fun calls p' => p'.schedulingCycle = Int64.ofNat (n + calls.count .pop)) ?_ hp
  intro calls p call p' hstep ih
  rw [(perform_ticks hstep).schedulingCycle, ih, count_append, count_singleton, ← Nat.add_assoc, ofNat_add]
  by_cases hpop : call = .pop
  · simp [hpop]
  · simp [hpop]

theorem run_moveRequestCycle (hrun : system.Run newPriorityQueue calls p)
    (hbound : calls.count .pop < 2 ^ 63) : p.moveRequestCycle.toInt ≤ (calls.count .pop : Nat) := by
  refine (hrun.history (fun calls (p : PriorityQueue) => calls.count .pop < 2 ^ 63 →
    p.schedulingCycle = Int64.ofNat (calls.count .pop) ∧
      p.moveRequestCycle.toInt ≤ (calls.count .pop : Nat)) ?_ (fun _ => ⟨rfl, by decide⟩) hbound).2
  intro calls p call p' hstep ih hbound
  rw [count_append] at hbound ⊢
  have hp := ih (by omega)
  have hticks := perform_ticks hstep
  have hcycle := run_schedulingCycle (System.Run.single (T := system) hstep) hp.1
  refine ⟨hcycle, ?_⟩
  rw [hticks.moveRequestCycle]
  split_ifs
  · rw [hp.1, toInt_ofNat_of_lt (by omega)]
    omega
  · omega

theorem run_moveRequested {n : Nat} (hrun : system.Run p calls p')
    (hp : p.schedulingCycle = Int64.ofNat n) (hbound : n + calls.count .pop < 2 ^ 63) :
    (moveRequested p calls = true → (n : Int) ≤ p'.moveRequestCycle.toInt) ∧
      (moveRequested p calls = false → p'.moveRequestCycle = p.moveRequestCycle) := by
  induction calls generalizing p n with
  | nil =>
    generalize hnil : ([] : List Call) = calls at hrun
    cases hrun with
    | nil => simp [moveRequested]
    | snoc => simp at hnil
  | cons call rest ih =>
    obtain ⟨p₁, hstep, hrest⟩ := hrun.first
    have hticks := perform_ticks hstep
    have hcycle := run_schedulingCycle (System.Run.single (T := system) hstep) hp
    have hcnt : (call :: rest).count .pop = [call].count .pop + rest.count .pop := by
      rw [← count_append]
      rfl
    obtain ⟨hmoved, hkept⟩ := ih hrest hcycle (by omega)
    have hunfold : moveRequested p (call :: rest) = (p.isMoveRequest call || moveRequested p₁ rest) := by
      rw [moveRequested, show p.perform call = some p₁ from hstep]
    rw [hunfold]
    cases hreq : moveRequested p₁ rest with
    | true =>
      have := hmoved hreq
      simp only [Bool.or_true, forall_const, Bool.true_eq_false, false_implies, and_true]
      omega
    | false =>
      rw [hkept hreq, hticks.moveRequestCycle, Bool.or_false]
      cases hcall : p.isMoveRequest call with
      | true =>
        simp only [if_true, forall_const, Bool.true_eq_false, false_implies, and_true]
        rw [hp, toInt_ofNat_of_lt (by omega)]
      | false => simp

theorem active_of_activate {c : QueueContents} {pod : Pod} : (c.activate pod).Active pod ∧
      ∀ other, (c.activate pod).Unschedulable other → c.Keyed → podId other ≠ podId pod := by
  refine ⟨c.active_self_refresh pod, fun other hother hkeyed hid => ?_⟩
  obtain ⟨key, hkey⟩ := hother
  obtain ⟨hne, hkey⟩ := GoMap.of_lookup_erase hkey
  simp only [podId, Prod.mk.injEq] at hid
  apply hne
  rw [← hkeyed.unschedulable key other hkey, getPodFullName, getPodFullName, hid.1, hid.2]

/-- A pod is popped in the cycle `c`, and a pod is put back with that cycle while it is in neither
queue. The number of pods popped in all stays within the counter. -/
theorem move_request_not_lost {calls between : List Call} {p₀ p₁ p₂ : PriorityQueue} {popped pod : Pod}
    (hrun : system.Run newPriorityQueue calls p₀) (hpop : p₀.pop = some (popped, p₁))
    (hbetween : system.Run p₁ between p₂)
    (hbound : (calls ++ .pop :: between).count .pop < 2 ^ 63) (habsent : p₂.present pod = false) :
    (moveRequested p₁ between = true → (p₂.addUnschedulableIfNotPresent pod p₁.schedulingCycle).1.contents.Active pod ∧
      ∀ other, (p₂.addUnschedulableIfNotPresent pod p₁.schedulingCycle).1.contents.Unschedulable other →
        podId other ≠ podId pod) ∧
    (moveRequested p₁ between = false → isPodUnschedulable pod = true →
      (p₂.addUnschedulableIfNotPresent pod p₁.schedulingCycle).1.contents.Unschedulable pod) := by
  rw [count_append, count_cons_self] at hbound
  have hspec := pop_spec hpop
  have hbefore := run_moveRequestCycle hrun (by omega)
  have hcycle : p₁.schedulingCycle = Int64.ofNat (calls.count .pop + 1) := by
    rw [hspec.2.2.2.1, run_schedulingCycle hrun rfl, Nat.zero_add, ofNat_add]
    rfl
  have hc : p₁.schedulingCycle.toInt = (calls.count .pop + 1 : Nat) := by
    rw [hcycle, toInt_ofNat_of_lt (by omega)]
  obtain ⟨hmoved, hkept⟩ := run_moveRequested hbetween hcycle (by omega)
  have hadded := (p₂.addUnschedulableIfNotPresent_spec pod p₁.schedulingCycle).resolve_left
    fun h => absurd (h.1.symm.trans habsent) (by simp)
  rw [hadded.2.1]
  constructor
  · intro hrequested
    have hnot : ¬ (p₁.schedulingCycle > p₂.moveRequestCycle ∧ isPodUnschedulable pod = true) := by
      rintro ⟨hlt, -⟩
      have hle := hmoved hrequested
      rw [gt_iff_lt, lt_iff_toInt_lt] at hlt
      omega
    rw [if_neg hnot]
    exact ⟨active_of_activate.1, fun other hother => active_of_activate.2 other hother p₂.contents_keyed⟩
  · intro hquiet hunschedulable
    have hlt : p₁.schedulingCycle > p₂.moveRequestCycle := by
      rw [gt_iff_lt, lt_iff_toInt_lt, hkept hquiet, hspec.2.2.2.2.1]
      omega
    rw [if_pos ⟨hlt, hunschedulable⟩]
    exact ⟨_, Finmap.lookup_insert _⟩

/-! ### Long runs -/

theorem pop_add (hp : p.contents = ⟨∅, ∅⟩) (pod : Pod) :
    ∃ p', (p.add pod).1.pop = some (pod, p') ∧ p'.contents = ⟨∅, ∅⟩ ∧
      p'.schedulingCycle = p.schedulingCycle + 1 ∧ p'.moveRequestCycle = p.moveRequestCycle := by
  have hcont := (p.add_spec pod).1
  rw [hp] at hcont
  have honly : ∀ other, (p.add pod).1.contents.Active other → other = pod := by
    rw [hcont]
    intro other hother
    rcases of_insert hother with heq | ⟨_, hkey⟩
    · exact heq
    · cases hkey
  have hticks : p.Ticks (.add pod) (p.add pod).1 := perform_ticks rfl
  cases hpop : (p.add pod).1.pop with
  | none =>
    have hnone := pop_eq_none_iff.mp hpop (activeKey pod)
    rw [hcont] at hnone
    exact absurd ((Finmap.lookup_insert _).symm.trans hnone) (by simp)
  | some result =>
    obtain ⟨other, p'⟩ := result
    have hspec := pop_spec hpop
    obtain rfl := honly other ⟨_, hspec.1⟩
    refine ⟨p', rfl, ?_, ?_, hspec.2.2.2.2.1.trans hticks.moveRequestCycle⟩
    · rw [hspec.2.1, hcont]
      ext1
      · exact GoMap.erase_insert_self (∅ : GoMap String Pod) (activeKey other) other
      · rfl
    · rw [hspec.2.2.2.1, hticks.schedulingCycle]
      exact congrArg (· + 1) (Int64.add_zero _)

theorem run_rounds (n : Nat) : ∃ calls p, system.Run newPriorityQueue calls p ∧ p.contents = ⟨∅, ∅⟩ ∧
      p.schedulingCycle = Int64.ofNat n := by
  induction n with
  | zero => exact ⟨[], newPriorityQueue, .nil _, rfl, rfl⟩
  | succ n ih =>
    obtain ⟨_, p, hrun, hcont, hcycle⟩ := ih
    obtain ⟨p', hpop, hcont', hcycle', -⟩ := pop_add hcont triedPod
    have hstep : system.step (p.add triedPod).1 .pop p' := by
      change (p.add triedPod).1.pop.map Prod.snd = some p'
      rw [hpop]
      rfl
    have hadd : system.step p (.add triedPod) (p.add triedPod).1 := rfl
    refine ⟨_, p', (hrun.snoc hadd).snoc hstep, hcont', ?_⟩
    rw [hcycle', hcycle, ofNat_add]
    rfl

section Empty
variable (hp : p.contents = ⟨∅, ∅⟩)
include hp

theorem present_of_empty (pod : Pod) : p.present pod = false := by
  have hactive : p.inActiveQ pod = false := by
    rw [inActiveQ_eq, hp]
    rfl
  have hparked : p.unschedulableQ.get pod = none := by
    rw [UnschedulablePodsMap.get, show p.unschedulableQ.pods = ∅ from congrArg unschedulable hp]
    rfl
  rw [present, hactive, hparked]
  rfl

theorem moveAll_of_empty : system.step p (.moveAllToActiveQueue []) (p.moveAllToActiveQueue []) ∧
      (p.moveAllToActiveQueue []).contents = ⟨∅, ∅⟩ := by
  have hrange : p.unschedulableQ.pods.Ranges [] := by
    rw [show p.unschedulableQ.pods = ∅ from congrArg unschedulable hp]
    decide
  exact ⟨if_pos hrange, (moveAllToActiveQueue_spec hrange).trans hp⟩

end Empty

/-- After `2^63` pods the counter is negative, and every cycle is before an old move request. -/
theorem move_request_wraps : ∃ calls p₀ p₁, system.Run newPriorityQueue calls p₀ ∧ p₀.pop = some (triedPod, p₁) ∧
    p₁.present triedPod = false ∧ isPodUnschedulable triedPod = true ∧
    moveRequested p₁ [] = false ∧
    ¬ (p₁.addUnschedulableIfNotPresent triedPod p₁.schedulingCycle).1.contents.Unschedulable triedPod := by
  obtain ⟨_, p, hrun, hcontents, hcycle⟩ := run_rounds (2 ^ 63 - 1)
  obtain ⟨hmove, hempty⟩ := moveAll_of_empty hcontents
  obtain ⟨p₁, hpop, hcontents₁, hcycle₁, hrequest₁⟩ := pop_add hempty triedPod
  have hadd : system.step (p.moveAllToActiveQueue []) (.add triedPod)
      ((p.moveAllToActiveQueue []).add triedPod).1 := rfl
  have habsent := present_of_empty hcontents₁ triedPod
  refine ⟨_, _, p₁, (hrun.snoc hmove).snoc hadd, hpop, habsent, by decide, rfl, ?_⟩
  have hadded := (p₁.addUnschedulableIfNotPresent_spec triedPod p₁.schedulingCycle).resolve_left
    fun h => absurd (h.1.symm.trans habsent) (by simp)
  have hcycles : p₁.schedulingCycle = Int64.ofNat (2 ^ 63 - 1) + 1 ∧
      p₁.moveRequestCycle = Int64.ofNat (2 ^ 63 - 1) := by
    rw [hcycle₁, hrequest₁, ← hcycle]
    exact ⟨rfl, rfl⟩
  rw [hadded.2.1, hcycles.1, hcycles.2, if_neg (by decide), hcontents₁]
  rintro ⟨_, hkey⟩
  cases (GoMap.of_lookup_erase hkey).2

/-- A move request between the `Pop` and the return of the pod. -/
theorem move_request_not_lost_web : ∃ p₀ p₁ p₂,
    system.Run newPriorityQueue [.add triedPod] p₀ ∧ p₀.pop = some (triedPod, p₁) ∧
    system.Run p₁ [.moveAllToActiveQueue []] p₂ ∧
    (p₂.addUnschedulableIfNotPresent triedPod p₁.schedulingCycle).1.contents.Active triedPod := by
  obtain ⟨p₁, hpop, hcontents, -⟩ := pop_add (p := newPriorityQueue) rfl triedPod
  obtain ⟨hmove, hempty⟩ := moveAll_of_empty hcontents
  have hrun : system.Run newPriorityQueue [.add triedPod] (newPriorityQueue.add triedPod).1 := .single rfl
  have hbetween : system.Run p₁ [.moveAllToActiveQueue []] (p₁.moveAllToActiveQueue []) := .single hmove
  have hkept := move_request_not_lost hrun hpop hbetween (by decide) (present_of_empty hempty triedPod)
  exact ⟨_, p₁, _, hrun, hpop, hbetween, (hkept.1 rfl).1⟩

end PriorityQueue
end LeanKube.Scheduler
