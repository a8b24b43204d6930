import LeanKube.SchedulerCache

/-! What a call of the scheduler cache can do to the `NodeInfo`s, said once for all calls: a pod is
added, removed or replaced on its node, or a node is set or removed. Nothing is assumed of the
callers here. -/

namespace LeanKube.Scheduler
open SchedulerCache List GoMap Finset Outcome
variable {σ : Type} (outcome : Outcome σ)

theorem Outcome.state?_andThen {outcome : Outcome σ} {rest : σ → Outcome σ} {s : σ}
    (h : (outcome.andThen rest).state? = some s) :
    (∃ t, outcome.state? = some t ∧ (rest t).state? = some s) ∨ outcome.state? = some s := by
  cases outcome with
  | ok t => exact .inl ⟨t, rfl, h⟩
  | error => exact .inr h
  | fatal | panic => cases h

theorem Outcome.andThen_assoc (first second : σ → Outcome σ) :
    (outcome.andThen first).andThen second = outcome.andThen fun s => (first s).andThen second := by
  cases outcome <;> rfl

@[simp] theorem Outcome.state?_dropError : outcome.dropError.state? = outcome.state? := by
  cases outcome <;> rfl

def CacheOp.pods : CacheOp → List Pod
  | .assumePod pod => [pod]
  | .finishBinding pod _ => [pod]
  | .forgetPod pod => [pod]
  | .addPod pod => [pod]
  | .updatePod oldPod newPod => [oldPod, newPod]
  | .removePod pod => [pod]
  | .addNode _ => []
  | .updateNode _ _ => []
  | .removeNode _ => []
  | .cleanupAssumedPods _ _ => []

def CacheOp.onNode : CacheOp → Bool
  | .addNode _ | .updateNode _ _ | .removeNode _ => true
  | _ => false

inductive NodesEffect (known : Pod → Prop) (c : SchedulerCache) : GoMap String NodeInfo → Prop where
  | same : NodesEffect known c c.nodes
  | add {pod : Pod} (hpod : known pod) : NodesEffect known c (c.addPodLocked pod).nodes
  | remove {pod : Pod} {c' : SchedulerCache} (hpod : known pod)
      (hremove : (c.removePodLocked pod).state? = some c') : NodesEffect known c c'.nodes
  | replace {oldPod newPod : Pod} {c' : SchedulerCache} (hold : known oldPod)
      (hnew : known newPod) (hremove : (c.removePodLocked oldPod).state? = some c') :
      NodesEffect known c (c'.addPodLocked newPod).nodes
  | putNode (nodeTree : NodeTree) (node : Node) : NodesEffect known c (c.putNode nodeTree node).nodes
  | removeNode {node : Node} {n : NodeInfo} (hn : c.nodes.lookup node.name = some n)
      (generation : Int64) :
      NodesEffect known c (keepNodeInfo c.nodes node.name (n.removeNode generation))

/-- A call, or one turn of the expiration loop: the `NodeInfo`s change as above, and the pods of the
cache are known before and after. -/
structure Effect (known : Pod → Prop) (c c' : SchedulerCache) : Prop where
  nodes : NodesEffect known c c'.nodes
  states : ∀ key ps, c'.podStates.lookup key = some ps → known ps.pod

@[simp] theorem podStates_addPodLocked (c : SchedulerCache) (pod : Pod) :
    (c.addPodLocked pod).podStates = c.podStates := by
  rw [addPodLocked]
  split <;> rfl

@[simp] theorem assumedPods_addPodLocked (c : SchedulerCache) (pod : Pod) :
    (c.addPodLocked pod).assumedPods = c.assumedPods := by
  rw [addPodLocked]
  split <;> rfl

variable {c c' : SchedulerCache}
variable {pod : Pod}

section
variable (h : (c.removePodLocked pod).state? = some c')
include h

/-- What `removePodLocked` leaves behind when it returns: the cache as it was, or one node's data changed. -/
theorem removePodLocked_cases :
    c' = c ∨ ∃ n n', c.nodes.lookup pod.nodeName = some n ∧ (n.removePod pod (c.generation + 1) = .ok n' ∧
          c' = { c with nodes := keepNodeInfo c.nodes pod.nodeName n', generation := c.generation + 1 } ∨
        ∃ message, n.removePod pod (c.generation + 1) = .error n' message ∧
          c' = { c with nodes := c.nodes.insert pod.nodeName n' }) := by
  rw [removePodLocked] at h
  split at h
  · split at h
    · cases h; exact .inl rfl
    · cases h
  · next n hn =>
    split at h <;> cases h
    · next n' hok => exact .inr ⟨n, n', hn, .inl ⟨hok, rfl⟩⟩
    · next n' message herror => exact .inr ⟨n, n', hn, .inr ⟨message, herror, rfl⟩⟩

theorem podStates_removePodLocked : c'.podStates = c.podStates := by
  rcases removePodLocked_cases h with rfl | ⟨n, _, -, ⟨-, rfl⟩ | ⟨_, -, rfl⟩⟩ <;> rfl

theorem assumedPods_removePodLocked : c'.assumedPods = c.assumedPods := by
  rcases removePodLocked_cases h with rfl | ⟨n, _, -, ⟨-, rfl⟩ | ⟨_, -, rfl⟩⟩ <;> rfl

end

/-! ### The calls about pods -/

/-- What a call about pods does to the `NodeInfo`s, with the number of pods that are new; it draws at most `bound`
generation numbers. -/
inductive Moved (known : Pod → Prop) (bound : Nat) (c : SchedulerCache) : Nat → SchedulerCache → Prop where
  | same : Moved known bound c 0 c
  | add {pod : Pod} (hbound : 2 ≤ bound) (hpod : known pod) : Moved known bound c 1 (c.addPodLocked pod)
  | remove {pod : Pod} {c' : SchedulerCache} (hbound : 1 ≤ bound) (hpod : known pod)
      (hremove : (c.removePodLocked pod).state? = some c') : Moved known bound c 0 c'
  | replace {oldPod newPod : Pod} {c' : SchedulerCache} (hbound : 3 ≤ bound) (hold : known oldPod) (hnew : known newPod)
      (hremove : (c.removePodLocked oldPod).state? = some c') : Moved known bound c 0 (c'.addPodLocked newPod)

/-- What a call about pods does, said once: pods are moved, and then the books change. -/
def PodCall (known : Pod → Prop) (bound : Nat) (c c' : SchedulerCache) : Prop :=
  ∃ more moved podStates assumedPods, Moved known bound c more moved ∧ c' = { moved with podStates, assumedPods } ∧
    (∀ key ps, podStates.lookup key = some ps → known ps.pod) ∧ assumedPods.card ≤ c.assumedPods.card + more

section Calls
variable {known : Pod → Prop} {c c' : SchedulerCache} {bound : Nat} {key : String} {pod : Pod}

theorem PodCall.effect (h : PodCall known bound c c') : Effect known c c' := by
  obtain ⟨_, _, _, _, hmoved, rfl, hstates, -⟩ := h
  refine ⟨?_, hstates⟩
  cases hmoved with
  | same => exact .same
  | add _ hpod => exact .add hpod
  | remove _ hpod hrem => exact (NodesEffect.remove hpod hrem : NodesEffect known c _)
  | replace _ hold hnew hrem => exact .replace hold hnew hrem

variable (hstates : ∀ key ps, c.podStates.lookup key = some ps → known ps.pod)
include hstates

theorem podCall_same (h : some c = some c') : PodCall known bound c c' :=
  ⟨_, _, _, _, .same, (Option.some.inj h).symm, hstates, le_rfl⟩

theorem podCall_failed (hbound : 1 ≤ bound) (hpod : known pod) (h : (c.removePodLocked pod).state? = some c') :
    PodCall known bound c c' := by
  refine ⟨_, _, _, _, .remove hbound hpod h, rfl, ?_, ?_⟩
  · rw [podStates_removePodLocked h]
    exact hstates
  · rw [assumedPods_removePodLocked h]
    exact le_rfl

theorem podCall_remove (hbound : 1 ≤ bound) (hpod : known pod) (keep : Finset String → Finset String)
    (hkeep : ∀ assumedPods, keep assumedPods ⊆ assumedPods)
    (h : ((c.removePodLocked pod).andThen fun c => .ok { c with
      podStates := c.podStates.erase key
      assumedPods := keep c.assumedPods }).state? = some c') : PodCall known bound c c' := by
  rcases state?_andThen h with ⟨_, hrem, hmiddle⟩ | hfail
  · cases hmiddle
    refine ⟨_, _, _, _, .remove hbound hpod hrem, rfl, ?_, ?_⟩
    · rw [podStates_removePodLocked hrem]
      exact fun key' ps' h => hstates key' ps' (of_lookup_erase h).2
    · rw [assumedPods_removePodLocked hrem]
      exact card_le_card (hkeep _)
  · exact podCall_failed hstates hbound hpod hfail

theorem podCall_assumePod (hpod : known pod) (h : (c.assumePod pod).state? = some c') : PodCall known 3 c c' := by
  rw [assumePod] at h
  split at h
  · exact podCall_same hstates h
  · split at h
    · exact podCall_same hstates h
    · cases h
      refine ⟨_, _, _, _, .add (by decide) hpod, rfl, ?_, ?_⟩
      · rw [podStates_addPodLocked]
        exact forall_insert hstates hpod
      · rw [assumedPods_addPodLocked]
        exact card_insert_le _ _

theorem podCall_finishBinding {now : Int} (h : (c.finishBinding pod now).state? = some c') : PodCall known 3 c c' := by
  rw [finishBinding] at h
  split at h
  · exact podCall_same hstates h
  · split at h
    · exact podCall_same hstates h
    · next currState hcurr =>
      split_ifs at h
      · cases h
        exact ⟨_, _, _, _, .same, rfl, forall_insert hstates (hstates _ currState hcurr), le_rfl⟩
      · exact podCall_same hstates h

theorem podCall_forgetPod (hpod : known pod) (h : (c.forgetPod pod).state? = some c') : PodCall known 3 c c' := by
  rw [forgetPod] at h
  split at h
  · exact podCall_same hstates h
  · split at h
    · exact podCall_same hstates h
    · split_ifs at h
      · exact podCall_same hstates h
      · exact podCall_remove hstates (by decide) hpod _ (erase_subset _) h
      · exact podCall_same hstates h

theorem podCall_addPod (hpod : known pod) (h : (c.addPod pod).state? = some c') : PodCall known 3 c c' := by
  rw [addPod] at h
  split at h
  · exact podCall_same hstates h
  · split at h
    · cases h
      refine ⟨_, _, _, _, .add (by decide) hpod, rfl, ?_, ?_⟩
      · rw [podStates_addPodLocked]
        exact forall_insert hstates hpod
      · rw [assumedPods_addPodLocked]
        exact Nat.le_succ _
    · next currState hcurr =>
      split_ifs at h
      · -- the error of the removal is dropped, so that the pod is added in any case
        rcases state?_andThen h with ⟨_, hrem, hmiddle⟩ | hfail
        · cases hmiddle
          rw [state?_dropError] at hrem
          refine ⟨_, _, _, _, .replace (by decide) (hstates _ currState hcurr) hpod hrem, rfl, ?_, ?_⟩
          · rw [podStates_addPodLocked, podStates_removePodLocked hrem]
            exact forall_insert hstates hpod
          · rw [assumedPods_addPodLocked, assumedPods_removePodLocked hrem]
            exact card_erase_le
        · rw [state?_dropError] at hfail
          exact podCall_failed hstates (by decide) (hstates _ currState hcurr) hfail
      · cases h
        exact ⟨_, _, _, _, .same, rfl, forall_insert hstates hpod, card_erase_le⟩
      · exact podCall_same hstates h

theorem podCall_updatePod {oldPod newPod : Pod} (hold : known oldPod) (hnew : known newPod)
    (h : (c.updatePod oldPod newPod).state? = some c') : PodCall known 3 c c' := by
  rw [updatePod] at h
  split at h
  · exact podCall_same hstates h
  · split at h
    · exact podCall_same hstates h
    · split_ifs at h
      · exact podCall_same hstates h
      · cases h
      · rw [updatePodLocked, andThen_assoc] at h
        rcases state?_andThen h with ⟨_, hrem, hdone⟩ | hfail
        · cases hdone
          refine ⟨_, _, _, _, .replace (by decide) hold hnew hrem, rfl, ?_, ?_⟩
          · rw [podStates_addPodLocked, podStates_removePodLocked hrem]
            exact forall_insert hstates hnew
          · rw [assumedPods_addPodLocked, assumedPods_removePodLocked hrem]
            exact le_rfl
        · exact podCall_failed hstates (by decide) hold hfail

theorem podCall_removePod (h : (c.removePod pod).state? = some c') : PodCall known 3 c c' := by
  rw [removePod] at h
  split at h
  · exact podCall_same hstates h
  · split at h
    · exact podCall_same hstates h
    · next currState hcurr =>
      split_ifs at h
      · exact podCall_same hstates h
      · cases h
      · exact podCall_remove hstates (by decide) (hstates _ currState hcurr) id (fun _ => Finset.Subset.refl _) h

theorem podCall_cleanupAssumedPod {now : Int} (h : (c.cleanupAssumedPod now key).state? = some c') :
    PodCall known 1 c c' := by
  rw [cleanupAssumedPod] at h
  split at h
  · cases h
  · next ps hps =>
    split_ifs at h
    · exact podCall_same hstates h
    · split at h
      · cases h
      · split_ifs at h
        · rw [state?_dropError, expirePod] at h
          exact podCall_remove hstates le_rfl (hstates _ ps hps) _ (erase_subset _) h
        · exact podCall_same hstates h

variable {op : CacheOp} (hpods : ∀ pod ∈ op.pods, known pod) (h : (c.perform op).state? = some c')
include hpods h

/-- **A call about pods is as above, or the expiration loop.** -/
theorem perform_podCall (hop : op.onNode = false) :
    PodCall known 3 c c' ∨ ∃ now order, op = .cleanupAssumedPods now order := by
  cases op with
  | assumePod pod => exact .inl (podCall_assumePod hstates (hpods pod mem_cons_self) h)
  | finishBinding => exact .inl (podCall_finishBinding hstates h)
  | forgetPod pod => exact .inl (podCall_forgetPod hstates (hpods pod mem_cons_self) h)
  | addPod pod => exact .inl (podCall_addPod hstates (hpods pod mem_cons_self) h)
  | updatePod oldPod newPod =>
    have hnew := hpods newPod (mem_cons_of_mem oldPod mem_cons_self)
    exact .inl (podCall_updatePod hstates (hpods oldPod mem_cons_self) hnew h)
  | removePod => exact .inl (podCall_removePod hstates h)
  | addNode | updateNode | removeNode => cases hop
  | cleanupAssumedPods now order => exact .inr ⟨now, order, rfl⟩

/-- **A call is one effect, or the expiration loop.** -/
theorem perform_effect : Effect known c c' ∨ ∃ now order, op = .cleanupAssumedPods now order := by
  by_cases hop : op.onNode = false
  · exact (perform_podCall hstates hpods h hop).imp_left PodCall.effect
  · cases op with
    | addNode node => cases h; exact .inl ⟨.putNode _ node, hstates⟩
    | updateNode _ newNode => cases h; exact .inl ⟨.putNode _ newNode, hstates⟩
    | removeNode =>
      simp only [SchedulerCache.perform, removeNode] at h
      split at h
      · cases h
      · next hn =>
        cases h
        exact .inl ⟨.removeNode hn _, hstates⟩
    | _ => exact absurd rfl hop

end Calls

/-! ### The rule for runs -/

structure Keeps (known : Pod → Prop) (I : SchedulerCache → Prop) (c : SchedulerCache) : Prop where
  holds : I c
  states : ∀ key ps, c.podStates.lookup key = some ps → known ps.pod

section Runs
variable {known : Pod → Prop} {I : SchedulerCache → Prop}
  (hI : ∀ c c', Effect known c c' → I c → I c')
include hI
variable {c' c : SchedulerCache}

theorem Keeps.effect (h : Keeps known I c) (heff : Effect known c c') : Keeps known I c' :=
  ⟨hI c c' heff h.holds, heff.states⟩

theorem Keeps.cleanupAssumedPods (h : Keeps known I c) {now : Int} {order : List String}
    (hstate : (c.cleanupAssumedPods now order).state? = some c') : Keeps known I c' := by
  induction order generalizing c with
  | nil => cases hstate; exact h
  | cons _ _ ih =>
    rcases state?_andThen hstate with ⟨_, hturn, hrest⟩ | hfail
    · exact ih (h.effect hI (podCall_cleanupAssumedPod h.states hturn).effect) hrest
    · exact h.effect hI (podCall_cleanupAssumedPod h.states hfail).effect

theorem Keeps.perform (h : Keeps known I c) {op : CacheOp} (hpods : ∀ pod ∈ op.pods, known pod)
    (hstate : (c.perform op).state? = some c') : Keeps known I c' := by
  rcases perform_effect h.states hpods hstate with heff | ⟨_, _, rfl⟩
  · exact h.effect hI heff
  · exact h.cleanupAssumedPods hI hstate

theorem run_keeps {ttl : Int} {ops : List CacheOp}
    (hrun : cacheSystem.Run (newSchedulerCache ttl) ops c) (hstart : I (newSchedulerCache ttl))
    (hpods : ∀ op ∈ ops, ∀ pod ∈ op.pods, known pod) : Keeps known I c := by
  induction hrun with
  | nil => exact ⟨hstart, fun _ _ hps => by cases hps⟩
  | @snoc _ _ labels op _ hstep ih =>
    have hbefore := ih fun op' hop' => hpods op' (mem_append_left [op] hop')
    exact hbefore.perform hI (hpods op (mem_append_right labels mem_cons_self)) (cacheSystem_step hstep).2

end Runs
end LeanKube.Scheduler
