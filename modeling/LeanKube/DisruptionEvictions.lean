import LeanKube.DisruptionBudget
import LeanKube.Transition

/-! Evictions and syncs of one disruption budget, step by step. An eviction lists the budget, writes the smaller
budget with a condition on the version, and deletes the pod. A sync of the controller reads the budget from a cache
that may lag behind, computes a status from the pods, and writes it: `writePdbStatus` reads the budget again when
the write fails, and writes the same status at the new version. -/

namespace LeanKube.Disruption

instance existsOkDecidable {ε α : Type} (x : Except ε α) (p : α → Prop) [DecidablePred p] :
    Decidable (∃ a, x = .ok a ∧ p a) :=
  match x with
  | .ok a => decidable_of_iff (p a) ⟨fun h => ⟨a, rfl, h⟩, fun ⟨_, heq, h⟩ => Except.ok.inj heq ▸ h⟩
  | .error _ => .isFalse fun ⟨_, heq, _⟩ => nomatch heq

/-! ### The parties -/

inductive EvictionPhase where
  /-- The budget is to be listed, with `steps` tries left. -/
  | listing (steps : Nat)
  /-- The status is to be written at the version that was listed. -/
  | updating (steps : Nat) (listed : Nat) (status : Status) (disruptionTime : Nat)
  /-- The pod is to be deleted; a terminal pod has no disruption time. -/
  | deleting (disruptionTime : Option Nat)
  | finished (result : Except EvictionError Unit)

structure Eviction where
  pod : String
  phase : EvictionPhase

/-- The disruption time of an eviction that has passed the budget and whose deletion is still to come. -/
def Eviction.underWay (now : Nat) (e : Eviction) : Option Nat :=
  match e.phase with
  | .deleting (some disruptionTime) => if now < disruptionTime + deletionTimeout then some disruptionTime else none
  | _ => none

def evictionSteps : Nat := 20

def afterConflict (steps : Nat) : EvictionPhase :=
  if steps ≤ 1 then .finished (.error .conflict) else .listing (steps - 1)

structure StatusWrite where
  /-- The budget that the sync has read from the cache. -/
  read : Budget
  target : Nat
  status : Status
  tries : Nat
  /-- Whether `failSafe` has made the call, or `trySync`. -/
  byFailSafe : Bool

inductive SyncPhase where
  | read (budget : Budget)
  | writing (write : StatusWrite)
  | refreshing (write : StatusWrite)
  | finished (err : Option String)

def SyncPhase.write? : SyncPhase → Option StatusWrite
  | .writing write => some write
  | _ => none

def startFailSafe (budget : Budget) : SyncPhase :=
  .writing ⟨budget, budget.resourceVersion, failSafe budget.status, statusUpdateRetries, true⟩

variable (env : Env)

def Env.sync (pods : List Pod) (budget : Budget) (currentTime : Nat) : SyncPhase :=
  match env.trySync pods budget currentTime with
  | .error _ => startFailSafe budget
  | .ok none => .finished none
  | .ok (some status) => .writing ⟨budget, budget.resourceVersion, status, statusUpdateRetries, false⟩

def StatusWrite.afterFailure (write : StatusWrite) : SyncPhase :=
  if 1 < write.tries then .refreshing { write with tries := write.tries - 1 }
  else if write.byFailSafe then .finished (some "failed")
  else startFailSafe write.read

/-! ### The system -/

structure World where
  now : Nat
  pods : List Pod
  budget : Budget
  versions : List Budget
  evictions : List Eviction
  syncs : List SyncPhase

inductive Label where
  | tick
  /-- A request to evict a pod, which is looked up. -/
  | evict (pod : String)
  | list (eviction : Nat)
  | update (eviction : Nat)
  | delete (eviction : Nat)
  | fail (eviction : Nat) (err : String)
  | remove (pod : String)
  /-- A sync starts and reads this version of the budget. -/
  | read (budget : Budget)
  /-- The sync reads the pods and the clock, and computes. -/
  | sync (sync : Nat)
  /-- The sync calls `UpdateStatus`. The call fails at another version than the current one, and may fail anyway. -/
  | write (sync : Nat) (fails : Bool)
  | refresh (sync : Nat) (fails : Bool)

def Pod.markDeleted (name : String) (pod : Pod) : Pod := if pod.name = name then { pod with deleting := true } else pod

def Pod.healthy (pod : Pod) : Bool := pod.ready && !pod.deleting

namespace World
variable (env : Env) (w : World)

def healthy : Nat := w.pods.countP Pod.healthy

def InTime : EvictionPhase → Prop
  | .deleting (some disruptionTime) => w.now < disruptionTime + deletionTimeout
  | _ => True

def Enabled : Label → Prop
  | .evict pod => ∃ p ∈ w.pods, p.name = pod
  | .delete eviction => ∀ e ∈ w.evictions[eviction]?, w.InTime e.phase
  | .read budget => budget ∈ w.versions
  | _ => True

def setEviction (i : Nat) (pod : String) (phase : EvictionPhase) : World :=
  { w with evictions := w.evictions.set i ⟨pod, phase⟩ }

def setSync (i : Nat) (phase : SyncPhase) : World := { w with syncs := w.syncs.set i phase }

def store (status : Status) : World :=
  let budget := ⟨w.budget.resourceVersion + 1, status⟩
  { w with budget, versions := budget :: w.versions }

def startEviction (pod : String) : EvictionPhase :=
  if w.pods.any fun p => p.name == pod && p.terminal then .deleting none else .listing evictionSteps

def next : Label → World
  | .tick => { w with now := w.now + 1 }
  | .evict pod => { w with evictions := w.evictions ++ [⟨pod, w.startEviction pod⟩] }
  | .list i =>
    match w.evictions[i]? with
    | some ⟨pod, .listing steps⟩ =>
      match env.checkAndDecrement pod w.budget.status w.now with
      | .error err => w.setEviction i pod (.finished (.error err))
      | .ok status => w.setEviction i pod (.updating steps w.budget.resourceVersion status w.now)
    | _ => w
  | .update i =>
    match w.evictions[i]? with
    | some ⟨pod, .updating steps listed status disruptionTime⟩ =>
      if listed = w.budget.resourceVersion then
        (w.store status).setEviction i pod (.deleting (some disruptionTime))
      else w.setEviction i pod (afterConflict steps)
    | _ => w
  | .delete i =>
    match w.evictions[i]? with
    | some ⟨pod, .deleting _⟩ =>
      { w with pods := w.pods.map (Pod.markDeleted pod) }.setEviction i pod (.finished (.ok ()))
    | _ => w
  | .fail i err =>
    match w.evictions[i]? with
    | some ⟨pod, _⟩ => w.setEviction i pod (.finished (.error (.failed err)))
    | none => w
  | .remove pod => { w with pods := w.pods.filter fun p => !(p.name == pod && p.deleting) }
  | .read budget => { w with syncs := w.syncs ++ [.read budget] }
  | .sync i =>
    match w.syncs[i]? with
    | some (.read budget) => w.setSync i (env.sync w.pods budget w.now)
    | _ => w
  | .write i fails =>
    match w.syncs[i]? with
    | some (.writing write) =>
      if write.target = w.budget.resourceVersion ∧ fails = false then
        (w.store write.status).setSync i (.finished none)
      else w.setSync i write.afterFailure
    | _ => w
  | .refresh i fails =>
    match w.syncs[i]? with
    | some (.refreshing write) =>
      w.setSync i (.writing { write with target := if fails then write.target else w.budget.resourceVersion })
    | _ => w

/-! ### What a status may allow -/

def isUndisturbed (p : Pod) : Bool :=
  p.healthy && !w.evictions.any fun e => e.pod == p.name && (e.underWay w.now).isSome

def undisturbed : Nat := w.pods.countP w.isUndisturbed

variable (status : Status)

def Lists : Prop :=
  ∀ p ∈ w.pods, p.healthy → ∀ e ∈ w.evictions, e.pod = p.name → ∀ disruptionTime ∈ e.underWay w.now,
    ∃ disruptionTime' ∈ status.disruptedPods.lookup p.name, disruptionTime ≤ disruptionTime'

/-- The status allows no eviction, or no more than the pods that are not about to be deleted can bear. -/
def Bears : Prop :=
  status.observedGeneration < env.generation ∨ status.podDisruptionsAllowed ≤ 0 ∨
    ∃ desired, env.desiredHealthy w.pods = .ok desired ∧
      (desired ≤ 0 ∨ desired + status.podDisruptionsAllowed ≤ w.undisturbed)

def Fits : Prop := w.Lists status ∧ w.Bears env status

/-- **The condition.** A status that a sync writes at another version of the budget than the one it was computed
from is still right. -/
def Sound : Label → Prop
  | .write i _ => ∀ write ∈ (w.syncs[i]?).bind SyncPhase.write?, write.target = w.budget.resourceVersion →
      write.read.resourceVersion ≠ w.budget.resourceVersion → w.Fits env write.status
  | _ => True

/-- Before any eviction or sync: a budget whose status is right. Pods that have terminated are not ready. -/
structure Initial : Prop where
  names : (w.pods.map Pod.name).Nodup
  terminal : ∀ p ∈ w.pods, p.terminal → p.ready = false
  versions : w.versions = [w.budget]
  evictions : w.evictions = []
  syncs : w.syncs = []
  fits : w.Fits env w.budget.status

/-! ### Deciding a concrete run -/

instance inTimeDecidable (phase : EvictionPhase) : Decidable (w.InTime phase) := by
  unfold InTime
  split <;> infer_instance

instance enabledDecidable (label : Label) : Decidable (w.Enabled label) := by
  cases label <;> dsimp only [Enabled] <;> infer_instance

instance listsDecidable (status : Status) : Decidable (w.Lists status) := by
  unfold Lists
  infer_instance

instance bearsDecidable (status : Status) : Decidable (w.Bears env status) :=
  have : Decidable (∃ desired, env.desiredHealthy w.pods = .ok desired ∧
      (desired ≤ 0 ∨ desired + status.podDisruptionsAllowed ≤ w.undisturbed)) := existsOkDecidable _ _
  inferInstanceAs (Decidable (_ ∨ _ ∨ _))

instance fitsDecidable (status : Status) : Decidable (w.Fits env status) :=
  inferInstanceAs (Decidable (w.Lists status ∧ w.Bears env status))

instance soundDecidable (label : Label) : Decidable (w.Sound env label) := by
  cases label <;> dsimp only [Sound] <;> infer_instance

end World

end LeanKube.Disruption
