import LeanKube.GoMap
import LeanKube.Strconv
import Mathlib.Algebra.Order.BigOperators.Group.Finset
import Mathlib.Algebra.Order.Ring.Int
import Mathlib.Tactic.Ring

/-! Pod disruption budgets: what the disruption controller (`pkg/controller/disruption/disruption.go`) computes
for a budget, and what an eviction (`pkg/registry/core/pod/storage/eviction.go`) checks and changes in it.
Times are in seconds; the numbers of pods are far from the bounds of `int32`. -/

namespace LeanKube.Disruption
open Except Finset

structure Pod where
  name : String
  /-- Its phase is `PodSucceeded` or `PodFailed`. -/
  terminal : Bool
  /-- `IsPodReady` -/
  ready : Bool
  /-- `DeletionTimestamp != nil` -/
  deleting : Bool
  deriving DecidableEq

inductive IntOrString where
  | int (value : Int)
  | string (text : String)
  deriving DecidableEq

structure Spec where
  maxUnavailable : Option IntOrString
  minAvailable : Option IntOrString

structure Status where
  currentHealthy : Int
  desiredHealthy : Int
  expectedPods : Int
  podDisruptionsAllowed : Int
  /-- The pods that are about to be deleted, with the time of their eviction. -/
  disruptedPods : GoMap String Nat
  observedGeneration : Int
  deriving DecidableEq

structure Budget where
  resourceVersion : Nat
  status : Status
  deriving DecidableEq

structure Env where
  spec : Spec
  generation : Int
  /-- `finders`: the UID of the controller of a pod, by the name of the pod. -/
  finders : List (String → Except String (Option String))
  scale : String → Nat
  /-- Whether the client decodes an empty map as nil, as from protobuf, or not, as from JSON. -/
  emptyMapIsNil : Bool

/-! ### The controller -/

def deletionTimeout : Nat := 2 * 60

def statusUpdateRetries : Nat := 2

def getIntOrPercentValue : IntOrString → Except String (Int × Bool)
  | .int value => .ok (value, false)
  | .string text =>
    match Strconv.parseInt (String.ofList (text.toList.filter (· ≠ '%'))) with
    | .error err => .error ("invalid value \"" ++ text ++ "\": " ++ err.text)
    | .ok value => .ok (value, true)

def getValueFromIntOrPercent (intOrPercent : IntOrString) (total : Int) (roundUp : Bool) : Except String Int :=
  match getIntOrPercentValue intOrPercent with
  | .error err => .error ("invalid value for IntOrString: " ++ err)
  | .ok (value, isPercent) =>
    if isPercent then
      if roundUp then .ok (-(-(value * total) / 100)) else .ok (value * total / 100)
    else .ok value

def findController (pod : String) : List (String → Except String (Option String)) → Except String String
  | [] => .error ("found no controllers for pod \"" ++ pod ++ "\"")
  | finder :: finders =>
    match finder pod with
    | .error err => .error err
    | .ok (some uid) => .ok uid
    | .ok none => findController pod finders

namespace Env
variable (env : Env)

def controllers : List Pod → Except String (Finset String)
  | [] => .ok ∅
  | pod :: pods =>
    match findController pod.name env.finders with
    | .error err => .error err
    | .ok uid => (controllers pods).map (insert uid)

variable (pods : List Pod)

def getExpectedScale : Except String Int :=
  (env.controllers pods).map fun uids => ((∑ uid ∈ uids, env.scale uid : Nat) : Int)

def getExpectedPodCount : Except String (Int × Int) :=
  match env.spec.maxUnavailable, env.spec.minAvailable with
  | some value, _ => do
    let expectedCount ← env.getExpectedScale pods
    let maxUnavailable ← getValueFromIntOrPercent value expectedCount true
    return (expectedCount, max (expectedCount - maxUnavailable) 0)
  | none, some (.int value) => .ok (pods.length, value)
  | none, some (.string text) => do
    let expectedCount ← env.getExpectedScale pods
    let minAvailable ← getValueFromIntOrPercent (.string text) expectedCount true
    return (expectedCount, minAvailable)
  | none, none => .ok (0, 0)

/-- The number of healthy pods that the specification asks for, given the pods that there are. -/
def desiredHealthy : Except String Int := (env.getExpectedPodCount pods).map Prod.snd

end Env

variable (disruptedPods : GoMap String Nat) (currentTime : Nat)

def Pod.countsAsHealthy (pod : Pod) : Bool :=
  if pod.deleting then false
  else if (disruptedPods.lookup pod.name).any fun disruptionTime =>
    currentTime < disruptionTime + deletionTimeout then false
  else pod.ready

variable (pods : List Pod)

def countHealthyPods (disruptedPods : GoMap String Nat) (currentTime : Nat) : Int :=
  pods.countP (Pod.countsAsHealthy disruptedPods currentTime)

/-- The turn of the loop of `buildDisruptedPodMap` for a pod: the new map, and when to look again. -/
def keepDisruptedPod (built : GoMap String Nat × Option Nat) (pod : Pod) : GoMap String Nat × Option Nat :=
  if pod.deleting then built
  else
    match disruptedPods.lookup pod.name with
    | none => built
    | some disruptionTime =>
      let expectedDeletion := disruptionTime + deletionTimeout
      if expectedDeletion < currentTime then built
      else (built.1.insert pod.name disruptionTime,
        if built.2.all (expectedDeletion < ·) then some expectedDeletion else built.2)

def buildDisruptedPodMap (disruptedPods : GoMap String Nat) (currentTime : Nat) : GoMap String Nat × Option Nat :=
  pods.foldl (keepDisruptedPod disruptedPods currentTime) (∅, none)

namespace Env
variable (env : Env)

/-- `reflect.DeepEqual` of the map of a budget and the one built for it, which is not nil. -/
def sameMap (stored built : GoMap String Nat) : Bool := stored = built && !(env.emptyMapIsNil && stored = ∅)

def disruptionsAllowed (currentHealthy desiredHealthy expectedCount : Int) : Int :=
  if expectedCount ≤ 0 ∨ currentHealthy - desiredHealthy ≤ 0 then 0 else currentHealthy - desiredHealthy

def updatePdbStatus (status : Status) (currentHealthy desiredHealthy expectedCount : Int)
    (disruptedPods : GoMap String Nat) : Option Status :=
  let allowed := disruptionsAllowed currentHealthy desiredHealthy expectedCount
  if status.currentHealthy = currentHealthy ∧ status.desiredHealthy = desiredHealthy ∧
      status.expectedPods = expectedCount ∧ status.podDisruptionsAllowed = allowed ∧
      env.sameMap status.disruptedPods disruptedPods ∧ status.observedGeneration = env.generation then none
  else some {
    currentHealthy
    desiredHealthy
    expectedPods := expectedCount
    podDisruptionsAllowed := allowed
    disruptedPods
    observedGeneration := env.generation }

def trySync (pods : List Pod) (budget : Budget) (currentTime : Nat) : Except String (Option Status) := do
  let (expectedCount, desiredHealthy) ← env.getExpectedPodCount pods
  let disruptedPods := (buildDisruptedPodMap pods budget.status.disruptedPods currentTime).1
  let currentHealthy := countHealthyPods pods disruptedPods currentTime
  return env.updatePdbStatus budget.status currentHealthy desiredHealthy expectedCount disruptedPods

end Env

def failSafe (status : Status) : Status := { status with podDisruptionsAllowed := 0 }

/-! ### Evictions -/

def maxDisruptedPodSize : Nat := 2000

inductive EvictionError where
  /-- The disruption budget is still being processed by the server. -/
  | beingProcessed
  | negativeAllowed
  /-- DisruptedPods map too big - too many evictions not confirmed by PDB controller -/
  | mapTooBig
  /-- The disruption budget needs `desired` healthy pods and has `current` currently. -/
  | violatesBudget (desired current : Int)
  /-- The conflict of the last try, which `RetryOnConflict` returns in place of its timeout. -/
  | conflict
  | failed (err : String)

def Env.checkAndDecrement (env : Env) (podName : String) (status : Status) (now : Nat) : Except EvictionError Status :=
  if status.observedGeneration < env.generation then .error .beingProcessed
  else if status.podDisruptionsAllowed < 0 then .error .negativeAllowed
  else if maxDisruptedPodSize < status.disruptedPods.keys.card then .error .mapTooBig
  else if status.podDisruptionsAllowed = 0 then .error (.violatesBudget status.desiredHealthy status.currentHealthy)
  else .ok { status with
    podDisruptionsAllowed := status.podDisruptionsAllowed - 1
    disruptedPods := status.disruptedPods.insert podName now }

/-! ### What the controller computes -/

variable {pod : Pod} {currentTime : Nat} {disruptedPods : GoMap String Nat}
  {built : GoMap String Nat × Option Nat} {disruptionTime : Nat} {pods : List Pod} {env : Env}
  {pods' : List Pod}

theorem keepDisruptedPod_of_ne {name : String} (hname : pod.name ≠ name) :
    (keepDisruptedPod disruptedPods currentTime built pod).1.lookup name = built.1.lookup name := by
  unfold keepDisruptedPod
  split_ifs with hdel
  · rfl
  · cases disruptedPods.lookup pod.name with
    | none => rfl
    | some =>
      simp only
      split_ifs with hexpired
      · rfl
      all_goals exact Finmap.lookup_insert_of_ne _ hname.symm

theorem keepDisruptedPod_keeps {name : String} (pod : Pod) (hlookup : disruptedPods.lookup name = some disruptionTime)
    (hbuilt : built.1.lookup name = some disruptionTime) :
    (keepDisruptedPod disruptedPods currentTime built pod).1.lookup name = some disruptionTime := by
  by_cases hname : pod.name = name
  · unfold keepDisruptedPod
    rw [hname, hlookup]
    split_ifs with hdel
    · exact hbuilt
    · simp only
      split_ifs with hexpired
      · exact hbuilt
      all_goals exact Finmap.lookup_insert _
  · rw [keepDisruptedPod_of_ne hname, hbuilt]

theorem keepDisruptedPod_self (hdel : pod.deleting = false)
    (hlookup : disruptedPods.lookup pod.name = some disruptionTime)
    (htime : currentTime ≤ disruptionTime + deletionTimeout) :
    (keepDisruptedPod disruptedPods currentTime built pod).1.lookup pod.name = some disruptionTime := by
  unfold keepDisruptedPod
  rw [if_neg (by simp [hdel]), hlookup]
  simp only
  rw [if_neg (by omega)]
  exact Finmap.lookup_insert _

theorem foldl_keepDisruptedPod_keeps {name : String} (hlookup : disruptedPods.lookup name = some disruptionTime)
    (hbuilt : built.1.lookup name = some disruptionTime) :
    (pods.foldl (keepDisruptedPod disruptedPods currentTime) built).1.lookup name = some disruptionTime := by
  induction pods generalizing built with
  | nil => exact hbuilt
  | cons pod _ ih => exact ih (keepDisruptedPod_keeps pod hlookup hbuilt)

theorem buildDisruptedPodMap_lookup (hpod : pod ∈ pods) (hdel : pod.deleting = false)
    (hlookup : disruptedPods.lookup pod.name = some disruptionTime)
    (htime : currentTime ≤ disruptionTime + deletionTimeout) :
    (buildDisruptedPodMap pods disruptedPods currentTime).1.lookup pod.name = some disruptionTime := by
  obtain ⟨_, _, rfl⟩ := List.append_of_mem hpod
  rw [buildDisruptedPodMap, List.foldl_append, List.foldl_cons]
  exact foldl_keepDisruptedPod_keeps hlookup (keepDisruptedPod_self hdel hlookup htime)

/-! ### Fewer pods ask for no more healthy ones -/

variable {uids : Finset String}

theorem Env.findController_of_mem (h : env.controllers pods = .ok uids)
    (hpod : pod ∈ pods) : ∃ uid ∈ uids, findController pod.name env.finders = .ok uid := by
  induction pods generalizing uids with
  | nil => cases hpod
  | cons first rest ih =>
    unfold Env.controllers at h
    split at h
    · cases h
    · next uid hfind =>
        cases hctrl : env.controllers rest with
        | error =>
          rw [hctrl] at h
          cases h
        | ok uids' =>
          rw [hctrl] at h
          have huids : insert uid uids' = uids := ok.inj h
          rw [← huids]
          rcases List.mem_cons.mp hpod with rfl | hrest
          · exact ⟨uid, mem_insert_self .., hfind⟩
          · obtain ⟨uid', huid', hfind'⟩ := ih hctrl hrest
            exact ⟨uid', mem_insert_of_mem huid', hfind'⟩

def NamesWithin (pods' pods : List Pod) : Prop :=
  pods'.length ≤ pods.length ∧ ∀ pod ∈ pods', ∃ pod₀ ∈ pods, pod₀.name = pod.name

theorem Env.controllers_subset (hsub : ∀ pod ∈ pods', ∃ pod₀ ∈ pods, pod₀.name = pod.name)
    (h : env.controllers pods = .ok uids) : ∃ uids' ⊆ uids, env.controllers pods' = .ok uids' := by
  induction pods' with
  | nil => exact ⟨∅, empty_subset _, rfl⟩
  | cons first _ ih =>
    obtain ⟨uids', huids', hrest⟩ := ih fun pod hpod => hsub pod (List.mem_cons_of_mem _ hpod)
    obtain ⟨_, hpod₀, hname⟩ := hsub first List.mem_cons_self
    obtain ⟨uid, huid, hfind⟩ := Env.findController_of_mem h hpod₀
    rw [hname] at hfind
    refine ⟨insert uid uids', insert_subset huid huids', ?_⟩
    rw [Env.controllers, hfind, hrest]
    rfl

theorem Env.getExpectedScale_mono {expected : Int} (hsub : NamesWithin pods' pods)
    (h : env.getExpectedScale pods = .ok expected) :
    ∃ expected', env.getExpectedScale pods' = .ok expected' ∧ 0 ≤ expected' ∧ expected' ≤ expected := by
  unfold Env.getExpectedScale at h ⊢
  cases hctrl : env.controllers pods with
  | error =>
    rw [hctrl] at h
    cases h
  | ok uids =>
    rw [hctrl] at h
    have hexpected : ((∑ uid ∈ uids, env.scale uid : Nat) : Int) = expected := ok.inj h
    obtain ⟨_, huids', hctrl'⟩ := Env.controllers_subset hsub.2 hctrl
    refine ⟨_, by rw [hctrl']; rfl, Int.natCast_nonneg _, ?_⟩
    rw [← hexpected]
    exact Int.ofNat_le.mpr (sum_le_sum_of_subset huids')

theorem getValueFromIntOrPercent_cases {intOrPercent : IntOrString} {total value : Int}
    (h : getValueFromIntOrPercent intOrPercent total true = .ok value) :
    (∀ total', getValueFromIntOrPercent intOrPercent total' true = .ok value) ∨
      ∃ percent, value = -(-(percent * total) / 100) ∧
        ∀ total', getValueFromIntOrPercent intOrPercent total' true = .ok (-(-(percent * total') / 100)) := by
  unfold getValueFromIntOrPercent at h ⊢
  cases hval : getIntOrPercentValue intOrPercent with
  | error =>
    rw [hval] at h
    cases h
  | ok pair =>
    obtain ⟨number, isPercent⟩ := pair
    rw [hval] at h
    cases isPercent with
    | false =>
      have hnum : number = value := ok.inj h
      exact .inl fun total' => congrArg Except.ok hnum
    | true =>
      have hnum : -(-(number * total) / 100) = value := ok.inj h
      exact .inr ⟨number, hnum.symm, fun total' => rfl⟩

variable {share total total' : Int}

theorem share_mono (hnn : 0 ≤ total') (hle : total' ≤ total) :
    share * total' / 100 ≤ 0 ∨ share * total' / 100 ≤ share * total / 100 := by
  rcases le_total 0 share with hshare | hshare
  · right
    exact Int.ediv_le_ediv (by decide) (mul_le_mul_of_nonneg_left hle hshare)
  · have hprod : share * total' ≤ 0 := mul_nonpos_of_nonpos_of_nonneg hshare hnn
    omega

theorem share_up_mono (hnn : 0 ≤ total') (hle : total' ≤ total) :
    -(-(share * total') / 100) ≤ 0 ∨ -(-(share * total') / 100) ≤ -(-(share * total) / 100) := by
  rcases le_total 0 share with hshare | hshare
  · right
    have hprod : share * total' ≤ share * total := mul_le_mul_of_nonneg_left hle hshare
    exact Int.neg_le_neg (Int.ediv_le_ediv (by decide) (Int.neg_le_neg hprod))
  · have hprod : share * total' ≤ 0 := mul_nonpos_of_nonpos_of_nonneg hshare hnn
    omega

theorem scaled_ok {scale : Except String Int} {f : Int → Except String Int} {g : Int → Int → Int × Int} {desired : Int}
    (h : (do
      let expected ← scale
      let value ← f expected
      return g expected value : Except String (Int × Int)).map Prod.snd = .ok desired) :
    ∃ expected value, scale = .ok expected ∧ f expected = .ok value ∧ (g expected value).2 = desired := by
  cases hscale : scale with
  | error =>
    rw [hscale] at h
    cases h
  | ok expected =>
    rw [hscale] at h
    cases hval : f expected with
    | error => simp [bind, Except.bind, hval, Except.map] at h
    | ok value =>
      simp only [bind, Except.bind, hval, Except.map, pure, Except.pure, ok.injEq] at h
      exact ⟨expected, value, rfl, hval, h⟩

theorem Env.desiredHealthy_mono {desired : Int} (hsub : NamesWithin pods' pods)
    (h : env.desiredHealthy pods = .ok desired) :
    ∃ desired', env.desiredHealthy pods' = .ok desired' ∧ (desired' ≤ 0 ∨ desired' ≤ desired) := by
  unfold Env.desiredHealthy Env.getExpectedPodCount at h ⊢
  cases hmax : env.spec.maxUnavailable with
  | some =>
    rw [hmax] at h
    obtain ⟨expected, maxUnavailable, hscale, hval, hdes⟩ := scaled_ok h
    obtain ⟨expected', hscale', hnn, hle⟩ := Env.getExpectedScale_mono hsub hscale
    simp only [hscale', Except.map, bind, Except.bind]
    rcases getValueFromIntOrPercent_cases hval with hfixed | ⟨percent, hpercent, hshares⟩
    · rw [hfixed]
      refine ⟨_, rfl, ?_⟩
      omega
    · rw [hshares]
      refine ⟨_, rfl, ?_⟩
      have hshare := @share_mono (100 - percent) _ _ hnn hle
      have hprod : ∀ total : Int, (100 - percent) * total / 100 = total - -(-(percent * total) / 100) := by
        intro total
        have : (100 - percent) * total = 100 * total + -(percent * total) := by ring
        omega
      rw [hprod, hprod, ← hpercent] at hshare
      omega
  | none =>
    rw [hmax] at h
    cases hmin : env.spec.minAvailable with
    | none =>
      rw [hmin] at h
      exact ⟨desired, h, .inr le_rfl⟩
    | some value =>
      rw [hmin] at h
      cases value with
      | int value =>
        have hdes : value = desired := ok.inj h
        exact ⟨value, rfl, .inr hdes.le⟩
      | string =>
        obtain ⟨expected, minAvailable, hscale, hval, hdes⟩ := scaled_ok h
        obtain ⟨expected', hscale', hnn, hle⟩ := Env.getExpectedScale_mono hsub hscale
        simp only [hscale', Except.map, bind, Except.bind]
        rcases getValueFromIntOrPercent_cases hval with hfixed | ⟨percent, hpercent, hshares⟩
        · rw [hfixed]
          exact ⟨_, rfl, .inr hdes.le⟩
        · rw [hshares]
          have hshare := @share_up_mono percent _ _ hnn hle
          rw [← hpercent] at hshare
          exact ⟨_, rfl, hshare.imp_right fun hval => hval.trans hdes.le⟩

end LeanKube.Disruption
