import Mathlib.Data.List.Induction
import Mathlib.Data.List.Perm.Basic
import Mathlib.Algebra.Order.Ring.Int

/-! The horizontal autoscaler (`pkg/controller/podautoscaler/horizontal.go`): the reconciles of one autoscaler. Its past
recommendations are kept, so that the target is made smaller only when all of the last while ask for it. -/

namespace LeanKube.Autoscaling
open List Option

structure TimestampedRecommendation where
  recommendation : Int
  timestamp : Int

structure HorizontalPodAutoscaler where
  minReplicas : Option Int
  maxReplicas : Int

/-- What a reconcile reads: the scale of the target, the proposal of the metrics (`none` for an error), and the clock
when it begins, when it takes the cutoff and when it records its recommendation. -/
structure Reconcile where
  specReplicas : Int
  currentReplicas : Int
  metricDesiredReplicas : Option Int
  begun : Int
  now : Int
  recorded : Int

/-- The body of the loop over the recommendations, whose accumulator is `maxRecommendation` and `oldSampleIndex`. -/
def visit (cutoff : Int) (acc : Int × Option Nat) (rec : TimestampedRecommendation × Nat) : Int × Option Nat :=
  if rec.1.timestamp < cutoff then (acc.1, some rec.2)
  else if rec.1.recommendation > acc.1 then (rec.1.recommendation, acc.2) else acc

/-- The product is exact in `float64`; the conversion of one that `int32` does not hold is its least value on amd64. -/
def calculateScaleUpLimit (currentReplicas : Int) : Int :=
  if max (2 * currentReplicas) 4 < 2 ^ 31 then max (2 * currentReplicas) 4 else -2 ^ 31

/-- The size with its condition and reason; the reason for the minimum is always overwritten by one for the maximum. -/
def convertDesiredReplicasWithRules (currentReplicas desiredReplicas hpaMinReplicas hpaMaxReplicas : Int) :
    Int × String × String :=
  let minimumAllowedReplicas := if hpaMinReplicas = 0 then 1 else hpaMinReplicas
  let scaleUpLimit := calculateScaleUpLimit currentReplicas
  let possible := if hpaMaxReplicas > scaleUpLimit then
      (scaleUpLimit, "ScaleUpLimit", "the desired replica count is increasing faster than the maximum scale rate")
    else (hpaMaxReplicas, "TooManyReplicas", "the desired replica count is more than the maximum replica count")
  if desiredReplicas < minimumAllowedReplicas then (minimumAllowedReplicas, "TooFewReplicas", possible.2.2)
  else if desiredReplicas > possible.1 then possible
  else (desiredReplicas, "DesiredWithinRange", "the desired count is within the acceptable range")

section Controller
variable (hpa : HorizontalPodAutoscaler) (downscaleStabilisationWindow : Int)
  (recommendations : List TimestampedRecommendation) (r : Reconcile)

def recordInitialRecommendation : List TimestampedRecommendation :=
  if recommendations.isEmpty then [⟨r.currentReplicas, r.begun⟩] else recommendations

variable (prenormalizedDesiredReplicas : Int)

def stabilizeRecommendation : List TimestampedRecommendation × Int :=
  let found := recommendations.zipIdx.foldl (visit (r.now - downscaleStabilisationWindow))
    (prenormalizedDesiredReplicas, none)
  (match found.2 with
    | some oldSampleIndex => recommendations.set oldSampleIndex ⟨prenormalizedDesiredReplicas, r.recorded⟩
    | none => recommendations ++ [⟨prenormalizedDesiredReplicas, r.recorded⟩], found.1)

def normalizeDesiredReplicas : List TimestampedRecommendation × Int :=
  let stabilized := stabilizeRecommendation downscaleStabilisationWindow recommendations r prenormalizedDesiredReplicas
  (stabilized.1,
    (convertDesiredReplicasWithRules r.currentReplicas stabilized.2 (hpa.minReplicas.getD 0) hpa.maxReplicas).1)

/-- The recommendations after the reconcile and the size that it writes to the target. -/
def reconcileAutoscaler : List TimestampedRecommendation × Option Int :=
  let recommendations := recordInitialRecommendation recommendations r
  if r.specReplicas = 0 then (recommendations, none)
  else if r.currentReplicas > hpa.maxReplicas then (recommendations, some hpa.maxReplicas)
  else if hpa.minReplicas.any (r.currentReplicas < ·) then (recommendations, hpa.minReplicas)
  else if r.currentReplicas = 0 then (recommendations, some 1)
  else
    match r.metricDesiredReplicas with
    | none => (recommendations, none)
    | some metricDesiredReplicas =>
      let normalized := normalizeDesiredReplicas hpa downscaleStabilisationWindow recommendations r
        (if metricDesiredReplicas > 0 then metricDesiredReplicas else 0)
      (normalized.1, if normalized.2 ≠ r.currentReplicas then some normalized.2 else none)

/-! ### What has been recommended -/

/-- The recommendation of a reconcile that takes the metric path. -/
def Reconcile.recommends : Option Int :=
  if r.specReplicas = 0 ∨ r.currentReplicas > hpa.maxReplicas ∨ hpa.minReplicas.any (r.currentReplicas < ·) ∨
    r.currentReplicas = 0 then none
  else r.metricDesiredReplicas.map (max · 0)

/-- The recommendations that are kept, and all that have been recorded. -/
structure History where
  recommendations : List TimestampedRecommendation
  log : List TimestampedRecommendation

def History.after (h : History) : History where
  recommendations := (reconcileAutoscaler hpa downscaleStabilisationWindow h.recommendations r).1
  log := h.log ++ (if h.recommendations.isEmpty then [⟨r.currentReplicas, r.begun⟩] else []) ++
    ((r.recommends hpa).map (⟨·, r.recorded⟩)).toList

def run (reconciles : List Reconcile) : History :=
  reconciles.foldl (fun h r => h.after hpa downscaleStabilisationWindow r) ⟨[], []⟩

end Controller

/-- The recommendations that are not older than the cutoff. -/
def inWindow (cutoff : Int) (recommendations : List TimestampedRecommendation) : List TimestampedRecommendation :=
  recommendations.filter (cutoff ≤ ·.timestamp)

variable {hpa : HorizontalPodAutoscaler} {window cutoff desired minReplicas size : Int} {r : Reconcile} {h : History}
  {recommendations log newer : List TimestampedRecommendation}

theorem inWindow_append :
    inWindow cutoff (recommendations ++ newer) = inWindow cutoff recommendations ++ inWindow cutoff newer :=
  filter_append recommendations newer

theorem foldl_visit (cutoff desired : Int) (recommendations : List TimestampedRecommendation) :
    let found := recommendations.zipIdx.foldl (visit cutoff) (desired, none)
    desired ≤ found.1 ∧ (∀ rec ∈ inWindow cutoff recommendations, rec.recommendation ≤ found.1) ∧
      ∀ i, found.2 = some i → ∃ rec, recommendations[i]? = some rec ∧ rec.timestamp < cutoff := by
  induction recommendations using reverseRecOn with
  | nil => simp [inWindow]
  | append_singleton recs rec ih =>
    obtain ⟨hdesired, hmax, hold⟩ := ih
    have hold' : ∀ i, (recs.zipIdx.foldl (visit cutoff) (desired, none)).2 = some i →
        ∃ rec', (recs ++ [rec])[i]? = some rec' ∧ rec'.timestamp < cutoff := fun i hi => by
      obtain ⟨rec', hrec', hexpired⟩ := hold i hi
      exact ⟨rec', (getElem?_append_left (List.getElem?_eq_some_iff.mp hrec').1).trans hrec', hexpired⟩
    simp only [zipIdx_append, foldl_append, zipIdx_singleton, foldl_cons, foldl_nil, Nat.zero_add, inWindow_append,
      mem_append, or_imp, forall_and]
    rw [visit]
    split_ifs with hexpired hmore
    · refine ⟨hdesired, ⟨hmax, by simp [inWindow, hexpired]⟩, fun i hi => ⟨rec, ?_, hexpired⟩⟩
      simp [← some.inj hi]
    · refine ⟨hdesired.trans hmore.le, ⟨fun rec' hrec' => (hmax rec' hrec').trans hmore.le, ?_⟩, hold'⟩
      simp [inWindow]
    · refine ⟨hdesired, ⟨hmax, ?_⟩, hold'⟩
      simpa [inWindow] using fun _ => not_lt.mp hmore

/-- Only a recommendation that the cutoff leaves out is overwritten. -/
theorem inWindow_stabilizeRecommendation (hcutoff : r.now - window ≤ cutoff) :
    (inWindow cutoff (stabilizeRecommendation window recommendations r desired).1).Perm
      (inWindow cutoff (recommendations ++ [⟨desired, r.recorded⟩])) := by
  have hold := (foldl_visit (r.now - window) desired recommendations).2.2
  simp only [stabilizeRecommendation]
  cases hfound : (recommendations.zipIdx.foldl (visit (r.now - window)) (desired, none)).2 with
  | none => exact .refl _
  | some i =>
    obtain ⟨rec, hrec, hexpired⟩ := hold i hfound
    obtain ⟨hi, rfl⟩ := List.getElem?_eq_some_iff.mp hrec
    have hall := (perm_append_singleton ⟨desired, r.recorded⟩ recommendations).trans
      (((getElem_cons_eraseIdx_perm hi).symm.cons _).trans (.swap _ _ _))
    refine ((set_perm_cons_eraseIdx hi _).filter _).trans (.trans ?_ (hall.filter _).symm)
    rw [filter_cons_of_neg (a := recommendations[i]) (by simp; omega)]

theorem convertDesiredReplicasWithRules_bounds {currentReplicas stabilized maxReplicas : Int} (hpos : 0 < minReplicas)
    (hmin : minReplicas ≤ currentReplicas) (hmax : currentReplicas ≤ maxReplicas) (hbound : maxReplicas < 2 ^ 30)
    (hsize : size = (convertDesiredReplicasWithRules currentReplicas stabilized minReplicas maxReplicas).1) :
    minReplicas ≤ size ∧ size ≤ maxReplicas ∧ size ≤ max (2 * currentReplicas) 4 ∧
      min (min (max (2 * currentReplicas) 4) maxReplicas) stabilized ≤ size := by
  have hlimit : calculateScaleUpLimit currentReplicas = max (2 * currentReplicas) 4 :=
    if_pos (by omega)
  simp only [convertDesiredReplicasWithRules, hlimit] at hsize
  split_ifs at hsize <;> omega

theorem inWindow_recordInitialRecommendation (hkept : (inWindow cutoff recommendations).Perm (inWindow cutoff log)) :
    (inWindow cutoff (recordInitialRecommendation recommendations r)).Perm
      (inWindow cutoff (log ++ if recommendations.isEmpty then [⟨r.currentReplicas, r.begun⟩] else [])) := by
  rw [inWindow_append]
  cases recommendations with
  | nil =>
    rw [nil_perm.mp hkept]
    exact .refl _
  | cons rec recs => simpa [recordInitialRecommendation, inWindow] using hkept

/-- What is applied is no less than what has been recorded since the cutoff, or is recorded now. -/
theorem le_stabilizeRecommendation (hrec : r.recommends hpa = some desired)
    (hkept : (inWindow (r.now - window) h.recommendations).Perm (inWindow (r.now - window) h.log)) :
    ∀ rec ∈ ⟨desired, r.recorded⟩ :: inWindow (r.now - window) (h.after hpa window r).log, rec.recommendation ≤
      (stabilizeRecommendation window (recordInitialRecommendation h.recommendations r) r desired).2 := by
  obtain ⟨hnewest, hmax, -⟩ := foldl_visit (r.now - window) desired (recordInitialRecommendation h.recommendations r)
  intro rec hmem
  simp only [History.after, hrec] at hmem
  rw [mem_cons, inWindow_append, mem_append, ← (inWindow_recordInitialRecommendation hkept).mem_iff] at hmem
  obtain rfl | hmem | hmem := hmem
  · exact hnewest
  · exact hmax rec hmem
  · obtain rfl := mem_singleton.mp (mem_of_mem_filter hmem)
    exact hnewest

section Bounds
variable (hmin : hpa.minReplicas = some minReplicas) (hpos : 0 < minReplicas) (hle : minReplicas ≤ hpa.maxReplicas)
include hmin

theorem reconcileAutoscaler_of_recommends_some (hrec : r.recommends hpa = some desired) :
    minReplicas ≤ r.currentReplicas ∧ r.currentReplicas ≤ hpa.maxReplicas ∧
      (reconcileAutoscaler hpa window recommendations r).1 =
        (stabilizeRecommendation window (recordInitialRecommendation recommendations r) r desired).1 ∧
      ∀ size ∈ (reconcileAutoscaler hpa window recommendations r).2,
        size = (convertDesiredReplicasWithRules r.currentReplicas
          (stabilizeRecommendation window (recordInitialRecommendation recommendations r) r desired).2
          minReplicas hpa.maxReplicas).1 := by
  simp only [Reconcile.recommends, hmin, any_some, decide_eq_true_eq] at hrec
  split_ifs at hrec with hpath
  obtain ⟨metric, hmetric, hdesired⟩ := map_eq_some_iff.mp hrec
  have hmax : (if metric > 0 then metric else 0) = desired := by
    split_ifs <;> omega
  simp only [reconcileAutoscaler, hmin, any_some, decide_eq_true_eq, hmetric, hmax, normalizeDesiredReplicas]
  rw [if_neg (by omega), if_neg (by omega), if_neg (by omega), if_neg (by omega)]
  refine ⟨by omega, by omega, rfl, fun size hsize => ?_⟩
  rw [mem_ite_none_right] at hsize
  exact (some.inj hsize.2).symm

include hpos hle

/-- A reconcile off the metric path writes one of the bounds, if it writes at all. -/
theorem reconcileAutoscaler_of_recommends_none (hrec : r.recommends hpa = none) :
    (reconcileAutoscaler hpa window recommendations r).1 = recordInitialRecommendation recommendations r ∧
      ∀ size ∈ (reconcileAutoscaler hpa window recommendations r).2, minReplicas ≤ size ∧ size ≤ hpa.maxReplicas := by
  simp only [reconcileAutoscaler, Reconcile.recommends, hmin, any_some, decide_eq_true_eq] at hrec ⊢
  split_ifs with hspec hmax hbelow hzero
  · simp
  · simp [hle]
  · simp [hle]
  · omega
  · rw [if_neg (by omega)] at hrec
    rw [map_eq_none_iff.mp hrec]
    simp

/-- One reconcile keeps what is not older than its cutoff. -/
theorem History.after_inWindow (hcutoff : r.now - window ≤ cutoff)
    (hkept : (inWindow cutoff h.recommendations).Perm (inWindow cutoff h.log)) :
    (inWindow cutoff (h.after hpa window r).recommendations).Perm (inWindow cutoff (h.after hpa window r).log) := by
  have hinitial := inWindow_recordInitialRecommendation (r := r) hkept
  simp only [History.after]
  cases hrec : r.recommends hpa with
  | none =>
    rw [(reconcileAutoscaler_of_recommends_none hmin hpos hle hrec).1]
    simpa using hinitial
  | some desired =>
    rw [(reconcileAutoscaler_of_recommends_some hmin hrec).2.2.1]
    refine (inWindow_stabilizeRecommendation hcutoff).trans ?_
    rw [inWindow_append, inWindow_append]
    exact hinitial.append_right _

theorem run_inWindow {reconciles : List Reconcile} (hcutoff : ∀ r ∈ reconciles, r.now - window ≤ cutoff) :
    (inWindow cutoff (run hpa window reconciles).recommendations).Perm
      (inWindow cutoff (run hpa window reconciles).log) := by
  induction reconciles using reverseRecOn with
  | nil => exact .refl _
  | append_singleton reconciles r ih =>
    rw [run, foldl_append]
    refine History.after_inWindow hmin hpos hle (hcutoff r (by simp)) (ih fun r' hr' => hcutoff r' ?_)
    exact mem_append_left _ hr'

end Bounds

/-- **Stabilization and bounds.** Every size that is written lies between the two bounds. On the metric path it is at
most `max (2 * currentReplicas) 4`, and at least the minimum of this, `maxReplicas` and each recommendation that was
recorded in the window, the newest one included. What has been recorded since the cutoff, or since any later time, is
still kept. -/
theorem reconcile_stabilized (hpa : HorizontalPodAutoscaler) (window minReplicas : Int)
    (hmin : hpa.minReplicas = some minReplicas) (hpos : 0 < minReplicas) (hle : minReplicas ≤ hpa.maxReplicas)
    (hbound : hpa.maxReplicas < 2 ^ 30) (before : List Reconcile) (r : Reconcile)
    (hclock : ∀ r' ∈ before, r'.now ≤ r.now) :
    (∀ size ∈ (reconcileAutoscaler hpa window (run hpa window before).recommendations r).2,
      minReplicas ≤ size ∧ size ≤ hpa.maxReplicas ∧
        ∀ desired, r.recommends hpa = some desired → size ≤ max (2 * r.currentReplicas) 4 ∧
          ∀ rec ∈ ⟨desired, r.recorded⟩ :: inWindow (r.now - window) (run hpa window (before ++ [r])).log,
            min (min (max (2 * r.currentReplicas) 4) hpa.maxReplicas) rec.recommendation ≤ size) ∧
      ∀ cutoff ≥ r.now - window, (inWindow cutoff (run hpa window (before ++ [r])).recommendations).Perm
        (inWindow cutoff (run hpa window (before ++ [r])).log) := by
  have hcutoff : ∀ r' ∈ before, r'.now - window ≤ r.now - window := fun r' hr' => by
    have := hclock r' hr'
    omega
  refine ⟨fun size hsize => ?_, fun cutoff hlater => run_inWindow hmin hpos hle ?_⟩
  · cases hrec : r.recommends hpa with
    | none =>
      obtain ⟨hlow, hhigh⟩ := (reconcileAutoscaler_of_recommends_none hmin hpos hle hrec).2 size hsize
      exact ⟨hlow, hhigh, nofun⟩
    | some desired =>
      obtain ⟨hlow, hhigh, -, hconvert⟩ := reconcileAutoscaler_of_recommends_some hmin hrec
      obtain ⟨hmin', hmax', hlimit, hstable⟩ :=
        convertDesiredReplicasWithRules_bounds hpos hlow hhigh hbound (hconvert size hsize)
      refine ⟨hmin', hmax', fun desired' hdesired => ⟨hlimit, fun rec hmem => ?_⟩⟩
      obtain rfl := some.inj hdesired
      rw [run, foldl_append] at hmem
      have := le_stabilizeRecommendation hrec (run_inWindow hmin hpos hle hcutoff) rec hmem
      omega
  · simp only [mem_append, mem_singleton]
    rintro r' (hr' | rfl)
    · exact (hcutoff r' hr').trans hlater
    · exact hlater

theorem reconcile_stabilized_downscale :
    8 ∈ (reconcileAutoscaler ⟨some 1, 10⟩ 300 (run ⟨some 1, 10⟩ 300 [⟨3, 3, some 8, 0, 0, 0⟩]).recommendations
      ⟨6, 6, some 2, 100, 100, 100⟩).2 ∧ (8 : Int) ≤ 10 ∧ (8 : Int) ≤ max (2 * 6) 4 := by
  have hsize : 8 ∈ (reconcileAutoscaler ⟨some 1, 10⟩ 300 (run ⟨some 1, 10⟩ 300
      [⟨3, 3, some 8, 0, 0, 0⟩]).recommendations ⟨6, 6, some 2, 100, 100, 100⟩).2 := by decide
  obtain ⟨-, hmax, hmetric⟩ := (reconcile_stabilized ⟨some 1, 10⟩ 300 1 rfl (by decide) (by decide) (by decide)
    [⟨3, 3, some 8, 0, 0, 0⟩] ⟨6, 6, some 2, 100, 100, 100⟩ (by simp)).1 8 hsize
  exact ⟨hsize, hmax, (hmetric 2 (by decide)).1⟩

end LeanKube.Autoscaling
