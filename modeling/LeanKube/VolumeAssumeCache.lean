import Mathlib.Data.List.Induction
import Mathlib.Data.List.Infix
import Mathlib.Algebra.Order.Ring.Int

/-! The assume cache of the volume binder (`pkg/controller/volume/persistentvolume/scheduler_assume_cache.go`) at one
object name: the object of the informer, and the latest one, which may be assumed. -/

namespace LeanKube.VolumeBinding
open List

/-- An object with what `getObjVersion` returns for it, `none` for an error. -/
structure Object (α : Type) where
  objVersion : Option Int
  content : α
  deriving DecidableEq

structure ObjInfo (α : Type) where
  latestObj : Object α
  apiObj : Object α

inductive AssumeError where
  /-- "could not find %v %q" -/
  | notFound
  /-- "error parsing ResourceVersion %q for %v %q: %s" -/
  | objVersion
  /-- "%v %q is out of sync" -/
  | outOfSync

inductive Op (α : Type) where
  /-- The informer's `add`, or its `update` to the object. -/
  | add (obj : Object α)
  | delete
  /-- The informer's `delete` with the `DeletedFinalStateUnknown` that it passes after a missed deletion. -/
  | deletedFinalStateUnknown
  | assume (obj : Object α)
  | restore

variable {α : Type}

section Cache
variable (cached : Option (ObjInfo α)) (obj : Object α)

def add : Option (ObjInfo α) :=
  match cached with
  | none => some ⟨obj, obj⟩
  | some objInfo =>
    match obj.objVersion, objInfo.latestObj.objVersion with
    | some newVersion, some storedVersion => if newVersion ≤ storedVersion then cached else some ⟨obj, obj⟩
    | _, _ => cached

def get : Option (Object α) := cached.map (·.latestObj)

def assume : Except AssumeError (ObjInfo α) :=
  match cached with
  | none => .error .notFound
  | some objInfo =>
    match obj.objVersion, objInfo.latestObj.objVersion with
    | some newVersion, some storedVersion =>
      if newVersion < storedVersion then .error .outOfSync else .ok { objInfo with latestObj := obj }
    | _, _ => .error .objVersion

def restore : Option (ObjInfo α) := cached.map fun objInfo => { objInfo with latestObj := objInfo.apiObj }

def next : Op α → Option (ObjInfo α)
  | .add obj => add cached obj
  | .delete => none
  -- `MetaNamespaceKeyFunc` has no name for it, and `delete` returns
  | .deletedFinalStateUnknown => cached
  | .assume obj => (assume cached obj).toOption.or cached
  | .restore => restore cached

end Cache

variable (ops : List (Op α))

def run : Option (ObjInfo α) := ops.foldl next none

/-! ### The informer's view -/

/-- The object that the informer delivered last, unless it was deleted. -/
def delivered : Option (Object α) :=
  ops.foldl (fun last op => match op with
    | .add obj => some obj
    | .delete | .deletedFinalStateUnknown => none
    | _ => last) none

def Newer (obj stored : Object α) : Prop :=
  ∃ newVersion storedVersion, obj.objVersion = some newVersion ∧ stored.objVersion = some storedVersion ∧
    storedVersion < newVersion

variable (cached : Option (ObjInfo α))

/-- The informer's event shows in the cache, in which it finds `cached` after it delivered `last`. -/
def Op.Shown (last : Option (Object α)) : Op α → Prop
  | .add obj => last ≠ some obj → ∀ objInfo ∈ cached, Newer obj objInfo.latestObj
  | .deletedFinalStateUnknown => cached = none
  | _ => True

variable {ops : List (Op α)} {op : Op α} {obj : Object α} {objInfo assumed : ObjInfo α}

theorem run_concat : run (ops ++ [op]) = next (run ops) op := by rw [run, foldl_concat, run]

theorem get_restore : get (restore cached) = cached.map (·.apiObj) := by
  cases cached <;> rfl

theorem add_of_newer (h : Newer obj objInfo.latestObj) : add (some objInfo) obj = some ⟨obj, obj⟩ := by
  obtain ⟨_, _, hnew, hstored, hlt⟩ := h
  simp only [add, hnew, hstored]
  exact if_neg (not_le.mpr hlt)

theorem add_of_not_newer (h : ¬ Newer obj objInfo.latestObj) : add (some objInfo) obj = some objInfo := by
  simp only [add]
  split
  · next hnew hstored => exact if_pos (not_lt.mp fun hlt => h ⟨_, _, hnew, hstored, hlt⟩)
  · rfl

variable {cached : Option (ObjInfo α)}

theorem assume_ok (h : assume cached obj = .ok assumed) :
    assumed.latestObj = obj ∧ cached.map (·.apiObj) = some assumed.apiObj := by
  unfold assume at h
  split at h
  · cases h
  · split at h
    · split_ifs at h
      cases h
      exact ⟨rfl, rfl⟩
    · cases h

theorem delivered_concat : delivered (ops ++ [op]) = match op with
    | .add obj => some obj
    | .delete | .deletedFinalStateUnknown => none
    | _ => delivered ops := by
  rw [delivered, foldl_concat, ← delivered]

/-- A step keeps the informer's view if and only if its event shows in the cache. -/
theorem apiObj_next (hview : (run ops).map (·.apiObj) = delivered ops) :
    (run (ops ++ [op])).map (·.apiObj) = delivered (ops ++ [op]) ↔ op.Shown (run ops) (delivered ops) := by
  rw [run_concat, delivered_concat, ← hview]
  generalize run ops = cached
  cases op with
  | add obj =>
    cases cached with
    | none => simp [next, add, Op.Shown]
    | some objInfo =>
      by_cases hnew : Newer obj objInfo.latestObj
      · simp [next, add_of_newer hnew, Op.Shown, hnew]
      · simp [next, add_of_not_newer hnew, Op.Shown, hnew]
  | delete => exact iff_of_true rfl trivial
  | deletedFinalStateUnknown => exact Option.map_eq_none_iff
  | assume obj =>
    refine iff_of_true ?_ trivial
    rw [next]
    cases hassume : assume cached obj with
    | error => rfl
    | ok assumed => exact (assume_ok hassume).2.symm
  | restore => cases cached <;> exact iff_of_true rfl trivial

/-- From an assumption on, until a `Restore`, a deletion or a newer object, nothing changes. -/
theorem run_assumed {since : List (Op α)} (h : assume (run ops) obj = .ok assumed)
    (hsince : ∀ op ∈ since, op = .deletedFinalStateUnknown ∨ (∃ obj', op = .add obj' ∧ ¬ Newer obj' obj) ∨
      ∃ obj' err, op = .assume obj' ∧ assume (some assumed) obj' = .error err) :
    run (ops ++ .assume obj :: since) = some assumed := by
  induction since using reverseRecOn with
  | nil =>
    rw [run_concat, next, h]
    rfl
  | append_singleton since op ih =>
    rw [← cons_append, ← append_assoc, run_concat, ih fun op' hop' => hsince op' (mem_append_left _ hop')]
    obtain rfl | ⟨obj', rfl, hnot⟩ | ⟨obj', err, rfl, herr⟩ := hsince op (by simp)
    · rfl
    · rw [← (assume_ok h).1] at hnot
      exact add_of_not_newer hnot
    · rw [next, herr]
      rfl

/-- **The informer's view.** `Restore` brings back what the informer delivered last, at every point of a run, if and
only if the informer never delivers another object while one of its version or a later one is cached, nor a deletion
without the object while one is cached. From an assumption to the next `Restore`, deletion, newer object of the
informer or assumption, the assumed object is returned. -/
theorem restore_view (ops : List (Op α)) : ((∀ before, before <+: ops → get (restore (run before)) = delivered before) ↔
      ∀ before op, before ++ [op] <+: ops → op.Shown (run before) (delivered before)) ∧
    ∀ obj assumed since, assume (run ops) obj = .ok assumed →
      (∀ op ∈ since, op = .deletedFinalStateUnknown ∨ (∃ obj', op = .add obj' ∧ ¬ Newer obj' obj) ∨
        ∃ obj' err, op = .assume obj' ∧ assume (some assumed) obj' = .error err) →
      get (run (ops ++ .assume obj :: since)) = some obj := by
  simp only [get_restore]
  refine ⟨⟨fun hview before op hprefix => ?_, fun hshown before => ?_⟩, ?_⟩
  · exact (apiObj_next (hview before ((prefix_append _ _).trans hprefix))).mp (hview _ hprefix)
  · induction before using reverseRecOn with
    | nil => exact fun _ => rfl
    | append_singleton before op ih =>
      intro hprefix
      exact (apiObj_next (ih ((prefix_append _ _).trans hprefix))).mpr (hshown before op hprefix)
  · intro obj assumed since h hsince
    rw [run_assumed h hsince, get, Option.map_some, (assume_ok h).1]

/-- An object is assumed, survives a resync and is replaced by the newer one of the informer. -/
theorem restore_view_bound :
    let available : Object String := ⟨some 1, "available"⟩
    let assumed : Object String := ⟨some 1, "bound"⟩
    get (run [.add available, .assume assumed, .add available]) = some assumed ∧
      get (restore (run [.add available, .assume assumed, .add ⟨some 2, "bound"⟩])) = some ⟨some 2, "bound"⟩ := by
  intro available assumed
  refine ⟨(restore_view [.add available]).2 assumed ⟨assumed, available⟩ [.add available] rfl ?_, ?_⟩
  · intro op hop
    refine .inr (.inl ⟨available, mem_singleton.mp hop, ?_⟩)
    rintro ⟨_, _, hnew, hstored, hlt⟩
    cases hnew
    cases hstored
    exact absurd hlt (by decide)
  · refine (restore_view [.add available, .assume assumed, .add ⟨some 2, "bound"⟩]).1.mpr ?_ _ (prefix_refl _)
    rintro before op ⟨rest, hrest⟩
    rcases before with _ | ⟨_, _ | ⟨_, _ | ⟨_, _⟩⟩⟩
    · cases hrest
      rintro - objInfo ⟨⟩
    · cases hrest
      trivial
    · cases hrest
      rintro - objInfo ⟨⟩
      exact ⟨2, 1, rfl, rfl, by decide⟩
    · simp at hrest

/-- The object that the API server returned is assumed before the informer delivers it, which then skips it as old; and
an object whose deletion the informer missed stays. -/
theorem restore_forgets :
    let ops : List (Op String) := [.add ⟨some 1, "available"⟩, .assume ⟨some 2, "bound"⟩, .add ⟨some 2, "bound"⟩]
    let missed : List (Op String) := [.add ⟨some 1, "available"⟩, .deletedFinalStateUnknown]
    (delivered ops = some ⟨some 2, "bound"⟩ ∧ get (restore (run ops)) = some ⟨some 1, "available"⟩) ∧
      delivered missed = none ∧ get (restore (run missed)) = some ⟨some 1, "available"⟩ := by
  decide

/-- Unless it is restored or deleted, the latest object is replaced only by one that is as new. -/
theorem latestObj_next (hop : op ≠ .restore ∧ op ≠ .delete) : ∃ objInfo', next (some objInfo) op = some objInfo' ∧
    (objInfo'.latestObj = objInfo.latestObj ∨ ∃ newVersion storedVersion,
      objInfo'.latestObj.objVersion = some newVersion ∧
      objInfo.latestObj.objVersion = some storedVersion ∧ storedVersion ≤ newVersion) := by
  cases op <;> grind [next, add, assume, Except.toOption]

theorem not_newer_next (h : ∃ latest, get cached = some latest ∧ ¬ Newer obj latest)
    (hop : op ≠ .restore ∧ op ≠ .delete) : ∃ latest, get (next cached op) = some latest ∧ ¬ Newer obj latest := by
  obtain ⟨latest, hget, hnot⟩ := h
  obtain ⟨objInfo, rfl, rfl⟩ := Option.map_eq_some_iff.mp hget
  obtain ⟨objInfo', hnext, hlatest⟩ := latestObj_next hop
  refine ⟨objInfo'.latestObj, by rw [hnext, get, Option.map_some], ?_⟩
  rcases hlatest with hsame | ⟨_, storedVersion, hnew, hstored, hle⟩
  · rwa [hsame]
  · rintro ⟨version, _, hversion, hlatest, hlt⟩
    cases hnew.symm.trans hlatest
    exact hnot ⟨version, storedVersion, hversion, hstored, lt_of_le_of_lt hle hlt⟩

/-- **No stale read.** `Get` returns nothing older than what `Restore` would bring back; and until a `Restore` or a
deletion nothing older than what the informer delivered. -/
theorem apiObj_not_newer (ops : List (Op α)) : (∀ objInfo ∈ run ops, ¬ Newer objInfo.apiObj objInfo.latestObj) ∧
    ∀ obj since, (∀ op ∈ since, op ≠ .restore ∧ op ≠ .delete) →
      ∃ latest, get (run (ops ++ .add obj :: since)) = some latest ∧ ¬ Newer obj latest := by
  constructor
  · induction ops using reverseRecOn with
    | nil => simp [run]
    | append_singleton ops op ih =>
      rw [run_concat]
      generalize run ops = cached at ih ⊢
      -- `Assume` compares with the latest object.
      cases cached <;> cases op <;> grind [next, add, assume, restore, Newer, Except.toOption]
  · intro obj since hsince
    induction since using reverseRecOn with
    | nil =>
      rw [run_concat]
      have hself : ¬ Newer obj obj := by grind [Newer]
      cases run ops with
      | none => exact ⟨obj, rfl, hself⟩
      | some objInfo =>
        by_cases hnew : Newer obj objInfo.latestObj
        · exact ⟨obj, by rw [next, add_of_newer hnew]; rfl, hself⟩
        · exact ⟨_, by rw [next, add_of_not_newer hnew]; rfl, hnew⟩
    | append_singleton since op ih =>
      rw [← cons_append, ← append_assoc, run_concat]
      exact not_newer_next (ih fun op' hop' => hsince op' (mem_append_left _ hop')) (hsince op (by simp))

theorem apiObj_not_newer_two :
    let ops : List (Op String) := [.add ⟨some 1, "available"⟩, .assume ⟨some 3, "bound"⟩]
    (∃ objInfo, run ops = some objInfo ∧ ¬ Newer objInfo.apiObj objInfo.latestObj) ∧
      ∃ latest, get (run (ops ++ [.add ⟨some 2, "bound"⟩])) = some latest ∧ ¬ Newer ⟨some 2, "bound"⟩ latest := by
  intro ops
  exact ⟨⟨_, rfl, (apiObj_not_newer ops).1 _ rfl⟩, (apiObj_not_newer ops).2 _ [] (by simp)⟩

end LeanKube.VolumeBinding
