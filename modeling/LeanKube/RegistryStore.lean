import LeanKube.Transition
import Mathlib.Data.Finset.Basic

/-! `Update` and `Delete` of the generic registry store (`registry/generic/registry/store.go`), with the
functions of `registry/rest` that they call. Any number of clients send such requests for one key, and each call
of the storage is one atomic step. -/

namespace LeanKube.Registry

/-! ### Objects, options and strategies -/

structure ObjectMeta where
  uid : String
  resourceVersion : Nat := 0
  generation : Int64 := 0
  deletionTimestamp : Option Int := none
  deletionGracePeriodSeconds : Option Int64 := none
  finalizers : List String := []
deriving DecidableEq

structure Object (β : Type) where
  metadata : ObjectMeta
  body : β
deriving DecidableEq

inductive DeletionPropagation where
  | orphan
  | background
  | foreground
  | other (text : String)
deriving DecidableEq

structure DeleteOptions where
  gracePeriodSeconds : Option Int64 := none
  preconditionUID : Option String := none
  orphanDependents : Option Bool := none
  propagationPolicy : Option DeletionPropagation := none
  dryRun : List String := []
deriving DecidableEq

structure FieldError where
  field : String
  detail : String
deriving DecidableEq

inductive Failure where
  | invalid (errs : List FieldError)
  | conflict (text : String)
  | notFound
  | other (text : String)
deriving DecidableEq

def finalizerOrphanDependents : String := "orphan"
def finalizerDeleteDependents : String := "foregroundDeletion"

inductive GarbageCollectionPolicy where
  | deleteDependents
  | orphanDependents
  | unsupported
deriving DecidableEq

/-- A strategy for deletion, which is graceful if it has a check. The check may set options, and sets the grace
period where it allows a graceful deletion: `BeforeDelete` dereferences it. -/
structure DeleteStrategy (β : Type) where
  checkGracefulDelete : Option (Object β → DeleteOptions → Bool × DeleteOptions)
  defaultGarbageCollectionPolicy : Option GarbageCollectionPolicy
  period_isSome : ∀ check, checkGracefulDelete = some check → ∀ obj options,
    (check obj options).1 = true → (check obj options).2.gracePeriodSeconds.isSome

/-- A strategy for updates; `finalizerNameMessages` are the messages of `IsQualifiedName`. -/
structure UpdateStrategy (β : Type) where
  allowUnconditionalUpdate : Bool
  allowCreateOnUpdate : Bool
  prepareForUpdate : (obj old : Object β) → Object β
  finalizerNameMessages : String → List String
  validateUpdate : (obj old : Object β) → List FieldError
  canonicalize : Object β → Object β
  beforeCreate : Object β → Except Failure (Object β)

structure Store (β : Type) where
  enableGarbageCollection : Bool
  deleteStrategy : DeleteStrategy β
  updateStrategy : UpdateStrategy β

variable {β : Type}

/-! ### `rest.BeforeDelete` -/

def validateDeleteOptions (options : DeleteOptions) : List FieldError :=
  (if options.orphanDependents.isSome ∧ options.propagationPolicy.isSome then
    [⟨"propagationPolicy", "orphanDependents and deletionPropagation cannot be both set"⟩] else []) ++
  (match options.propagationPolicy with
    | some (.other _) =>
      [⟨"propagationPolicy", "supported values: \"Foreground\", \"Background\", \"Orphan\", \"nil\""⟩]
    | _ => []) ++
  if options.dryRun.all fun value => value = "All" then [] else [⟨"dryRun", "supported values: \"All\""⟩]

def isDryRun (flag : List String) : Bool := flag.length > 0

structure Deletion (β : Type) where
  graceful : Bool
  gracefulPending : Bool
  obj : Object β
  options : DeleteOptions

variable (obj : Object β) (timestamp : Int)

def Object.setDeletion (period : Option Int64) : Object β :=
  { obj with
    metadata.deletionTimestamp := some timestamp
    metadata.deletionGracePeriodSeconds := period }

def nextGeneration (generation : Int64) : Int64 := if generation > 0 then generation + 1 else generation

/-- The time `now`, later by a number of seconds that becomes a duration in the arithmetic of `int64`. -/
def addSeconds (now : Int) (n : Int64) : Int := now + (1000000000 * n).toInt

def shortenedTimestamp (current period : Int64) : Int :=
  addSeconds (timestamp + (-1000000000 * current).toInt) period

/-- `BeforeDelete` for an object that is being deleted already: the grace period may only be shortened. -/
def shortenDeletion (options : DeleteOptions) : Deletion β :=
  match obj.metadata.deletionGracePeriodSeconds with
  | none => ⟨false, false, obj, options⟩
  | some current =>
    if current = 0 then ⟨false, false, obj, options⟩
    else
      match options.gracePeriodSeconds with
      | some period =>
        if period ≥ current then ⟨false, true, obj, options⟩
        else
          ⟨true, false, obj.setDeletion (shortenedTimestamp timestamp current period) (some period), options⟩
      | none => ⟨false, true, obj, { options with gracePeriodSeconds := some current }⟩

/-- `BeforeDelete` for an object that is not being deleted, with the check of its strategy. -/
def beginDeletion (check : Object β → DeleteOptions → Bool × DeleteOptions) (now : Int) (obj : Object β)
    (options : DeleteOptions) : Deletion β :=
  let (ok, options) := check obj options
  if !ok then ⟨false, false, obj, options⟩
  else
    let deleted := obj.setDeletion (addSeconds now (options.gracePeriodSeconds.getD 0)) options.gracePeriodSeconds
    ⟨true, false, { deleted with metadata.generation := nextGeneration obj.metadata.generation }, options⟩

def beforeDelete (strategy : DeleteStrategy β) (now : Int) (obj : Object β) (options : DeleteOptions) :
    Except Failure (Deletion β) :=
  let errs := validateDeleteOptions options
  if errs.length > 0 then .error (.invalid errs)
  else if options.preconditionUID.any fun uid => uid ≠ obj.metadata.uid then
    .error (.conflict ("the UID in the precondition (" ++ options.preconditionUID.getD "" ++
      ") does not match the UID in record (" ++ obj.metadata.uid ++
      "). The object might have been deleted and then recreated"))
  else
    match strategy.checkGracefulDelete with
    | none => .ok ⟨false, false, obj, options⟩
    | some check =>
      match obj.metadata.deletionTimestamp with
      | some timestamp => .ok (shortenDeletion obj timestamp options)
      | none => .ok (beginDeletion check now obj options)

variable {options : DeleteOptions} {strategy : DeleteStrategy β} {deletion : Deletion β} {now : Int}

section
variable {obj : Object β} (h : beforeDelete strategy now obj options = .ok deletion)
include h

theorem valid_of_beforeDelete :
    validateDeleteOptions options = [] ∧ ∀ uid ∈ options.preconditionUID, uid = obj.metadata.uid := by
  rw [beforeDelete] at h
  split_ifs at h with herrs huid
  refine ⟨by simpa using herrs, fun _ hmem => ?_⟩
  rw [Option.mem_def.mp hmem] at huid
  simpa using huid

theorem beforeDelete_eq_ok :
    strategy.checkGracefulDelete = none ∧ deletion = ⟨false, false, obj, options⟩ ∨
    (∃ check t, strategy.checkGracefulDelete = some check ∧ obj.metadata.deletionTimestamp = some t ∧
      deletion = shortenDeletion obj t options) ∨
    ∃ check, strategy.checkGracefulDelete = some check ∧ obj.metadata.deletionTimestamp = none ∧
      deletion = beginDeletion check now obj options := by
  rw [beforeDelete] at h
  split_ifs at h
  cases hcheck : strategy.checkGracefulDelete with
  | none =>
    rw [hcheck] at h
    exact .inl ⟨rfl, (Except.ok.inj h).symm⟩
  | some check =>
    rw [hcheck] at h
    cases ht : obj.metadata.deletionTimestamp with
    | some t =>
      rw [ht] at h
      exact .inr (.inl ⟨check, t, rfl, rfl, (Except.ok.inj h).symm⟩)
    | none =>
      rw [ht] at h
      exact .inr (.inr ⟨check, rfl, rfl, (Except.ok.inj h).symm⟩)

end

variable (obj : Object β) (version : Nat)

theorem shortenDeletion_cases (t : Int) (options : DeleteOptions) :
    (obj.metadata.deletionGracePeriodSeconds = none ∨ obj.metadata.deletionGracePeriodSeconds = some 0) ∧
      shortenDeletion obj t options = ⟨false, false, obj, options⟩ ∨
    (shortenDeletion obj t options).gracefulPending = true ∧ (shortenDeletion obj t options).obj = obj ∨
    ∃ current period, obj.metadata.deletionGracePeriodSeconds = some current ∧ current ≠ 0 ∧
      options.gracePeriodSeconds = some period ∧ period < current ∧
      shortenDeletion obj t options =
        ⟨true, false, obj.setDeletion (shortenedTimestamp t current period) (some period), options⟩ := by
  rw [shortenDeletion]
  cases hcur : obj.metadata.deletionGracePeriodSeconds with
  | none => exact .inl ⟨.inl rfl, rfl⟩
  | some current =>
    by_cases hzero : current = 0
    · subst hzero
      exact .inl ⟨.inr rfl, rfl⟩
    · simp only [if_neg hzero]
      cases hperiod : options.gracePeriodSeconds with
      | none => exact .inr (.inl ⟨rfl, rfl⟩)
      | some period =>
        by_cases hle : period ≥ current
        · simp [hle]
        · simp only [if_neg hle]
          exact .inr (.inr ⟨current, period, rfl, hzero, rfl, Int64.not_le.mp hle, rfl⟩)

theorem beforeDelete_finalizers {obj : Object β} (h : beforeDelete strategy now obj options = .ok deletion) :
    deletion.obj.metadata.finalizers = obj.metadata.finalizers ∧ deletion.obj.metadata.uid = obj.metadata.uid := by
  rcases beforeDelete_eq_ok h with ⟨-, rfl⟩ | ⟨check, t, -, -, rfl⟩ | ⟨check, -, -, rfl⟩
  · exact ⟨rfl, rfl⟩
  · rcases shortenDeletion_cases obj t options with ⟨-, h⟩ | ⟨-, h⟩ | ⟨_, _, -, -, -, -, h⟩ <;> rw [h]
    · exact ⟨rfl, rfl⟩
    · exact ⟨rfl, rfl⟩
    · exact ⟨rfl, rfl⟩
  · rw [beginDeletion]
    simp only
    split_ifs
    · exact ⟨rfl, rfl⟩
    · exact ⟨rfl, rfl⟩

/-! ### Finalizers of the garbage collector -/

/-- What the finalizers of an object say: to orphan its dependents, or to delete them first. -/
def finalizerPolicy (finalizers : List String) : Option Bool :=
  finalizers.findSome? fun f =>
    if f = finalizerOrphanDependents then some true
    else if f = finalizerDeleteDependents then some false
    else none

namespace Store
variable (e : Store β) (finalizers : List String) (options : DeleteOptions)

def shouldOrphanDependents : Bool :=
  if e.deleteStrategy.defaultGarbageCollectionPolicy = some .unsupported then false
  else
    match options.orphanDependents, options.propagationPolicy with
    | some orphan, _ => orphan
    | none, some .orphan => true
    | none, some .background | none, some .foreground => false
    | none, _ =>
      match finalizerPolicy finalizers with
      | some orphan => orphan
      | none => e.deleteStrategy.defaultGarbageCollectionPolicy = some .orphanDependents

def shouldDeleteDependents : Bool :=
  if e.deleteStrategy.defaultGarbageCollectionPolicy = some .unsupported then false
  else
    match options.orphanDependents, options.propagationPolicy with
    | some _, _ => false
    | none, some .foreground => true
    | none, some .background | none, some .orphan => false
    | none, _ => finalizerPolicy finalizers = some false

def deletionFinalizersForGarbageCollection : Bool × List String :=
  if !e.enableGarbageCollection then (false, [])
  else
    let newFinalizers :=
      (finalizers.filter fun f => f ≠ finalizerOrphanDependents ∧ f ≠ finalizerDeleteDependents) ++
      (if e.shouldOrphanDependents finalizers options then [finalizerOrphanDependents] else []) ++
      (if e.shouldDeleteDependents finalizers options then [finalizerDeleteDependents] else [])
    if finalizers.toFinset = newFinalizers.toFinset then (false, finalizers) else (true, newFinalizers)

def finalizersAfter : List String :=
  let (needsUpdate, newFinalizers) := e.deletionFinalizersForGarbageCollection finalizers options
  if needsUpdate then newFinalizers else finalizers

end Store

def markAsDeleting (now : Int) (obj : Object β) : Object β :=
  let generation :=
    if obj.metadata.deletionTimestamp.isNone then nextGeneration obj.metadata.generation
    else obj.metadata.generation
  { obj.setDeletion now (some 0) with metadata.generation := generation }

/-! ### Storage -/

structure Storage (β : Type) where
  revision : Nat
  object : Option (Object β)
deriving DecidableEq

def truncate (t : Int) : Int := t / 1000000000 * 1000000000

def Object.encode (resourceVersion : Nat) : Object β :=
  { obj with
    metadata.resourceVersion := resourceVersion
    metadata.deletionTimestamp := obj.metadata.deletionTimestamp.map truncate }

@[simp] theorem Object.encode_uid : (obj.encode version).metadata.uid = obj.metadata.uid := rfl

@[simp] theorem Object.encode_finalizers : (obj.encode version).metadata.finalizers = obj.metadata.finalizers := rfl

@[simp] theorem Object.encode_generation : (obj.encode version).metadata.generation = obj.metadata.generation := rfl

@[simp] theorem Object.encode_deletionTimestamp :
    (obj.encode version).metadata.deletionTimestamp = obj.metadata.deletionTimestamp.map truncate := rfl

@[simp] theorem Object.encode_deletionGracePeriodSeconds :
    (obj.encode version).metadata.deletionGracePeriodSeconds = obj.metadata.deletionGracePeriodSeconds := rfl

/-- What `GuaranteedUpdate` does with a new object; one that is stored already is not written again. -/
def Storage.write [DecidableEq β] (s : Storage β) (obj : Object β) : Storage β :=
  if s.object.map (fun existing => { existing with metadata.resourceVersion := 0 }) = some (obj.encode 0) then s
  else ⟨s.revision + 1, some (obj.encode (s.revision + 1))⟩

theorem Storage.write_ne_none [DecidableEq β] (s : Storage β) (obj : Object β) : (s.write obj).object ≠ none := by
  rw [write]
  split_ifs with hsame
  · exact fun hnone => by simp [hnone] at hsame
  · simp

theorem Storage.of_write [DecidableEq β] {s : Storage β} {obj new : Object β} (h : (s.write obj).object = some new) :
    ∃ version, new = obj.encode version := by
  rw [write] at h
  split_ifs at h with hsame
  · obtain ⟨existing, hexi, hsame⟩ := Option.map_eq_some_iff.mp hsame
    obtain rfl : new = existing := Option.some.inj (h.symm.trans hexi)
    exact ⟨new.metadata.resourceVersion, congrArg (fun o : Object β =>
      { o with metadata.resourceVersion := new.metadata.resourceVersion }) hsame⟩
  · exact ⟨s.revision + 1, (Option.some.inj h).symm⟩

def checkPreconditions (uid : Option String) (objectUID : String) : Except Failure Unit :=
  match uid with
  | none => .ok ()
  | some uid =>
    if uid ≠ objectUID then
      .error (.conflict
        ("Precondition failed: UID in precondition: " ++ uid ++ ", UID in object meta: " ++ objectUID))
    else .ok ()

/-! ### `Store.Delete` -/

/-- The version of the object on which a request decided to remove it, and the finalizers that the request itself
left in it. It is not used by the request: it is there to speak about it. -/
structure Decision (β : Type) where
  version : Object β
  kept : List String
deriving DecidableEq

inductive Phase (β : Type) where
  | returned (result : Except Failure Bool)
  /-- `Delete` has read the object and is about to update it. -/
  | updating (options : DeleteOptions) (preconditionUID : Option String)
  | removing (decision : Decision β) (preconditionUID : Option String) (dryRun ignoreNotFound result : Bool)

inductive DeleteAttempt (β : Type) where
  | failed (failure : Failure)
  | alreadyDeleting
  | deleteNow (kept : List String)
  | updated (obj : Object β) (pendingFinalizers : Bool) (lastGraceful : Int64)

namespace Store
variable (e : Store β) (now : Int)

def deleteGet (options : Option DeleteOptions) (s : Storage β) : Phase β :=
  match s.object with
  | none => .returned (.error .notFound)
  | some obj =>
    let options := options.getD { gracePeriodSeconds := some 0 }
    match beforeDelete e.deleteStrategy now obj options with
    | .error failure => .returned (.error failure)
    | .ok deletion =>
      if deletion.gracefulPending then .returned (.ok false)
      else
        let finalizers := deletion.obj.metadata.finalizers
        let pendingFinalizers := finalizers.length ≠ 0
        let shouldUpdateFinalizers := (e.deletionFinalizersForGarbageCollection finalizers deletion.options).1
        if deletion.graceful ∨ pendingFinalizers ∨ shouldUpdateFinalizers then
          .updating deletion.options options.preconditionUID
        else
          .removing ⟨obj, finalizers⟩ options.preconditionUID (isDryRun deletion.options.dryRun) false true

def tryDelete (options : DeleteOptions) (existing : Object β) : DeleteAttempt β :=
  match beforeDelete e.deleteStrategy now existing options with
  | .error failure => .failed failure
  | .ok deletion =>
    if deletion.gracefulPending then .alreadyDeleting
    else
      let finalizers := e.finalizersAfter deletion.obj.metadata.finalizers deletion.options
      let obj := { deletion.obj with metadata.finalizers := finalizers }
      let pendingFinalizers := finalizers.length ≠ 0
      if !deletion.graceful then
        if pendingFinalizers then .updated (markAsDeleting now obj) true 0 else .deleteNow finalizers
      else .updated obj pendingFinalizers (deletion.options.gracePeriodSeconds.getD 0)

def deleteUpdate [DecidableEq β] (options : DeleteOptions) (preconditionUID : Option String)
    (s : Storage β) : Storage β × Phase β :=
  match s.object with
  | none => (s, .returned (.error .notFound))
  | some existing =>
    match checkPreconditions preconditionUID existing.metadata.uid with
    | .error failure => (s, .returned (.error failure))
    | .ok () =>
      let dryRun := isDryRun options.dryRun
      match e.tryDelete now options existing with
      | .failed failure => (s, .returned (.error failure))
      | .alreadyDeleting => (s, .returned (.ok false))
      | .deleteNow kept =>
        (s, if dryRun then .returned (.ok true)
          else .removing ⟨existing, kept⟩ preconditionUID false false true)
      | .updated obj pendingFinalizers lastGraceful =>
        (if dryRun then s else s.write obj, if pendingFinalizers ∨ lastGraceful > 0 then .returned (.ok false)
          else if dryRun then .returned (.ok true)
          else .removing ⟨existing, obj.metadata.finalizers⟩ preconditionUID false true true)

section
variable {e : Store β} {now : Int} {options : DeleteOptions} {existing obj : Object β} {kept : List String}
  {pendingFinalizers : Bool} {lastGraceful : Int64}

theorem tryDelete_deleteNow (h : e.tryDelete now options existing = .deleteNow kept) : kept = [] := by
  rw [tryDelete] at h
  cases hbefore : beforeDelete e.deleteStrategy now existing options with
  | error => simp [hbefore] at h
  | ok =>
    simp only [hbefore] at h
    split_ifs at h with _ _ hnil
    rw [← DeleteAttempt.deleteNow.inj h]
    simpa using hnil

theorem tryDelete_updated (h : e.tryDelete now options existing = .updated obj pendingFinalizers lastGraceful) :
    ∃ deletion, beforeDelete e.deleteStrategy now existing options = .ok deletion ∧
      deletion.gracefulPending = false ∧
      obj.metadata.finalizers = e.finalizersAfter existing.metadata.finalizers deletion.options ∧
      obj.metadata.uid = existing.metadata.uid ∧ (pendingFinalizers ↔ obj.metadata.finalizers ≠ []) ∧
      (deletion.graceful = false ∧ obj.metadata.finalizers ≠ [] ∧
          obj = markAsDeleting now { deletion.obj with metadata.finalizers := obj.metadata.finalizers } ∨
        deletion.graceful = true ∧ obj = { deletion.obj with metadata.finalizers := obj.metadata.finalizers }) := by
  rw [tryDelete] at h
  cases hbefore : beforeDelete e.deleteStrategy now existing options with
  | error => simp [hbefore] at h
  | ok deletion =>
    obtain ⟨hfins, huid⟩ := beforeDelete_finalizers hbefore
    simp only [hbefore, hfins] at h
    split_ifs at h with hpend hgrace hne
    · obtain ⟨rfl, rfl, -⟩ := DeleteAttempt.updated.inj h
      have hsome : e.finalizersAfter existing.metadata.finalizers deletion.options ≠ [] := by simpa using hne
      exact ⟨deletion, rfl, by simpa using hpend, rfl, huid, iff_of_true rfl hsome,
        .inl ⟨by simpa using hgrace, hsome, rfl⟩⟩
    · obtain ⟨rfl, rfl, -⟩ := DeleteAttempt.updated.inj h
      exact ⟨deletion, rfl, by simpa using hpend, rfl, huid, by simp, .inr ⟨by simpa using hgrace, rfl⟩⟩

end
end Store

def removeObject (preconditionUID : Option String) (dryRun ignoreNotFound result : Bool) (s : Storage β) :
    Storage β × Phase β :=
  match s.object with
  | none => (s, .returned (if ignoreNotFound then .ok result else .error .notFound))
  | some obj =>
    match checkPreconditions preconditionUID obj.metadata.uid with
    | .error failure => (s, .returned (.error failure))
    | .ok () => (if dryRun then s else ⟨s.revision + 1, none⟩, .returned (.ok result))

/-! ### `Store.Update` -/

structure UpdateCall (β : Type) where
  preconditionUID : Option String := none
  updatedObject : Option (Object β) → Except Failure (Object β)
  createValidation : Object β → Except Failure Unit := fun _ => .ok ()
  updateValidation : (obj existing : Object β) → Except Failure Unit := fun _ _ => .ok ()
  forceAllowCreate : Bool := false
  dryRun : List String := []

def fieldError (failed : Bool) (field detail : String) : List FieldError :=
  if failed then [⟨field, detail⟩] else []

variable (nameMessages : String → List String)

def validateFinalizers (finalizers : List String) : List FieldError :=
  (finalizers.flatMap fun f => (nameMessages f).map fun message => ⟨"metadata.finalizers", message⟩) ++
  fieldError (finalizers.contains finalizerDeleteDependents && finalizers.contains finalizerOrphanDependents)
    "metadata.finalizers"
    ("finalizer " ++ finalizerOrphanDependents ++ " and " ++ finalizerDeleteDependents ++ " cannot be both set")

def validateNoNewFinalizers (newFinalizers oldFinalizers : List String) : List FieldError :=
  let extra := newFinalizers.dedup.filter fun f => f ∉ oldFinalizers
  let listed := (extra.mergeSort fun a b => a ≤ b).map fun f => "\"" ++ f ++ "\""
  fieldError (extra.length ≠ 0) "metadata.finalizers"
    ("no new finalizers can be added if the object is being deleted, found new finalizers []string\x7b" ++
      ", ".intercalate listed ++ "\x7d")

def validateImmutableField {α : Type} [DecidableEq α] (newVal oldVal : α) (field : String) : List FieldError :=
  fieldError (newVal ≠ oldVal) field "field is immutable"

def validateCommonFields (newMeta oldMeta : ObjectMeta) : List FieldError :=
  fieldError (newMeta.generation < 0) "metadata.generation" "must be greater than or equal to 0" ++
  validateFinalizers nameMessages newMeta.finalizers ++
  (if oldMeta.deletionTimestamp.isSome then validateNoNewFinalizers newMeta.finalizers oldMeta.finalizers else []) ++
  fieldError (newMeta.resourceVersion = 0) "metadata.resourceVersion" "must be specified for an update" ++
  fieldError (newMeta.generation < oldMeta.generation) "metadata.generation" "must not be decremented" ++
  validateImmutableField newMeta.uid oldMeta.uid "metadata.uid" ++
  validateImmutableField newMeta.deletionTimestamp oldMeta.deletionTimestamp "metadata.deletionTimestamp" ++
  validateImmutableField newMeta.deletionGracePeriodSeconds oldMeta.deletionGracePeriodSeconds
    "metadata.deletionGracePeriodSeconds"

def beforeUpdate (strategy : UpdateStrategy β) (obj old : Object β) : Except Failure (Object β) :=
  let obj := strategy.prepareForUpdate { obj with metadata.generation := old.metadata.generation } old
  let m := obj.metadata
  let m := if m.uid.length = 0 then { m with uid := old.metadata.uid } else m
  let m :=
    if old.metadata.deletionTimestamp.isSome then { m with deletionTimestamp := old.metadata.deletionTimestamp }
    else m
  let m :=
    if old.metadata.deletionGracePeriodSeconds.isSome ∧ m.deletionGracePeriodSeconds.isNone then
      { m with deletionGracePeriodSeconds := old.metadata.deletionGracePeriodSeconds }
    else m
  let obj := { obj with metadata := m }
  let errs := validateCommonFields strategy.finalizerNameMessages obj.metadata old.metadata ++
    strategy.validateUpdate obj old
  if errs.length > 0 then .error (.invalid errs) else .ok (strategy.canonicalize obj)

def optimisticLockErrorMsg : String :=
  "the object has been modified; please apply your changes to the latest version and try again"

def shouldDeleteDuringUpdate (obj existing : Object β) : Bool :=
  obj.metadata.finalizers.length = 0 ∧ existing.metadata.deletionGracePeriodSeconds = some 0

namespace Store
variable (e : Store β) (call : UpdateCall β)

def proposal (existing : Option (Object β)) : Except Failure (Object β) := do
  let obj ← call.updatedObject existing
  match existing with
  | none =>
    if !e.updateStrategy.allowCreateOnUpdate && !call.forceAllowCreate then .error .notFound
    else
      let obj ← e.updateStrategy.beforeCreate obj
      call.createValidation obj
      .ok obj
  | some existing =>
    let resourceVersion := obj.metadata.resourceVersion
    let version := existing.metadata.resourceVersion
    let doUnconditionalUpdate := resourceVersion = 0 && e.updateStrategy.allowUnconditionalUpdate
    if !doUnconditionalUpdate && resourceVersion = 0 then
      .error (.invalid [⟨"metadata.resourceVersion", "must be specified for an update"⟩])
    else if !doUnconditionalUpdate && resourceVersion ≠ version then
      .error (.conflict optimisticLockErrorMsg)
    else
      let obj ← beforeUpdate e.updateStrategy { obj with metadata.resourceVersion := version } existing
      call.updateValidation obj existing
      .ok obj

/-- `Update`, to the end of `GuaranteedUpdate`; an object that is not there has no UID. -/
def update [DecidableEq β] (s : Storage β) : Storage β × Phase β :=
  let dryRun := isDryRun call.dryRun
  match checkPreconditions call.preconditionUID ((s.object.map fun obj => obj.metadata.uid).getD "") with
  | .error failure => (s, .returned (.error failure))
  | .ok () =>
    match e.proposal call s.object, s.object with
    | .error failure, _ => (s, .returned (.error failure))
    | .ok obj, none => (if dryRun then s else s.write obj, .returned (.ok true))
    | .ok obj, some existing =>
      if shouldDeleteDuringUpdate obj existing then
        (s, .removing ⟨existing, obj.metadata.finalizers⟩ call.preconditionUID dryRun true false)
      else (if dryRun then s else s.write obj, .returned (.ok false))

end Store

/-! ### Requests of many clients -/

def Phase.isReturned : Phase β → Bool
  | .returned _ => true
  | _ => false

structure State (ι β : Type) where
  storage : Storage β
  phase : ι → Phase β

inductive Turn (ι β : Type) where
  | delete (i : ι) (now : Int) (options : Option DeleteOptions)
  | update (i : ι) (call : UpdateCall β)
  | resume (i : ι) (now : Int)

variable {ι : Type} [DecidableEq ι] [DecidableEq β] (s : State ι β)

/-- A client begins a request when the last one has returned, and goes on with one that has not. -/
def State.enabled : Turn ι β → Bool
  | .delete i _ _ | .update i _ => (s.phase i).isReturned
  | .resume i _ => !(s.phase i).isReturned

def State.set (i : ι) (r : Storage β × Phase β) : State ι β where
  storage := r.1
  phase := Function.update s.phase i r.2

namespace Store
variable (e : Store β)

def resume (now : Int) (s : Storage β) : Phase β → Storage β × Phase β
  | .returned result => (s, .returned result)
  | .updating options preconditionUID => e.deleteUpdate now options preconditionUID s
  | .removing _ preconditionUID dryRun ignoreNotFound result =>
    removeObject preconditionUID dryRun ignoreNotFound result s

def next (s : State ι β) : Turn ι β → State ι β
  | .delete i now options => s.set i (s.storage, e.deleteGet now options s.storage)
  | .update i call => s.set i (e.update call s.storage)
  | .resume i now => s.set i (e.resume now s.storage (s.phase i))

/-- What a turn does to the storage. It leaves it as it is, or it is an update or a `Delete` that writes an
object, or a request that removes the object. -/
inductive Changes (e : Store β) (s : State ι β) : Turn ι β → Storage β → Prop where
  | same (turn : Turn ι β) : Changes e s turn s.storage
  | updated (i : ι) (call : UpdateCall β) (obj : Object β) (real : isDryRun call.dryRun = false)
      (preconditions : checkPreconditions call.preconditionUID
        ((s.storage.object.map fun obj => obj.metadata.uid).getD "") = .ok ())
      (proposal : e.proposal call s.storage.object = .ok obj) : Changes e s (.update i call) (s.storage.write obj)
  | deleting (i : ι) (now : Int) (options : DeleteOptions) (preconditionUID : Option String)
      (existing obj : Object β) (pendingFinalizers : Bool) (lastGraceful : Int64)
      (phase : s.phase i = .updating options preconditionUID) (object : s.storage.object = some existing)
      (preconditions : checkPreconditions preconditionUID existing.metadata.uid = .ok ())
      (real : isDryRun options.dryRun = false)
      (attempt : e.tryDelete now options existing = .updated obj pendingFinalizers lastGraceful) :
      Changes e s (.resume i now) (s.storage.write obj)
  | removed (i : ι) (now : Int) (d : Decision β) (preconditionUID : Option String) (ignoreNotFound result : Bool)
      (obj : Object β) (phase : s.phase i = .removing d preconditionUID false ignoreNotFound result)
      (object : s.storage.object = some obj)
      (preconditions : checkPreconditions preconditionUID obj.metadata.uid = .ok ()) :
      Changes e s (.resume i now) ⟨s.storage.revision + 1, none⟩

theorem next_changes (s : State ι β) (turn : Turn ι β) : e.Changes s turn (e.next s turn).storage := by
  cases turn with
  | delete => exact .same _
  | update i call =>
    change e.Changes s (.update i call) (e.update call s.storage).1
    rw [update]
    cases hcheck : checkPreconditions call.preconditionUID
      ((s.storage.object.map fun obj => obj.metadata.uid).getD "") with
    | error => exact .same _
    | ok =>
      cases hproposal : e.proposal call s.storage.object with
      | error => exact .same _
      | ok obj =>
        have hwrite :
          e.Changes s (.update i call) (if isDryRun call.dryRun then s.storage else s.storage.write obj) := by
          split_ifs with hdry
          · exact .same _
          · exact .updated i call obj (by simpa using hdry) hcheck hproposal
        cases s.storage.object with
        | none => exact hwrite
        | some =>
          simp only
          split
          · exact .same _
          · exact hwrite
  | resume i now =>
    change e.Changes s (.resume i now) (e.resume now s.storage (s.phase i)).1
    cases hphase : s.phase i with
    | returned => exact .same _
    | updating options uid =>
      rw [resume, deleteUpdate]
      cases hobj : s.storage.object with
      | none => exact .same _
      | some existing =>
        cases hcheck : checkPreconditions uid existing.metadata.uid with
        | error => simpa only [hcheck] using .same _
        | ok =>
          cases htry : e.tryDelete now options existing with
          | failed | alreadyDeleting | deleteNow => simpa only [hcheck, htry] using .same _
          | updated obj =>
            simp only [hcheck, htry]
            split_ifs with hdry
            · exact .same _
            · exact .deleting i now options uid existing obj _ _ hphase hobj hcheck (by simpa using hdry) htry
    | removing d uid dryRun ignoreNotFound result =>
      rw [resume, removeObject]
      cases hobj : s.storage.object with
      | none => exact .same _
      | some obj =>
        cases hcheck : checkPreconditions uid obj.metadata.uid with
        | error => simpa only [hcheck] using .same _
        | ok =>
          simp only [hcheck]
          split_ifs with hdry
          · exact .same _
          · obtain rfl : dryRun = false := by simpa using hdry
            exact .removed i now d uid ignoreNotFound result obj hphase hobj hcheck

end Store

def Turn.isDelete : Turn ι β → Bool
  | .update _ _ => false
  | _ => true

namespace Store
variable (e : Store β)

def requests (condition : State ι β → Turn ι β → Prop) : System (State ι β) (Turn ι β) :=
  System.ofFun (fun s turn => s.enabled turn ∧ condition s turn) e.next

end Store

def plainStore : Store Unit where
  enableGarbageCollection := true
  deleteStrategy := ⟨none, none, nofun⟩
  updateStrategy :=
    { allowUnconditionalUpdate := true
      allowCreateOnUpdate := false
      prepareForUpdate := fun obj _ => obj
      finalizerNameMessages := fun _ => []
      validateUpdate := fun _ _ => []
      canonicalize := id
      beforeCreate := .ok }

def idle (m : ObjectMeta) : State ι Unit where
  storage := ⟨1, some ⟨m, ()⟩⟩
  phase _ := .returned (.ok true)

end LeanKube.Registry
