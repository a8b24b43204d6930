import LeanKube.QuotaCheckRequest
import LeanKube.Transition

/-! Quota admission (`plugin/pkg/admission/resourcequota/controller.go`): API servers check batches of
waiting requests against the quotas of a namespace and write the new usage, each quota with a condition on
its resource version. `checkQuotas` stops at every write and at every read of the quotas, so that other
servers may write in between. -/

namespace LeanKube.Quota
variable {Obj : Type}

/-! ### One pass over the waiting requests -/

inductive QuotaError where
  | check (err : CheckError)
  /-- An error of `GetQuotas`. -/
  | get (err : String)
  /-- An error of `UpdateQuotaStatus`. -/
  | update (err : String)

inductive Result where
  | defaultDeny
  | failed (err : QuotaError)
  | admitted

def Result.isFailed : Result → Bool
  | .failed _ => true
  | _ => false

structure Waiter (Obj : Type) where
  attributes : Attributes Obj
  result : Result

def newAdmissionWaiter (a : Attributes Obj) : Waiter Obj := ⟨a, .defaultDeny⟩

def sameUsage (quotas newQuotas : List ResourceQuota) : Bool :=
  (quotas.zip newQuotas).all fun pair => equals pair.1.used pair.2.used

variable (env : Env Obj) (quotas : List ResourceQuota)

/-- The turn of the loop over the waiting requests for one of them: the quotas with its usage, the request
with its result, and whether a quota has changed. -/
def Env.checkWaiter (waiter : Waiter Obj) : List ResourceQuota × Waiter Obj × Bool :=
  match env.checkRequest quotas waiter.attributes with
  | .error err => (quotas, { waiter with result := .failed (.check err) }, false)
  | .ok newQuotas =>
    if waiter.attributes.dryRun then (quotas, { waiter with result := .admitted }, false)
    else if sameUsage quotas newQuotas then (newQuotas, { waiter with result := .admitted }, false)
    else (newQuotas, waiter, true)

def Env.checkWaiters (env : Env Obj) : List ResourceQuota → List (Waiter Obj) →
    List ResourceQuota × List (Waiter Obj) × Bool
  | quotas, [] => (quotas, [], false)
  | quotas, waiter :: waiters =>
    let (quotas', waiter', changed) := env.checkWaiter quotas waiter
    let (quotas'', waiters', changed') := env.checkWaiters quotas' waiters
    (quotas'', waiter' :: waiters', changed || changed')

/-! ### Batches -/

inductive Phase where
  | finished
  /-- The quotas `pending` are to be written; the updates of `failed` failed, the last one with `lastErr`. -/
  | updating (originals pending failed : List ResourceQuota) (lastErr : String) (remainingRetries : Nat)
  /-- The quotas are to be read again, to retry those of `failed`. -/
  | rereading (failed : List ResourceQuota) (lastErr : String) (remainingRetries : Nat)

def Phase.isUpdating : Phase → Bool
  | .updating .. => true
  | _ => false

def Phase.isRereading : Phase → Bool
  | .rereading .. => true
  | _ => false

def Phase.toRetry : Phase → List ResourceQuota
  | .rereading failed _ _ => failed
  | _ => []

structure Batch (Obj : Type) where
  waiters : List (Waiter Obj)
  phase : Phase

def settle (result : Result) (waiters : List (Waiter Obj)) : List (Waiter Obj) :=
  waiters.map fun waiter =>
    match waiter.result with
    | .defaultDeny => { waiter with result }
    | _ => waiter

variable (waiters : List (Waiter Obj)) (failed : List ResourceQuota) (lastErr : String) (remainingRetries : Nat)

def afterUpdates : Batch Obj :=
  if failed.isEmpty then ⟨settle .admitted waiters, .finished⟩
  else if remainingRetries = 0 then ⟨settle (.failed (.update lastErr)) waiters, .finished⟩
  else ⟨waiters, .rereading failed lastErr remainingRetries⟩

def updating (originals pending failed : List ResourceQuota) (lastErr : String) (remainingRetries : Nat) : Batch Obj :=
  if pending.isEmpty then afterUpdates waiters failed lastErr remainingRetries
  else ⟨waiters, .updating originals pending failed lastErr remainingRetries⟩

def changedQuotas (originals quotas : List ResourceQuota) : List ResourceQuota :=
  ((originals.zip quotas).filter fun pair => !equals pair.1.used pair.2.used).map Prod.snd

def Env.checkQuotas (waiters : List (Waiter Obj)) (remainingRetries : Nat) : Batch Obj :=
  let (newQuotas, waiters', atLeastOneChanged) := env.checkWaiters quotas waiters
  if !atLeastOneChanged then ⟨waiters', .finished⟩
  else updating waiters' quotas (changedQuotas quotas newQuotas) [] "" remainingRetries

def Env.checkAttributes (requests : List (Attributes Obj)) :
    Except String (List ResourceQuota) → Batch Obj
  | .error err => ⟨requests.map fun a => ⟨a, .failed (.get err)⟩, .finished⟩
  | .ok quotas =>
    if quotas.isEmpty ∧ env.limitedResources.isEmpty then ⟨requests.map fun a => ⟨a, .admitted⟩, .finished⟩
    else env.checkQuotas quotas (requests.map newAdmissionWaiter) 3

def quotasToCheck (newQuotas failed : List ResourceQuota) : List ResourceQuota :=
  newQuotas.filter fun newQuota => failed.any fun oldQuota => newQuota.name == oldQuota.name

def Env.retry : Except String (List ResourceQuota) → Batch Obj
  | .error _ => ⟨settle (.failed (.update lastErr)) waiters, .finished⟩
  | .ok newQuotas => env.checkQuotas (quotasToCheck newQuotas failed) waiters (remainingRetries - 1)

variable (batch : Batch Obj)

def Batch.rejected : List (Attributes Obj) :=
  (batch.waiters.filter fun waiter => waiter.result.isFailed && !waiter.attributes.dryRun).map Waiter.attributes

/-- The requests of a batch that have been admitted and are no dry runs, with their positions. -/
def Batch.admitted : List (Nat × Attributes Obj) :=
  match batch.phase with
  | .finished => batch.waiters.zipIdx.filterMap fun entry =>
    match entry.1.result with
    | .admitted => if entry.1.attributes.dryRun then none else some (entry.2, entry.1.attributes)
    | _ => none
  | _ => []

/-! ### The servers and the store -/

/-- A request, the number of its batch and its position there, and a quota in which it has been counted. -/
structure Charge (Obj : Type) where
  batch : Nat
  position : Nat
  attributes : Attributes Obj
  quota : String

/-- All the versions of the quotas so far, the newest first, and the batches of all the servers. -/
structure World (Obj : Type) where
  versions : List ResourceQuota
  revision : Nat
  batches : List (Batch Obj)
  charges : List (Charge Obj)

/-- The requests that a write of a quota counts, after a pass over the quotas `quotas`: those that pass and are
no dry run. -/
def Env.counted (env : Env Obj) (batch : Nat) (quota : String) :
    Nat → List ResourceQuota → List (Attributes Obj) → List (Charge Obj)
  | _, _, [] => []
  | position, quotas, a :: requests =>
    match env.checkRequest quotas a with
    | .error _ => env.counted batch quota (position + 1) quotas requests
    | .ok newQuotas =>
      if a.dryRun then env.counted batch quota (position + 1) quotas requests
      else ⟨batch, position, a, quota⟩ :: env.counted batch quota (position + 1) newQuotas requests

/-- The request has been counted in the quota: it uses nothing that the quota limits, or a write of the quota has
counted it. -/
def CountedIn (env : Env Obj) (charges : List (Charge Obj)) (number position : Nat) (a : Attributes Obj)
    (quota : ResourceQuota) : Prop :=
  (∀ resource, env.owed a quota resource = 0) ∨ ⟨number, position, a, quota.name⟩ ∈ charges

/-- A step of a server, with what the store answers. -/
inductive Label (Obj : Type) where
  /-- A server starts a batch; `GetQuotas` returns `read`. -/
  | begin (requests : List (Attributes Obj)) (read : Except String (List ResourceQuota))
  /-- The batch calls `UpdateQuotaStatus` for its next quota. The call fails if the version is not the
  current one, and it may fail anyway. -/
  | update (batch : Nat) (fails : Option String)
  /-- The batch calls `GetQuotas` again. -/
  | reread (batch : Nat) (read : Except String (List ResourceQuota))

namespace World
variable (env : Env Obj) (w : World Obj)

def stored (name : String) : Option ResourceQuota := w.versions.find? fun quota => quota.name == name

def IsRead (quotas : List ResourceQuota) : Prop :=
  (∀ quota ∈ quotas, quota ∈ w.versions) ∧ (quotas.map ResourceQuota.name).Nodup ∧
    ∀ quota ∈ w.versions, quota.name ∈ quotas.map ResourceQuota.name

def ReadOk : Except String (List ResourceQuota) → Prop
  | .error _ => True
  | .ok quotas => w.IsRead quotas

def Enabled : Label Obj → Prop
  | .begin requests read => (∀ a ∈ requests, env.Evaluated a ∧ a.operation = .create) ∧ w.ReadOk read
  | .update number _ => ∃ batch ∈ w.batches[number]?, batch.phase.isUpdating = true
  | .reread number read => (∃ batch ∈ w.batches[number]?, batch.phase.isRereading = true) ∧ w.ReadOk read

def update (number : Nat) (waiters : List (Waiter Obj)) (originals : List ResourceQuota) (quota : ResourceQuota)
    (pending failed : List ResourceQuota) (lastErr : String) (remainingRetries : Nat) : Option String → World Obj
  | some err => { w with
      batches := w.batches.set number
        (updating waiters originals pending (failed ++ [quota]) err remainingRetries) }
  | none =>
    if (w.stored quota.name).any fun current => current.resourceVersion == quota.resourceVersion then
      { versions := { quota with resourceVersion := w.revision + 1 } :: w.versions
        revision := w.revision + 1
        batches := w.batches.set number
          (updating waiters originals pending failed lastErr remainingRetries)
        charges := env.counted number quota.name 0 originals (waiters.map Waiter.attributes) ++ w.charges }
    else { w with
      batches := w.batches.set number
        (updating waiters originals pending (failed ++ [quota]) "conflict" remainingRetries) }

def next : Label Obj → World Obj
  | .begin requests read => { w with batches := w.batches ++ [env.checkAttributes requests read] }
  | .update number fails =>
    match w.batches[number]? with
    | some ⟨waiters, .updating originals (quota :: pending) failed lastErr remainingRetries⟩ =>
      w.update env number waiters originals quota pending failed lastErr remainingRetries fails
    | _ => w
  | .reread number read =>
    match w.batches[number]? with
    | some ⟨waiters, .rereading failed lastErr remainingRetries⟩ =>
      { w with batches := w.batches.set number (env.retry waiters failed lastErr remainingRetries read) }
    | _ => w

def initial (quotas : List ResourceQuota) (revision : Nat) : World Obj := ⟨quotas, revision, [], []⟩

/-- The requests that have been admitted and are no dry runs: their batch, their position there and what they are. -/
def admitted : List (Nat × Nat × Attributes Obj) :=
  w.batches.zipIdx.flatMap fun entry => entry.1.admitted.map (entry.2, ·)

def admittedUsage (quota : ResourceQuota) (resource : ResourceName) : Int :=
  ((w.admitted.filter fun entry => env.matchesQuota entry.2.2 quota).map fun entry =>
    amount (env.usage entry.2.2) resource).sum

def Counted (number position : Nat) (a : Attributes Obj) (quota : ResourceQuota) : Prop :=
  CountedIn env w.charges number position a quota

/-- **The condition.** The scopes that the configuration limits can be matched for the requests, and when the
quotas of failed updates are checked again, no request that was rejected before passes this check without
being counted in any of them. -/
def Sound : Label Obj → Prop
  | .begin requests _ => ∀ a ∈ requests, env.ScopesMatch a
  | .reread number (.ok newQuotas) => ∀ batch ∈ w.batches[number]?, ∀ a ∈ batch.rejected,
      ¬ env.PassesFree (quotasToCheck newQuotas batch.phase.toRetry) a
  | _ => True

end World

def servers : System (World Obj) (Label Obj) := .ofFun (World.Enabled env) (World.next env)

/-- The steps under the condition. -/
def soundServers : System (World Obj) (Label Obj) :=
  .ofFun (fun w label => w.Enabled env label ∧ w.Sound env label) (World.next env)

end LeanKube.Quota
