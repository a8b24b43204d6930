import LeanKube.ClientStore

/-! The producer-consumer queue of an informer (`tools/cache/delta_fifo.go`): per key the list of
changes not yet consumed, and the order in which the keys are to be popped. -/

namespace LeanKube.Informer

/-- What reaches the queue as an `interface{}`: nothing, a bare key, an API object, or the marker of
an object whose deletion was missed, with its last known state. -/
inductive Object (α : Type) where
  | nil
  | explicitKey (key : String)
  | api (obj : α)
  | deletedFinalStateUnknown (key : String) (obj : Object α)
  deriving DecidableEq

structure ObjectMeta where
  namespace_ : String
  name : String
  deriving DecidableEq

def errNotObject : String := "object does not implement the Object interfaces"

variable {α : Type} (accessor : α → Except String ObjectMeta)

def metaNamespaceKeyFunc : Object α → Except String String
  | .explicitKey key => .ok key
  | .api obj =>
    match accessor obj with
    | .error err => .error ("object has no meta: " ++ err)
    | .ok objMeta =>
      if 0 < objMeta.namespace_.length then .ok (objMeta.namespace_ ++ "/" ++ objMeta.name)
      else .ok objMeta.name
  | .nil => .error ("object has no meta: " ++ errNotObject)
  | .deletedFinalStateUnknown _ _ => .error ("object has no meta: " ++ errNotObject)

def deletionHandlingMetaNamespaceKeyFunc :
    Object α → Except String String
  | .deletedFinalStateUnknown key _ => .ok key
  | obj => metaNamespaceKeyFunc accessor obj

inductive DeltaType where
  | added
  | updated
  | deleted
  | sync
  deriving DecidableEq

structure Delta (α : Type) where
  deltaType : DeltaType
  object : Object α
  deriving DecidableEq

abbrev Deltas (α : Type) := List (Delta α)

def Deltas.newest (deltas : Deltas α) : Option (Delta α) := deltas.getLast?

inductive FifoError (α : Type) where
  | keyError (obj : Object α) (err : String)
  | couldNotEnqueue (err : FifoError α)
  | couldNotQueue (err : FifoError α)
  deriving DecidableEq

structure DeltaFIFO (α : Type) where
  items : GoMap String (Deltas α)
  queue : List String
  /-- The first batch of `Replace` is in, or another operation came first. -/
  populated : Bool
  /-- How many of the first batch's entries are still to be popped. -/
  initialPopulationCount : Nat
  closed : Bool

variable {α : Type}

def isDeletionDup (a b : Delta α) : Option (Delta α) :=
  if b.deltaType ≠ .deleted ∨ a.deltaType ≠ .deleted then none
  else
    match b.object with
    | .deletedFinalStateUnknown _ _ => some a
    | _ => some b

def isDup (a b : Delta α) : Option (Delta α) := isDeletionDup a b

def dedupDeltas (deltas : Deltas α) : Deltas α :=
  if h : deltas.length < 2 then deltas
  else
    match isDup (deltas[deltas.length - 1]) (deltas[deltas.length - 2]) with
    | some out => deltas.take (deltas.length - 2) ++ [out]
    | none => deltas

namespace DeltaFIFO

def new : DeltaFIFO α := ⟨∅, [], false, 0, false⟩

def keyOf (keyFunc : Object α → Except String String) : Object α → Except String String
  | .deletedFinalStateUnknown key _ => .ok key
  | obj => keyFunc obj

def deltasOf (f : DeltaFIFO α) (id : String) : Deltas α := (f.items.lookup id).getD []

def willObjectBeDeletedLocked (f : DeltaFIFO α) (id : String) : Bool :=
  match (f.deltasOf id).getLast? with
  | some d => d.deltaType = .deleted
  | none => false

def queueAction (f : DeltaFIFO α) (actionType : DeltaType) (id : String) (obj : Object α) : DeltaFIFO α :=
  if actionType = .sync ∧ f.willObjectBeDeletedLocked id then f
  else
    let newDeltas := dedupDeltas (f.deltasOf id ++ [⟨actionType, obj⟩])
    if 0 < newDeltas.length then
      { f with
        queue := if id ∈ f.items then f.queue else f.queue ++ [id]
        items := f.items.insert id newDeltas }
    else { f with items := f.items.erase id }

variable (keyFunc : Object α → Except String String)

def queueActionLocked (f : DeltaFIFO α) (actionType : DeltaType) (obj : Object α) :
    DeltaFIFO α × Option (FifoError α) :=
  match keyOf keyFunc obj with
  | .error err => (f, some (.keyError obj err))
  | .ok id => (f.queueAction actionType id obj, none)

def add (f : DeltaFIFO α) (obj : Object α) : DeltaFIFO α × Option (FifoError α) :=
  queueActionLocked keyFunc { f with populated := true } .added obj

def update (f : DeltaFIFO α) (obj : Object α) : DeltaFIFO α × Option (FifoError α) :=
  queueActionLocked keyFunc { f with populated := true } .updated obj

variable (knownObjects : Option (GoMap String (Object α)))

def delete (f : DeltaFIFO α) (obj : Object α) : DeltaFIFO α × Option (FifoError α) :=
  match keyOf keyFunc obj with
  | .error err => (f, some (.keyError obj err))
  | .ok id =>
    let f := { f with populated := true }
    match knownObjects with
    | none => if id ∈ f.items then queueActionLocked keyFunc f .deleted obj else (f, none)
    | some known =>
      if id ∉ known ∧ id ∉ f.items then (f, none)
      else queueActionLocked keyFunc f .deleted obj

def addIfNotPresent (f : DeltaFIFO α) (id : String) (deltas : Deltas α) : DeltaFIFO α :=
  let f := { f with populated := true }
  if id ∈ f.items then f
  else { f with queue := f.queue ++ [id], items := f.items.insert id deltas }

inductive ProcessError (ε : Type) where
  | requeue (err : Option ε)
  | failed (err : ε)

inductive PopResult (α ε : Type) where
  /-- The queue is empty: `Pop` waits for a producer. -/
  | blocked
  | fifoClosed
  | popped (item : Deltas α) (err : Option ε)

/-- The loop of `Pop` over the entries of the queue; keys without deltas are skipped. The callback
`process` runs on the consumer's state under the lock. -/
def popLoop {σ ε : Type} (process : Deltas α → σ → σ × Option (ProcessError ε)) :
    List String → DeltaFIFO α → σ → PopResult α ε × DeltaFIFO α × σ
  | [], f, st => (if f.closed then .fifoClosed else .blocked, { f with queue := [] }, st)
  | id :: rest, f, st =>
    let f := { f with
      queue := rest
      initialPopulationCount :=
        if 0 < f.initialPopulationCount then f.initialPopulationCount - 1
        else f.initialPopulationCount }
    match f.items.lookup id with
    | none => popLoop process rest f st
    | some item =>
      let f := { f with items := f.items.erase id }
      match process item st with
      | (st, some (.requeue err)) => (.popped item err, f.addIfNotPresent id item, st)
      | (st, some (.failed err)) => (.popped item (some err), f, st)
      | (st, none) => (.popped item none, f, st)

def pop {σ ε : Type} (process : Deltas α → σ → σ × Option (ProcessError ε)) (f : DeltaFIFO α)
    (st : σ) : PopResult α ε × DeltaFIFO α × σ :=
  popLoop process f.queue f st

/-- The first loop of `Replace`: a `Sync` for every listed object, the keys seen being collected. -/
def replaceSync : List (Object α) → DeltaFIFO α → Finset String → DeltaFIFO α × Finset String × Option (FifoError α)
  | [], f, keys => (f, keys, none)
  | item :: rest, f, keys =>
    match keyOf keyFunc item with
    | .error err => (f, keys, some (.keyError item err))
    | .ok key =>
      match queueActionLocked keyFunc f .sync item with
      | (f, some err) => (f, insert key keys, some (.couldNotEnqueue err))
      | (f, none) => replaceSync rest f (insert key keys)

def replaceOwn (keys : Finset String) : List String → DeltaFIFO α → DeltaFIFO α × Option (FifoError α)
  | [], f => (f, none)
  | k :: rest, f =>
    if k ∈ keys then replaceOwn keys rest f
    else
      let deletedObj := match (f.deltasOf k).newest with
        | some n => n.object
        | none => .nil
      match queueActionLocked keyFunc f .deleted (.deletedFinalStateUnknown k deletedObj) with
      | (f, some err) => (f, some err)
      | (f, none) => replaceOwn keys rest f

/-- The deletion loop of `Replace` over the keys of the known objects, counting the deletions. -/
def replaceKnown (keys : Finset String) (known : GoMap String (Object α)) :
    List String → DeltaFIFO α → Nat → DeltaFIFO α × Nat × Option (FifoError α)
  | [], f, queuedDeletions => (f, queuedDeletions, none)
  | k :: rest, f, queuedDeletions =>
    if k ∈ keys then replaceKnown keys known rest f queuedDeletions
    else
      let deletedObj := match known.lookup k with
        | some obj => obj
        | none => .nil
      match queueActionLocked keyFunc f .deleted (.deletedFinalStateUnknown k deletedObj) with
      | (f, some err) => (f, queuedDeletions + 1, some err)
      | (f, none) => replaceKnown keys known rest f (queuedDeletions + 1)

def markPopulated (f : DeltaFIFO α) (count : Nat) : DeltaFIFO α :=
  if f.populated then f else { f with populated := true, initialPopulationCount := count }

variable (order : List String)

/-- `Replace`; `order` is the order in which the second loop ranges over the known keys, or over
the queue's own items when there are no known objects. -/
def replace (f : DeltaFIFO α) (list : List (Object α)) : DeltaFIFO α × Option (FifoError α) :=
  match replaceSync keyFunc list f ∅ with
  | (f, _, some err) => (f, some err)
  | (f, keys, none) =>
    match knownObjects with
    | none =>
      match replaceOwn keyFunc keys order f with
      | (f, some err) => (f, some err)
      | (f, none) => (f.markPopulated list.length, none)
    | some known =>
      match replaceKnown keyFunc keys known order f 0 with
      | (f, _, some err) => (f, some err)
      | (f, queuedDeletions, none) => (f.markPopulated (list.length + queuedDeletions), none)

def syncKeyLocked (known : GoMap String (Object α)) (f : DeltaFIFO α) (key : String) :
    DeltaFIFO α × Option (FifoError α) :=
  match known.lookup key with
  | none => (f, none)
  | some obj =>
    match keyOf keyFunc obj with
    | .error err => (f, some (.keyError obj err))
    | .ok id =>
      if 0 < (f.deltasOf id).length then (f, none)
      else
        match queueActionLocked keyFunc f .sync obj with
        | (f, some err) => (f, some (.couldNotQueue err))
        | (f, none) => (f, none)

def resyncKeys (known : GoMap String (Object α)) : List String → DeltaFIFO α → DeltaFIFO α × Option (FifoError α)
  | [], f => (f, none)
  | k :: rest, f =>
    match syncKeyLocked keyFunc known f k with
    | (f, some err) => (f, some err)
    | (f, none) => resyncKeys known rest f

def resync (f : DeltaFIFO α) : DeltaFIFO α × Option (FifoError α) :=
  match knownObjects with
  | none => (f, none)
  | some known => resyncKeys keyFunc known order f

end DeltaFIFO
end LeanKube.Informer
