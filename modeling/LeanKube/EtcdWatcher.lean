import LeanKube.CacherFilter

/-! The watcher on etcd (`storage/etcd3/watcher.go`) and the path of an etcd event through the
cacher: the watcher with the predicate that accepts everything, the reflector, the watch cache and
the filter of the cached watch. -/

namespace LeanKube.Etcd3
open Storage Caching

structure Event where
  key : String
  value : List UInt8
  prevValue : List UInt8
  rev : Int64
  isDeleted : Bool
  isCreated : Bool
  deriving DecidableEq

variable {α : Type}

/-- Decoding the bytes stored under a key: the transformer's `TransformFromStorage`, then the
codec's `Decode`. -/
abbrev Decoder (α : Type) := String → List UInt8 → α

def decodeObj (decode : Decoder α) (key : String) (data : List UInt8) (rev : Int64) : Object α :=
  updateObject ⟨decode key data, ""⟩ rev.toUInt64

structure WatchChan (α : Type) where
  internalPred : SelectionPredicate α

def createWatchChan (pred : SelectionPredicate α) : WatchChan α :=
  ⟨if pred.isEmpty then .everything pred.getAttrs else pred⟩

namespace WatchChan
variable (wc : WatchChan α) (decode : Decoder α)

def filter (obj : Option (Object α)) : Bool :=
  if wc.internalPred.isEmpty then true
  else
    match obj.map wc.internalPred.matchesObject with
    | some (.ok matched) => matched
    | _ => false

def acceptAll : Bool := wc.internalPred.isEmpty

/-- `prepareObjs`: the current and the previous object, the latter only where it is needed. -/
def prepareObjs (e : Event) : Option (Object α) × Option (Object α) :=
  let curObj := if !e.isDeleted then some (decodeObj decode e.key e.value e.rev) else none
  let oldObj :=
    if e.prevValue.length > 0 && (e.isDeleted || !wc.acceptAll) then
      some (decodeObj decode e.key e.prevValue e.rev)
    else none
  (curObj, oldObj)

def transform (e : Event) : Option (EventType × Option (Object α)) :=
  let (curObj, oldObj) := wc.prepareObjs decode e
  if e.isDeleted then
    if !wc.filter oldObj then none else some (.deleted, oldObj)
  else if e.isCreated then
    if !wc.filter curObj then none else some (.added, curObj)
  else if wc.acceptAll then some (.modified, curObj)
  else
    let curObjPasses := wc.filter curObj
    let oldObjPasses := wc.filter oldObj
    if curObjPasses && oldObjPasses then some (.modified, curObj)
    else if curObjPasses && !oldObjPasses then some (.added, curObj)
    else if !curObjPasses && oldObjPasses then some (.deleted, oldObj)
    else none

end WatchChan

/-- The call that the reflector makes for an event (`watchHandler`); it skips an event without an
object. -/
def reflect : EventType × Option (Object α) → Option (Op α)
  | (.added, some object) => some (.add object)
  | (.modified, some object) => some (.update object)
  | (.deleted, some object) => some (.delete object)
  | _ => none

def cacherOp (R : Resource α) (decode : Decoder α) (e : Event) : Option (Op α) :=
  ((createWatchChan (.everything R.getAttrs)).transform decode e).bind reflect

variable {R : Resource α} {capacity : Nat} (decode : Decoder α) (w : WatchCache R capacity)

def feed (e : Event) : WatchCache R capacity :=
  (cacherOp R decode e).elim w fun op => (w.apply op).cache

def cachedEvents (filter : FilterFunc) (e : Event) : List (WatchEvent α) :=
  (cacherOp R decode e).elim [] fun op => w.sent filter op

def predicateFunc (R : Resource α) (label : LabelSelector) (field : FieldSelector)
    (includeUninitialized : Bool) (indexFields : List String) : SelectionPredicate α where
  label := label
  field := field
  includeUninitialized := includeUninitialized
  getAttrs := R.getAttrs
  indexFields := indexFields

/-! ### Histories of etcd keys -/

structure KeyValue where
  value : List UInt8
  modRevision : Int64
  deriving DecidableEq

abbrev Contents := GoMap String KeyValue

inductive Change where
  | put (key : String) (value : List UInt8) (rev : Int64)
  | delete (key : String) (rev : Int64)
  deriving DecidableEq

namespace Change

def key : Change → String
  | put key _ _ => key
  | delete key _ => key

variable (contents : Contents)

def event : Change → Event
  | put key value rev =>
    { key, value, rev
      prevValue := (contents.lookup key).elim [] KeyValue.value
      isDeleted := false
      isCreated := (contents.lookup key).isNone }
  | delete key rev =>
    { key, rev
      value := []
      prevValue := (contents.lookup key).elim [] KeyValue.value
      isDeleted := true
      isCreated := false }

def next : Change → Contents
  | put key value rev => contents.insert key ⟨value, rev⟩
  | delete key _ => contents.erase key

end Change

/-- What the registry stores under `key`: bytes of an object of the resource with that key. -/
structure Stored (R : Resource α) (decode : Decoder α) (key : String) (value : List UInt8) : Prop where
  nonempty : value ≠ []
  keyed : R.keyFunc (decode key value) = .ok key
  attributed : ∃ attrs, R.getAttrs (decode key value) = .ok attrs

def Change.Valid (R : Resource α) (decode : Decoder α) (contents : Contents) : Change → Prop
  | put key value _ => Stored R decode key value
  | delete key _ => key ∈ contents

/-- What etcd holds, and the cache fed from its watch. -/
structure Mirrored (R : Resource α) (capacity : Nat) where
  contents : Contents
  cache : WatchCache R capacity

def Mirrored.next (s : Mirrored R capacity) (change : Change) : Mirrored R capacity :=
  ⟨change.next s.contents, feed decode s.cache (change.event s.contents)⟩

def mirrorSystem (R : Resource α) (capacity : Nat) (decode : Decoder α) : System (Mirrored R capacity) Change :=
  System.ofFun (fun s change => change.Valid R decode s.contents) (Mirrored.next decode)

/-- A watch on `key` covers `objKey`: the key itself, or for a recursive watch what is below it. -/
def watches (recursive : Bool) (key objKey : String) : Bool :=
  if recursive then
    (if key.toList.getLast? = some '/' then key.toList else key.toList ++ ['/']).isPrefixOf
      objKey.toList
  else objKey = key

end LeanKube.Etcd3
