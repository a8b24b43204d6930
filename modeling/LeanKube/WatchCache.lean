import LeanKube.ClientStore
import LeanKube.CyclicBuffer
import LeanKube.SortSearch
import LeanKube.StorageSelection

/-! The watch cache of the API server (`storage/cacher/watch_cache.go`): the current objects of a
resource together with a sliding window of the events that led to them. -/

namespace LeanKube.Caching
open Storage

/-- `watchCacheEvent`: an event with the attributes of its object and the object it replaces. -/
structure WatchCacheEvent (α : Type) where
  type : EventType
  object : Object α
  objLabels : AttrSet
  objFields : AttrSet
  objUninitialized : Bool
  prevObject : Option (Object α)
  prevObjLabels : AttrSet
  prevObjFields : AttrSet
  prevObjUninitialized : Bool
  key : String
  resourceVersion : UInt64
  deriving DecidableEq

/-- `storeElement`: an object with its key and attributes, which are those of the resource. -/
structure StoreElement {α : Type} (R : Resource α) where
  key : String
  object : Object α
  labels : AttrSet
  fields : AttrSet
  uninitialized : Bool
  keyed : R.keyFunc object.content = .ok key
  attributed : R.getAttrs object.content = .ok (labels, fields, uninitialized)

structure WatchCacheElement (α : Type) where
  resourceVersion : UInt64
  watchCacheEvent : WatchCacheEvent α
  deriving DecidableEq

inductive EventsError where
  | gone (message : String)
  | plain (message : String)
  deriving DecidableEq, Repr

variable {α : Type}
variable {R : Resource α}

def storeElementKey (elem : StoreElement R) : Except String String := .ok elem.key

theorem storeElementKey_eq (elem : StoreElement R) : storeElementKey elem = .ok elem.key := rfl

abbrev ElementStore (R : Resource α) := Store (fun elem : StoreElement R => storeElementKey elem)

/-- `watchCache`: the fields `cache`, `startIndex` and `endIndex` are those of the buffer. -/
structure WatchCache (R : Resource α) (capacity : Nat) extends
    CyclicBuffer (WatchCacheElement α) capacity where
  store : ElementStore R
  resourceVersion : UInt64
  listResourceVersion : UInt64

/-- What a call to the watch cache leaves behind: the cache, the events handed to `onEvent`, and
the error returned. -/
structure Outcome (R : Resource α) (capacity : Nat) where
  cache : WatchCache R capacity
  events : List (WatchCacheEvent α)
  err : Option String

def newStoreElement (R : Resource α) (object : Object α) : Except String (StoreElement R) :=
  match hkey : R.keyFunc object.content with
  | .error err => .error ("couldn't compute key: " ++ err)
  | .ok key =>
    match hattrs : R.getAttrs object.content with
    | .error err => .error err
    | .ok (labels, fields, uninitialized) => .ok ⟨key, object, labels, fields, uninitialized, hkey, hattrs⟩

/-- The event that `processEvent` builds for `elem`, `previous` being the element it replaces. -/
def newWatchCacheEvent (type : EventType) (elem : StoreElement R)
    (previous : Option (StoreElement R)) (resourceVersion : UInt64) : WatchCacheEvent α where
  type := type
  object := elem.object
  objLabels := elem.labels
  objFields := elem.fields
  objUninitialized := elem.uninitialized
  prevObject := previous.map StoreElement.object
  prevObjLabels := previous.elim ∅ StoreElement.labels
  prevObjFields := previous.elim ∅ StoreElement.fields
  prevObjUninitialized := previous.elim false StoreElement.uninitialized
  key := elem.key
  resourceVersion := resourceVersion

namespace WatchCache
variable {R : Resource α} {capacity : Nat}

def new (R : Resource α) (capacity : Nat) (pos : 0 < capacity) : WatchCache R capacity where
  toCyclicBuffer := .empty _ capacity pos
  store := .new _
  resourceVersion := 0
  listResourceVersion := 0

variable (w : WatchCache R capacity)

def updateCache (resourceVersion : UInt64) (event : WatchCacheEvent α) : WatchCache R capacity :=
  { w with toCyclicBuffer := w.toCyclicBuffer.push ⟨resourceVersion, event⟩ }

def processEvent (type : EventType) (object : Object α) (resourceVersion : UInt64)
    (updateFunc : ElementStore R → StoreElement R →
      Except (KeyError (StoreElement R)) (ElementStore R)) : Outcome R capacity :=
  match newStoreElement R object with
  | .error err => ⟨w, [], some err⟩
  | .ok elem =>
    match w.store.get elem with
    | .error err => ⟨w, [], some err.err⟩
    | .ok previous =>
      let event := newWatchCacheEvent type elem previous resourceVersion
      let updated := { w.updateCache resourceVersion event with resourceVersion }
      match updateFunc updated.store elem with
      | .error err => ⟨updated, [event], some err.err⟩
      | .ok store => ⟨{ updated with store }, [event], none⟩

variable (object : Object α)

def add : Outcome R capacity :=
  match objectResourceVersion object with
  | .error err => ⟨w, [], some err⟩
  | .ok resourceVersion => w.processEvent .added object resourceVersion Store.add

def update : Outcome R capacity :=
  match objectResourceVersion object with
  | .error err => ⟨w, [], some err⟩
  | .ok resourceVersion => w.processEvent .modified object resourceVersion Store.update

def delete : Outcome R capacity :=
  match objectResourceVersion object with
  | .error err => ⟨w, [], some err⟩
  | .ok resourceVersion => w.processEvent .deleted object resourceVersion Store.delete

def replace (objs : List (Object α)) (resourceVersion : String) : Outcome R capacity :=
  match parseResourceVersion resourceVersion with
  | .error err => ⟨w, [], some err⟩
  | .ok version =>
    match objs.mapM (newStoreElement R) with
    | .error err => ⟨w, [], some err⟩
    | .ok toReplace =>
      let cleared := { w with toCyclicBuffer := w.toCyclicBuffer.clear }
      match Store.replace toReplace with
      | .error err => ⟨cleared, [], some err.err⟩
      | .ok store =>
        ⟨{ cleared with store, resourceVersion := version, listResourceVersion := version }, [], none⟩

def versionAt (i : Nat) : UInt64 := (w.get? i).elim 0 WatchCacheElement.resourceVersion

def oldest : Except EventsError UInt64 :=
  if w.size ≥ capacity then .ok (w.versionAt 0)
  else if w.listResourceVersion > 0 then .ok (w.listResourceVersion + 1)
  else if w.size > 0 then .ok (w.versionAt 0)
  else .error (.plain "watch cache isn't correctly initialized")

def initialEvent (elem : StoreElement R) : Except EventsError (WatchCacheEvent α) :=
  match R.getAttrs elem.object.content with
  | .error err => .error (.plain err)
  | .ok (objLabels, objFields, objUninitialized) =>
    .ok
      { type := .added
        object := elem.object
        objLabels, objFields, objUninitialized
        prevObject := none
        prevObjLabels := ∅
        prevObjFields := ∅
        prevObjUninitialized := false
        key := elem.key
        resourceVersion := w.resourceVersion }

variable (order : List String)

def list : List (StoreElement R) := order.filterMap w.store.getByKey

def getAllEventsSince (resourceVersion : UInt64) : Except EventsError (List (WatchCacheEvent α)) :=
  match w.oldest with
  | .error err => .error err
  | .ok oldest =>
    if resourceVersion = 0 then (w.list order).mapM w.initialEvent
    else if resourceVersion < oldest - 1 then
      .error (.gone ("too old resource version: " ++ Strconv.formatUint resourceVersion ++ " (" ++
        Strconv.formatUint (oldest - 1) ++ ")"))
    else
      let first := Sort.search w.size fun i => w.versionAt i > resourceVersion
      .ok ((w.slice first).map WatchCacheElement.watchCacheEvent)

end WatchCache

inductive Op (α : Type) where
  | add (object : Object α)
  | update (object : Object α)
  | delete (object : Object α)
  | replace (objs : List (Object α)) (resourceVersion : String)
  deriving DecidableEq

def Op.event? : Op α → Option (WatchEvent α)
  | .add object => some ⟨.added, object⟩
  | .update object => some ⟨.modified, object⟩
  | .delete object => some ⟨.deleted, object⟩
  | .replace _ _ => none

namespace WatchCache
variable {R : Resource α} {capacity : Nat} (w : WatchCache R capacity)

def apply : Op α → Outcome R capacity
  | .add object => w.add object
  | .update object => w.update object
  | .delete object => w.delete object
  | .replace objs resourceVersion => w.replace objs resourceVersion

/-! ### What a call does -/

variable (type : EventType) (elem : StoreElement R)

def storeAfter : ElementStore R :=
  if type = .deleted then w.store.remove elem.key
  else w.store.set elem.key elem (storeElementKey_eq elem)

variable (resourceVersion : UInt64)

def eventFor : WatchCacheEvent α :=
  newWatchCacheEvent type elem (w.store.getByKey elem.key) resourceVersion

def record : WatchCache R capacity where
  toCyclicBuffer := w.toCyclicBuffer.push ⟨resourceVersion, w.eventFor type elem resourceVersion⟩
  store := w.storeAfter type elem
  resourceVersion := resourceVersion
  listResourceVersion := w.listResourceVersion

def relisted (store : ElementStore R) (version : UInt64) : WatchCache R capacity where
  toCyclicBuffer := w.toCyclicBuffer.clear
  store := store
  resourceVersion := version
  listResourceVersion := version

/-- The three things a call can do: fail without effect, record one event, or take over a list. -/
inductive Effect : Op α → Outcome R capacity → Prop where
  | failed (op : Op α) (err : String) : Effect op ⟨w, [], some err⟩
  | recorded (op : Op α) (type : EventType) (elem : StoreElement R) (resourceVersion : UInt64)
      (hop : op.event? = some ⟨type, elem.object⟩)
      (hversion : objectResourceVersion elem.object = .ok resourceVersion) :
      Effect op ⟨w.record type elem resourceVersion, [w.eventFor type elem resourceVersion], none⟩
  | relisted (objs : List (Object α)) (resourceVersion : String) (version : UInt64)
      (store : ElementStore R) (hversion : parseResourceVersion resourceVersion = .ok version) :
      Effect (.replace objs resourceVersion) ⟨w.relisted store version, [], none⟩

end WatchCache

theorem newStoreElement_object {R : Resource α} {object : Object α} {elem : StoreElement R}
    (h : newStoreElement R object = .ok elem) : elem.object = object := by
  unfold newStoreElement at h
  split at h
  · cases h
  · split at h
    · cases h
    · rw [← Except.ok.inj h]

namespace WatchCache
variable {R : Resource α} {capacity : Nat} (w : WatchCache R capacity)

theorem getByKey_storeAfter (type : EventType) (elem : StoreElement R) (key : String) :
    (w.storeAfter type elem).getByKey key =
      if key = elem.key then (if type = .deleted then none else some elem) else w.store.getByKey key := by
  rw [storeAfter]
  by_cases hdel : type = .deleted
  · rw [if_pos hdel, if_pos hdel, Store.getByKey_remove]
  · rw [if_neg hdel, if_neg hdel, Store.getByKey_set]

theorem processEvent_eq {type : EventType}
    {updateFunc : ElementStore R → StoreElement R → Except (KeyError (StoreElement R)) (ElementStore R)}
    (hupd : ∀ elem, updateFunc w.store elem = .ok (w.storeAfter type elem))
    (object : Object α) (resourceVersion : UInt64) :
    w.processEvent type object resourceVersion updateFunc =
      match newStoreElement R object with
      | .error err => ⟨w, [], some err⟩
      | .ok elem => ⟨w.record type elem resourceVersion, [w.eventFor type elem resourceVersion], none⟩ := by
  unfold processEvent
  cases newStoreElement R object with
  | error => rfl
  | ok elem =>
    have hget : w.store.get elem = .ok (w.store.getByKey elem.key) := rfl
    simp only [hget, updateCache, hupd]
    rfl

theorem apply_of_event {op : Op α} {type : EventType} {object : Object α} (hop : op.event? = some ⟨type, object⟩) :
    w.apply op =
      match objectResourceVersion object with
      | .error err => ⟨w, [], some err⟩
      | .ok resourceVersion =>
        match newStoreElement R object with
        | .error err => ⟨w, [], some err⟩
        | .ok elem => ⟨w.record type elem resourceVersion, [w.eventFor type elem resourceVersion], none⟩ := by
  cases op with
  | add =>
    cases hop
    show w.add object = _
    unfold add
    rw [funext fun version => w.processEvent_eq (fun _ => rfl) object version]
  | update =>
    cases hop
    show w.update object = _
    unfold update
    rw [funext fun version => w.processEvent_eq (fun _ => rfl) object version]
  | delete =>
    cases hop
    show w.delete object = _
    unfold delete
    rw [funext fun version => w.processEvent_eq (fun _ => rfl) object version]
  | replace => cases hop

theorem exists_replaceItems (elems : List (StoreElement R)) (store : ElementStore R) :
    ∃ store', Store.replaceItems _ elems store = .ok store' := by
  induction elems generalizing store with
  | nil => exact ⟨store, rfl⟩
  | cons elem _ ih => exact ih (store.set elem.key elem (storeElementKey_eq elem))

theorem effect_apply (op : Op α) : w.Effect op (w.apply op) := by
  cases hop : op.event? with
  | some event =>
    obtain ⟨type, object⟩ := event
    rw [w.apply_of_event hop]
    cases hver : objectResourceVersion object with
    | error err => exact .failed op err
    | ok resourceVersion =>
      cases helem : newStoreElement R object with
      | error err => exact .failed op err
      | ok elem =>
        obtain rfl := newStoreElement_object helem
        exact .recorded op type elem resourceVersion hop hver
  | none =>
    cases op with
    | replace objs resourceVersion =>
      show w.Effect _ (w.replace objs resourceVersion)
      unfold replace
      cases hver : parseResourceVersion resourceVersion with
      | error err => exact .failed _ err
      | ok version =>
        cases helems : objs.mapM (newStoreElement R) with
        | error err => exact .failed _ err
        | ok elems =>
          obtain ⟨store, hstore⟩ := exists_replaceItems elems (.new _)
          have hreplace : Store.replace elems = .ok store := hstore
          simp only [hreplace]
          exact .relisted objs resourceVersion version store hver
    | _ => cases hop

end WatchCache
end LeanKube.Caching
