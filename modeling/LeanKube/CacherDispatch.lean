import LeanKube.CacherFilter
import LeanKube.WatchCacheWindow
import Mathlib.Data.PNat.Basic

/-! The cacher (`storage/cacher/cacher.go`): the watch cache puts each event on a buffered channel
under its lock, one goroutine takes the events off and hands them to the registered watchers under
the cacher's lock, and each watcher has a goroutine that sends its initial events and then its
buffered ones. The steps of the system are the points at which these goroutines can interleave. -/

namespace LeanKube.Caching
open Storage
variable {α : Type}

/-! ### Watchers -/

/-- `cacheWatcher`, with the state of its goroutine `process`: the initial events not yet sent, and
the events that were given to `sendWatchCacheEvent`, oldest first. -/
structure CacheWatcher (α : Type) where
  chanSize : ℕ+
  input : List (WatchCacheEvent α)
  initEvents : List (WatchCacheEvent α)
  resourceVersion : UInt64
  filter : FilterFunc
  triggerValue : String
  triggerSupported : Bool
  handed : List (WatchCacheEvent α)
  stopped : Bool

def newCacheWatcher (resourceVersion : UInt64) (chanSize : ℕ+)
    (initEvents : List (WatchCacheEvent α)) (filter : FilterFunc) (triggerValue : String)
    (triggerSupported : Bool) : CacheWatcher α where
  chanSize := chanSize
  input := []
  initEvents := initEvents
  resourceVersion := resourceVersion
  filter := filter
  triggerValue := triggerValue
  triggerSupported := triggerSupported
  handed := []
  stopped := false

variable (c : CacheWatcher α)

/-- One iteration of a loop of `process`: the initial events first, then those of the input channel
that are newer than the initial ones. -/
def CacheWatcher.process : CacheWatcher α :=
  match c.initEvents, c.input with
  | event :: rest, _ => { c with initEvents := rest, handed := c.handed ++ [event] }
  | [], event :: rest =>
    if event.resourceVersion > c.resourceVersion then
      { c with input := rest, handed := c.handed ++ [event] }
    else { c with input := rest }
  | [], [] => c

structure IndexedWatchers where
  allWatchers : Finset Nat
  valueWatchers : GoMap String (Finset Nat)

namespace IndexedWatchers
variable (i : IndexedWatchers)

def values (value : String) : Finset Nat := (i.valueWatchers.lookup value).getD ∅

def addWatcher (number : Nat) (value : String) (supported : Bool) : IndexedWatchers :=
  if supported then
    { i with valueWatchers := i.valueWatchers.insert value (insert number (i.values value)) }
  else { i with allWatchers := insert number i.allWatchers }

def deleteWatcher (number : Nat) (value : String) (supported : Bool) : IndexedWatchers :=
  if supported then
    let rest := (i.values value).erase number
    { i with
      valueWatchers := if rest = ∅ then i.valueWatchers.erase value else i.valueWatchers.insert value rest }
  else { i with allWatchers := i.allWatchers.erase number }

end IndexedWatchers

variable (triggerFunc : TriggerFunc α)

/-- `triggerValues`: the index values of an event's object and of the object it replaces. -/
def triggerValues (event : WatchCacheEvent α) : List String × Bool :=
  match triggerFunc with
  | none => ([], false)
  | some publish =>
    let current := ((publish event.object).head?.map MatchValue.value).toList
    let previous := (event.prevObject.bind fun prev => (publish prev).head?.map MatchValue.value).toList
    let result := current ++ previous.filter fun value => current.head? ≠ some value
    (result, result.length > 0)

/-! ### The system -/

/-- A watcher with what its user asked for: the version it starts from, the objects it is shown
first, and how many events had been processed when it was opened. -/
structure Session (α : Type) extends CacheWatcher α where
  start : UInt64
  opening : List (WatchCacheEvent α)
  joined : Nat

/-- The goroutine `dispatchEvents`: waiting, holding an event, or handing it to the watchers that
are left while it holds the cacher's lock. -/
inductive Dispatcher (α : Type) where
  | idle
  | received (event : WatchCacheEvent α)
  | dispatching (event : WatchCacheEvent α) (remaining : List Nat)

structure Cacher (R : Resource α) (capacity : Nat) where
  watchCache : Traced R capacity
  incoming : List (WatchCacheEvent α)
  dispatcher : Dispatcher α
  watchers : IndexedWatchers
  sessions : List (Session α)

def incomingSize : Nat := 100

variable {R : Resource α} {capacity : Nat}

def addedEvent (w : WatchCache R capacity) (elem : StoreElement R) : WatchCacheEvent α where
  type := .added
  object := elem.object
  objLabels := elem.labels
  objFields := elem.fields
  objUninitialized := elem.uninitialized
  prevObject := none
  prevObjLabels := ∅
  prevObjFields := ∅
  prevObjUninitialized := false
  key := elem.key
  resourceVersion := w.resourceVersion

structure WatchRequest (α : Type) where
  key : String
  resourceVersion : String
  pred : SelectionPredicate α
  order : List String

namespace Cacher
variable (c : Cacher R capacity)

def start (watchCache : Traced R capacity) : Cacher R capacity where
  watchCache := watchCache
  incoming := []
  dispatcher := .idle
  watchers := ⟨∅, ∅⟩
  sessions := []

variable (event : WatchCacheEvent α)

def targets : Finset Nat :=
  let trigger := triggerValues R.triggerFunc event
  if trigger.2 then c.watchers.allWatchers ∪ trigger.1.toFinset.biUnion c.watchers.values
  else c.watchers.allWatchers ∪ c.watchers.valueWatchers.keys.biUnion c.watchers.values

variable (number : Nat)

def modify (f : Session α → Session α) : Cacher R capacity :=
  { c with sessions := c.sessions.modify number f }

def add : Cacher R capacity :=
  c.modify number fun session => { session with input := session.input ++ [event] }

def terminate : Cacher R capacity :=
  match c.sessions[number]? with
  | none => c
  | some session =>
    { c.modify number fun session => { session with stopped := true } with
      watchers := c.watchers.deleteWatcher number session.triggerValue session.triggerSupported }

variable (req : WatchRequest α)

def open? : Option (Session α) :=
  match parseResourceVersion req.resourceVersion with
  | .error _ => none
  | .ok watchRV =>
    match c.watchCache.cache.getAllEventsSince req.order watchRV with
    | .error _ => none
    | .ok initEvents =>
      let trigger := req.pred.matcherIndex.head?
      let chanSize := if R.triggerFunc.isSome && trigger.isNone then 1000 else 10
      let sentRV := (initEvents.getLast?.map WatchCacheEvent.resourceVersion).getD watchRV
      some
        { toCacheWatcher := newCacheWatcher sentRV chanSize initEvents
            (filterWithAttrsFunction req.key req.pred)
            ((trigger.map MatchValue.value).getD "") trigger.isSome
          start := if watchRV = 0 then c.watchCache.cache.resourceVersion else watchRV
          opening :=
            if watchRV = 0 then
              (c.watchCache.cache.list req.order).map (addedEvent c.watchCache.cache)
            else []
          joined := c.watchCache.since.length }

def watch : Cacher R capacity :=
  match c.open? req with
  | none => c
  | some session =>
    { c with
      sessions := c.sessions ++ [session]
      watchers := c.watchers.addWatcher c.sessions.length session.triggerValue session.triggerSupported }

end Cacher

inductive CacherStep (α : Type) where
  /-- The watch cache processes an event and puts it on `incoming`. -/
  | event (op : Op α)
  /-- The dispatcher takes an event off `incoming`. -/
  | receive
  /-- The dispatcher takes the cacher's lock and goes through the watchers in the order `order`. -/
  | lock (order : List Nat)
  | add
  /-- The next watcher does not accept the event in time and is terminated. -/
  | timeout
  | unlock
  /-- `Watch`; it holds the lock of the watch cache throughout, and takes the cacher's to register. -/
  | watch (req : WatchRequest α)
  | process (number : Nat)
  | stop (number : Nat)

namespace Cacher
variable (c : Cacher R capacity)

def unlocked : Bool :=
  match c.dispatcher with
  | .dispatching _ _ => false
  | _ => true

def enabled : CacherStep α → Bool
  | .event op => op.IsEvent ∧ c.watchCache.Increasing op ∧
      c.incoming.length + (c.watchCache.cache.apply op).events.length ≤ incomingSize
  | .receive =>
    match c.dispatcher, c.incoming with
    | .idle, _ :: _ => true
    | _, _ => false
  | .lock order =>
    match c.dispatcher with
    | .received event => order.Nodup ∧ order.toFinset = c.targets event
    | _ => false
  | .add =>
    match c.dispatcher with
    | .dispatching _ (number :: _) => ∀ session ∈ c.sessions[number]?, session.input.length < session.chanSize
    | _ => false
  | .timeout =>
    match c.dispatcher with
    | .dispatching _ (_ :: _) => true
    | _ => false
  | .unlock =>
    match c.dispatcher with
    | .dispatching _ [] => true
    | _ => false
  | .watch req => c.unlocked ∧ c.watchCache.cache.store.items.Ranges req.order
  | .process number => number < c.sessions.length
  | .stop _ => c.unlocked

def next : CacherStep α → Cacher R capacity
  | .event op =>
    { c with
      watchCache := c.watchCache.next op
      incoming := c.incoming ++ (c.watchCache.cache.apply op).events }
  | .receive =>
    match c.incoming with
    | event :: rest => { c with incoming := rest, dispatcher := .received event }
    | [] => c
  | .lock order =>
    match c.dispatcher with
    | .received event => { c with dispatcher := .dispatching event order }
    | _ => c
  | .add =>
    match c.dispatcher with
    | .dispatching event (number :: rest) => { c.add event number with dispatcher := .dispatching event rest }
    | _ => c
  | .timeout =>
    match c.dispatcher with
    | .dispatching event (number :: rest) => { c.terminate number with dispatcher := .dispatching event rest }
    | _ => c
  | .unlock => { c with dispatcher := .idle }
  | .watch req => c.watch req
  | .process number => c.modify number fun session => { session with toCacheWatcher := session.process }
  | .stop number => c.terminate number

end Cacher

def cacherSystem (R : Resource α) (capacity : Nat) : System (Cacher R capacity) (CacherStep α) :=
  System.ofFun (fun c step => c.enabled step = true) (Cacher.next)

end LeanKube.Caching
