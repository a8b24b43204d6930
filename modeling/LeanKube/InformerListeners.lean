import LeanKube.InformerHandleDeltas

/-! The event handlers of a shared informer (`sharedProcessor` and `processorListener` in
`tools/cache/shared_informer.go`). A call of `HandleDeltas` is cut where other goroutines may come in between: at
each delta, before `distribute` takes its lock, and at each notification that is sent to a listener. Periods are in
nanoseconds, as are times. -/

namespace LeanKube.Informer
open List
variable {α : Type}

/-! ### Listeners -/

structure ProcessorListener (α : Type) where
  requestedResyncPeriod : Int64
  resyncPeriod : Int64
  nextResync : Int
  /-- What `pop` offers to `run`. -/
  notification : Option (Notification α)
  /-- The ring buffer of `pop`. -/
  pendingNotifications : List (Notification α)
  /-- What `run` has received and has not yet handed to the handler. -/
  received : Option (Notification α)
  calls : List (Notification α)
  pending_nil : notification = none → pendingNotifications = []

def determineResyncPeriod (desired check : Int64) : Int64 :=
  if desired = 0 then desired
  else if check = 0 then 0
  else if desired < check then check
  else desired

namespace ProcessorListener

def new (requestedResyncPeriod resyncPeriod : Int64) (now : Int) : ProcessorListener α where
  requestedResyncPeriod := requestedResyncPeriod
  resyncPeriod := resyncPeriod
  nextResync := now + resyncPeriod.toInt
  notification := none
  pendingNotifications := []
  received := none
  calls := []
  pending_nil _ := rfl

variable (l : ProcessorListener α)

def add (notificationToAdd : Notification α) : ProcessorListener α :=
  match hnotification : l.notification with
  | none => { l with notification := some notificationToAdd, pending_nil := nofun }
  | some _ =>
    { l with
      pendingNotifications := l.pendingNotifications ++ [notificationToAdd]
      pending_nil := fun hnone => nomatch hnotification.symm.trans hnone }

def dispatch : ProcessorListener α :=
  { l with
    received := l.notification
    notification := l.pendingNotifications.head?
    pendingNotifications := l.pendingNotifications.tail
    pending_nil := fun hnone => by rw [List.head?_eq_none_iff.mp hnone]; rfl }

def call : ProcessorListener α :=
  { l with received := none, calls := l.calls ++ l.received.toList }

def shouldResync (now : Int) : Bool := l.resyncPeriod ≠ 0 && l.nextResync ≤ now

def determineNextResync (now : Int) : ProcessorListener α :=
  { l with nextResync := now + l.resyncPeriod.toInt }

def setResyncPeriod (resyncPeriod : Int64) : ProcessorListener α :=
  { l with resyncPeriod := resyncPeriod }

end ProcessorListener

/-! ### The processor -/

structure SharedProcessor (α : Type) where
  listenersStarted : Bool
  listeners : List (ProcessorListener α)
  syncingListeners : List Nat
  syncing_nodup : syncingListeners.Nodup
  syncing_lt : ∀ i ∈ syncingListeners, i < listeners.length

namespace SharedProcessor

def new : SharedProcessor α := ⟨false, [], [], .nil, nofun⟩

variable (p : SharedProcessor α)

def addListener (listener : ProcessorListener α) : SharedProcessor α where
  listenersStarted := p.listenersStarted
  listeners := p.listeners ++ [listener]
  syncingListeners := p.syncingListeners ++ [p.listeners.length]
  syncing_nodup := by
    rw [nodup_append]
    refine ⟨p.syncing_nodup, nodup_singleton _, fun i hi j hj => ?_⟩
    rw [mem_singleton.mp hj]
    exact (p.syncing_lt i hi).ne
  syncing_lt i hi := by
    rw [length_append, length_singleton]
    rcases mem_append.mp hi with hi | hi
    · exact (p.syncing_lt i hi).trans (Nat.lt_succ_self _)
    · rw [mem_singleton.mp hi]
      exact Nat.lt_succ_self _

def modify (i : Nat) (f : ProcessorListener α → ProcessorListener α) : SharedProcessor α :=
  { p with
    listeners := p.listeners.modify i f
    syncing_lt := fun j hj => by rw [length_modify]; exact p.syncing_lt j hj }

def targets (sync : Bool) : List Nat :=
  if sync then p.syncingListeners else List.range p.listeners.length

def shouldResync (now : Int) : SharedProcessor α × Bool :=
  ({ listenersStarted := p.listenersStarted
     listeners := p.listeners.map fun listener =>
       if listener.shouldResync now then listener.determineNextResync now else listener
     syncingListeners := (List.range p.listeners.length).filter fun i =>
       p.listeners[i]?.any fun listener => listener.shouldResync now
     syncing_nodup := nodup_range.filter _
     syncing_lt := fun i hi => by
       rw [length_map]
       exact mem_range.mp (mem_of_mem_filter hi) },
    p.listeners.any fun listener => listener.shouldResync now)

def resyncCheckPeriodChanged (resyncCheckPeriod : Int64) : SharedProcessor α :=
  { p with
    listeners := p.listeners.map fun listener =>
      listener.setResyncPeriod (determineResyncPeriod listener.requestedResyncPeriod resyncCheckPeriod)
    syncing_lt := fun i hi => by rw [length_map]; exact p.syncing_lt i hi }

end SharedProcessor

/-! ### The informer -/

/-- `Pop`, to the call of the function it is given: the queue that is left, and what is popped. `HandleDeltas` asks
for no requeue, so that nothing is left to do after it. -/
def DeltaFIFO.take (f : DeltaFIFO α) : DeltaFIFO α × Option (Deltas α) :=
  let process (item : Deltas α) (_ : Option (Deltas α)) : Option (Deltas α) × Option (ProcessError Unit) :=
    (some item, none)
  let (_, f, item) := f.pop process none
  (f, item)

inductive BlockDeltas (α : Type) where
  | free
  /-- `HandleDeltas`, with the deltas that are left. -/
  | handling (deltas : Deltas α)
  /-- `HandleDeltas` has changed the indexer, and calls `distribute`. -/
  | distributing (notification : Notification α) (sync : Bool) (rest : Deltas α)
  /-- `distribute` holds the lock of the listeners, and sends to those that are left. -/
  | sending (targets : List Nat) (notification : Notification α) (rest : Deltas α)
  /-- `AddEventHandler` sends an `OnAdd` for each object that is left to the new listener. -/
  | joining (listener : Nat) (items : List (Object α))

variable (accessor : α → Except String ObjectMeta)

structure SharedInformer extends SharedIndexInformer accessor where
  started : Bool
  resyncCheckPeriod : Int64
  processor : SharedProcessor α
  blockDeltas : BlockDeltas α

inductive Event (α : Type) where
  /-- `AddEventHandlerWithResyncPeriod`; `List` ranges over the indexer in the given order. -/
  | addEventHandler (resyncPeriod : Int64) (now : Int) (order : List String)
  /-- `Run` of the informer. -/
  | run
  /-- `run` of the processor starts the listeners. -/
  | startListeners
  /-- A call on the queue other than `Pop`. -/
  | produce (op : Op α)
  /-- `Pop` takes deltas and calls `HandleDeltas`. -/
  | pop
  /-- The next turn of the loop of `HandleDeltas`, or its end. -/
  | handle
  /-- `distribute` takes the lock of the listeners. -/
  | distribute
  /-- A notification is sent to a listener, or the loop that sends ends. -/
  | send
  | shouldResync (now : Int)
  /-- A listener's `pop` hands a notification to `run`. -/
  | dispatch (listener : Nat)
  /-- A listener's `run` calls the handler. -/
  | call (listener : Nat)

namespace SharedInformer
variable {accessor}

def new (accessor : α → Except String ObjectMeta) (resyncCheckPeriod : Int64) : SharedInformer accessor where
  toSharedIndexInformer := .start accessor (Store.new _)
  started := false
  resyncCheckPeriod := resyncCheckPeriod
  processor := .new
  blockDeltas := .free

def minimumResyncPeriod : Int64 := 1000000000

variable (s : SharedInformer accessor) (resyncPeriod : Int64)

/-- The first part of `AddEventHandlerWithResyncPeriod`: the period of the new listener, and the informer with the
periods of the others adjusted. -/
def adjustPeriods : SharedInformer accessor × Int64 :=
  if resyncPeriod > 0 then
    let resyncPeriod := if resyncPeriod < minimumResyncPeriod then minimumResyncPeriod else resyncPeriod
    if resyncPeriod < s.resyncCheckPeriod then
      if s.started then (s, s.resyncCheckPeriod)
      else
        ({ s with
            resyncCheckPeriod := resyncPeriod
            processor := s.processor.resyncCheckPeriodChanged resyncPeriod }, resyncPeriod)
    else (s, resyncPeriod)
  else (s, resyncPeriod)

def list (order : List String) : List (Object α) :=
  order.filterMap s.indexer.items.lookup

def addEventHandler (now : Int) (order : List String) : SharedInformer accessor :=
  let (s, resyncPeriod) := s.adjustPeriods resyncPeriod
  let listener := .new resyncPeriod (determineResyncPeriod resyncPeriod s.resyncCheckPeriod) now
  let added := { s with processor := s.processor.addListener listener }
  if !s.started then added
  else { added with blockDeltas := .joining s.processor.listeners.length (s.list order) }

def handle : SharedInformer accessor :=
  match s.blockDeltas with
  | .handling [] => { s with blockDeltas := .free }
  | .handling (d :: rest) =>
    match handleDeltas accessor [d] s.indexer with
    | (indexer, [(notification, sync)], none) =>
      { s with
        indexer := indexer
        distributed := s.distributed ++ [(notification, sync)]
        blockDeltas := .distributing notification sync rest }
    | (indexer, _, _) => { s with indexer := indexer, blockDeltas := .free }
  | _ => s

def distribute : SharedInformer accessor :=
  match s.blockDeltas with
  | .distributing notification sync rest =>
    { s with blockDeltas := .sending (s.processor.targets sync) notification rest }
  | _ => s

def send : SharedInformer accessor :=
  match s.blockDeltas with
  | .sending [] _ rest => { s with blockDeltas := .handling rest }
  | .sending (i :: targets) notification rest =>
    { s with
      processor := s.processor.modify i fun listener => listener.add notification
      blockDeltas := .sending targets notification rest }
  | .joining _ [] => { s with blockDeltas := .free }
  | .joining i (item :: items) =>
    { s with
      processor := s.processor.modify i fun listener => listener.add (.add item)
      blockDeltas := .joining i items }
  | _ => s

def next : Event α → SharedInformer accessor
  | .addEventHandler resyncPeriod now order => s.addEventHandler resyncPeriod now order
  | .run => { s with started := true }
  | .startListeners => { s with processor := { s.processor with listenersStarted := true } }
  | .produce op => { s with toSharedIndexInformer := s.toSharedIndexInformer.apply op }
  | .pop =>
    let (fifo, item) := s.fifo.take
    match item with
    | none => { s with fifo := fifo }
    | some deltas => { s with fifo := fifo, blockDeltas := .handling deltas }
  | .handle => s.handle
  | .distribute => s.distribute
  | .send => s.send
  | .shouldResync now => { s with processor := (s.processor.shouldResync now).1 }
  | .dispatch i => { s with processor := s.processor.modify i ProcessorListener.dispatch }
  | .call i => { s with processor := s.processor.modify i ProcessorListener.call }

/-- `Pop` holds the lock of the queue while `HandleDeltas` runs; `distribute` holds the lock of the listeners. A
listener receives and hands on when its goroutines have been started, and its handler is called with one
notification at a time. -/
def enabled : Event α → Bool
  | .addEventHandler _ _ order =>
    !s.started || (decide (s.indexer.items.Ranges order) && match s.blockDeltas with | .free => true | _ => false)
  | .run => !s.started
  | .startListeners => s.started && !s.processor.listenersStarted
  | .produce op =>
    s.started && decide (s.toSharedIndexInformer.Admissible op) &&
      (match op with | .pop => false | _ => true) &&
      match s.blockDeltas with | .free | .joining _ _ => true | _ => false
  | .pop => s.started && match s.blockDeltas with | .free => true | _ => false
  | .handle => match s.blockDeltas with | .handling _ => true | _ => false
  | .distribute => match s.blockDeltas with | .distributing _ _ _ => true | _ => false
  | .send =>
    match s.blockDeltas with
    | .sending [] _ _ | .joining _ [] => true
    | .sending _ _ _ | .joining _ _ => s.processor.listenersStarted
    | _ => false
  | .shouldResync _ => s.started && match s.blockDeltas with | .sending _ _ _ => false | _ => true
  | .dispatch i =>
    s.processor.listenersStarted &&
      s.processor.listeners[i]?.any fun listener => listener.notification.isSome && listener.received.isNone
  | .call i => s.processor.listeners[i]?.any fun listener => listener.received.isSome

end SharedInformer

/-- The goroutines of a shared informer, in any order of their steps that meet `condition`. -/
def sharedInformers (condition : SharedInformer accessor → Event α → Prop) :
    System (SharedInformer accessor) (Event α) :=
  System.ofFun (fun s event => s.enabled event ∧ condition s event) SharedInformer.next

/-! ### What a handler sees

The calls of a handler can be replayed on a map; the view of a handler is the sequence of
the calls it has got and will get for what has happened so far, next to the contents of the indexer and to all the
notifications that were distributed. Three things happen to a view: a change is made and will be seen, something that
is no change is distributed, or is seen. -/

def Notification.apply : Notification α → GoMap String (Object α) → GoMap String (Object α)
  | .add obj, items | .update _ obj, items =>
    match deletionHandlingMetaNamespaceKeyFunc accessor obj with
    | .ok key => items.insert key obj
    | .error _ => items
  | .delete obj, items =>
    match deletionHandlingMetaNamespaceKeyFunc accessor obj with
    | .ok key => items.erase key
    | .error _ => items

variable (calls : List (Notification α))

def replay : GoMap String (Object α) :=
  calls.foldl (fun items call => call.apply accessor items) ∅

theorem replay_append_singleton (n : Notification α) :
    replay accessor (calls ++ [n]) = n.apply accessor (replay accessor calls) :=
  foldl_concat ..

/-- Whether a notification reports a change: an update from an object to the same object, as a resync makes it, does
not. -/
def Notification.isChange [DecidableEq α] : Notification α → Bool
  | .update oldObj newObj => oldObj ≠ newObj
  | _ => true

/-- The calls that a handler has got and will get, the contents of the indexer and all that was distributed. -/
structure View (α : Type) where
  seen : List (Notification α)
  items : GoMap String (Object α)
  distributed : List (Distributed α)

variable [DecidableEq α]

inductive View.Step : View α → View α → Prop where
  | quiet (v : View α) : Step v v
  | changed (v : View α) (n : Notification α) (sync : Bool) :
      Step v ⟨v.seen ++ [n], n.apply accessor v.items, v.distributed ++ [(n, sync)]⟩
  | unchanged (v : View α) (n : Notification α) (sync : Bool) (hn : n.isChange = false) :
      Step v ⟨v.seen, v.items, v.distributed ++ [(n, sync)]⟩
  | repeated (v : View α) (n : Notification α) (hn : n.isChange = false) (hitems : n.apply accessor v.items = v.items) :
      Step v ⟨v.seen ++ [n], v.items, v.distributed⟩

namespace View
variable {accessor} {v w : View α}

theorem Step.replay_eq (h : Step accessor v w) (hv : replay accessor v.seen = v.items) :
    replay accessor w.seen = w.items := by
  cases h with
  | quiet | unchanged => exact hv
  | changed => rw [replay_append_singleton, hv]
  | repeated _ _ hitems => rw [replay_append_singleton, hv, hitems]

/-- What is new in the second view: the handler sees each change that was distributed once, in order. -/
def Follows (v w : View α) : Prop :=
  ∃ seen distributed, w.seen = v.seen ++ seen ∧ w.distributed = v.distributed ++ distributed ∧
    seen.filter Notification.isChange = (distributed.map Prod.fst).filter Notification.isChange

theorem Follows.refl (v : View α) : v.Follows v := ⟨[], [], (append_nil _).symm, (append_nil _).symm, rfl⟩

theorem Follows.trans {u : View α} (huv : u.Follows v) (hvw : v.Follows w) : u.Follows w := by
  obtain ⟨seen, distributed, hseen, hdist, hfilter⟩ := huv
  obtain ⟨seen', distributed', hseen', hdist', hfilter'⟩ := hvw
  refine ⟨seen ++ seen', distributed ++ distributed', ?_, ?_, ?_⟩
  · rw [hseen', hseen, append_assoc]
  · rw [hdist', hdist, append_assoc]
  · rw [filter_append, hfilter, hfilter', map_append, filter_append]

theorem Step.follows (h : Step accessor v w) : v.Follows w := by
  cases h with
  | quiet => exact .refl v
  | changed n sync => exact ⟨[n], [(n, sync)], rfl, rfl, rfl⟩
  | unchanged n sync hn => exact ⟨[], [(n, sync)], (append_nil _).symm, rfl, by simp [hn]⟩
  | repeated n hn => exact ⟨[n], [], rfl, (append_nil _).symm, by simp [hn]⟩

end View
end LeanKube.Informer
