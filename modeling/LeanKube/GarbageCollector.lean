import LeanKube.GarbageGraph
import LeanKube.Transition

/-! The garbage collector at work (`pkg/controller/garbagecollector/garbagecollector.go`). Clients write objects,
informers report versions of them in any order and as late as they like, the graph builder takes one event after
the other, and workers run `attemptToDeleteItem`, each of which stops at every call of the API server and of the
shared cache of absent owners. What the collector sends to the API server is kept as a list of requests; their
effects are writes like any others. -/

namespace LeanKube.Garbage

structure Env where
  /-- The REST mapping: the resource of an API version and a kind. -/
  restMapping : String → String → Option String
  /-- Whether the objects of a resource are in namespaces. -/
  namespaced : String → Bool
  /-- The API version and the kind that the monitor of a resource reports. -/
  kindFor : String → String × String

/-- `resourceDefaultNamespace`: the objects that are not in namespaces have the empty one. -/
def resourceDefaultNamespace (namespaced : Bool) (defaultNamespace : String) : String :=
  if namespaced then defaultNamespace else ""

variable (env : Env)

def Env.keyOf (apiVersion kind name ns : String) : Option Key :=
  (env.restMapping apiVersion kind).map fun resource =>
    ⟨resource, resourceDefaultNamespace (env.namespaced resource) ns, name⟩

/-! ### Workers -/

structure Classified where
  solid : List OwnerReference := []
  dangling : List OwnerReference := []
  waitingForDependentsDeletion : List OwnerReference := []

inductive Phase where
  | getting
  /-- There is no such object: a virtual delete event is to be enqueued. -/
  | vanished
  /-- The node has no dependents left to wait for: its finalizer is to be removed. -/
  | finalizing
  /-- The cache is to be asked about the owner of the first reference left. -/
  | checking (latest : Object) (references : List OwnerReference) (classified : Classified)
  | looking (latest : Object) (reference : OwnerReference) (references : List OwnerReference) (classified : Classified)
  /-- There is no such owner: the cache is to be told. -/
  | missing (latest : Object) (reference : OwnerReference) (references : List OwnerReference) (classified : Classified)
  | deciding (latest : Object) (classified : Classified)
  /-- The references no longer block the owners: the object is to be deleted. -/
  | unblocked
  | finished

structure Worker where
  item : Nat
  phase : Phase

inductive DeletionPropagation where
  | orphan
  | foreground
  | background
  deriving DecidableEq

inductive Request where
  | delete (item : ObjectReference) (policy : DeletionPropagation)
  | deleteOwnerRefs (item : ObjectReference) (uids : List String)
  /-- The references stop blocking the deletion of their owners. -/
  | unblockOwnerReferences (item : ObjectReference)
  | removeFinalizer (item : ObjectReference) (finalizer : String)

def defaultPolicy (latest : Object) : DeletionPropagation :=
  if latest.hasOrphanFinalizer then .orphan
  else if latest.hasDeleteDependentsFinalizer then .foreground
  else .background

/-! ### The system -/

structure World where
  objects : GoMap Key Object
  /-- All the versions of objects that have been stored so far. -/
  history : List (Key × Object)
  graphChanges : List Event
  graph : Graph
  absentOwnerCache : UIDCache
  workers : List Worker
  requests : List Request

inductive Label where
  | create (key : Key) (obj : Object)
  | update (key : Key) (obj : Object)
  | remove (key : Key)
  /-- An informer adds an event to the graph changes. -/
  | inform (event : Event)
  | process
  | take (item : Nat)
  /-- The worker goes on; its call of the API server may fail. -/
  | work (worker : Nat) (fails : Bool)

namespace World
variable (env : Env) (w : World)

def Exists (uid : String) : Prop := ∃ key ∈ w.objects.keys, ∃ obj ∈ w.objects.lookup key, obj.uid = uid

/-- What an informer may report: some version of an object, with some older version or none, or that an object is
gone. -/
def Reports : Event → Prop
  | .upsert apiVersion kind key obj oldObj => (apiVersion, kind) = env.kindFor key.resource ∧ (key, obj) ∈ w.history ∧
      ∀ old ∈ oldObj, ∃ entry ∈ w.history, entry.2 = old
  | .delete uid => (∃ entry ∈ w.history, entry.2.uid = uid) ∧ ¬ w.Exists uid

def Enabled : Label → Prop
  | .create key obj => w.objects.lookup key = none ∧ (∀ entry ∈ w.history, entry.2.uid ≠ obj.uid) ∧
      (env.namespaced key.resource = true ↔ key.ns ≠ "")
  | .update key obj => ∃ old ∈ w.objects.lookup key, old.uid = obj.uid
  | .inform event => w.Reports env event
  | .take item => item ∈ w.graph.attemptToDelete
  | _ => True

def get (apiVersion kind name ns : String) : Option (Option Object) :=
  (env.keyOf apiVersion kind name ns).map fun key => w.objects.lookup key

def getItem (identity : ObjectReference) : Option (Option Object) :=
  (w.get env identity.apiVersion identity.kind identity.name identity.ns).map
    (Option.filter fun obj => obj.uid = identity.uid)

/-- The owner that a reference of the node means, if the coordinates lead to one of its UID. -/
def getOwner (reference : OwnerReference) (identity : ObjectReference) : Option (Option Object) :=
  (w.get env reference.apiVersion reference.kind reference.name identity.ns).map
    (Option.filter fun obj => obj.uid = reference.uid)

variable (i item : Nat)

def setWorker (phase : Phase) : World := { w with workers := w.workers.set i ⟨item, phase⟩ }

def enqueue (item : Nat) : World := { w with graph := w.graph.enqueue item }

/-- `attemptToDeleteItem` returns. The node is tried again after an error, or if no event has told of it. -/
def finish (err : Bool) : World :=
  let w := w.setWorker i item .finished
  if err || (w.graph.nodes[item]?).any (!Node.isObserved ·) then w.enqueue item else w

def send (request : Request) : World := { w with requests := request :: w.requests }

variable (n : Node)

def blockingDependents : Finset Nat :=
  n.dependents.filter fun dep => (w.graph.nodes[dep]?).any fun node =>
    node.owners.any fun owner => owner.uid == n.identity.uid && owner.blockOwnerDeletion == some true

def processDeletingDependentsItem : World :=
  let blocking := w.blockingDependents n
  if blocking = ∅ then w.setWorker i item .finalizing
  else
    let waiting := blocking.filter fun dep => !(w.graph.nodes[dep]?).any Node.deletingDependents
    { w with graph := { w.graph with attemptToDelete := w.graph.attemptToDelete ∪ waiting } }.finish i item false

variable (latest : Object)

def withLatest : World :=
  if n.deletingDependents then w.processDeletingDependentsItem i item n
  else if latest.owners.isEmpty then w.finish i item false
  else w.setWorker i item (.checking latest latest.owners {})

def deleteObject (policy : DeletionPropagation) (fails : Bool) : World :=
  match env.keyOf n.identity.apiVersion n.identity.kind n.identity.name n.identity.ns with
  | none => w.finish i item true
  | some _ => (w.send (.delete n.identity policy)).finish i item fails

def decide (classified : Classified) (fails : Bool) : World :=
  if !classified.solid.isEmpty then
    if classified.dangling.isEmpty && classified.waitingForDependentsDeletion.isEmpty then w.finish i item false
    else
      (w.send (.deleteOwnerRefs n.identity
        ((classified.dangling ++ classified.waitingForDependentsDeletion).map OwnerReference.uid))).finish i item fails
  else if !classified.waitingForDependentsDeletion.isEmpty && n.dependents.Nonempty then
    if ∃ dep ∈ n.dependents, (w.graph.nodes[dep]?).any Node.deletingDependents then
      let w := w.send (.unblockOwnerReferences n.identity)
      if fails then w.finish i item true else w.setWorker i item .unblocked
    else w.deleteObject env i item n .foreground fails
  else w.deleteObject env i item n (defaultPolicy latest) fails

def nextReference (references : List OwnerReference) (classified : Classified) : Phase :=
  if references.isEmpty then .deciding latest classified else .checking latest references classified

def work (fails : Bool) : Phase → World
  | .getting =>
    if fails then w.finish i item true
    else
      match w.getItem env n.identity with
      | none => w.finish i item true
      | some none => w.setWorker i item .vanished
      | some (some latest) => w.withLatest i item n latest
  | .vanished =>
    { w with
      graphChanges := w.graphChanges ++ [Event.delete n.identity.uid]
      graph := w.graph.modify item fun node => { node with virtual := false } }.finish i item false
  | .finalizing => (w.send (.removeFinalizer n.identity finalizerDeleteDependents)).finish i item fails
  | .checking latest [] classified => w.setWorker i item (.deciding latest classified)
  | .checking latest (reference :: references) classified =>
    let (absent, cache) := w.absentOwnerCache.has reference.uid
    let w := { w with absentOwnerCache := cache }
    if absent then
      w.setWorker i item (nextReference latest references
        { classified with dangling := classified.dangling ++ [reference] })
    else w.setWorker i item (.looking latest reference references classified)
  | .looking latest reference references classified =>
    if fails then w.finish i item true
    else
      match w.getOwner env reference n.identity with
      | none => w.finish i item true
      | some none => w.setWorker i item (.missing latest reference references classified)
      | some (some owner) =>
        w.setWorker i item (nextReference latest references
          (if owner.waitsForDependents then { classified with
            waitingForDependentsDeletion := classified.waitingForDependentsDeletion ++ [reference] }
          else { classified with solid := classified.solid ++ [reference] }))
  | .missing latest reference references classified =>
    { w with absentOwnerCache := w.absentOwnerCache.add reference.uid }.setWorker i item
      (nextReference latest references { classified with dangling := classified.dangling ++ [reference] })
  | .deciding latest classified => w.decide env i item n latest classified fails
  | .unblocked => w.deleteObject env i item n .foreground fails
  | .finished => w

/-- The work on a node starts. A node that is being deleted is left alone, unless it waits for its dependents. -/
def take (item : Nat) : World :=
  let w := { w with graph := { w.graph with attemptToDelete := w.graph.attemptToDelete.erase item } }
  match w.graph.nodes[item]? with
  | none => w
  | some n =>
    let w := { w with workers := w.workers ++ [⟨item, .getting⟩] }
    if n.beingDeleted && !n.deletingDependents then w.finish (w.workers.length - 1) item false else w

def next : Label → World
  | .create key obj | .update key obj =>
    { w with objects := w.objects.insert key obj, history := (key, obj) :: w.history }
  | .remove key => { w with objects := w.objects.erase key }
  | .inform event => { w with graphChanges := w.graphChanges ++ [event] }
  | .process =>
    match w.graphChanges with
    | [] => w
    | event :: rest =>
      let (graph, absent) := w.graph.processGraphChanges event
      { w with
        graphChanges := rest
        graph
        absentOwnerCache := absent.elim w.absentOwnerCache w.absentOwnerCache.add }
  | .take item => w.take item
  | .work i fails =>
    match w.workers[i]? with
    | none => w
    | some ⟨item, phase⟩ =>
      match w.graph.nodes[item]? with
      | none => w
      | some n => w.work env i item n fails phase

/-! ### The condition -/

/-- A look-up that the worker is about to make and that leads to no object of the UID: no object has it. -/
def SoundWork (n : Node) : Phase → Prop
  | .getting => w.getItem env n.identity = some none → ¬ w.Exists n.identity.uid
  | .looking _ reference _ _ => w.getOwner env reference n.identity = some none → ¬ w.Exists reference.uid
  | _ => True

/-- **The condition.** No look-up misses an object that exists: if a node or a reference leads to no object of its UID,
there is none. A new object gets a UID that no reference has had. -/
def Sound : Label → Prop
  | .create _ obj => ∀ entry ∈ w.history, ∀ ref ∈ entry.2.owners, ref.uid ≠ obj.uid
  | .work i _ => ∀ worker ∈ w.workers[i]?, ∀ n ∈ w.graph.nodes[worker.item]?, w.SoundWork env n worker.phase
  | _ => True

/-- An object with the UID `uid`, at any time after its creation: it refers to an object with the UID `owner`, in its
own namespace or in none, that exists and does not wait for the deletion of its dependents. -/
@[mk_iff]
structure OwnedBy (uid owner : String) : Prop where
  stays : (∃ entry ∈ w.history, entry.2.uid = uid) → ∃ key ∈ w.objects.keys, ∃ obj ∈ w.objects.lookup key,
    obj.uid = owner ∧ obj.waitsForDependents = false
  refers : ∀ key ∈ w.objects.keys, ∀ obj ∈ w.objects.lookup key, obj.uid = uid → ∃ ref ∈ obj.owners,
    ref.uid = owner ∧ ∃ ownerKey ∈ env.keyOf ref.apiVersion ref.kind ref.name key.ns,
      ∃ obj' ∈ w.objects.lookup ownerKey, obj'.uid = owner

structure Initial : Prop where
  unique : ∀ key obj key' obj', w.objects.lookup key = some obj → w.objects.lookup key' = some obj' →
    obj.uid = obj'.uid →
    key = key'
  scope : ∀ key ∈ w.objects.keys, env.namespaced key.resource = true ↔ key.ns ≠ ""
  history : ∀ key obj, w.objects.lookup key = some obj → (key, obj) ∈ w.history
  graphChanges : w.graphChanges = []
  graph : w.graph = {}
  absentOwnerCache : w.absentOwnerCache = []
  workers : w.workers = []
  requests : w.requests = []

/-! ### Deciding a concrete run -/

instance existsDecidable (uid : String) : Decidable (w.Exists uid) := by
  unfold Exists
  infer_instance

instance reportsDecidable (event : Event) : Decidable (w.Reports env event) := by
  cases event <;> dsimp only [Reports] <;> infer_instance

instance enabledDecidable (label : Label) : Decidable (w.Enabled env label) := by
  cases label <;> dsimp only [Enabled] <;> infer_instance

instance soundWorkDecidable (n : Node) (phase : Phase) : Decidable (w.SoundWork env n phase) := by
  cases phase <;> dsimp only [SoundWork] <;> infer_instance

instance soundDecidable (label : Label) : Decidable (w.Sound env label) := by
  cases label <;> dsimp only [Sound] <;> infer_instance

instance ownedByDecidable (uid owner : String) : Decidable (w.OwnedBy env uid owner) :=
  decidable_of_iff _ (w.ownedBy_iff env uid owner).symm

end World

def collector : System World Label := .ofFun (World.Enabled env) (World.next env)

/-- The steps under the condition. -/
def soundCollector : System World Label :=
  .ofFun (fun w label => w.Enabled env label ∧ w.Sound env label) (World.next env)

end LeanKube.Garbage
