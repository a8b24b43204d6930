import LeanKube.InformerDeltaFifo
import LeanKube.Transition

/-! The shared informer (`tools/cache/shared_informer.go`): the queue is drained by `HandleDeltas`
into the indexer, which is also the queue's source of known objects. -/

namespace LeanKube.Informer
variable {α : Type} (accessor : α → Except String ObjectMeta)

/-- The informer's local store, `NewIndexer(DeletionHandlingMetaNamespaceKeyFunc, indexers)`. -/
abbrev Indexer := Store (deletionHandlingMetaNamespaceKeyFunc accessor)

inductive Notification (α : Type) where
  | add (newObj : Object α)
  | update (oldObj newObj : Object α)
  | delete (oldObj : Object α)
  deriving DecidableEq

abbrev Distributed (α : Type) := Notification α × Bool

/-- `HandleDeltas`, from the oldest delta to the newest: the indexer, what is distributed, and the
error that ends the loop early. -/
def handleDeltas : Deltas α → Indexer accessor → Indexer accessor × List (Distributed α) × Option (KeyError (Object α))
  | [], indexer => (indexer, [], none)
  | d :: rest, indexer =>
    if d.deltaType = .deleted then
      match indexer.delete d.object with
      | .error err => (indexer, [], some err)
      | .ok indexer =>
        let (indexer, sent, err) := handleDeltas rest indexer
        (indexer, (.delete d.object, false) :: sent, err)
    else
      let isSync := d.deltaType = .sync
      match indexer.get d.object with
      | .ok (some old) =>
        match indexer.update d.object with
        | .error err => (indexer, [], some err)
        | .ok indexer =>
          let (indexer, sent, err) := handleDeltas rest indexer
          (indexer, (.update old d.object, isSync) :: sent, err)
      | _ =>
        match indexer.add d.object with
        | .error err => (indexer, [], some err)
        | .ok indexer =>
          let (indexer, sent, err) := handleDeltas rest indexer
          (indexer, (.add d.object, isSync) :: sent, err)

structure SharedIndexInformer where
  fifo : DeltaFIFO α
  indexer : Indexer accessor
  distributed : List (Distributed α)

/-- One call on the queue. A `range` over the indexer's keys happens in the order given. -/
inductive Op (α : Type) where
  | add (obj : Object α)
  | update (obj : Object α)
  | delete (obj : Object α)
  | replace (list : List (Object α)) (order : List String)
  | resync (order : List String)
  | pop

namespace SharedIndexInformer
variable {accessor}

def process (item : Deltas α) (st : Indexer accessor × List (Distributed α)) :
    (Indexer accessor × List (Distributed α)) × Option (DeltaFIFO.ProcessError (KeyError (Object α))) :=
  let (indexer, sent, err) := handleDeltas accessor item st.1
  ((indexer, st.2 ++ sent), err.map .failed)

variable (s : SharedIndexInformer accessor)

def pop : SharedIndexInformer accessor :=
  let (_, fifo, indexer, distributed) := s.fifo.pop process (s.indexer, s.distributed)
  ⟨fifo, indexer, distributed⟩

def apply : Op α → SharedIndexInformer accessor
  | .add obj => { s with fifo := (s.fifo.add (metaNamespaceKeyFunc accessor) obj).1 }
  | .update obj => { s with fifo := (s.fifo.update (metaNamespaceKeyFunc accessor) obj).1 }
  | .delete obj => { s with fifo := (s.fifo.delete (metaNamespaceKeyFunc accessor) s.indexer.items obj).1 }
  | .replace list order =>
    { s with
      fifo := (s.fifo.replace (metaNamespaceKeyFunc accessor) s.indexer.items order list).1 }
  | .resync order =>
    { s with fifo := (s.fifo.resync (metaNamespaceKeyFunc accessor) s.indexer.items order).1 }
  | .pop => s.pop

def Admissible : Op α → Prop
  | .replace _ order => s.indexer.items.Ranges order
  | .resync order => s.indexer.items.Ranges order
  | _ => True

instance admissibleDecidable (s : SharedIndexInformer accessor) (op : Op α) : Decidable (s.Admissible op) := by
  cases op <;> dsimp only [Admissible] <;> infer_instance

end SharedIndexInformer

def informerSystem : System (SharedIndexInformer accessor) (Op α) :=
  System.ofFun SharedIndexInformer.Admissible SharedIndexInformer.apply

def SharedIndexInformer.start (indexer : Indexer accessor) : SharedIndexInformer accessor :=
  ⟨DeltaFIFO.new, indexer, []⟩

def Reachable (s : SharedIndexInformer accessor) : Prop :=
  ∃ indexer ops, (informerSystem accessor).Run (.start accessor indexer) ops s

end LeanKube.Informer
