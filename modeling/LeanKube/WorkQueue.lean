import LeanKube.Transition
import Mathlib.Data.Finset.Basic

/-! The work queue of client-go (`util/workqueue/queue.go`) and any number of workers on it. Every
method holds the queue's lock from start to end, so a call is one step; a `Get` that has to wait is
no step until it can return. -/

namespace LeanKube.WorkQueue

/-- `workqueue.Type`, without its metrics. -/
structure Queue (t : Type) where
  queue : List t
  dirty : Finset t
  /-- The items being processed; they may be dirty at the same time. -/
  processing : Finset t
  shuttingDown : Bool

inductive GetResult (t : Type) where
  /-- `Get` waits: the queue is empty and not shutting down. -/
  | blocked
  | shutdown
  | item (x : t)
  deriving DecidableEq

variable {t : Type} [DecidableEq t]

namespace Queue

def new : Queue t := ⟨[], ∅, ∅, false⟩

variable (q : Queue t)

def add (item : t) : Queue t :=
  if q.shuttingDown then q
  else if item ∈ q.dirty then q
  else
    let q := { q with dirty := insert item q.dirty }
    if item ∈ q.processing then q else { q with queue := q.queue ++ [item] }

def get : GetResult t × Queue t :=
  match q.queue with
  | [] => (if q.shuttingDown then .shutdown else .blocked, q)
  | item :: rest =>
    (.item item, { q with
      queue := rest
      processing := insert item q.processing
      dirty := q.dirty.erase item })

def done (item : t) : Queue t :=
  let q := { q with processing := q.processing.erase item }
  if item ∈ q.dirty then { q with queue := q.queue ++ [item] } else q

def shutDown : Queue t := { q with shuttingDown := true }

end Queue

/-- The queue, and which worker holds which item from a `Get` not yet followed by its `Done`. -/
structure Workers (W t : Type) where
  q : Queue t
  held : List (W × t)

/-- The calls, a `Get` with what it returned: an item, or `none` for the order to stop. -/
inductive Event (W t : Type) where
  | add (item : t)
  | get (worker : W) (result : Option t)
  | done (worker : W) (item : t)
  | shutDown
  deriving DecidableEq

variable {W : Type} [DecidableEq W]

namespace Workers

def start : Workers W t := ⟨Queue.new, []⟩

variable (s : Workers W t)

/-- A `Get` returns what the queue gives it, and `Done` is called by a holder of the item. -/
def Enabled : Event W t → Prop
  | .get _ (some item) => s.q.get.1 = .item item
  | .get _ none => s.q.get.1 = .shutdown
  | .done worker item => (worker, item) ∈ s.held
  | _ => True

instance enabledDecidable (s : Workers W t) (event : Event W t) : Decidable (s.Enabled event) := by
  unfold Enabled
  split <;> infer_instance

def next : Event W t → Workers W t
  | .add item => { s with q := s.q.add item }
  | .get worker (some item) => { q := s.q.get.2, held := (worker, item) :: s.held }
  | .get _ none => s
  | .done worker item => { q := s.q.done item, held := s.held.erase (worker, item) }
  | .shutDown => { s with q := s.q.shutDown }

end Workers

def workerSystem (W t : Type) [DecidableEq W] [DecidableEq t] : System (Workers W t) (Event W t) :=
  System.ofFun Workers.Enabled Workers.next

end LeanKube.WorkQueue
