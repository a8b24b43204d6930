import LeanKube.InformerConvergence

/-! Watch events: no interleaving of `Add`, `Update`, `Delete`, `Resync` and `Pop` loses an update.
The producer's map is kept by the calls it makes; the queued deltas, folded over the indexer, always
give it back. -/

namespace LeanKube.Informer
open DeltaFIFO List
variable {α : Type} (accessor : α → Except String ObjectMeta) (producer : String → Option (Object α))

/-- What one call says about the producer's map: the object of an `Add` or `Update` is the current
one, that of a `Delete` is gone, and a call that fails for want of a key says nothing. -/
def produce : Op α → String → Option (Object α)
  | .add obj =>
    match deletionHandlingMetaNamespaceKeyFunc accessor obj with
    | .ok key => Function.update producer key (some obj)
    | .error _ => producer
  | .update obj =>
    match deletionHandlingMetaNamespaceKeyFunc accessor obj with
    | .ok key => Function.update producer key (some obj)
    | .error _ => producer
  | .delete obj =>
    match deletionHandlingMetaNamespaceKeyFunc accessor obj with
    | .ok key => Function.update producer key none
    | .error _ => producer
  | _ => producer

def producerMap (ops : List (Op α)) : String → Option (Object α) :=
  ops.foldl (produce accessor) producer

def Op.isReplace : Op α → Bool
  | .replace _ _ => true
  | _ => false

variable {accessor}

namespace SharedIndexInformer
variable (s : SharedIndexInformer accessor) (obj : Object α)

theorem value_queueActionLocked {actionType : DeltaType} (hdel : actionType ≠ .deleted) (hsync : actionType ≠ .sync) :
    value { s with fifo := (queueActionLocked (metaNamespaceKeyFunc accessor)
      { s.fifo with populated := true } actionType obj).1 } = produce accessor s.value (.add obj) := by
  funext key
  cases hkey : deletionHandlingMetaNamespaceKeyFunc accessor obj with
  | error =>
    simp only [queueActionLocked, keyOf_metaNamespaceKeyFunc, hkey, produce]
    rfl
  | ok =>
    simp only [queueActionLocked_of_key accessor _ _ hkey, value, foldDeltas_queueAction, produce, hkey,
      Function.update_apply, hdel, hsync]
    rfl

theorem value_add : (s.apply (.add obj)).value = produce accessor s.value (.add obj) :=
  s.value_queueActionLocked obj (by decide) (by decide)

theorem value_update : (s.apply (.update obj)).value = produce accessor s.value (.update obj) :=
  s.value_queueActionLocked obj (by decide) (by decide)

theorem value_delete : (s.apply (.delete obj)).value = produce accessor s.value (.delete obj) := by
  funext key
  cases hkey : deletionHandlingMetaNamespaceKeyFunc accessor obj with
  | error => simp only [apply, delete, keyOf_metaNamespaceKeyFunc, hkey, produce]
  | ok id =>
    simp only [apply, delete, keyOf_metaNamespaceKeyFunc, hkey, produce, Function.update_apply]
    by_cases hskip : id ∉ s.indexer.items ∧ id ∉ s.fifo.items
    · split_ifs with heq
      · have hixr : s.indexer.getByKey key = none := heq ▸ Finmap.lookup_eq_none.mpr hskip.1
        have hdeltas : s.fifo.deltasOf key = [] := heq ▸ deltasOf_eq_nil_of_notMem hskip.2
        show foldDeltas (s.fifo.deltasOf key) (s.indexer.getByKey key) = none
        rw [hdeltas, hixr, foldDeltas_nil]
      · rfl
    · rw [if_neg hskip, queueActionLocked_of_key accessor _ _ hkey]
      show foldDeltas (deltasOf (queueAction _ _ _ _) key)
        (s.indexer.getByKey key) = _
      rw [foldDeltas_queueAction, if_pos (Or.inl rfl)]
      rfl

variable (indexer : Indexer accessor) (order : List String) (f : DeltaFIFO α)

theorem foldDeltas_syncKeyLocked (k key : String) :
    foldDeltas ((syncKeyLocked (metaNamespaceKeyFunc accessor) indexer.items f k).1.deltasOf
      key) (indexer.getByKey key) = foldDeltas (f.deltasOf key) (indexer.getByKey key) := by
  unfold syncKeyLocked
  cases hobj : indexer.items.lookup k with
  | none => rfl
  | some obj =>
    have hkey := indexer.keyed k obj hobj
    simp only [keyOf_metaNamespaceKeyFunc, hkey, queueActionLocked_of_key accessor f _ hkey]
    split_ifs with hpos
    · rfl
    · have hnil : f.deltasOf k = [] := length_eq_zero_iff.mp (Nat.eq_zero_of_not_pos hpos)
      have hnot : f.willObjectBeDeletedLocked k ≠ true := by
        rw [ne_eq, willObjectBeDeletedLocked_iff, hnil]
        rintro ⟨_, hlast, -⟩
        cases hlast
      rw [foldDeltas_queueAction]
      split_ifs with heq hdel
      · rcases hdel with hdel | hdel
        · cases hdel
        · exact absurd hdel.2 hnot
      · rw [heq, hnil, foldDeltas_nil]
        exact hobj.symm
      · rfl

theorem foldDeltas_resyncKeys (key : String) :
    foldDeltas ((resyncKeys (metaNamespaceKeyFunc accessor) indexer.items order f).1.deltasOf
      key) (indexer.getByKey key) = foldDeltas (f.deltasOf key) (indexer.getByKey key) := by
  induction order generalizing f with
  | nil => rfl
  | cons k _ ih =>
    have hsync := foldDeltas_syncKeyLocked indexer f k key
    rw [resyncKeys]
    rcases hs : syncKeyLocked (metaNamespaceKeyFunc accessor) indexer.items f k with
      ⟨g, err | _⟩
    · rw [hs] at hsync
      exact (ih g).trans hsync
    · rw [hs] at hsync
      exact hsync

theorem value_resync : (s.apply (.resync order)).value = s.value := by
  funext key
  exact foldDeltas_resyncKeys s.indexer order s.fifo key

variable {s}

theorem value_apply (hs : s.fifo.WellFormed accessor) {op : Op α} (hop : op.isReplace = false) :
    (s.apply op).value = produce accessor s.value op := by
  cases op with
  | add obj => exact value_add s obj
  | update obj => exact value_update s obj
  | delete obj => exact value_delete s obj
  | replace => cases hop
  | resync order => exact value_resync s order
  | pop => exact funext fun key => pop_value hs key

theorem value_run {t : SharedIndexInformer accessor} {ops : List (Op α)}
    (hrun : (informerSystem accessor).Run s ops t) (hs : s.fifo.WellFormed accessor)
    (hops : ∀ op ∈ ops, op.isReplace = false) : t.value = producerMap accessor s.value ops := by
  induction hrun with
  | nil => rfl
  | @snoc u w ops op hrun hstep ih =>
    have hu : u.fifo.WellFormed accessor := run_wellFormed hrun hs
    have hlast := hops op (mem_append_right _ (mem_singleton_self op))
    rw [hstep.2, value_apply hu hlast, ih fun o ho => hops o (mem_append_left _ ho)]
    simp only [producerMap, foldl_append, foldl_cons, foldl_nil]

end SharedIndexInformer

def SharedIndexInformer.Idle (s : SharedIndexInformer accessor) : Prop := s.fifo.items = ∅ ∧ s.fifo.queue = []

variable {s : SharedIndexInformer accessor}

theorem SharedIndexInformer.Idle.wellFormed (hs : s.Idle) : s.fifo.WellFormed accessor where
  nodup := by rw [hs.2]; exact nodup_nil
  queued id := by
    rw [hs.1, hs.2]
    exact iff_of_false not_mem_nil Finmap.notMem_empty
  nonempty id hid := by
    rw [hs.1] at hid
    exact absurd hid Finmap.notMem_empty
  keyed id d hd := by
    rw [deltasOf, hs.1] at hd
    cases hd

theorem SharedIndexInformer.Idle.value (hs : s.Idle) : s.value = s.indexer.getByKey := by
  funext key
  rw [SharedIndexInformer.value, deltasOf, hs.1]
  rfl

/-- **No update is lost.** From an empty queue whose indexer is the producer's map, after any calls
but re-lists, the deltas queued under a key folded over the indexer's value are the producer's
current value, and where nothing is queued the indexer already holds it. -/
theorem no_lost_update {s t : SharedIndexInformer accessor} {ops : List (Op α)} (hs : s.Idle)
    (hrun : (informerSystem accessor).Run s ops t) (hops : ∀ op ∈ ops, op.isReplace = false) (key : String) :
    foldDeltas (t.fifo.deltasOf key) (t.indexer.getByKey key) = producerMap accessor s.indexer.getByKey ops key ∧
      (key ∉ t.fifo.items → t.indexer.getByKey key = producerMap accessor s.indexer.getByKey ops key) := by
  have hvalue : t.value key = producerMap accessor s.indexer.getByKey ops key := by
    rw [SharedIndexInformer.value_run hrun hs.wellFormed hops, hs.value]
  refine ⟨hvalue, fun hnot => ?_⟩
  rw [← hvalue, SharedIndexInformer.value, deltasOf_eq_nil_of_notMem hnot, foldDeltas_nil]

def pod (version : Nat) : Object (ObjectMeta × Nat) := .api (⟨"default", "web"⟩, version)

def podAccessor (obj : ObjectMeta × Nat) : Except String ObjectMeta := .ok obj.1

/-- A pod that is added and consumed, then updated, resynced and deleted with nothing consumed: the
indexer still holds the first version, and the queue knows better. -/
theorem no_lost_update_pod :
    let ops := [.add (pod 1), .pop, .update (pod 2), .resync ["default/web"], .delete (pod 2)]
    let t := ops.foldl SharedIndexInformer.apply (.start podAccessor (Store.new _))
    t.indexer.getByKey "default/web" = some (pod 1) ∧
      foldDeltas (t.fifo.deltasOf "default/web") (t.indexer.getByKey "default/web") = none := by
  refine ⟨by decide, ?_⟩
  exact (no_lost_update ⟨rfl, rfl⟩ (System.run_foldl (by decide)) (by decide) "default/web").1

end LeanKube.Informer
