import LeanKube.InformerQueueInvariant

/-! Consuming the queue: the value of a key, with the queued deltas counted in, is not changed by
`Pop`, and is what the indexer holds once the queue is empty. -/

namespace LeanKube.Informer
open List DeltaFIFO Store
variable {α : Type} {accessor : α → Except String ObjectMeta}

theorem handleDeltas_spec (deltas : Deltas α) (indexer : Indexer accessor) (id : String)
    (hkeyed : ∀ d ∈ deltas, deletionHandlingMetaNamespaceKeyFunc accessor d.object = .ok id) :
    ∃ after sent, handleDeltas accessor deltas indexer = (after, sent, none) ∧ ∀ key, after.getByKey key =
        if key = id then foldDeltas deltas (indexer.getByKey id) else indexer.getByKey key := by
  induction deltas generalizing indexer with
  | nil =>
    refine ⟨indexer, [], rfl, fun key => ?_⟩
    split_ifs with h
    · rw [h, foldDeltas_nil]
    · rfl
  | cons d rest ih =>
    have hd := hkeyed d mem_cons_self
    have hrest := fun e he => hkeyed e (mem_cons_of_mem d he)
    -- whichever branch is taken, the store is changed at `id` only, to what the delta says
    have hnext : ∀ next : Indexer accessor, (∀ key, next.getByKey key = if key = id then
          (if d.deltaType = .deleted then none else some d.object) else indexer.getByKey key) →
        ∃ after sent, handleDeltas accessor rest next = (after, sent, none) ∧
          ∀ key, after.getByKey key = if key = id then
            foldDeltas (d :: rest) (indexer.getByKey id) else indexer.getByKey key := by
      intro next hget
      obtain ⟨after, sent, hrun, hafter⟩ := ih next hrest
      refine ⟨after, sent, hrun, fun key => ?_⟩
      rw [hafter key, hget id, if_pos rfl]
      by_cases hkey : key = id
      · rw [if_pos hkey, if_pos hkey]
        rfl
      · rw [if_neg hkey, if_neg hkey, hget key, if_neg hkey]
    by_cases hdel : d.deltaType = .deleted
    · obtain ⟨after, sent, hrun, hafter⟩ := hnext (indexer.remove id) (by
        intro key
        rw [getByKey_remove, if_pos hdel])
      refine ⟨after, (.delete d.object, false) :: sent, ?_, hafter⟩
      simp only [handleDeltas, if_pos hdel, delete_of_key _ hd, hrun]
    · obtain ⟨after, sent, hrun, hafter⟩ := hnext (indexer.set id d.object hd) (by
        intro key
        rw [getByKey_set, if_neg hdel])
      cases hold : indexer.getByKey id with
      | none =>
        refine ⟨after, (.add d.object, d.deltaType = .sync) :: sent, ?_, hold ▸ hafter⟩
        simp only [handleDeltas, if_neg hdel, get_of_key _ hd, hold, add_of_key _ hd, hrun]
      | some old =>
        refine ⟨after, (.update old d.object, d.deltaType = .sync) :: sent, ?_, hold ▸ hafter⟩
        simp only [handleDeltas, if_neg hdel, get_of_key _ hd, hold, update_eq_add, add_of_key _ hd, hrun]

namespace SharedIndexInformer

def value (s : SharedIndexInformer accessor) (key : String) : Option (Object α) :=
  foldDeltas (s.fifo.deltasOf key) (s.indexer.getByKey key)

variable {s : SharedIndexInformer accessor}

theorem pop_of_queue_nil (h : s.fifo.queue = []) : s.pop = s := by
  rcases s with ⟨⟨_, _, _, _, _⟩, _, _⟩
  cases h
  rfl

section
variable (hs : s.fifo.WellFormed accessor)
include hs

variable {rest : List String}

theorem pop_spec {id : String} (hqueue : s.fifo.queue = id :: rest) :
    s.pop.fifo.queue = rest ∧ s.pop.fifo.items = s.fifo.items.erase id ∧
      ∀ key, s.pop.indexer.getByKey key = if key = id then s.value id else s.indexer.getByKey key := by
  have hmem : id ∈ s.fifo.items := (hs.queued id).mp (hqueue ▸ mem_cons_self)
  obtain ⟨item, hitem⟩ := Finmap.mem_iff.mp hmem
  have hdeltas : s.fifo.deltasOf id = item := by rw [deltasOf, hitem]; rfl
  obtain ⟨after, sent, hrun, hafter⟩ := handleDeltas_spec item s.indexer id (fun d hd => hs.keyed id d (hdeltas ▸ hd))
  have hpop : s.pop = ⟨{ s.fifo with
      items := s.fifo.items.erase id
      queue := rest
      initialPopulationCount := if 0 < s.fifo.initialPopulationCount then
        s.fifo.initialPopulationCount - 1 else s.fifo.initialPopulationCount },
      after, s.distributed ++ sent⟩ := by
    simp only [pop, DeltaFIFO.pop, hqueue, DeltaFIFO.popLoop, hitem, process, hrun, Option.map_none]
  rw [hpop]
  refine ⟨rfl, rfl, fun key => ?_⟩
  rw [hafter key, value, hdeltas]

theorem deltasOf_pop {id : String} (hqueue : s.fifo.queue = id :: rest)
    (key : String) : s.pop.fifo.deltasOf key = if key = id then [] else s.fifo.deltasOf key := by
  rw [deltasOf, (pop_spec hs hqueue).2.1, GoMap.lookup_erase_ite]
  split_ifs <;> rfl

theorem pop_wellFormed : s.pop.fifo.WellFormed accessor := by
  cases hqueue : s.fifo.queue with
  | nil => rwa [pop_of_queue_nil hqueue]
  | cons =>
    obtain ⟨hrest, hitems, -⟩ := pop_spec hs hqueue
    have hnodup := hs.nodup
    rw [hqueue, nodup_cons] at hnodup
    refine ⟨hrest ▸ hnodup.2, fun key => ?_, fun key hkey => ?_, fun key d hd => ?_⟩
    · have hold := hs.queued key
      rw [hqueue, mem_cons] at hold
      rw [hrest, hitems, Finmap.mem_erase, ← hold]
      constructor
      · intro h
        exact ⟨fun heq => hnodup.1 (heq ▸ h), .inr h⟩
      · intro h
        exact h.2.resolve_left h.1
    · rw [hitems, Finmap.mem_erase] at hkey
      rw [deltasOf_pop hs hqueue, if_neg hkey.1]
      exact hs.nonempty key hkey.2
    · rw [deltasOf_pop hs hqueue] at hd
      split_ifs at hd
      · cases hd
      · exact hs.keyed key d hd

theorem pop_value (key : String) : s.pop.value key = s.value key := by
  cases hqueue : s.fifo.queue with
  | nil => rw [pop_of_queue_nil hqueue]
  | cons =>
    rw [value, deltasOf_pop hs hqueue, (pop_spec hs hqueue).2.2 key]
    split_ifs with h
    · rw [h, foldDeltas_nil]
    · rfl

theorem apply_wellFormed (op : Op α) : (s.apply op).fifo.WellFormed accessor := by
  have hcalls := follows_enqueues accessor
  cases op with
  | add obj => exact hs.enqueues (hcalls.add _ obj)
  | update obj => exact hs.enqueues (hcalls.update _ obj)
  | delete obj => exact hs.enqueues (hcalls.delete _ _ obj)
  | replace list order => exact hs.enqueues (hcalls.replace _ order _ list)
  | resync order => exact hs.enqueues (hcalls.resync _ order _)
  | pop => exact pop_wellFormed hs

end

theorem run_wellFormed {t : SharedIndexInformer accessor} {ops : List (Op α)}
    (h : (informerSystem accessor).Run s ops t) (hs : s.fifo.WellFormed accessor) : t.fifo.WellFormed accessor := by
  refine System.Run.invariant (fun s => s.fifo.WellFormed accessor) (fun s op t hstep hinv => ?_) h hs
  rw [hstep.2]
  exact apply_wellFormed hinv op

def drain (n : Nat) (s : SharedIndexInformer accessor) : SharedIndexInformer accessor := pop^[n] s

theorem drain_spec (n : Nat) (hs : s.fifo.WellFormed accessor) (hn : s.fifo.queue.length ≤ n) :
    (s.drain n).fifo.queue = [] ∧ ∀ key, (s.drain n).indexer.getByKey key = s.value key := by
  induction n generalizing s with
  | zero =>
    have hqueue : s.fifo.queue = [] := length_eq_zero_iff.mp (Nat.le_zero.mp hn)
    refine ⟨hqueue, fun key => ?_⟩
    have hnot : key ∉ s.fifo.items := by
      rw [← hs.queued key, hqueue]
      exact not_mem_nil
    rw [value, deltasOf_eq_nil_of_notMem hnot, foldDeltas_nil]
    rfl
  | succ n ih =>
    have hle : s.pop.fifo.queue.length ≤ n := by
      cases hqueue : s.fifo.queue with
      | nil => rw [pop_of_queue_nil hqueue, hqueue]; exact Nat.zero_le n
      | cons =>
        rw [hqueue, length_cons] at hn
        rw [(pop_spec hs hqueue).1]
        omega
    obtain ⟨hempty, hval⟩ := ih (pop_wellFormed hs) hle
    exact ⟨hempty, fun key => (hval key).trans (pop_value hs key)⟩

end SharedIndexInformer

theorem Reachable.wellFormed {s : SharedIndexInformer accessor} (hs : Reachable accessor s) :
    s.fifo.WellFormed accessor := by
  obtain ⟨_, _, hrun⟩ := hs
  exact SharedIndexInformer.run_wellFormed hrun new_wellFormed

end LeanKube.Informer
