import LeanKube.InformerWatch

/-! Re-lists: when `Replace` followed by the consumption of the queue leaves the indexer with exactly
the listed objects. Two kinds of queued deltas prevent it: a pending deletion of a listed object,
which suppresses its `Sync`, and a pending object that is neither listed nor yet in the indexer,
which no deletion is queued for. -/

namespace LeanKube.Informer
open DeltaFIFO SharedIndexInformer
variable {α : Type} (accessor : α → Except String ObjectMeta) (list : List (Object α))

def lastListed (key : String) : Option (Object α) :=
  list.foldl (fun found obj =>
    match deletionHandlingMetaNamespaceKeyFunc accessor obj with
    | .ok id => if key = id then some obj else found
    | .error _ => found) none

def Keyed : Prop :=
  ∀ obj ∈ list, ∃ key, deletionHandlingMetaNamespaceKeyFunc accessor obj = .ok key

variable {accessor} (list : List (Object α))

theorem lastListed_append {obj : Object α} {id : String}
    (hkey : deletionHandlingMetaNamespaceKeyFunc accessor obj = .ok id) (key : String) :
    lastListed accessor (list ++ [obj]) key = if key = id then some obj else lastListed accessor list key := by
  simp only [lastListed, List.foldl_append, List.foldl_cons, List.foldl_nil, hkey]

theorem replaceSync_append (obj : Object α) (f : DeltaFIFO α) (keys : Finset String)
    {g : DeltaFIFO α} {keys' : Finset String} {id : String}
    (hkey : deletionHandlingMetaNamespaceKeyFunc accessor obj = .ok id)
    (h : replaceSync (metaNamespaceKeyFunc accessor) list f keys = (g, keys', none)) :
    replaceSync (metaNamespaceKeyFunc accessor) (list ++ [obj]) f keys =
      (g.queueAction .sync id obj, insert id keys', none) := by
  induction list generalizing f keys with
  | nil =>
    cases h
    simp only [List.nil_append, replaceSync, keyOf_metaNamespaceKeyFunc, hkey,
      queueActionLocked_of_key accessor _ _ hkey]
  | cons item _ ih =>
    cases hitem : deletionHandlingMetaNamespaceKeyFunc accessor item with
    | error => simp [replaceSync, keyOf_metaNamespaceKeyFunc, hitem] at h
    | ok =>
      simp only [List.cons_append, replaceSync, keyOf_metaNamespaceKeyFunc, hitem,
        queueActionLocked_of_key accessor _ _ hitem] at h ⊢
      exact ih _ _ h

variable (f : DeltaFIFO α)

theorem willObjectBeDeletedLocked_sync (id : String) (obj : Object α) (key : String) :
    (f.queueAction .sync id obj).willObjectBeDeletedLocked key = f.willObjectBeDeletedLocked key := by
  by_cases hskip : f.willObjectBeDeletedLocked id = true
  · rw [queueAction_eq, if_pos ⟨rfl, hskip⟩]
  · by_cases hkey : key = id
    · have hnot : ¬(DeltaType.sync = .sync ∧ f.willObjectBeDeletedLocked id = true) :=
        fun h => hskip h.2
      obtain ⟨_, hlast, hdel⟩ := getLast_dedupDeltas (f.deltasOf id) ⟨.sync, obj⟩
      have hfalse : (f.queueAction .sync id obj).willObjectBeDeletedLocked key ≠ true := by
        rw [ne_eq, willObjectBeDeletedLocked_iff, f.deltasOf_queueAction .sync id obj key hnot, if_pos hkey, hlast]
        rintro ⟨_, hlast', hdel'⟩
        cases hlast'
        cases hdel.mp hdel'
      rw [hkey] at hfalse ⊢
      rw [Bool.eq_false_iff.mpr hfalse, Bool.eq_false_iff.mpr hskip]
    · unfold willObjectBeDeletedLocked
      rw [f.deltasOf_queueAction_of_ne .sync obj hkey]

theorem replaceSync_spec (hlist : Keyed accessor list) (f : DeltaFIFO α) :
    ∃ g keys, replaceSync (metaNamespaceKeyFunc accessor) list f ∅ = (g, keys, none) ∧
      (∀ key, key ∈ keys ↔ lastListed accessor list key ≠ none) ∧
      (∀ key, g.willObjectBeDeletedLocked key = f.willObjectBeDeletedLocked key) ∧
      ∀ key v, foldDeltas (g.deltasOf key) v = if lastListed accessor list key = none then foldDeltas (f.deltasOf key) v
        else if f.willObjectBeDeletedLocked key then none else lastListed accessor list key := by
  induction list using List.reverseRecOn with
  | nil => exact ⟨f, ∅, rfl, fun key => by simp [lastListed], fun key => rfl, fun key v => rfl⟩
  | append_singleton list obj ih =>
    obtain ⟨g, _, hrun, hkeys, hdel, hfold⟩ := ih fun o ho => hlist o (List.mem_append_left _ ho)
    obtain ⟨id, hid⟩ := hlist obj (List.mem_append_right _ (List.mem_singleton_self obj))
    refine ⟨_, _, replaceSync_append list obj f ∅ hid hrun, fun key => ?_, fun key => ?_, fun key v => ?_⟩
    · rw [lastListed_append list hid, Finset.mem_insert, hkeys key]
      by_cases hkey : key = id
      · rw [if_pos hkey]
        exact iff_of_true (.inl hkey) (Option.some_ne_none obj)
      · rw [if_neg hkey]
        exact or_iff_right hkey
    · rw [willObjectBeDeletedLocked_sync, hdel key]
    · rw [foldDeltas_queueAction, lastListed_append list hid, hdel id]
      by_cases hkey : key = id
      · rw [if_pos hkey, if_pos hkey, if_neg (Option.some_ne_none obj), hkey]
        simp
      · rw [if_neg hkey, if_neg hkey]
        exact hfold key v

variable (accessor) in
theorem replaceKnown_spec (keys : Finset String) (known : GoMap String (Object α))
    (order : List String) (f : DeltaFIFO α) (count : Nat) :
    ∃ g count', replaceKnown (metaNamespaceKeyFunc accessor) keys known order f count = (g, count', none) ∧
      ∀ key v, foldDeltas (g.deltasOf key) v =
        if key ∈ order ∧ key ∉ keys then none else foldDeltas (f.deltasOf key) v := by
  induction order generalizing f count with
  | nil => exact ⟨f, count, rfl, fun key v => by simp⟩
  | cons k rest ih =>
    by_cases hk : k ∈ keys
    · obtain ⟨g, count', hrun, hfold⟩ := ih f count
      refine ⟨g, count', ?_, fun key v => ?_⟩
      · rw [replaceKnown, if_pos hk, hrun]
      · rw [hfold key v]
        have hiff : key ∈ k :: rest ∧ key ∉ keys ↔ key ∈ rest ∧ key ∉ keys := by
          rw [List.mem_cons]
          constructor
          · rintro ⟨rfl | hrest, hnot⟩
            · exact absurd hk hnot
            · exact ⟨hrest, hnot⟩
          · exact fun h => ⟨.inr h.1, h.2⟩
        simp only [hiff]
    · -- which object the deletion carries does not matter for the fold
      have hstep : ∃ obj, replaceKnown (metaNamespaceKeyFunc accessor) keys known
          (k :: rest) f count = replaceKnown (metaNamespaceKeyFunc accessor) keys known rest
              (f.queueAction .deleted k (.deletedFinalStateUnknown k obj)) (count + 1) := by
        rw [replaceKnown, if_neg hk]
        exact ⟨_, rfl⟩
      obtain ⟨obj, hstep⟩ := hstep
      obtain ⟨g, count', hrun, hfold⟩ :=
        ih (f.queueAction .deleted k (.deletedFinalStateUnknown k obj)) (count + 1)
      refine ⟨g, count', ?_, fun key v => ?_⟩
      · rw [hstep, hrun]
      · rw [hfold key v, foldDeltas_queueAction, if_pos (Or.inl rfl)]
        by_cases hkey : key = k
        · rw [if_pos hkey, if_pos (⟨by simp [hkey], hkey ▸ hk⟩ : key ∈ k :: rest ∧ key ∉ keys)]
          split_ifs <;> rfl
        · simp only [List.mem_cons, hkey, false_or, if_false]

theorem deltasOf_markPopulated (count : Nat) (key : String) :
    (f.markPopulated count).deltasOf key = f.deltasOf key := by
  unfold markPopulated
  split_ifs <;> rfl

variable (s : SharedIndexInformer accessor)

theorem value_replace {list : List (Object α)}
    (hlist : Keyed accessor list) {order : List String} (hord : s.indexer.items.Ranges order) (key : String) :
    (s.apply (.replace list order)).value key =
      if lastListed accessor list key = none then
        if key ∈ s.indexer.items then none else s.value key
      else if s.fifo.willObjectBeDeletedLocked key then none else lastListed accessor list key := by
  obtain ⟨g, keys, hsync, hkeys, _, hfold⟩ := replaceSync_spec list hlist s.fifo
  obtain ⟨g', count, hknown, hfold'⟩ := replaceKnown_spec accessor keys s.indexer.items order g 0
  have hfifo : (s.apply (.replace list order)).fifo = g'.markPopulated (list.length + count) := by
    simp only [apply, replace, hsync, hknown]
  have hixr : (s.apply (.replace list order)).indexer = s.indexer := rfl
  have hgone : key ∈ order ∧ key ∉ keys ↔ key ∈ s.indexer.items ∧ lastListed accessor list key = none := by
    rw [hord.2 key, hkeys key, ne_eq, not_not]
  rw [value, hfifo, hixr, deltasOf_markPopulated, hfold' key, hfold key]
  simp only [hgone]
  by_cases hlisted : lastListed accessor list key = none
  · simp only [hlisted, and_true]
    rfl
  · rw [if_neg hlisted, if_neg hlisted, if_neg fun h => hlisted h.2]

/-- Nothing queued stands in the way of a re-list: no listed object has its deletion pending, and
what is queued under a key that is neither listed nor in the indexer ends in a deletion. -/
def RelistSafe (list : List (Object α)) : Prop :=
  ∀ key, (lastListed accessor list key ≠ none → s.fifo.willObjectBeDeletedLocked key = false) ∧
    (lastListed accessor list key = none → key ∉ s.indexer.items → key ∈ s.fifo.items →
      s.fifo.willObjectBeDeletedLocked key = true)

theorem value_eq_none_iff {s : SharedIndexInformer accessor} (hs : s.fifo.WellFormed accessor)
    {key : String} (hixr : key ∉ s.indexer.items) :
    s.value key = none ↔ (key ∈ s.fifo.items → s.fifo.willObjectBeDeletedLocked key = true) := by
  have hnone : s.indexer.getByKey key = none := Finmap.lookup_eq_none.mpr hixr
  constructor
  · intro hval hmem
    by_contra hdel
    exact foldDeltas_ne_none (hs.nonempty key hmem) hdel _ hval
  · intro hdel
    by_cases hmem : key ∈ s.fifo.items
    · exact foldDeltas_of_willObjectBeDeletedLocked (hdel hmem) _
    · rw [value, deltasOf_eq_nil_of_notMem hmem, foldDeltas_nil, hnone]

/-- **When a re-list converges.** From every reachable state, `Replace` of objects with keys followed
by enough calls to `Pop` empties the queue, and leaves the indexer with exactly the listed objects
if and only if nothing queued stands in the way. -/
theorem relist_converges_iff {s : SharedIndexInformer accessor} (hs : Reachable accessor s)
    {list : List (Object α)} (hlist : Keyed accessor list) {order : List String}
    (horder : s.indexer.items.Ranges order) {n : Nat} (hn : (s.apply (.replace list order)).fifo.queue.length ≤ n) :
    ((s.apply (.replace list order)).drain n).fifo.queue = [] ∧
      ((∀ key, ((s.apply (.replace list order)).drain n).indexer.getByKey key =
          lastListed accessor list key) ↔ RelistSafe s list) := by
  have hwf := hs.wellFormed
  obtain ⟨hempty, hdrain⟩ := SharedIndexInformer.drain_spec n (SharedIndexInformer.apply_wellFormed hwf _) hn
  refine ⟨hempty, forall_congr' fun key => ?_⟩
  rw [hdrain key, value_replace s hlist horder key]
  by_cases hlisted : lastListed accessor list key = none
  · rw [if_pos hlisted]
    by_cases hindexer : key ∈ s.indexer.items
    · simp [hlisted, hindexer]
    · rw [if_neg hindexer, hlisted, value_eq_none_iff hwf hindexer]
      simp [hindexer]
  · rw [if_neg hlisted]
    cases hdel : s.fifo.willObjectBeDeletedLocked key with
    | true =>
      refine iff_of_false (fun h => hlisted h.symm) fun h => ?_
      cases h.1 hlisted
    | false => simp [hlisted]

def podInformer (ops : List (Op (ObjectMeta × Nat))) : SharedIndexInformer podAccessor :=
  ops.foldl SharedIndexInformer.apply (.start podAccessor (Store.new _))

/-- A pod queued but not consumed survives a re-list that does not contain it; and a pod whose
deletion is queued is missing after a re-list that contains it. -/
theorem relist_diverges_pod : Reachable podAccessor (podInformer [.add (pod 1)]) ∧
      (podInformer [.add (pod 1)]).Admissible (.replace [] []) ∧
      (((podInformer [.add (pod 1)]).apply (.replace [] [])).drain 1).fifo.queue = [] ∧
      (((podInformer [.add (pod 1)]).apply (.replace [] [])).drain 1).indexer.getByKey
        "default/web" = some (pod 1) ∧
      lastListed podAccessor [] "default/web" = none ∧
    Reachable podAccessor (podInformer [.add (pod 1), .pop, .delete (pod 1)]) ∧
      (podInformer [.add (pod 1), .pop, .delete (pod 1)]).Admissible
        (.replace [pod 2] ["default/web"]) ∧
      (((podInformer [.add (pod 1), .pop, .delete (pod 1)]).apply
        (.replace [pod 2] ["default/web"])).drain 1).fifo.queue = [] ∧
      (((podInformer [.add (pod 1), .pop, .delete (pod 1)]).apply
        (.replace [pod 2] ["default/web"])).drain 1).indexer.getByKey "default/web" = none ∧
      lastListed podAccessor [pod 2] "default/web" = some (pod 2) :=
  ⟨⟨_, _, System.run_foldl (by decide)⟩, by decide, by decide, by decide, by decide,
    ⟨_, _, System.run_foldl (by decide)⟩, by decide, by decide, by decide, by decide⟩

/-- A re-list that finds an update still queued converges. -/
theorem relist_converges_pod : RelistSafe (podInformer [.add (pod 1), .pop, .update (pod 2)]) [pod 3] ∧
      ∀ key, (((podInformer [.add (pod 1), .pop, .update (pod 2)]).apply
        (.replace [pod 3] ["default/web"])).drain 1).indexer.getByKey key = lastListed podAccessor [pod 3] key := by
  have hsafe : RelistSafe (podInformer [.add (pod 1), .pop, .update (pod 2)]) [pod 3] := by
    intro key
    by_cases hkey : key = "default/web"
    · subst hkey
      exact ⟨by decide, by decide⟩
    · have hlisted : lastListed podAccessor [pod 3] key = none := if_neg hkey
      have hkeys : (podInformer [.add (pod 1), .pop, .update (pod 2)]).fifo.items.keys = {"default/web"} := by decide
      refine ⟨fun h => absurd hlisted h, fun _ _ hmem => ?_⟩
      rw [← Finmap.mem_keys, hkeys, Finset.mem_singleton] at hmem
      exact absurd hmem hkey
  have hkeyed : Keyed podAccessor [pod 3] := by
    intro obj hobj
    rw [List.mem_singleton.mp hobj]
    exact ⟨"default/web", rfl⟩
  have hs : Reachable podAccessor (podInformer [.add (pod 1), .pop, .update (pod 2)]) :=
    ⟨_, _, System.run_foldl (by decide)⟩
  exact ⟨hsafe, (relist_converges_iff hs hkeyed (by decide) (by decide)).2.mpr hsafe⟩

end LeanKube.Informer
