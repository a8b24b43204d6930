import LeanKube.InformerHandleDeltas

/-! What the queue keeps true over every call, and what the deltas queued under a key are worth:
folded over the indexer's value they give the value the key will have once they are consumed. -/

namespace LeanKube.Informer
open List DeltaFIFO
variable {α : Type} (v : Option (Object α))

def foldDeltas (deltas : Deltas α) (v : Option (Object α)) : Option (Object α) :=
  deltas.foldl (fun _ d => if d.deltaType = .deleted then none else some d.object) v

@[simp] theorem foldDeltas_nil : foldDeltas [] v = v := rfl

variable (deltas : Deltas α) (a : Delta α)

theorem foldDeltas_append (d : Delta α) (v : Option (Object α)) :
    foldDeltas (deltas ++ [d]) v = if d.deltaType = .deleted then none else some d.object := by
  simp only [foldDeltas, foldl_append, foldl_cons, foldl_nil]

/-! ### Deduplication -/

theorem isDup_cases (b : Delta α) : isDup a b = none ∨ ∃ out, isDup a b = some out ∧ a.deltaType = .deleted ∧
      b.deltaType = .deleted ∧ (out = a ∨ out = b) := by
  unfold isDup isDeletionDup
  by_cases hdel : b.deltaType ≠ .deleted ∨ a.deltaType ≠ .deleted
  · rw [if_pos hdel]
    exact Or.inl rfl
  · rw [if_neg hdel]
    rw [not_or, not_not, not_not] at hdel
    cases b.object with
    | deletedFinalStateUnknown => exact Or.inr ⟨a, rfl, hdel.2, hdel.1, Or.inl rfl⟩
    | nil | explicitKey | api => exact Or.inr ⟨b, rfl, hdel.2, hdel.1, Or.inr rfl⟩

theorem dedupDeltas_append_two (older : Deltas α) (b a : Delta α) : dedupDeltas (older ++ [b] ++ [a]) =
      match isDup a b with
      | some out => older ++ [out]
      | none => older ++ [b] ++ [a] := by
  have hlen : ¬(older ++ [b] ++ [a]).length < 2 := by simp
  rw [dedupDeltas, dif_neg hlen]
  cases h : isDup a b <;> simp [h]

theorem dedupDeltas_append : ∃ older last, dedupDeltas (deltas ++ [a]) = older ++ [last] ∧
      (last = a ∨ last.deltaType = .deleted ∧ a.deltaType = .deleted) ∧
      ∀ d ∈ older ++ [last], d ∈ deltas ++ [a] := by
  rcases eq_nil_or_concat deltas with rfl | ⟨older, b, rfl⟩
  · exact ⟨[], a, rfl, .inl rfl, fun _ hd => hd⟩
  · rw [concat_eq_append, dedupDeltas_append_two]
    rcases isDup_cases a b with hnone | ⟨out, hout, ha, hb, hor⟩
    · rw [hnone]
      exact ⟨older ++ [b], a, rfl, .inl rfl, fun _ hd => hd⟩
    · rw [hout]
      refine ⟨older, out, rfl, .inr ⟨?_, ha⟩, ?_⟩
      · rcases hor with rfl | rfl <;> assumption
      · rcases hor with rfl | rfl <;> simp +contextual [or_imp]

theorem foldDeltas_dedupDeltas :
    foldDeltas (dedupDeltas (deltas ++ [a])) v = if a.deltaType = .deleted then none else some a.object := by
  obtain ⟨_, last, h, rfl | ⟨hlast, ha⟩, -⟩ := dedupDeltas_append deltas a
  · rw [h, foldDeltas_append]
  · rw [h, foldDeltas_append, if_pos hlast, if_pos ha]

theorem dedupDeltas_ne_nil : dedupDeltas (deltas ++ [a]) ≠ [] := by
  obtain ⟨_, _, h, -⟩ := dedupDeltas_append deltas a
  rw [h]
  exact append_ne_nil_of_right_ne_nil _ (cons_ne_nil _ _)

theorem mem_of_mem_dedupDeltas {deltas : Deltas α} {a d : Delta α}
    (h : d ∈ dedupDeltas (deltas ++ [a])) : d ∈ deltas ∨ d = a := by
  obtain ⟨_, _, heq, -, hmem⟩ := dedupDeltas_append deltas a
  rw [heq] at h
  simpa using hmem d h

theorem getLast_dedupDeltas : ∃ last, (dedupDeltas (deltas ++ [a])).getLast? = some last ∧
      (last.deltaType = .deleted ↔ a.deltaType = .deleted) := by
  obtain ⟨_, last, h, hlast, -⟩ := dedupDeltas_append deltas a
  refine ⟨last, by rw [h, List.getLast?_concat], ?_⟩
  rcases hlast with rfl | ⟨hlast, ha⟩
  · rfl
  · exact iff_of_true hlast ha

/-! ### One action on the queue -/

namespace DeltaFIFO
variable {id : String} (f : DeltaFIFO α) (actionType : DeltaType)

theorem deltasOf_eq_nil_of_notMem {f : DeltaFIFO α} (h : id ∉ f.items) : f.deltasOf id = [] := by
  rw [deltasOf, Finmap.lookup_eq_none.mpr h]
  rfl

theorem queueAction_eq (id : String) (obj : Object α) : f.queueAction actionType id obj =
      if actionType = .sync ∧ f.willObjectBeDeletedLocked id then f
      else { f with
        queue := if id ∈ f.items then f.queue else f.queue ++ [id]
        items := f.items.insert id (dedupDeltas (f.deltasOf id ++ [⟨actionType, obj⟩])) } := by
  have hpos : 0 < (dedupDeltas (f.deltasOf id ++ [⟨actionType, obj⟩])).length :=
    length_pos_iff.mpr (dedupDeltas_ne_nil _ _)
  simp only [queueAction, if_pos hpos]

theorem deltasOf_queueAction (id : String) (obj : Object α) (id' : String)
    (h : ¬(actionType = .sync ∧ f.willObjectBeDeletedLocked id)) :
    (f.queueAction actionType id obj).deltasOf id' =
      if id' = id then dedupDeltas (f.deltasOf id ++ [⟨actionType, obj⟩]) else f.deltasOf id' := by
  rw [queueAction_eq, if_neg h]
  simp only [deltasOf, GoMap.lookup_insert_ite]
  split_ifs <;> rfl

theorem deltasOf_queueAction_of_ne {id' : String} (obj : Object α) (hne : id' ≠ id) :
    (f.queueAction actionType id obj).deltasOf id' = f.deltasOf id' := by
  by_cases h : actionType = .sync ∧ f.willObjectBeDeletedLocked id
  · rw [queueAction_eq, if_pos h]
  · rw [deltasOf_queueAction f actionType id obj id' h, if_neg hne]

theorem willObjectBeDeletedLocked_iff (id : String) : f.willObjectBeDeletedLocked id = true ↔
      ∃ last, (f.deltasOf id).getLast? = some last ∧ last.deltaType = .deleted := by
  unfold willObjectBeDeletedLocked
  cases (f.deltasOf id).getLast? with
  | none | some => simp

theorem foldDeltas_of_willObjectBeDeletedLocked {f : DeltaFIFO α}
    (h : f.willObjectBeDeletedLocked id = true) (v : Option (Object α)) : foldDeltas (f.deltasOf id) v = none := by
  obtain ⟨last, hlast, hdel⟩ := (willObjectBeDeletedLocked_iff f id).mp h
  obtain ⟨older, holder⟩ := List.getLast?_eq_some_iff.mp hlast
  rw [holder, foldDeltas_append, if_pos hdel]

theorem foldDeltas_ne_none {f : DeltaFIFO α} (hne : f.deltasOf id ≠ [])
    (h : f.willObjectBeDeletedLocked id ≠ true) (v : Option (Object α)) : foldDeltas (f.deltasOf id) v ≠ none := by
  rcases eq_nil_or_concat (f.deltasOf id) with hnil | ⟨older, last, hlast⟩
  · exact absurd hnil hne
  · rw [concat_eq_append] at hlast
    have hdel : last.deltaType ≠ .deleted := by
      intro hdel
      refine h ((willObjectBeDeletedLocked_iff f id).mpr ⟨last, ?_, hdel⟩)
      rw [hlast, List.getLast?_concat]
    rw [hlast, foldDeltas_append, if_neg hdel]
    exact Option.some_ne_none _

theorem foldDeltas_queueAction (id : String) (obj : Object α) (key : String) (v : Option (Object α)) :
    foldDeltas ((f.queueAction actionType id obj).deltasOf key) v =
      if key = id then
        if actionType = .deleted ∨ actionType = .sync ∧ f.willObjectBeDeletedLocked id = true
        then none else some obj else foldDeltas (f.deltasOf key) v := by
  by_cases hskip : actionType = .sync ∧ f.willObjectBeDeletedLocked id
  · rw [queueAction_eq, if_pos hskip, if_pos (Or.inr hskip)]
    split_ifs with hkey
    · rw [hkey, foldDeltas_of_willObjectBeDeletedLocked hskip.2]
    · rfl
  · rw [deltasOf_queueAction f actionType id obj key hskip]
    split_ifs with hkey hdel
    · rw [foldDeltas_dedupDeltas, if_pos (hdel.resolve_right hskip)]
    · rw [not_or] at hdel
      rw [foldDeltas_dedupDeltas, if_neg hdel.1]
    · rfl

/-! ### Calls as sequences of actions -/

/-- A relation between the queue before and after that every part of a call but `Pop` keeps to. -/
structure Follows (keyFunc : Object α → Except String String) (R : DeltaFIFO α → DeltaFIFO α → Prop) : Prop where
  refl (f : DeltaFIFO α) : R f f
  trans {f g h : DeltaFIFO α} : R f g → R g h → R f h
  action (f : DeltaFIFO α) (actionType : DeltaType) {id : String} {obj : Object α} :
    keyOf keyFunc obj = .ok id → R f (f.queueAction actionType id obj)
  populated (f : DeltaFIFO α) : R f { f with populated := true }
  marked (f : DeltaFIFO α) (count : Nat) : R f (f.markPopulated count)

namespace Follows
variable {keyFunc : Object α → Except String String} {R : DeltaFIFO α → DeltaFIFO α → Prop}
  (hR : Follows keyFunc R) (knownObjects : Option (GoMap String (Object α))) (order : List String) (f : DeltaFIFO α)
  (obj : Object α)
include hR

theorem queueActionLocked (f : DeltaFIFO α) (actionType : DeltaType) (obj : Object α) :
    R f (queueActionLocked keyFunc f actionType obj).1 := by
  rw [DeltaFIFO.queueActionLocked]
  split
  · exact hR.refl f
  · next hkey => exact hR.action f actionType hkey

theorem add : R f (f.add keyFunc obj).1 := hR.trans (hR.populated f) (hR.queueActionLocked _ _ _)

theorem update : R f (f.update keyFunc obj).1 := hR.trans (hR.populated f) (hR.queueActionLocked _ _ _)

theorem delete : R f (f.delete keyFunc knownObjects obj).1 := by
  have hdelete := hR.trans (hR.populated f) (hR.queueActionLocked _ .deleted obj)
  unfold DeltaFIFO.delete
  cases keyOf keyFunc obj with
  | error => exact hR.refl f
  | ok =>
    cases knownObjects <;> dsimp only <;> split_ifs
    all_goals first | exact hdelete | exact hR.populated f

variable (list : List (Object α)) (keys : Finset String) (known : GoMap String (Object α))

theorem replaceSync (f : DeltaFIFO α) (keys : Finset String) : R f (replaceSync keyFunc list f keys).1 := by
  induction list generalizing f keys with
  | nil => exact hR.refl f
  | cons item _ ih =>
    have hitem := hR.queueActionLocked f .sync item
    rw [DeltaFIFO.replaceSync]
    split
    · exact hR.refl f
    · split <;> rename_i heq <;> rw [heq] at hitem
      · exact hitem
      · exact hR.trans hitem (ih _ _)

theorem replaceOwn : R f (replaceOwn keyFunc keys order f).1 := by
  induction order generalizing f with
  | nil => exact hR.refl f
  | cons _ _ ih =>
    rw [replaceOwn]
    split
    · exact ih f
    · exact hR.trans (hR.action f .deleted rfl) (ih _)

theorem replaceKnown (count : Nat) : R f (replaceKnown keyFunc keys known order f count).1 := by
  induction order generalizing f count with
  | nil => exact hR.refl f
  | cons _ _ ih =>
    rw [replaceKnown]
    split
    · exact ih f _
    · exact hR.trans (hR.action f .deleted rfl) (ih _ _)

theorem replace : R f (f.replace keyFunc knownObjects order list).1 := by
  have hsync := hR.replaceSync list f ∅
  rw [DeltaFIFO.replace]
  split <;> rename_i heq <;> rw [heq] at hsync
  · exact hsync
  next g keys =>
  cases knownObjects with
  | none =>
    have hown := hR.trans hsync (hR.replaceOwn order g keys)
    dsimp only
    split <;> rename_i heq <;> rw [heq] at hown
    · exact hown
    · exact hR.trans hown (hR.marked _ _)
  | some known =>
    have hknown := hR.trans hsync (hR.replaceKnown order g keys known 0)
    dsimp only
    split <;> rename_i heq <;> rw [heq] at hknown
    · exact hknown
    · exact hR.trans hknown (hR.marked _ _)

theorem syncKeyLocked (key : String) : R f (syncKeyLocked keyFunc known f key).1 := by
  unfold DeltaFIFO.syncKeyLocked
  cases known.lookup key with
  | none => exact hR.refl f
  | some obj =>
    have hsync := hR.queueActionLocked f .sync obj
    dsimp only
    split
    · exact hR.refl f
    · split_ifs
      · exact hR.refl f
      · split <;> rename_i heq <;> rwa [heq] at hsync

theorem resync : R f (f.resync keyFunc knownObjects order).1 := by
  cases knownObjects with
  | none => exact hR.refl f
  | some known =>
    unfold resync
    dsimp only
    induction order generalizing f with
    | nil => exact hR.refl f
    | cons k _ ih =>
      have hsync := hR.syncKeyLocked f known k
      rw [resyncKeys]
      split <;> rename_i heq <;> rw [heq] at hsync
      · exact hsync
      · exact hR.trans hsync (ih _)

end Follows
end DeltaFIFO

/-! ### The invariant of the queue -/

variable {accessor : α → Except String ObjectMeta}

theorem keyOf_metaNamespaceKeyFunc (obj : Object α) : DeltaFIFO.keyOf (metaNamespaceKeyFunc accessor) obj =
      deletionHandlingMetaNamespaceKeyFunc accessor obj := by
  cases obj <;> rfl

/-- The property the queue depends on: the keys queued are, without repetition, the keys of the
items, every item has at least one delta, and a delta's object has the key it is queued under. -/
structure DeltaFIFO.WellFormed (accessor : α → Except String ObjectMeta) (f : DeltaFIFO α) : Prop where
  nodup : f.queue.Nodup
  queued : ∀ id, id ∈ f.queue ↔ id ∈ f.items
  nonempty : ∀ id ∈ f.items, f.deltasOf id ≠ []
  keyed : ∀ id, ∀ d ∈ f.deltasOf id, deletionHandlingMetaNamespaceKeyFunc accessor d.object = .ok id

namespace DeltaFIFO

theorem new_wellFormed : (new : DeltaFIFO α).WellFormed accessor where
  nodup := nodup_nil
  queued id := iff_of_false not_mem_nil Finmap.notMem_empty
  nonempty id hid := absurd hid Finmap.notMem_empty
  keyed id d hd := by simp [new, deltasOf] at hd

variable {obj : Object α} {f : DeltaFIFO α}

theorem WellFormed.queueAction (hf : f.WellFormed accessor) (actionType : DeltaType) {id : String}
    (hkey : deletionHandlingMetaNamespaceKeyFunc accessor obj = .ok id) :
    (f.queueAction actionType id obj).WellFormed accessor := by
  by_cases hskip : actionType = .sync ∧ f.willObjectBeDeletedLocked id
  · rw [queueAction_eq, if_pos hskip]
    exact hf
  have hdeltas := fun id' => f.deltasOf_queueAction actionType id obj id' hskip
  refine ⟨?_, ?_, ?_, ?_⟩
  · rw [queueAction_eq, if_neg hskip]
    by_cases hid : id ∈ f.items
    · simp only [if_pos hid]
      exact hf.nodup
    · simp only [if_neg hid]
      have hnot : id ∉ f.queue := fun h => hid ((hf.queued id).mp h)
      exact nodup_append'.mpr ⟨hf.nodup, nodup_singleton id, disjoint_singleton.mpr hnot⟩
  · intro id'
    rw [queueAction_eq, if_neg hskip]
    by_cases hid : id ∈ f.items
    · simp only [if_pos hid, Finmap.mem_insert, hf.queued]
      exact ⟨Or.inr, fun h => h.elim (fun heq => heq ▸ hid) (fun hmem => hmem)⟩
    · simp only [if_neg hid, Finmap.mem_insert, mem_append, mem_singleton, hf.queued]
      exact or_comm
  · intro id' hid'
    rw [hdeltas]
    split_ifs with heq
    · exact dedupDeltas_ne_nil _ _
    · rw [queueAction_eq, if_neg hskip, Finmap.mem_insert] at hid'
      exact hf.nonempty id' (hid'.resolve_left heq)
  · intro id' d hd
    rw [hdeltas] at hd
    split_ifs at hd with heq
    · rcases mem_of_mem_dedupDeltas hd with hd | rfl
      · exact heq ▸ hf.keyed id d hd
      · exact heq ▸ hkey
    · exact hf.keyed id' d hd

/-- Every call but `Pop` is a sequence of actions, apart from the bookkeeping of the first batch. -/
inductive Enqueues (accessor : α → Except String ObjectMeta) (f : DeltaFIFO α) : DeltaFIFO α → Prop where
  | refl : Enqueues accessor f f
  | mark {g : DeltaFIFO α} (populated : Bool) (count : Nat) : Enqueues accessor f g →
      Enqueues accessor f { g with populated := populated, initialPopulationCount := count }
  | action {g : DeltaFIFO α} (actionType : DeltaType) {id : String} {obj : Object α} :
      Enqueues accessor f g → deletionHandlingMetaNamespaceKeyFunc accessor obj = .ok id →
      Enqueues accessor f (g.queueAction actionType id obj)

theorem WellFormed.enqueues {g : DeltaFIFO α} (hf : f.WellFormed accessor)
    (h : Enqueues accessor f g) : g.WellFormed accessor := by
  induction h with
  | refl => exact hf
  | mark _ _ _ ih => exact ⟨ih.nodup, ih.queued, ih.nonempty, ih.keyed⟩
  | action actionType _ hkey ih => exact ih.queueAction actionType hkey

theorem Enqueues.trans {f g h : DeltaFIFO α} (hfg : Enqueues accessor f g)
    (hgh : Enqueues accessor g h) : Enqueues accessor f h := by
  induction hgh with
  | refl => exact hfg
  | mark populated count _ ih => exact ih.mark populated count
  | action actionType _ hkey ih => exact ih.action actionType hkey

variable (accessor)

theorem queueActionLocked_of_key (f : DeltaFIFO α) (actionType : DeltaType) {id : String}
    (hkey : deletionHandlingMetaNamespaceKeyFunc accessor obj = .ok id) :
    queueActionLocked (metaNamespaceKeyFunc accessor) f actionType obj = (f.queueAction actionType id obj, none) := by
  rw [queueActionLocked, keyOf_metaNamespaceKeyFunc, hkey]

theorem follows_enqueues : Follows (metaNamespaceKeyFunc accessor) (Enqueues accessor) where
  refl _ := .refl
  trans := Enqueues.trans
  action _ actionType _ obj hkey := Enqueues.refl.action actionType (keyOf_metaNamespaceKeyFunc obj ▸ hkey)
  populated f := Enqueues.refl.mark true f.initialPopulationCount
  marked f count := by
    unfold markPopulated
    split_ifs
    · exact .refl
    · exact Enqueues.refl.mark true count

end DeltaFIFO
end LeanKube.Informer
