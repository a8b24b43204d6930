import LeanKube.RegistryStore

/-! Finalizers hold an object back from its removal. A request decides to remove an object on a version that it has
read, and removes it with another call of the storage, whose only condition is the UID. So the finalizers of the
stored object are respected as long as no write that comes between the two adds one. -/

namespace LeanKube.Registry
open Option Function Object
variable {ι β : Type} {e : Store β} {now : Int} {options : DeleteOptions} {s : Storage β}

def Phase.Removes (phase : Phase β) (uid : String) (d : Decision β) : Prop :=
  ∃ preconditionUID ignoreNotFound result,
    phase = .removing d preconditionUID false ignoreNotFound result ∧ checkPreconditions preconditionUID uid = .ok ()

/-- Each request that is about to remove an object with this UID decided on a version with these finalizers. -/
def State.Spares (s : State ι β) (uid : String) (finalizers : List String) : Prop :=
  ∀ i d, (s.phase i).Removes uid d → finalizers ⊆ d.version.metadata.finalizers

/-- A step of a request on the storage `s`, after which the request may be about to remove the object: then it
decided on the version in `s`, and left no finalizer of it. -/
def Decides (s : Storage β) (r : Storage β × Phase β) : Prop :=
  ∀ d preconditionUID dryRun ignoreNotFound result, r.2 = .removing d preconditionUID dryRun ignoreNotFound result →
    s.object = some d.version ∧ d.kept = [] ∧
      ∀ obj, r.1.object = some obj → obj.metadata.finalizers ⊆ d.version.metadata.finalizers

variable {storage : Storage β} {preconditionUID : Option String} {ignoreNotFound : Bool}
  {existing : Object β} {kept : List String} (uid : Option String)

theorem Decides.of_returned {result : Except Failure Bool} : Decides s (storage, .returned result) :=
  fun _ _ _ _ _ h => nomatch h

variable {dryRun result : Bool}

theorem Decides.of_removing (hobj : s.object = some existing) (hkept : kept = [])
    (hfins : ∀ obj, storage.object = some obj → obj.metadata.finalizers ⊆ existing.metadata.finalizers) :
    Decides s (storage, .removing ⟨existing, kept⟩ preconditionUID dryRun ignoreNotFound result) := by
  intro d _ _ _ _ h
  obtain ⟨rfl, -⟩ := Phase.removing.inj h
  exact ⟨hobj, hkept, hfins⟩

theorem Decides.of_unchanged (hobject : s.object = some existing) (hkept : kept = []) :
    Decides s (s, .removing ⟨existing, kept⟩ preconditionUID dryRun ignoreNotFound result) := by
  refine .of_removing hobject hkept fun _ hobj => ?_
  rw [some.inj (hobject.symm.trans hobj)]
  exact List.Subset.refl _

namespace Store

/-! ### What each request decides on -/

theorem deleteGet_decides (now : Int) (options : Option DeleteOptions) (s : Storage β) :
    Decides s (s, e.deleteGet now options s) := by
  rw [deleteGet]
  cases hobj : s.object with
  | none => exact .of_returned
  | some obj =>
    cases hbefore : beforeDelete e.deleteStrategy now obj (options.getD { gracePeriodSeconds := some 0 }) with
    | error => simpa only [hbefore] using .of_returned
    | ok =>
      simp only [hbefore]
      split_ifs with hpend hupd
      · exact .of_returned
      · exact fun _ _ _ _ _ h => nomatch h
      · simp only [not_or, ne_eq, not_not, List.length_eq_zero_iff] at hupd
        exact .of_unchanged hobj hupd.2.1

variable [DecidableEq β]

theorem deleteUpdate_decides (now : Int) (options : DeleteOptions) (preconditionUID : Option String)
    (s : Storage β) : Decides s (e.deleteUpdate now options preconditionUID s) := by
  rw [deleteUpdate]
  cases hobj : s.object with
  | none => exact .of_returned
  | some existing =>
    cases hcheck : checkPreconditions preconditionUID existing.metadata.uid with
    | error => simpa only [hcheck] using .of_returned
    | ok =>
      simp only [hcheck]
      cases htry : e.tryDelete now options existing with
      | failed | alreadyDeleting => simpa only [htry] using .of_returned
      | deleteNow kept =>
        split_ifs
        · exact .of_returned
        · exact .of_unchanged hobj (tryDelete_deleteNow htry)
      | updated obj =>
        simp only
        split_ifs with hdry hpend hpend
        · exact .of_returned
        · exact .of_returned
        · exact .of_returned
        · -- The update left no finalizer, and wrote an object that has none.
          obtain ⟨_, -, -, -, -, hpending, -⟩ := tryDelete_updated htry
          have hnil : obj.metadata.finalizers = [] := by
            simpa [hpending] using fun hne => hpend (.inl hne)
          refine .of_removing hobj hnil fun _ hstored => ?_
          obtain ⟨_, rfl⟩ := Storage.of_write hstored
          rw [encode_finalizers, hnil]
          exact List.nil_subset _

theorem update_decides (call : UpdateCall β) (s : Storage β) : Decides s (e.update call s) := by
  rw [update]
  cases hcheck : checkPreconditions call.preconditionUID ((s.object.map fun obj => obj.metadata.uid).getD "") with
  | error => simpa only [hcheck] using .of_returned
  | ok =>
    cases hproposal : e.proposal call s.object with
    | error => exact .of_returned
    | ok =>
      cases hobj : s.object with
      | none => exact .of_returned
      | some =>
        simp only
        split_ifs with hdel hdry
        · simp only [shouldDeleteDuringUpdate, decide_eq_true_eq, List.length_eq_zero_iff] at hdel
          exact .of_unchanged hobj hdel.1
        · exact .of_returned
        · exact .of_returned

end Store

variable (dryRun ignoreNotFound result : Bool)

theorem removeObject_phase (s : Storage β) :
    ∃ r, (removeObject uid dryRun ignoreNotFound result s).2 = .returned r := by
  rw [removeObject]
  cases hobj : s.object with
  | none => exact ⟨_, rfl⟩
  | some obj =>
    cases hcheck : checkPreconditions uid obj.metadata.uid with
    | error failure => exact ⟨.error failure, by simp [hcheck]⟩
    | ok => exact ⟨.ok result, by simp [hcheck]⟩

/-! ### Runs -/

variable [DecidableEq ι] [DecidableEq β]

namespace Store

/-- A step that writes no finalizer which a request that is about to remove the object has not seen. -/
def Respects (e : Store β) (s : State ι β) : Turn ι β → Prop
  | .delete _ _ _ => True
  | .update _ call => ∀ obj, isDryRun call.dryRun = false → checkPreconditions call.preconditionUID
        ((s.storage.object.map fun obj => obj.metadata.uid).getD "") = .ok () →
      e.proposal call s.storage.object = .ok obj → s.Spares obj.metadata.uid obj.metadata.finalizers
  | .resume i now => ∀ options preconditionUID existing deletion,
      s.phase i = .updating options preconditionUID → s.storage.object = some existing →
      checkPreconditions preconditionUID existing.metadata.uid = .ok () → isDryRun options.dryRun = false →
      beforeDelete e.deleteStrategy now existing options = .ok deletion → deletion.gracefulPending = false →
      s.Spares existing.metadata.uid (e.finalizersAfter existing.metadata.finalizers deletion.options)

theorem next_decides (e : Store β) (s : State ι β) (turn : Turn ι β) :
    ∃ i r, e.next s turn = s.set i r ∧ Decides s.storage r := by
  cases turn with
  | delete i now options => exact ⟨i, _, rfl, deleteGet_decides now options s.storage⟩
  | update i call => exact ⟨i, _, rfl, update_decides call s.storage⟩
  | resume i now =>
    refine ⟨i, _, rfl, ?_⟩
    cases s.phase i with
    | returned => exact .of_returned
    | updating options uid => exact deleteUpdate_decides now options uid s.storage
    | removing d uid dryRun ignoreNotFound result =>
      obtain ⟨r, hr⟩ := removeObject_phase uid dryRun ignoreNotFound result s.storage
      intro _ _ _ _ _ h
      cases hr.symm.trans h

variable {turn : Turn ι β} {obj : Object β}

section
variable {s : State ι β}

theorem next_spares (h : e.Respects s turn)
    (hs : ∀ obj, s.storage.object = some obj → s.Spares obj.metadata.uid obj.metadata.finalizers)
    (hobj : (e.next s turn).storage.object = some obj) : s.Spares obj.metadata.uid obj.metadata.finalizers := by
  have hchanges := e.next_changes s turn
  generalize (e.next s turn).storage = storage at hobj hchanges
  cases hchanges with
  | same => exact hs obj hobj
  | updated _ _ new hreal hcheck hproposal =>
    obtain ⟨_, rfl⟩ := Storage.of_write hobj
    exact h new hreal hcheck hproposal
  | deleting _ _ options uid existing new _ _ hphase hexi hcheck hreal htry =>
    obtain ⟨_, rfl⟩ := Storage.of_write hobj
    obtain ⟨deletion, hbefore, hpend, hfins, huid, -⟩ := tryDelete_updated htry
    rw [encode_uid, encode_finalizers, hfins, huid]
    exact h options uid existing deletion hphase hexi hcheck hreal hbefore hpend
  | removed => cases hobj

theorem next_removes (hobj : s.storage.object = some obj) (hgone : (e.next s turn).storage.object = none) :
    ∃ i now d, turn = .resume i now ∧ (s.phase i).Removes obj.metadata.uid d := by
  have hchanges := e.next_changes s turn
  generalize (e.next s turn).storage = storage at hgone hchanges
  cases hchanges with
  | same => simp [hobj] at hgone
  | updated | deleting => exact absurd hgone (Storage.write_ne_none _ _)
  | removed i now d uid ignoreNotFound result obj' hphase hobj' hcheck =>
    rw [some.inj (hobj.symm.trans hobj')]
    exact ⟨i, now, d, rfl, uid, ignoreNotFound, result, hphase, hcheck⟩

/-- What a run keeps: a request that is about to remove the object decided on a version that was stored, left no
finalizer of it, and that version has all the finalizers that are stored. -/
structure Respected (e : Store β) (start : State ι β) (turns : List (Turn ι β)) (s : State ι β) : Prop where
  run : (e.requests e.Respects).Run start turns s
  decided : ∀ i d uid dryRun ignoreNotFound result, s.phase i = .removing d uid dryRun ignoreNotFound result →
    d.kept = [] ∧ (e.requests e.Respects).Visits (fun m => m.storage.object = some d.version) start turns s
  spared : ∀ obj, s.storage.object = some obj → s.Spares obj.metadata.uid obj.metadata.finalizers

theorem Respected.start (h : ∀ i, (s.phase i).isReturned) : e.Respected s [] s where
  run := .nil s
  decided i _ _ _ _ _ hphase := by
    have := h i
    simp [hphase, Phase.isReturned] at this
  spared := by
    rintro _ _ i d ⟨_, _, _, hphase, -⟩
    have := h i
    simp [hphase, Phase.isReturned] at this

end

theorem Respected.snoc {start s : State ι β} {turns : List (Turn ι β)}
    (h : e.Respected start turns s) (hstep : (e.requests e.Respects).step s turn (e.next s turn)) :
    e.Respected start (turns ++ [turn]) (e.next s turn) := by
  obtain ⟨i, r, hnext, hdecides⟩ := e.next_decides s turn
  have hspares : ∀ obj, (e.next s turn).storage.object = some obj → s.Spares obj.metadata.uid obj.metadata.finalizers :=
    fun _ hobj => next_spares hstep.1.2 h.spared hobj
  refine ⟨h.run.snoc hstep, ?_, ?_⟩
  · intro j d uid dryRun ignoreNotFound result hphase
    rw [hnext, State.set] at hphase
    by_cases hji : j = i
    · subst hji
      simp only [update_self] at hphase
      obtain ⟨hver, hkept, -⟩ := hdecides d uid dryRun ignoreNotFound result hphase
      exact ⟨hkept, (h.run.visits_last (P := fun m => m.storage.object = some d.version) hver).snoc hstep⟩
    · simp only [update_of_ne hji] at hphase
      obtain ⟨hkept, hvis⟩ := h.decided j d uid dryRun ignoreNotFound result hphase
      exact ⟨hkept, hvis.snoc hstep⟩
  · intro obj hobj j d hremoves
    rw [hnext] at hobj hremoves
    by_cases hji : j = i
    · subst hji
      obtain ⟨uid, ignoreNotFound, result, hphase, -⟩ := hremoves
      simp only [State.set, update_self] at hphase
      exact (hdecides d uid false ignoreNotFound result hphase).2.2 obj hobj
    · simp only [State.set, update_of_ne hji] at hremoves
      exact hspares obj (hnext ▸ hobj) j d hremoves

/-- In every run in which no step writes a finalizer that a request which is about to remove the object has not
seen, finalizers are not bypassed: when the object is removed, each finalizer that is stored was in the version on
which the removing request decided, and the request itself dropped it. -/
theorem finalizers_not_bypassed {start t u : State ι β} {turns : List (Turn ι β)} {turn : Turn ι β}
    {obj : Object β} (hstart : ∀ i, (start.phase i).isReturned)
    (hrun : (e.requests e.Respects).Run start turns t) (hstep : (e.requests e.Respects).step t turn u)
    (hobj : t.storage.object = some obj) (hgone : u.storage.object = none) :
    ∃ i now d, turn = .resume i now ∧ (t.phase i).Removes obj.metadata.uid d ∧
      (e.requests e.Respects).Visits (fun m => m.storage.object = some d.version) start turns t ∧
      ∀ f ∈ obj.metadata.finalizers, f ∈ d.version.metadata.finalizers ∧ f ∉ d.kept := by
  obtain ⟨-, rfl⟩ := hstep
  have hrespected : e.Respected start turns t := by
    refine hrun.history (fun turns t => e.Respected start turns t) ?_ (.start hstart)
    rintro turns s _ _ ⟨henabled, rfl⟩ hs
    exact hs.snoc ⟨henabled, rfl⟩
  obtain ⟨i, now, d, hturn, hremoves⟩ := next_removes hobj hgone
  have hspared := hrespected.spared obj hobj i d hremoves
  obtain ⟨uid, ignoreNotFound, result, hphase, hcheck⟩ := hremoves
  obtain ⟨hkept, hvisits⟩ := hrespected.decided i d uid false ignoreNotFound result hphase
  refine ⟨i, now, d, hturn, ⟨uid, ignoreNotFound, result, hphase, hcheck⟩, hvisits, fun f hf => ⟨hspared hf, ?_⟩⟩
  rw [hkept]
  exact List.not_mem_nil

end Store

def setFinalizers (finalizers : List String) : UpdateCall Unit where
  updatedObject
    | none => .error .notFound
    | some obj => .ok { obj with metadata.finalizers := finalizers }

/-- An object that is being deleted has a finalizer. An update drops it, and removes the object. -/
theorem finalizers_not_bypassed_dropped :
    ∃ (t : State Unit Unit) (d : Decision Unit) (obj : Object Unit), t.storage.object = some obj ∧
      (t.phase ()).Removes "a" d ∧ "example.com/guard" ∈ obj.metadata.finalizers ∧
      ∀ f ∈ obj.metadata.finalizers, f ∈ d.version.metadata.finalizers ∧ f ∉ d.kept := by
  let start : State Unit Unit := idle
    { uid := "a", resourceVersion := 1, deletionTimestamp := some 0, deletionGracePeriodSeconds := some 0,
      finalizers := ["example.com/guard"] }
  let t := plainStore.next start (.update () (setFinalizers []))
  have hrun : (plainStore.requests plainStore.Respects).Run start [.update () (setFinalizers [])] t := by
    refine .single ⟨⟨rfl, ?_⟩, rfl⟩
    rintro _ - - - i d ⟨_, _, _, hphase, -⟩
    cases hphase
  have hstep : (plainStore.requests plainStore.Respects).step t (.resume () 0) (plainStore.next t (.resume () 0)) := by
    refine ⟨⟨rfl, ?_⟩, rfl⟩
    rintro _ _ _ _ hphase
    cases hphase
  obtain ⟨i, _, d, -, hremoves, -, hdropped⟩ :=
    Store.finalizers_not_bypassed (fun _ => rfl) hrun hstep rfl rfl
  exact ⟨t, d, _, rfl, hremoves, by decide, hdropped⟩

/-- A client deletes an object without finalizers. Before the object is removed another client adds a finalizer,
which is bypassed. -/
theorem added_finalizer_bypassed :
    ∃ (start t u : State Bool Unit) (turns : List (Turn Bool Unit)) (i : Bool) (now : Int) (d : Decision Unit)
      (obj : Object Unit) (f : String),
      (∀ i, (start.phase i).isReturned) ∧ (plainStore.requests fun _ _ => True).Run start turns t ∧
      (plainStore.requests fun _ _ => True).step t (.resume i now) u ∧ (t.phase i).Removes obj.metadata.uid d ∧
      t.storage.object = some obj ∧ u.storage.object = none ∧
      f ∈ obj.metadata.finalizers ∧ f ∉ d.version.metadata.finalizers := by
  let start : State Bool Unit := idle { uid := "a", resourceVersion := 1 }
  let turns : List (Turn Bool Unit) := [.delete false 0 none, .update true (setFinalizers ["example.com/guard"])]
  refine ⟨start, turns.foldl plainStore.next start, _, turns, false, 0,
    ⟨⟨{ uid := "a", resourceVersion := 1 }, ()⟩, []⟩, _, "example.com/guard", fun _ => rfl,
    System.run_foldl ⟨⟨rfl, trivial⟩, ⟨rfl, trivial⟩, trivial⟩, ⟨⟨rfl, trivial⟩, rfl⟩,
    ⟨none, false, true, rfl, rfl⟩, rfl, rfl, by decide, by decide⟩

end LeanKube.Registry
