import LeanKube.EtcdStoreLinearizable

/-! Whether `GuaranteedUpdate` fails for an object that the key held during the call. A precondition
that fails on the suggestion fails the call, and so does an error of `tryUpdate` that is not a conflict,
whether or not the suggestion is still stored. In later passes through the loop the object was stored. -/

namespace LeanKube.Etcd3
open Storage
variable {ι α : Type} [DecidableEq ι] {s : Store α} {call : Update α} {w w' : World ι α} {i : ι}
  {turns : List (Turn ι α)}

namespace Store
variable (s) (call) (st : ObjState α)

def FailsCheck : Prop :=
  ∃ err, s.check call.preconditions st.obj = .error err

def FailsUpdate : Prop :=
  ∃ err, call.tryUpdate st.obj st.resourceVersion = .error err

variable (held : ObjState α → Prop)

/-- An error of the preconditions or of `tryUpdate` is one for an object that the key held during the
call, the zero object if the call ignores that the key was not found. -/
def ErrorsOfHeld : Result α → Prop
  | .preconditionFailed _ => ∃ st, held st ∧ s.FailsCheck call st
  | .updateFailed _ => ∃ st, held st ∧ FailsUpdate call st
  | _ => True

/-- What the preconditions and `tryUpdate` say about the suggestion is also true of an object that the
key held during the call, unless they accept it or `tryUpdate` reports a conflict. -/
def SuggestionFailsAsHeld : Prop :=
  ∀ st, s.Suggested call st → (s.FailsCheck call st → ∃ st', held st' ∧ s.FailsCheck call st') ∧
    (s.check call.preconditions st.obj = .ok () →
      ∀ err, call.tryUpdate st.obj st.resourceVersion = .error err → err.isConflict = false →
        ∃ st', held st' ∧ FailsUpdate call st')

variable {call} {s} {st : ObjState α}

theorem beginUpdate_suggested (h : s.Suggested call st) : s.beginUpdate call = .looping st true := by
  obtain ⟨_, hsome, hst⟩ := h
  rw [beginUpdate, hsome]
  simp only [hst]

theorem returned_of_pass {result : Result α} (hst : s.Suggested call st)
    (hpass : s.pass call st true = .returned result) (hrun : s.system.Run w turns w')
    (hcall : ∀ request, .call i request ∉ turns) (hbegin : w.clients i = .updating call (s.beginUpdate call)) :
    w'.clients i = .updating call (.looping st true) ∨ w'.clients i = .updating call (.returned result) := by
  rw [beginUpdate_suggested hst] at hbegin
  refine client_knows (K := fun _ _ client => client = .updating call (.looping st true) ∨
    client = .updating call (.returned result)) hrun hcall (.inl hbegin) (fun _ _ _ _ _ _ => id) ?_
  rintro _ t _ _ _ - (rfl | rfl)
  · exact .inr (by rw [stepClient, stepUpdate, hpass])
  · exact .inr rfl

variable {err : StorageError}

theorem pass_failsCheck (h : s.check call.preconditions st.obj = .error err) :
    s.pass call st true = .returned (.preconditionFailed err) := by
  rw [pass, h]

theorem pass_failsUpdate (hcheck : s.check call.preconditions st.obj = .ok ())
    (h : call.tryUpdate st.obj st.resourceVersion = .error err) (hconflict : err.isConflict = false) :
    s.pass call st true = .returned (.updateFailed err) := by
  have hupd : updateState st call.tryUpdate = .error err := by
    rw [updateState, h]
    rfl
  rw [pass, hcheck, hupd]
  simp [hconflict]

/-- A call returns errors only for objects that the key held during the call, exactly if that is so for
its suggestion. -/
theorem guaranteedUpdate_errors_iff {start called current : World ι α} {result : Result α}
    (hbegin : s.system.step start (.call i (.update call)) called) (hduring : s.system.Run called turns current)
    (hcall : ∀ request, .call i request ∉ turns) (hreturned : current.clients i = .updating call (.returned result)) :
    s.ErrorsOfHeld call (s.Held call.ignoreNotFound called turns current) result ↔
      s.SuggestionFailsAsHeld call (s.Held call.ignoreNotFound called turns current) := by
  have hcalled := call_own hbegin
  constructor
  · intro herrors st hst
    refine ⟨fun ⟨err, herr⟩ => ?_, fun hcheck err herr hconflict => ?_⟩
    · have hend := returned_of_pass hst (pass_failsCheck herr) hduring hcall hcalled
      rw [hreturned] at hend
      rcases hend with hloop | hresult
      · cases hloop
      · cases hresult
        exact herrors
    · have hend := returned_of_pass hst (pass_failsUpdate hcheck herr hconflict) hduring hcall hcalled
      rw [hreturned] at hend
      rcases hend with hloop | hresult
      · cases hloop
      · cases hresult
        exact herrors
  · intro hsuggestion
    obtain ⟨_, hpoint, hknows⟩ := updating_knows hduring hcall hcalled
    rw [hreturned] at hpoint
    cases hpoint
    match result, hknows with
    | .ok _, _ => trivial
    | .failed _, _ => trivial
    | .preconditionFailed err, ⟨st, horigin, herr⟩ =>
      rcases horigin with hst | hheld
      · exact (hsuggestion st hst).1 ⟨err, herr⟩
      · exact ⟨st, hheld, err, herr⟩
    | .updateFailed err, ⟨st, horigin, herr⟩ =>
      rcases horigin with ⟨hst, hcheck, hconflict⟩ | hheld
      · exact (hsuggestion st hst).2 hcheck err herr hconflict
      · exact ⟨st, hheld, err, herr⟩

end Store

/-! ### An object that was replaced -/

def touchNew : Update UInt8 where
  ignoreNotFound := false
  preconditions := some ⟨some "new"⟩
  tryUpdate obj _ := .ok (obj, none)
  suggestion := some (updateObject ⟨7, ""⟩ 1)

/-- The second client deletes the object and creates another one. -/
def replacing : List (Turn Bool UInt8) :=
  [.call false (.delete none), .step false (writes 2), .call false (.create ⟨8, ""⟩ 0), .step false (writes 3)]

def rememberedState : ObjState UInt8 := { byteState 1 with stale := false }

theorem suggested_touchNew {st : ObjState UInt8} (h : byteStore.Suggested touchNew st) : st = rememberedState := by
  obtain ⟨_, hsome, hst⟩ := h
  cases hsome
  cases hst
  rfl

/-- The client remembers the object that is stored, and gets an error that is due to it. -/
theorem guaranteedUpdate_errors_iff_current :
    ∃ (called current : World Bool UInt8) (turns : List (Turn Bool UInt8)) (err : StorageError),
      current.clients true = .updating touchNew (.returned (.preconditionFailed err)) ∧
      byteStore.ErrorsOfHeld touchNew (byteStore.Held touchNew.ignoreNotFound called turns current)
        (.preconditionFailed err) := by
  let start := byteWorld byteServer .idle .idle
  let called := byteStore.next start (.call true (.update touchNew))
  have hbegin : byteStore.system.step start (.call true (.update touchNew)) called := ⟨by decide, rfl⟩
  have hrun : byteStore.system.Run called [.step true (writes 2)] _ := System.run_foldl (by decide)
  refine ⟨_, _, _, _, rfl, (Store.guaranteedUpdate_errors_iff hbegin hrun (by simp) rfl).mpr
    fun _ hst => ⟨fun _ => ?_, fun hcheck => ?_⟩⟩
  · exact ⟨byteState 1, hrun.visits_last rfl, _, rfl⟩
  · rw [suggested_touchNew hst] at hcheck
    cases hcheck

/-- The object of the client's suggestion was deleted and another one was created. Then the client asks
for an update of the new object, which is stored during the whole call, and gets the error that the UID
is not that of the new object. -/
theorem guaranteedUpdate_errors_stale :
    ∃ (start called current : World Bool UInt8) (turns : List (Turn Bool UInt8)) (err : StorageError),
      (∀ suggestion, touchNew.suggestion = some suggestion → byteStore.WasStored start suggestion) ∧
      byteStore.system.step start (.call true (.update touchNew)) called ∧
      byteStore.system.Run called turns current ∧ (∀ request, .call true request ∉ turns) ∧
      current.clients true = .updating touchNew (.returned (.preconditionFailed err)) ∧
      ∀ st, byteStore.Held touchNew.ignoreNotFound called turns current st →
        byteStore.check touchNew.preconditions st.obj = .ok () := by
  have hreplaced : byteStore.system.Run (byteWorld byteServer .idle .idle) replacing _ := System.run_foldl (by decide)
  refine ⟨replacing.foldl byteStore.next (byteWorld byteServer .idle .idle), _, _, [.step true (writes 4)], _,
    fun _ hsome => ?_, ⟨by decide, rfl⟩, System.run_foldl (by decide), by simp, rfl, fun _ hheld => ?_⟩
  · cases hsome
    exact ⟨_, _, ⟨[7], 1⟩, byteState 1, hreplaced, rfl, rfl, rfl⟩
  · rcases hheld.of_single with hst | hst
    · cases hst
      rfl
    · cases hst
      rfl

end LeanKube.Etcd3
