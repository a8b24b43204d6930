import LeanKube.EtcdStoreCalls

/-! Updates of a key are linearizable. What `GuaranteedUpdate` writes is made of the object that it
replaces, except that it may write the data of a stale value again; what it returns without writing was
stored at a moment of the call; and a conditional `Delete` deletes an object that has the UID. -/

namespace LeanKube.Etcd3
open Storage
variable {ι α : Type} [DecidableEq ι] {s : Store α} {call : Update α}
  {w w' : World ι α} {server : Server} {choice : Choice} {i : ι} {turns : List (Turn ι α)}

namespace Store

/-! ### What is returned without a write -/

variable {out : Object α} {data : List UInt8} {kv : Option KeyValue} {point : UpdatePoint α}
  {st : ObjState α} {ignoreNotFound : Bool}

theorem resultOf_eq_ok_iff {rev : Int64} : s.resultOf data rev = .ok out ↔ s.decodeTo data rev = .ok out := by
  rw [resultOf]
  cases s.decodeTo data rev <;> simp

theorem restart_ne_ok : s.restart call kv ≠ .returned (.ok out) := by
  rw [restart]
  cases s.getState kv call.ignoreNotFound <;> simp

theorem answer_eq_ok {reply : Reply} (h : answer .returned reply point = .returned (.ok out)) :
    point = .returned (.ok out) := by
  cases reply with
  | received => exact h
  | lost | refused => simp [answer] at h

theorem Applies.data_ne_nil (h : s.Applies call st data) : data ≠ [] := by
  rintro rfl
  obtain ⟨_, _, -, hencode⟩ := h
  exact s.encode_ne_nil _ hencode

theorem pass_eq_ok {mustCheckData : Bool} (h : s.pass call st mustCheckData = .returned (.ok out)) :
    mustCheckData = false ∧ st.data ≠ [] ∧ s.decodeTo st.data st.rev = .ok out := by
  rw [pass] at h
  split at h
  · cases h
  · cases hupd : updateState st call.tryUpdate with
    | error =>
      rw [hupd] at h
      simp only at h
      split_ifs at h
      simp at h
    | ok updated =>
      rw [hupd] at h
      simp only at h
      cases hdata : s.encode updated.1 with
      | error => simp [hdata] at h
      | ok data =>
        rw [hdata] at h
        simp only at h
        split_ifs at h with hequal hmust
        have hsame : data = st.data := (by simpa using hequal : _ ∧ _).2
        refine ⟨by simpa using hmust, ?_, resultOf_eq_ok_iff.mp (by simpa using h)⟩
        rw [← hsame]
        rintro rfl
        exact s.encode_ne_nil _ hdata

theorem compare_eq_ok {ttl : UInt64} (h : s.compare call data ttl kv = .returned (.ok out)) :
    ∃ st, s.getState kv call.ignoreNotFound = .ok st ∧ data = st.data ∧ s.decodeTo st.data st.rev = .ok out := by
  rw [compare] at h
  cases hst : s.getState kv call.ignoreNotFound with
  | error => simp [hst] at h
  | ok st =>
    rw [hst] at h
    simp only at h
    split_ifs at h with hdata hstale
    exact ⟨st, rfl, by simpa using hdata, resultOf_eq_ok_iff.mp (by simpa using h)⟩

theorem stepUpdate_ok {held : ObjState α → Prop} (hfresh : server.Fresh choice.revision)
    (hknows : s.Knows call held point) (hheld : ∀ st, s.Holds call.ignoreNotFound server st → held st)
    (hactive : ∀ result, point ≠ .returned result)
    (h : (s.stepUpdate call server choice hfresh point).1 = .returned (.ok out))
    (hsrv : (s.stepUpdate call server choice hfresh point).2 = server) :
    ∃ st, held st ∧ st.data ≠ [] ∧ s.decodeTo st.data st.rev = .ok out := by
  cases point with
  | reading => exact absurd (answer_eq_ok h) restart_ne_ok
  | looping st =>
    obtain ⟨rfl, hdata, hout⟩ := pass_eq_ok h
    exact ⟨st, hknows, hdata, hout⟩
  | comparing =>
    obtain ⟨st, hst, rfl, hout⟩ := compare_eq_ok (answer_eq_ok h)
    obtain ⟨_, -, happlies⟩ := hknows
    exact ⟨st, hheld st hst, happlies.data_ne_nil, hout⟩
  | committing _ data =>
    rw [stepUpdate, commitUpdate] at h hsrv
    cases hval : s.transformToStorage choice.nonce data s.key with
    | error => simp [hval] at h
    | ok =>
      rw [hval] at h hsrv
      cases hreply : choice.reply with
      | refused | lost => simp [hreply, transact] at h
      | received =>
        simp only [hreply, transact] at h hsrv
        split_ifs at h hsrv
        · exact absurd hsrv (Server.put_ne hfresh)
        · exact absurd h restart_ne_ok
  | returned result => exact absurd rfl (hactive result)

/-! ### What is written -/

theorem getState_some_eq_ok {kv : KeyValue} (h : s.getState (some kv) ignoreNotFound = .ok st) :
    s.transformFromStorage kv.value s.key = .ok (st.data, st.stale) ∧ st.rev = kv.modRevision ∧
      st.resourceVersion = kv.modRevision.toUInt64 ∧
      ∃ obj, s.decode st.data = .ok obj ∧ st.obj = updateObject obj kv.modRevision.toUInt64 := by
  rw [getState.eq_def] at h
  simp only [decodeTo] at h
  cases hval : s.transformFromStorage kv.value s.key with
  | error => simp [hval] at h
  | ok plain =>
    rw [hval] at h
    simp only at h
    cases hdec : s.decode plain.1 with
    | error =>
      rw [hdec] at h
      cases h
    | ok obj =>
      rw [hdec] at h
      cases h
      exact ⟨rfl, rfl, rfl, obj, hdec, rfl⟩

theorem getState_none_eq_ok (h : s.getState none ignoreNotFound = .ok st) : st.rev = 0 ∧ st.data = [] := by
  rw [getState.eq_def] at h
  split_ifs at h
  cases h
  exact ⟨rfl, rfl⟩

theorem getState_rev (h : s.getState kv ignoreNotFound = .ok st) : st.rev = (kv.map KeyValue.modRevision).getD 0 := by
  cases kv with
  | none => exact (getState_none_eq_ok h).1
  | some => exact (getState_some_eq_ok h).2.1

theorem suggested_of_stored {kv : KeyValue} {st' : ObjState α}
    (hstored : s.getState (some kv) false = .ok st) (h : s.getStateFromObject st.obj = .ok st') :
    st'.obj = st.obj ∧ st'.resourceVersion = st.resourceVersion ∧ st'.rev = kv.modRevision := by
  obtain ⟨-, -, hver, obj, -, hobj⟩ := getState_some_eq_ok hstored
  rw [hobj, hver]
  rw [hobj, getStateFromObject, objectResourceVersion_updateObject] at h
  cases hencode : s.encode (prepareObjectForStorage (updateObject obj kv.modRevision.toUInt64)) with
  | error =>
    rw [hencode] at h
    cases h
  | ok =>
    rw [hencode] at h
    cases h
    exact ⟨rfl, rfl, Int64.toInt64_toUInt64 _⟩

theorem exists_kv_of_data (h : s.getState kv ignoreNotFound = .ok st) (hdata : st.data ≠ []) :
    ∃ stored, kv = some stored ∧ s.getState (some stored) false = .ok st := by
  cases kv with
  | some stored => exact ⟨stored, rfl, h⟩
  | none => exact absurd (getState_none_eq_ok h).2 hdata

theorem Held.holds (h : s.Held ignoreNotFound w turns w' st) (hrev : w'.server.modRevision = st.rev) :
    s.Holds ignoreNotFound w'.server st := by
  obtain ⟨m, hm, heq⟩ := kv_eq_of_visits h
  rw [Holds, heq (hrev.trans (getState_rev hm))]
  exact hm

def WasStored (s : Store α) (w : World ι α) (obj : Object α) : Prop :=
  ∃ m turns kv st, s.system.Run m turns w ∧ m.server.kv = some kv ∧ s.getState (some kv) false = .ok st ∧ st.obj = obj

/-- The value of the key before a write, and after it: it was made of the object before by `tryUpdate`,
or for a call with a suggestion it may be the data before once more, if their value was stale. -/
def Written (s : Store α) (call : Update α) (before after : Server) : Prop :=
  ∃ st kv data stale, s.Holds call.ignoreNotFound before st ∧ after.kv = some kv ∧
    s.transformFromStorage kv.value s.key = .ok (data, stale) ∧
    (s.Applies call st data ∨ call.suggestion.isSome ∧ st.stale ∧ data = st.data)

variable {start called : World ι α}

theorem written_of_commit {during : List (Turn ι α)} (hrun : s.system.Run start turns w)
    (hsugg : ∀ suggestion, call.suggestion = some suggestion → s.WasStored start suggestion)
    (hknows : s.Knows call (s.Held call.ignoreNotFound called during w) point)
    (hfresh : w.server.Fresh choice.revision) (h : (s.stepUpdate call w.server choice hfresh point).2 ≠ w.server) :
    s.Written call w.server (s.stepUpdate call w.server choice hfresh point).2 := by
  obtain ⟨st, data, _, _, rfl, hrev, hval, heq⟩ := stepUpdate_writes hfresh h
  obtain ⟨stale, hplain⟩ := s.transform_inverse _ _ _ _ hval
  rw [heq]
  rcases hknows with ⟨hsuggested | hheld, happlies⟩ | ⟨hheld, hstale, hdata, _, ⟨suggestion, hsome, -⟩, -⟩
  · -- The revision of the suggestion is the one of the key, so the suggestion is what is stored.
    obtain ⟨suggestion, hsome, hst⟩ := hsuggested
    obtain ⟨m, _, kv, st₀, hm, hkv, hstored, rfl⟩ := hsugg suggestion hsome
    obtain ⟨hobj, hver, hstRev⟩ := suggested_of_stored hstored hst
    have hkv' : w.server.kv = some kv := by
      rw [← hkv]
      refine Server.kv_eq (run_later (hm.append hrun)) ?_
      rw [hrev, hstRev, Server.modRevision, hkv]
      rfl
    refine ⟨st₀, _, data, stale, ?_, rfl, hplain, .inl ?_⟩
    · rw [Holds, hkv']
      exact hstored
    · rwa [Applies, ← hobj, ← hver]
  · exact ⟨st, _, data, stale, hheld.holds hrev, rfl, hplain, .inl happlies⟩
  · exact ⟨st, _, data, stale, hheld.holds hrev, rfl, hplain, .inr ⟨by simp [hsome], hstale, hdata⟩⟩

/-! ### Whole runs -/

theorem check_uid {preconditions : Preconditions} {obj : Object α}
    (h : s.check (some preconditions) obj = .ok ()) (uid : String) (huid : preconditions.uid = some uid) :
    s.uid obj.content = uid := by
  rw [check, Option.bind_some, huid] at h
  simp only at h
  split_ifs at h with hne
  exact (not_not.mp hne).symm

theorem creating_point {point : CreatePoint α} (hrun : s.system.Run w turns w')
    (hcall : ∀ request, .call i request ∉ turns) (hbegin : w.clients i = .creating point) :
    ∃ point, w'.clients i = .creating point := by
  refine client_knows (K := fun _ _ client => ∃ point, client = .creating point) hrun hcall ⟨point, hbegin⟩
    (fun _ _ _ _ _ _ => id) ?_
  rintro _ t _ _ _ - ⟨point, rfl⟩
  exact ⟨_, rfl⟩

theorem call_own {request : Request α} (hbegin : s.system.step start (.call i request) called) :
    called.clients i = s.beginCall request := by
  rw [hbegin.2]
  exact Function.update_self ..

/-- A client calls the store, and after some turns of all clients it makes a step of that call.
`GuaranteedUpdate` replaces an object by what it made of it, or writes the data of a stale value again;
if it returns without a write, then data that were stored at a moment of the call. A conditional `Delete`
deletes an object with the UID, and `Create` writes where nothing is. -/
theorem store_linearizable {start called current next : World ι α} {during : List (Turn ι α)}
    {request : Request α} (hbegin : s.system.step start (.call i request) called)
    (hduring : s.system.Run called during current) (hcall : ∀ request, .call i request ∉ during)
    (hstep : s.system.step current (.step i choice) next) :
    (∀ call, request = .update call →
      ((∀ suggestion, call.suggestion = some suggestion → s.WasStored start suggestion) →
        next.server ≠ current.server → s.Written call current.server next.server) ∧
      ∀ out, next.clients i = .updating call (.returned (.ok out)) → next.server = current.server →
        s.system.Visits (fun m => ∃ kv st, m.server.kv = some kv ∧ s.getState (some kv) false = .ok st ∧
          s.decodeTo st.data st.rev = .ok out) called during current) ∧
    (∀ preconditions, request = .delete (some preconditions) → next.server ≠ current.server →
      ∃ kv st, current.server.kv = some kv ∧ next.server.kv = none ∧ s.getState (some kv) false = .ok st ∧
        ∀ uid, preconditions.uid = some uid → s.uid st.obj.content = uid) ∧
    (∀ obj ttl, request = .create obj ttl → next.server ≠ current.server → current.server.kv = none) := by
  have hcalled := call_own hbegin
  obtain ⟨hfresh, hactive, hserver, hclient⟩ := step_own hstep
  refine ⟨?_, ?_, ?_⟩
  · rintro _ rfl
    obtain ⟨point, hpoint, hknows⟩ := updating_knows hduring hcall hcalled
    rw [hpoint] at hactive hserver hclient
    refine ⟨fun hsuggestion hne => ?_, fun _ hout hsame => ?_⟩
    · rw [hserver] at hne ⊢
      exact written_of_commit ((System.Run.single hbegin).append hduring) hsuggestion hknows hfresh hne
    · rw [hserver] at hsame
      rw [hclient] at hout
      have hreturned : ∀ result, point ≠ .returned result := by
        rintro result rfl
        cases hactive
      obtain ⟨st, hheld, hdata, hdecode⟩ := stepUpdate_ok hfresh hknows
        (fun st hst => hduring.visits_last hst) hreturned (Client.updating.inj hout).2 hsame
      refine hheld.mono fun m hm => ?_
      obtain ⟨kv, hkv, hstored⟩ := exists_kv_of_data hm hdata
      exact ⟨kv, st, hkv, hstored, hdecode⟩
  · rintro _ rfl hne
    obtain ⟨point, hpoint, hknows⟩ := deleting_knows hduring hcall hcalled
    rw [hpoint] at hserver
    rw [hserver] at hne ⊢
    obtain ⟨rfl | ⟨st, rfl, hrev⟩, hdelete⟩ := stepDelete_writes hfresh hne
    · cases hknows
    · obtain ⟨kv, hheld, hst, hcheck⟩ := hknows
      obtain ⟨m, rfl, heq⟩ := kv_eq_of_visits hheld
      have hkv := heq (hrev.trans (getState_rev hst))
      cases hstored : m.server.kv with
      | none =>
        rw [hstored] at hst
        cases hst
      | some kv =>
        rw [hstored] at hst hkv
        refine ⟨kv, st, hkv, ?_, hst, check_uid hcheck⟩
        rw [stepClient, hdelete]
        exact Server.delete_kv hfresh
  · rintro _ _ rfl hne
    obtain ⟨point, hpoint⟩ := creating_point hduring hcall hcalled
    rw [hpoint] at hserver
    rw [hserver] at hne
    exact Server.kv_eq_none (stepCreate_writes hfresh hne).1

end Store

/-! ### Two clients and a byte -/

/-- A store of bytes whose values are all stale, as after a change of the encryption key. -/
def byteStore : Store UInt8 where
  key := "/registry/bytes/b"
  encode obj := .ok [obj.content]
  decode value :=
    match value with
    | [b] => .ok ⟨b, ""⟩
    | _ => .error (.other "not a byte")
  transformFromStorage value _ := .ok (value, true)
  transformToStorage _ data _ := .ok data
  uid b := if b = 7 then "old" else "new"
  zero := 0
  encode_ne_nil obj h := by cases h
  transform_inverse nonce data context value h := by
    cases h
    exact ⟨true, rfl⟩

def byteServer : Server where
  cell := { entry := some ⟨[7], 1⟩, clock := 1, version_le := fun kv h => by rw [← Option.some.inj h] }
  leased := false
  positive kv h := by
    rw [← Option.some.inj h]
    decide
  clock_nonneg := by decide

def byteState (rev : Int64) : ObjState UInt8 where
  obj := updateObject ⟨7, ""⟩ rev.toUInt64
  resourceVersion := rev.toUInt64
  rev := rev
  data := [7]
  stale := true

def touch : Update UInt8 where
  ignoreNotFound := false
  preconditions := none
  tryUpdate obj _ := .ok (obj, none)
  suggestion := none

/-- An update that keeps the object of the first revision, and does not accept another one. -/
def touchFirst : Update UInt8 where
  ignoreNotFound := false
  preconditions := none
  tryUpdate obj resourceVersion := if resourceVersion = 1 then .ok (obj, none) else .error (.conflict "changed")
  suggestion := some (updateObject ⟨7, ""⟩ 1)

def byteWorld (server : Server) (first second : Client UInt8) : World Bool UInt8 where
  server := server
  clients i := if i then first else second

def writes (revision : Int64) : Choice := ⟨revision, 0, .received⟩

def byteServer₂ : Server := byteServer.put [7] false 2 (by decide)

theorem store_linearizable_touch : byteStore.Written touch byteServer byteServer₂ := by
  let start := byteWorld byteServer .idle .idle
  let called := byteStore.next start (.call false (.update touch))
  have hbegin : byteStore.system.step start (.call false (.update touch)) called := ⟨by decide, rfl⟩
  have hrun : byteStore.system.Run called [.step false (writes 2), .step false (writes 2)] _ :=
    System.run_foldl (by decide)
  have hsteps := Store.store_linearizable hbegin hrun (by simp)
    (⟨by decide, rfl⟩ : byteStore.system.step _ (.step false (writes 2)) _)
  exact (hsteps.1 touch rfl).1 (fun _ hsome => nomatch hsome) (Server.put_ne _)

/-- The first client has found that the update would not change the object of its suggestion. Before it
compares the data, the second client writes the object again, with a new revision. The first client finds
the same data, and writes them, although its update does not accept the object with that revision. -/
theorem store_linearizable_rewrites :
    ∃ (start called current next : World Bool UInt8) (during : List (Turn Bool UInt8)),
      (∀ suggestion, touchFirst.suggestion = some suggestion → byteStore.WasStored start suggestion) ∧
      byteStore.system.step start (.call true (.update touchFirst)) called ∧
      byteStore.system.Run called during current ∧ (∀ request, .call true request ∉ during) ∧
      byteStore.system.step current (.step true (writes 3)) next ∧ next.server ≠ current.server ∧
      ∀ st data, byteStore.Holds touchFirst.ignoreNotFound current.server st →
        ¬ byteStore.Applies touchFirst st data := by
  let during : List (Turn Bool UInt8) := [.step true (writes 2), .call false (.update touch), .step false (writes 2),
    .step false (writes 2), .step false (writes 2), .step true (writes 3)]
  refine ⟨byteWorld byteServer .idle .idle, _, _, _, during, fun _ hsome => ?_, ⟨by decide, rfl⟩,
    System.run_foldl (by decide), by simp [during], ⟨by decide, rfl⟩, Server.put_ne _, fun _ _ hst => ?_⟩
  · cases hsome
    exact ⟨_, [], ⟨[7], 1⟩, byteState 1, .nil _, rfl, rfl, rfl⟩
  · cases hst
    rintro ⟨_, _, hupdate, -⟩
    cases hupdate

end LeanKube.Etcd3
