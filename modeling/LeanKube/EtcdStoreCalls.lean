import LeanKube.EtcdStore

/-! What a client of the store knows at each point of a call: which state it works on, whether that
state is the one of its suggestion or one that the key had at some moment of the call, and what it is
about to write. The key's revisions tell states apart, so a transaction that succeeds on a revision
finds the state that the client works on. -/

namespace LeanKube.Etcd3
open Storage Function Server VersionedCell
variable {ι α : Type} [DecidableEq ι] {s : Store α} {call : Update α} {preconditions : Option Preconditions}
  {w w' w'' : World ι α} {server server' : Server} {choice : Choice} {i : ι} {turns : List (Turn ι α)}

/-! ### The server -/

variable {rev : Int64}

section
variable (h : server.Fresh rev)
include h

theorem Server.fresh_ne_clock : rev ≠ server.cell.clock := by
  rintro rfl
  exact lt_irrefl _ h

theorem Server.put_ne {value : List UInt8} {leased : Bool} : server.put value leased rev h ≠ server :=
  fun heq => fresh_ne_clock h (congrArg (fun server => server.cell.clock) heq)

theorem Server.delete_later : server.cell.Later (server.delete rev h).cell := by
  rw [delete]
  split
  · exact .refl _
  · exact later_delete h

theorem Server.delete_kv : (server.delete rev h).kv = none := by
  rw [delete]
  split
  · next hnone => exact hnone
  · rfl

end

theorem Server.kv_eq_none (h : server.modRevision = 0) : server.kv = none := by
  rw [modRevision] at h
  cases hkv : server.kv with
  | none => rfl
  | some kv =>
    rw [hkv] at h
    exact absurd h (ne_of_gt (server.positive kv hkv))

theorem Server.kv_eq (h : server.cell.Later server'.cell) (heq : server'.modRevision = server.modRevision) :
    server'.kv = server.kv := by
  rw [modRevision, modRevision] at heq
  cases hkv : server.kv with
  | none =>
    rw [hkv] at heq
    exact kv_eq_none heq
  | some kv =>
    cases hkv' : server'.kv with
    | none =>
      rw [hkv, hkv'] at heq
      exact absurd heq (ne_of_lt (server.positive kv hkv))
    | some =>
      rw [hkv, hkv'] at heq
      exact congrArg some (h.entry_eq hkv hkv' heq)

theorem Server.later_of_ne (h : server' ≠ server → server.cell.Later server'.cell) :
    server.cell.Later server'.cell := by
  by_cases heq : server' = server
  · rw [heq]
    exact .refl _
  · exact h heq

/-! ### One step of a call -/

theorem transact_writes {P : Type} {returned : Result α → P} {reply : Reply} {condition : Prop} [Decidable condition]
    {succeeded otherwise : P} (h : (transact returned reply server condition server' succeeded otherwise).2 ≠ server) :
    condition ∧ (transact returned reply server condition server' succeeded otherwise).2 = server' := by
  cases reply with
  | refused => exact absurd rfl h
  | lost | received =>
    rw [transact] at h ⊢
    split_ifs at h ⊢ with hcondition
    · exact ⟨hcondition, rfl⟩
    · exact absurd rfl h

namespace Store
variable (s)

def Holds (ignoreNotFound : Bool) (server : Server) (st : ObjState α) : Prop :=
  s.getState server.kv ignoreNotFound = .ok st

variable (call) (st : ObjState α) (data : List UInt8)

def Applies : Prop :=
  ∃ ret ttl, call.tryUpdate st.obj st.resourceVersion = .ok (ret, ttl) ∧
    s.encode (prepareObjectForStorage ret) = .ok data

def Suggested : Prop :=
  ∃ suggestion, call.suggestion = some suggestion ∧ s.getStateFromObject suggestion = .ok st

/-- What a client in `GuaranteedUpdate` knows, with the states `held` that the key had during the call.
It writes the encoding of what `tryUpdate` made of its state, or else data that it found unchanged in a
stale value, after `tryUpdate` had made them of the suggestion. -/
def Knows (held : ObjState α → Prop) : UpdatePoint α → Prop
  | .reading => True
  | .looping st mustCheckData => if mustCheckData then s.Suggested call st else held st
  | .comparing data _ => ∃ st, s.Suggested call st ∧ s.Applies call st data
  | .committing st data _ =>
    (s.Suggested call st ∨ held st) ∧ s.Applies call st data ∨
      held st ∧ st.stale ∧ data = st.data ∧ ∃ st', s.Suggested call st' ∧ s.Applies call st' data
  | .returned (.preconditionFailed err) =>
    ∃ st, (s.Suggested call st ∨ held st) ∧ s.check call.preconditions st.obj = .error err
  | .returned (.updateFailed err) =>
    ∃ st, (s.Suggested call st ∧ s.check call.preconditions st.obj = .ok () ∧ err.isConflict = false ∨ held st) ∧
      call.tryUpdate st.obj st.resourceVersion = .error err
  | .returned _ => True

variable {call} {s} {held held' : ObjState α → Prop} {point : UpdatePoint α} {st : ObjState α}

theorem Knows.mono (h : s.Knows call held point) (hheld : ∀ st, held st → held' st) : s.Knows call held' point := by
  match point, h with
  | .reading, _ => trivial
  | .looping st true, h => exact h
  | .looping st false, h => exact hheld st h
  | .comparing _ _, h => exact h
  | .committing st _ _, .inl ⟨horigin, happlies⟩ => exact .inl ⟨horigin.imp_right (hheld st), happlies⟩
  | .committing st _ _, .inr ⟨hst, hrest⟩ => exact .inr ⟨hheld st hst, hrest⟩
  | .returned (.preconditionFailed _), ⟨st, horigin, herr⟩ => exact ⟨st, horigin.imp_right (hheld st), herr⟩
  | .returned (.updateFailed _), ⟨st, horigin, herr⟩ => exact ⟨st, horigin.imp_right (hheld st), herr⟩
  | .returned (.ok _), _ => trivial
  | .returned (.failed _), _ => trivial

theorem knows_resultOf (rev : Int64) : s.Knows call held (.returned (s.resultOf data rev)) := by
  rw [resultOf]
  cases s.decodeTo data rev <;> trivial

theorem knows_beginUpdate : s.Knows call held (s.beginUpdate call) := by
  rw [beginUpdate]
  cases hsugg : call.suggestion with
  | none => trivial
  | some suggestion =>
    simp only
    cases hst : s.getStateFromObject suggestion with
    | error => trivial
    | ok => exact ⟨suggestion, hsugg, hst⟩

theorem knows_restart (hheld : ∀ st, s.Holds call.ignoreNotFound server st → held st) :
    s.Knows call held (s.restart call server.kv) := by
  rw [restart]
  cases hst : s.getState server.kv call.ignoreNotFound with
  | error => trivial
  | ok st => exact hheld st hst

theorem knows_pass {mustCheckData : Bool} (h : s.Knows call held (.looping st mustCheckData)) :
    s.Knows call held (s.pass call st mustCheckData) := by
  have horigin : s.Suggested call st ∨ held st := by
    cases mustCheckData with
    | false => exact .inr h
    | true => exact .inl h
  rw [pass, updateState]
  cases hcheck : s.check call.preconditions st.obj with
  | error => exact ⟨st, horigin, hcheck⟩
  | ok =>
    cases hupd : call.tryUpdate st.obj st.resourceVersion with
    | error =>
      simp only [Except.map]
      split_ifs with hretry
      · trivial
      · refine ⟨st, ?_, hupd⟩
        cases mustCheckData with
        | false => exact .inr h
        | true => exact .inl ⟨h, hcheck, by simpa using hretry⟩
    | ok updated =>
      simp only [Except.map]
      cases hdata : s.encode (prepareObjectForStorage updated.1) with
      | error => trivial
      | ok data =>
        have happlies : s.Applies call st data := ⟨updated.1, updated.2, hupd, hdata⟩
        simp only
        split_ifs with hequal hmust
        · subst hmust
          exact ⟨st, h, happlies⟩
        · exact knows_resultOf _ _
        · exact .inl ⟨horigin, happlies⟩

theorem knows_compare {data : List UInt8} {ttl : UInt64} (h : s.Knows call held (.comparing data ttl))
    (hheld : ∀ st, s.Holds call.ignoreNotFound server st → held st) :
    s.Knows call held (s.compare call data ttl server.kv) := by
  rw [compare]
  cases hst : s.getState server.kv call.ignoreNotFound with
  | error => trivial
  | ok st =>
    simp only
    split_ifs with hdata hstale
    · exact hheld st hst
    · exact knows_resultOf _ _
    · exact .inr ⟨hheld st hst, by simpa using hstale, by simpa using hdata, h⟩

theorem knows_answer {reply : Reply} (h : s.Knows call held point) :
    s.Knows call held (answer .returned reply point) := by
  cases reply with
  | received => exact h
  | lost | refused => trivial

theorem knows_step (h : s.Knows call held point) (hheld : ∀ st, s.Holds call.ignoreNotFound server st → held st)
    (hfresh : server.Fresh choice.revision) : s.Knows call held (s.stepUpdate call server choice hfresh point).1 := by
  cases point with
  | reading => exact knows_answer (knows_restart hheld)
  | looping => exact knows_pass h
  | comparing => exact knows_answer (knows_compare h hheld)
  | committing _ data =>
    rw [stepUpdate, commitUpdate]
    cases s.transformToStorage choice.nonce data s.key with
    | error => trivial
    | ok =>
      cases choice.reply with
      | refused | lost => trivial
      | received =>
        simp only [transact]
        split_ifs
        · exact knows_resultOf _ _
        · exact knows_restart hheld
  | returned => exact h

theorem stepUpdate_writes (hfresh : server.Fresh choice.revision)
    (h : (s.stepUpdate call server choice hfresh point).2 ≠ server) :
    ∃ st data ttl newData, point = .committing st data ttl ∧ server.modRevision = st.rev ∧
      s.transformToStorage choice.nonce data s.key = .ok newData ∧
      (s.stepUpdate call server choice hfresh point).2 = server.put newData (ttl ≠ 0) choice.revision hfresh := by
  cases point with
  | reading | looping | comparing | returned => exact absurd rfl h
  | committing st data ttl =>
    rw [stepUpdate, commitUpdate] at h ⊢
    cases hval : s.transformToStorage choice.nonce data s.key with
    | error => simp [hval] at h
    | ok newData =>
      rw [hval] at h
      obtain ⟨hrev, hput⟩ := transact_writes h
      exact ⟨st, data, ttl, newData, rfl, hrev, hval, hput⟩

/-- What a client in a conditional `Delete` knows, with what the key held during the call. -/
def KnowsDelete (s : Store α) (preconditions : Option Preconditions) (held : Option KeyValue → Prop) :
    DeletePoint α → Prop
  | .reading => True
  | .checking kv => held kv
  | .committing st => ∃ kv, held kv ∧ s.getState kv false = .ok st ∧ s.check preconditions st.obj = .ok ()
  | .removing => preconditions = none
  | .returned _ => True

variable {point : DeletePoint α}

theorem KnowsDelete.mono {held held' : Option KeyValue → Prop}
    (h : s.KnowsDelete preconditions held point) (hheld : ∀ kv, held kv → held' kv) :
    s.KnowsDelete preconditions held' point := by
  match point, h with
  | .reading, _ => trivial
  | .checking kv, h => exact hheld kv h
  | .committing _, ⟨kv, hkv, hst⟩ => exact ⟨kv, hheld kv hkv, hst⟩
  | .removing, h => exact h
  | .returned _, _ => trivial

theorem knowsDelete_step {held : Option KeyValue → Prop}
    (h : s.KnowsDelete preconditions held point) (hheld : held server.kv) (hfresh : server.Fresh choice.revision) :
    s.KnowsDelete preconditions held (s.stepDelete preconditions server choice hfresh point).1 := by
  cases point with
  | reading =>
    rw [stepDelete]
    cases choice.reply with
    | received => exact hheld
    | lost | refused => trivial
  | checking kv =>
    rw [stepDelete, checkDelete]
    cases hst : s.getState kv false with
    | error => trivial
    | ok st =>
      simp only
      cases hcheck : s.check preconditions st.obj with
      | error => trivial
      | ok => exact ⟨kv, h, hst, hcheck⟩
  | committing =>
    rw [stepDelete]
    cases choice.reply with
    | refused | lost => trivial
    | received =>
      rw [transact]
      split_ifs
      · trivial
      · exact hheld
  | removing =>
    rw [stepDelete]
    cases choice.reply <;> trivial
  | returned => trivial

section
variable (hfresh : server.Fresh choice.revision)
include hfresh

theorem stepDelete_writes {point : DeletePoint α}
    (h : (s.stepDelete preconditions server choice hfresh point).2 ≠ server) :
    (point = .removing ∨ ∃ st, point = .committing st ∧ server.modRevision = st.rev) ∧
      (s.stepDelete preconditions server choice hfresh point).2 = server.delete choice.revision hfresh := by
  cases point with
  | reading | checking | returned => exact absurd rfl h
  | committing st =>
    obtain ⟨hrev, hdelete⟩ := transact_writes h
    exact ⟨.inr ⟨st, rfl, hrev⟩, hdelete⟩
  | removing =>
    rw [stepDelete] at h ⊢
    cases hreply : choice.reply with
    | refused => simp [hreply] at h
    | lost | received => exact ⟨.inl rfl, rfl⟩

theorem stepCreate_writes {point : CreatePoint α} (h : (s.stepCreate server choice hfresh point).2 ≠ server) :
    server.modRevision = 0 ∧ ∃ newData leased,
      (s.stepCreate server choice hfresh point).2 = server.put newData leased choice.revision hfresh := by
  cases point with
  | returned => exact absurd rfl h
  | committing data =>
    rw [stepCreate] at h ⊢
    cases hval : s.transformToStorage choice.nonce data s.key with
    | error => simp [hval] at h
    | ok newData =>
      rw [hval] at h
      obtain ⟨hrev, hput⟩ := transact_writes h
      exact ⟨hrev, newData, _, hput⟩

theorem stepClient_later (client : Client α) : server.cell.Later (s.stepClient server choice hfresh client).2.cell := by
  cases client with
  | idle => exact .refl _
  | creating =>
    refine later_of_ne fun h => ?_
    obtain ⟨-, newData, _, heq⟩ := stepCreate_writes hfresh h
    rw [stepClient, heq]
    exact later_put hfresh
  | updating =>
    refine later_of_ne fun h => ?_
    obtain ⟨_, _, _, newData, -, -, -, heq⟩ := stepUpdate_writes hfresh h
    rw [stepClient, heq]
    exact later_put hfresh
  | deleting =>
    refine later_of_ne fun h => ?_
    rw [stepClient, (stepDelete_writes hfresh h).2]
    exact delete_later hfresh

end

/-! ### Runs -/

variable {turn : Turn ι α}

theorem step_later (h : s.system.step w turn w') : w.server.cell.Later w'.server.cell := by
  obtain ⟨henabled, rfl⟩ := h
  cases turn with
  | call => exact .refl _
  | step =>
    rw [next, dif_pos henabled.2]
    exact stepClient_later henabled.2 _
  | expire =>
    rw [next, dif_pos henabled.2]
    exact delete_later henabled.2

theorem run_later (h : s.system.Run w turns w') : w.server.cell.Later w'.server.cell := by
  induction h with
  | nil => exact .refl _
  | snoc _ hstep ih => exact ih.trans (step_later hstep)

theorem kv_eq_of_visits {P : World ι α → Prop} (h : s.system.Visits P w turns w') :
    ∃ m, P m ∧ (w'.server.modRevision = m.server.modRevision → w'.server.kv = m.server.kv) := by
  obtain ⟨_, _, m, -, -, hm, hrun⟩ := h
  exact ⟨m, hm, kv_eq (run_later hrun)⟩

theorem step_own (h : s.system.step w (.step i choice) w') : ∃ hfresh : w.server.Fresh choice.revision,
    (w.clients i).Ready = false ∧ w'.server = (s.stepClient w.server choice hfresh (w.clients i)).2 ∧
      w'.clients i = (s.stepClient w.server choice hfresh (w.clients i)).1 := by
  obtain ⟨⟨hready, hfresh⟩, rfl⟩ := h
  rw [next, dif_pos hfresh]
  exact ⟨hfresh, Bool.not_eq_true _ ▸ hready, rfl, update_self ..⟩

/-- A turn that does not start a call of a client is its step, or leaves it as it is. -/
theorem step_client (h : s.system.step w turn w') (i : ι) (hcall : ∀ request, turn ≠ .call i request) :
    w'.clients i = w.clients i ∨ ∃ choice, ∃ hfresh : w.server.Fresh choice.revision,
      w'.clients i = (s.stepClient w.server choice hfresh (w.clients i)).1 := by
  cases turn with
  | call j request =>
    have hne : i ≠ j := by
      rintro rfl
      exact hcall request rfl
    rw [h.2]
    exact .inl (update_of_ne hne _ _)
  | step j choice =>
    by_cases hij : i = j
    · subst hij
      obtain ⟨hfresh, -, -, hclient⟩ := step_own h
      exact .inr ⟨choice, hfresh, hclient⟩
    · rw [h.2, next, dif_pos h.1.2]
      exact .inl (update_of_ne hij _ _)
  | expire =>
    rw [h.2, next, dif_pos h.1.2]
    exact .inl rfl

section
variable (hrun : s.system.Run w turns w') (hcall : ∀ request, .call i request ∉ turns)
include hrun hcall

theorem client_knows {K : List (Turn ι α) → World ι α → Client α → Prop} (hbegin : K [] w (w.clients i))
    (hkeep : ∀ turns t turn u client, s.system.step t turn u → K turns t client → K (turns ++ [turn]) u client)
    (hlearn : ∀ turns t choice (hfresh : t.server.Fresh choice.revision) client, s.system.Run w turns t →
      K turns t client → K turns t (s.stepClient t.server choice hfresh client).1) : K turns w' (w'.clients i) := by
  induction hrun with
  | nil => exact hbegin
  | @snoc t u turns turn hrun hstep ih =>
    have hknows := ih fun request hmem => hcall request (List.mem_append_left _ hmem)
    have hturn : ∀ request, turn ≠ .call i request := by
      rintro request rfl
      exact hcall request (List.mem_append_right _ (List.mem_singleton_self _))
    rcases step_client hstep i hturn with hsame | ⟨_, hfresh, hclient⟩
    · rw [hsame]
      exact hkeep _ _ _ _ _ hstep hknows
    · rw [hclient]
      exact hkeep _ _ _ _ _ hstep (hlearn _ _ _ hfresh _ hrun hknows)

def Held (s : Store α) (ignoreNotFound : Bool) (w : World ι α) (turns : List (Turn ι α)) (w' : World ι α)
    (st : ObjState α) : Prop :=
  s.system.Visits (fun m => s.Holds ignoreNotFound m.server st) w turns w'

theorem updating_knows (hbegin : w.clients i = .updating call (s.beginUpdate call)) :
    ∃ point, w'.clients i = .updating call point ∧ s.Knows call (s.Held call.ignoreNotFound w turns w') point := by
  refine client_knows (K := fun turns t client => ∃ point, client = .updating call point ∧
    s.Knows call (s.Held call.ignoreNotFound w turns t) point) hrun hcall ⟨_, hbegin, knows_beginUpdate⟩ ?_ ?_
  · rintro turns t _ u _ hstep ⟨point, rfl, hknows⟩
    exact ⟨point, rfl, hknows.mono fun st hheld => hheld.snoc hstep⟩
  · rintro turns t _ hfresh _ hrun ⟨point, rfl, hknows⟩
    exact ⟨_, rfl, knows_step hknows (fun st hst => hrun.visits_last hst) hfresh⟩

theorem deleting_knows (hbegin : w.clients i = .deleting preconditions (beginDelete preconditions)) :
    ∃ point, w'.clients i = .deleting preconditions point ∧
      s.KnowsDelete preconditions (fun kv => s.system.Visits (fun m => m.server.kv = kv) w turns w') point := by
  refine client_knows (K := fun turns t client => ∃ point, client = .deleting preconditions point ∧
    s.KnowsDelete preconditions (fun kv => s.system.Visits (fun m => m.server.kv = kv) w turns t) point)
    hrun hcall ⟨_, hbegin, by cases preconditions <;> trivial⟩ ?_ ?_
  · rintro turns t _ u _ hstep ⟨point, rfl, hknows⟩
    exact ⟨point, rfl, hknows.mono fun kv hheld => hheld.snoc hstep⟩
  · rintro turns t _ hfresh _ hrun ⟨point, rfl, hknows⟩
    exact ⟨_, rfl, knowsDelete_step hknows (hrun.visits_last rfl) hfresh⟩

end
end Store
end LeanKube.Etcd3
