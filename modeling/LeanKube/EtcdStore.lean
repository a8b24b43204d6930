import LeanKube.EtcdWatcher
import LeanKube.VersionedCell

/-! `storage/etcd3/store.go`: `Create`, `GuaranteedUpdate` and `Delete` of one key, by any number of
clients that take turns at the key. A client's own computation and each of its requests to etcd are
steps of their own. A request may fail, and it may fail for the client after etcd has carried it out. -/

namespace LeanKube.Etcd3
open Storage

instance preorderInt64 : Preorder Int64 where
  le_refl := Int64.le_refl
  le_trans _ _ _ := Int64.le_trans
  lt_iff_le_not_ge a b := by
    rw [Int64.lt_iff_toInt_lt, Int64.le_iff_toInt_le, Int64.le_iff_toInt_le]
    omega

inductive StorageError where
  | keyNotFound (key : String)
  | keyExists (key : String)
  | invalidObj (key text : String)
  | internalError (text : String)
  | conflict (text : String)
  | other (text : String)
deriving DecidableEq

def StorageError.isConflict : StorageError → Bool
  | .conflict _ => true
  | _ => false

/-- The codec, the transformer and the objects of a store, at one of its keys. A value is encoded in
one of many ways, by a number that is used once. -/
structure Store (α : Type) where
  key : String
  encode : Object α → Except StorageError (List UInt8)
  decode : List UInt8 → Except StorageError (Object α)
  transformFromStorage : List UInt8 → String → Except String (List UInt8 × Bool)
  transformToStorage : Nat → List UInt8 → String → Except String (List UInt8)
  uid : α → String
  zero : α
  encode_ne_nil : ∀ obj, encode obj ≠ .ok []
  transform_inverse : ∀ nonce data context value, transformToStorage nonce data context = .ok value →
    ∃ stale, transformFromStorage value context = .ok (data, stale)

structure Preconditions where
  uid : Option String
deriving DecidableEq

structure ObjState (α : Type) where
  obj : Object α
  resourceVersion : UInt64
  rev : Int64
  data : List UInt8
  stale : Bool

abbrev UpdateFunc (α : Type) := Object α → UInt64 → Except StorageError (Object α × Option UInt64)

structure Update (α : Type) where
  ignoreNotFound : Bool
  preconditions : Option Preconditions
  tryUpdate : UpdateFunc α
  suggestion : Option (Object α)

/-- How a call ends; an error comes from the preconditions, from `tryUpdate` or from the store. -/
inductive Result (α : Type) where
  | ok (out : Object α)
  | preconditionFailed (err : StorageError)
  | updateFailed (err : StorageError)
  | failed (err : StorageError)

variable {α : Type}

def prepareObjectForStorage (obj : Object α) : Object α := { obj with resourceVersion := "" }

def updateState (st : ObjState α) (userUpdate : UpdateFunc α) : Except StorageError (Object α × UInt64) :=
  (userUpdate st.obj st.resourceVersion).map fun (ret, ttl) => (prepareObjectForStorage ret, ttl.getD 0)

namespace Store
variable (s : Store α)

def check (preconditions : Option Preconditions) (obj : Object α) : Except StorageError Unit :=
  match preconditions.bind Preconditions.uid with
  | none => .ok ()
  | some uid =>
    if uid ≠ s.uid obj.content then
      .error (.invalidObj s.key ("Precondition failed: UID in precondition: " ++ uid ++
        ", UID in object meta: " ++ s.uid obj.content))
    else .ok ()

def decodeTo (value : List UInt8) (rev : Int64) : Except StorageError (Object α) :=
  (s.decode value).map fun obj => updateObject obj rev.toUInt64

def getState (kv : Option KeyValue) (ignoreNotFound : Bool) : Except StorageError (ObjState α) :=
  match kv with
  | none =>
    if !ignoreNotFound then .error (.keyNotFound s.key)
    else .ok { obj := ⟨s.zero, ""⟩, resourceVersion := 0, rev := 0, data := [], stale := false }
  | some kv =>
    match s.transformFromStorage kv.value s.key with
    | .error err => .error (.internalError err)
    | .ok (data, stale) =>
      (s.decodeTo data kv.modRevision).map fun obj =>
        { obj, resourceVersion := kv.modRevision.toUInt64, rev := kv.modRevision, data, stale }

def getStateFromObject (obj : Object α) : Except StorageError (ObjState α) :=
  match objectResourceVersion obj with
  | .error err => .error (.other ("couldn't get resource version: " ++ err))
  | .ok rv =>
    (s.encode (prepareObjectForStorage obj)).map fun data =>
      { obj := updateObject (prepareObjectForStorage obj) rv, resourceVersion := rv, rev := rv.toInt64, data
        stale := false }

def resultOf (data : List UInt8) (rev : Int64) : Result α :=
  match s.decodeTo data rev with
  | .error err => .failed err
  | .ok out => .ok out

end Store

/-! ### The server -/

/-- One key of etcd; the version of a value is the revision of its last write, which is positive. A
value may be attached to a lease. -/
structure Server where
  cell : VersionedCell KeyValue KeyValue.modRevision
  leased : Bool
  positive : ∀ kv, cell.entry = some kv → 0 < kv.modRevision
  clock_nonneg : 0 ≤ cell.clock

namespace Server
variable (server : Server)

def kv : Option KeyValue := server.cell.entry

def modRevision : Int64 := (server.kv.map KeyValue.modRevision).getD 0

def Fresh (rev : Int64) : Prop := server.cell.clock < rev

instance (server : Server) (rev : Int64) : Decidable (server.Fresh rev) :=
  inferInstanceAs (Decidable (server.cell.clock < rev))

def put (value : List UInt8) (leased : Bool) (rev : Int64) (h : server.Fresh rev) : Server where
  cell := server.cell.put ⟨value, rev⟩ h
  leased := leased
  positive kv hkv := by
    rw [← Option.some.inj hkv]
    exact lt_of_le_of_lt server.clock_nonneg h
  clock_nonneg := (lt_of_le_of_lt server.clock_nonneg h).le

def delete (rev : Int64) (h : server.Fresh rev) : Server :=
  match server.kv with
  | none => server
  | some _ =>
    { cell := server.cell.delete rev h
      leased := false
      positive := fun _ hkv => nomatch hkv
      clock_nonneg := (lt_of_le_of_lt server.clock_nonneg h).le }

end Server

/-! ### Clients -/

/-- What etcd answers: the response arrives, or there is an error, with the request carried out or not. -/
inductive Reply where
  | received
  | lost (err : String)
  | refused (err : String)
deriving DecidableEq

/-- What a step depends on: the revision that a write gets, the number used for a new value, and the
reply. -/
structure Choice where
  revision : Int64
  nonce : Nat
  reply : Reply

inductive UpdatePoint (α : Type) where
  /-- About to get the current state, for the next pass through the loop. -/
  | reading
  /-- At the start of the loop, with `mustCheckData`. -/
  | looping (origState : ObjState α) (mustCheckData : Bool)
  /-- About to get the current state, to compare it with the data. -/
  | comparing (data : List UInt8) (ttl : UInt64)
  /-- About to commit the data on top of the state. -/
  | committing (origState : ObjState α) (data : List UInt8) (ttl : UInt64)
  | returned (result : Result α)

inductive DeletePoint (α : Type) where
  | reading
  | checking (getResp : Option KeyValue)
  | committing (origState : ObjState α)
  | removing
  | returned (result : Result α)

inductive CreatePoint (α : Type) where
  | committing (data : List UInt8) (ttl : UInt64)
  | returned (result : Result α)

inductive Client (α : Type) where
  | idle
  | creating (at_ : CreatePoint α)
  | updating (call : Update α) (at_ : UpdatePoint α)
  | deleting (preconditions : Option Preconditions) (at_ : DeletePoint α)

inductive Request (α : Type) where
  | create (obj : Object α) (ttl : UInt64)
  | update (call : Update α)
  | delete (preconditions : Option Preconditions)

/-- The client has no call that has not returned. -/
def Client.Ready : Client α → Bool
  | .idle => true
  | .creating (.returned _) => true
  | .updating _ (.returned _) => true
  | .deleting _ (.returned _) => true
  | _ => false

section Requests
variable {P : Type} (returned : Result α → P) (reply : Reply)

/-- The call goes on with what was read, or returns the error. -/
def answer (received : P) : P :=
  match reply with
  | .received => received
  | .lost err => returned (.failed (.other err))
  | .refused err => returned (.failed (.other err))

/-- A transaction, which etcd carries out if the condition holds: where the call goes on, and the server. -/
def transact (server : Server) (condition : Prop) [Decidable condition] (written : Server) (succeeded otherwise : P) :
    P × Server :=
  match reply with
  | .refused err => (returned (.failed (.other err)), server)
  | .lost err => (returned (.failed (.other err)), if condition then written else server)
  | .received => if condition then (succeeded, written) else (otherwise, server)

end Requests

namespace Store
variable (s : Store α)

/-! ### `GuaranteedUpdate` -/

variable (call : Update α)

def beginUpdate : UpdatePoint α :=
  match call.suggestion with
  | some suggestion =>
    match s.getStateFromObject suggestion with
    | .error err => .returned (.failed err)
    | .ok origState => .looping origState true
  | none => .reading

def restart (getResp : Option KeyValue) : UpdatePoint α :=
  match s.getState getResp call.ignoreNotFound with
  | .error err => .returned (.failed err)
  | .ok origState => .looping origState false

variable (origState : ObjState α)

def pass (mustCheckData : Bool) : UpdatePoint α :=
  match s.check call.preconditions origState.obj with
  | .error err => .returned (.preconditionFailed err)
  | .ok () =>
    match updateState origState call.tryUpdate with
    | .error err => if mustCheckData && err.isConflict then .reading else .returned (.updateFailed err)
    | .ok (ret, ttl) =>
      match s.encode ret with
      | .error err => .returned (.failed err)
      | .ok data =>
        if !origState.stale && data = origState.data then
          if mustCheckData then .comparing data ttl
          else .returned (s.resultOf origState.data origState.rev)
        else .committing origState data ttl

variable (data : List UInt8)

/-- After the data were found to be those of a cached object: they are compared with the stored ones. -/
def compare (ttl : UInt64) (getResp : Option KeyValue) : UpdatePoint α :=
  match s.getState getResp call.ignoreNotFound with
  | .error err => .returned (.failed err)
  | .ok origState =>
    if data ≠ origState.data then .looping origState false
    else if !origState.stale then .returned (s.resultOf origState.data origState.rev)
    else .committing origState data ttl

def commitUpdate (ttl : UInt64)
    (server : Server) (choice : Choice) (hfresh : server.Fresh choice.revision) : UpdatePoint α × Server :=
  match s.transformToStorage choice.nonce data s.key with
  | .error err => (.returned (.failed (.internalError err)), server)
  | .ok newData =>
    transact .returned choice.reply server (server.modRevision = origState.rev)
      (server.put newData (ttl ≠ 0) choice.revision hfresh) (.returned (s.resultOf data choice.revision))
      (s.restart call server.kv)

def stepUpdate (server : Server) (choice : Choice)
    (hfresh : server.Fresh choice.revision) : UpdatePoint α → UpdatePoint α × Server
  | .reading => (answer .returned choice.reply (s.restart call server.kv), server)
  | .looping origState mustCheckData => (s.pass call origState mustCheckData, server)
  | .comparing data ttl => (answer .returned choice.reply (s.compare call data ttl server.kv), server)
  | .committing origState data ttl => s.commitUpdate call origState data ttl server choice hfresh
  | .returned result => (.returned result, server)

/-! ### `Create` -/

def beginCreate (obj : Object α) (ttl : UInt64) : CreatePoint α :=
  match objectResourceVersion obj with
  | .ok version =>
    if version ≠ 0 then
      .returned (.failed (.other "resourceVersion should not be set on objects to be created"))
    else encodeNew
  | .error _ => encodeNew
where
  encodeNew :=
    match s.encode (prepareObjectForStorage obj) with
    | .error err => .returned (.failed err)
    | .ok data => .committing data ttl

def stepCreate (server : Server) (choice : Choice) (hfresh : server.Fresh choice.revision) :
    CreatePoint α → CreatePoint α × Server
  | .committing data ttl =>
    match s.transformToStorage choice.nonce data s.key with
    | .error err => (.returned (.failed (.internalError err)), server)
    | .ok newData =>
      transact .returned choice.reply server (server.modRevision = 0)
        (server.put newData (ttl ≠ 0) choice.revision hfresh) (.returned (s.resultOf data choice.revision))
        (.returned (.failed (.keyExists s.key)))
  | .returned result => (.returned result, server)

/-! ### `Delete` -/

variable (preconditions : Option Preconditions)

def beginDelete : DeletePoint α :=
  match preconditions with
  | none => .removing
  | some _ => .reading

def checkDelete (getResp : Option KeyValue) : DeletePoint α :=
  match s.getState getResp false with
  | .error err => .returned (.failed err)
  | .ok origState =>
    match s.check preconditions origState.obj with
    | .error err => .returned (.preconditionFailed err)
    | .ok () => .committing origState

def removed (getResp : Option KeyValue) : Result α :=
  match getResp with
  | none => .failed (.keyNotFound s.key)
  | some kv =>
    match s.transformFromStorage kv.value s.key with
    | .error err => .failed (.internalError err)
    | .ok (data, _) => s.resultOf data kv.modRevision

def stepDelete (server : Server) (choice : Choice)
    (hfresh : server.Fresh choice.revision) : DeletePoint α → DeletePoint α × Server
  | .reading => (answer .returned choice.reply (.checking server.kv), server)
  | .checking getResp => (s.checkDelete preconditions getResp, server)
  | .committing origState =>
    transact .returned choice.reply server (server.modRevision = origState.rev) (server.delete choice.revision hfresh)
      (.returned (s.resultOf origState.data origState.rev)) (.checking server.kv)
  | .removing =>
    match choice.reply with
    | .refused err => (.returned (.failed (.other err)), server)
    | .lost err => (.returned (.failed (.other err)), server.delete choice.revision hfresh)
    | .received => (.returned (s.removed server.kv), server.delete choice.revision hfresh)
  | .returned result => (.returned result, server)

/-! ### All clients -/

def beginCall : Request α → Client α
  | .create obj ttl => .creating (s.beginCreate obj ttl)
  | .update call => .updating call (s.beginUpdate call)
  | .delete preconditions => .deleting preconditions (beginDelete preconditions)

def stepClient (server : Server) (choice : Choice) (hfresh : server.Fresh choice.revision) :
    Client α → Client α × Server
  | .idle => (.idle, server)
  | .creating point =>
    let (point, server) := s.stepCreate server choice hfresh point
    (.creating point, server)
  | .updating call point =>
    let (point, server) := s.stepUpdate call server choice hfresh point
    (.updating call point, server)
  | .deleting preconditions point =>
    let (point, server) := s.stepDelete preconditions server choice hfresh point
    (.deleting preconditions point, server)

end Store

structure World (ι α : Type) where
  server : Server
  clients : ι → Client α

inductive Turn (ι α : Type) where
  | call (i : ι) (request : Request α)
  | step (i : ι) (choice : Choice)
  | expire (revision : Int64)

namespace Store
variable {ι : Type} [DecidableEq ι] (s : Store α)

/-- A client without a call starts one, and one with a call makes a step; a write and an expiry get new revisions. -/
def Enabled (w : World ι α) : Turn ι α → Prop
  | .call i _ => (w.clients i).Ready
  | .step i choice => ¬ (w.clients i).Ready ∧ w.server.Fresh choice.revision
  | .expire revision => w.server.leased ∧ w.server.Fresh revision

instance enabledDecidable (w : World ι α) (turn : Turn ι α) : Decidable (Enabled w turn) := by
  cases turn <;> dsimp only [Enabled] <;> infer_instance

def next (w : World ι α) : Turn ι α → World ι α
  | .call i request => { w with clients := Function.update w.clients i (s.beginCall request) }
  | .step i choice =>
    if hfresh : w.server.Fresh choice.revision then
      { server := (s.stepClient w.server choice hfresh (w.clients i)).2
        clients := Function.update w.clients i (s.stepClient w.server choice hfresh (w.clients i)).1 }
    else w
  | .expire revision =>
    if hfresh : w.server.Fresh revision then { w with server := w.server.delete revision hfresh } else w

def system : System (World ι α) (Turn ι α) := .ofFun Enabled s.next

end Store
end LeanKube.Etcd3
