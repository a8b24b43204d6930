import LeanKube.EtcdStore
import LeanKube.GoPath
import LeanKube.GoStrings
import Mathlib.Data.String.Basic

/-! `store.List` of `storage/etcd3/store.go`: continue tokens, the loop of range reads that fills a page,
and a client that follows the tokens while others write to etcd. -/

namespace LeanKube.Etcd3
open Storage GoStrings

/-! ### Range reads -/

/-- A key of etcd, with its value and the revision of the last write to it. -/
structure Entry extends KeyValue where
  key : String
deriving DecidableEq

/-- The keys that the store writes: rooted and clean paths. -/
def IsStoreKey (key : String) : Prop := hasPrefix key "/" ∧ GoPath.clean key = key

/-- The keys of etcd at a revision, in their order. -/
structure Snapshot where
  entries : List Entry
  sorted : entries.Pairwise fun a b => a.key < b.key
  storeKeys : ∀ entry ∈ entries, IsStoreKey entry.key

namespace Snapshot
variable (snapshot : Snapshot)

/-- A range read, of the keys from `key` on and before `rangeEnd`. -/
def range (key rangeEnd : String) : List Entry :=
  snapshot.entries.filter fun entry => key ≤ entry.key ∧ entry.key < rangeEnd

def under (keyPrefix : String) : List Entry :=
  snapshot.entries.filter fun entry => hasPrefix entry.key keyPrefix

end Snapshot

/-- Etcd with all its revisions; nothing is compacted. -/
structure Etcd where
  revision : Int64
  snapshot : Int64 → Snapshot
  positive : 0 < revision

/-- The options of a range read; revision 0 is the latest one. -/
structure GetOptions where
  rangeEnd : String
  limit : Int64
  rev : Int64
deriving DecidableEq

structure GetResponse where
  kvs : List Entry
  more : Bool
  revision : Int64

namespace Etcd
variable (etcd : Etcd)

/-- A write by someone: the revisions up to now stay as they are. -/
def commit (revision : Int64) (snapshot : Snapshot) : Etcd :=
  if h : etcd.revision < revision then
    { revision := revision
      snapshot := fun rev => if rev ≤ etcd.revision then etcd.snapshot rev else snapshot
      positive := lt_trans etcd.positive h }
  else etcd

def readRevision (rev : Int64) : Int64 := if rev ≤ 0 then etcd.revision else rev

/-- `client.KV.Get`, which reports the latest revision, whichever it reads. -/
def get (key : String) (options : GetOptions) : Except String GetResponse :=
  if etcd.revision < options.rev then .error "mvcc: required revision is a future revision"
  else
    let kvs := (etcd.snapshot (etcd.readRevision options.rev)).range key options.rangeEnd
    if 0 < options.limit ∧ options.limit.toInt < kvs.length then
      .ok { kvs := kvs.take options.limit.toInt.toNat, more := true, revision := etcd.revision }
    else .ok { kvs, more := false, revision := etcd.revision }

end Etcd

/-- `clientv3.GetPrefixRangeEnd`, for a prefix with a last byte that can be increased. -/
def getPrefixRangeEnd (key : String) : String :=
  match key.toList.getLast? with
  | none => "\x00"
  | some last => String.ofList (key.toList.dropLast ++ [Char.ofNat (last.toNat + 1)])

/-! ### Continue tokens -/

/-- `continueToken`; its start key is without the prefix of the list. -/
structure ContinueToken where
  apiVersion : String
  resourceVersion : Int64
  startKey : String
deriving DecidableEq

/-- The `store`, with the encodings that it uses. -/
structure ListStore (α : Type) where
  pathPrefix : String
  pagingEnabled : Bool
  transformFromStorage : List UInt8 → String → Except String (List UInt8 × Bool)
  decode : List UInt8 → Except StorageError (Object α)
  marshal : ContinueToken → String
  unmarshal : String → Except String ContinueToken
  unmarshal_marshal : ∀ token, unmarshal (marshal token) = .ok token
  marshal_ne_empty : ∀ token, marshal token ≠ ""

structure ListRequest (α : Type) where
  key : String
  resourceVersion : String
  pred : SelectionPredicate α
  limit : Int64
  continue_ : String

inductive ListError where
  | badRequest (text : String)
  | etcd (text : String)
  | internal (text : String)
  | decode (err : StorageError)
  | other (text : String)
deriving DecidableEq

/-- The variables of the loop of `List`. -/
structure Loop (α : Type) where
  keyPrefix : String
  key : String
  options : GetOptions
  paging : Bool
  returnedRV : Int64
  items : List (Object α)
  lastKey : String
deriving DecidableEq

structure Page (α : Type) where
  items : List (Object α)
  resourceVersion : String
  continue_ : String
deriving DecidableEq

def updateList {α : Type} (items : List (Object α)) (resourceVersion : UInt64) (nextKey : String) : Page α :=
  { items
    resourceVersion := if resourceVersion ≠ 0 then Strconv.formatUint resourceVersion else ""
    continue_ := nextKey }

namespace ListStore
variable {α : Type} (s : ListStore α)

/-- `decodeContinue`: the key to go on at, and the revision to read. -/
def decodeContinue (continueValue keyPrefix : String) : Except String (String × Int64) :=
  match s.unmarshal continueValue with
  | .error err => .error ("continue key is not valid: " ++ err)
  | .ok c =>
    if c.apiVersion = "meta.k8s.io/v1" then
      if c.resourceVersion = 0 then
        .error "continue key is not valid: incorrect encoded start resourceVersion (version meta.k8s.io/v1)"
      else if c.startKey.length = 0 then
        .error "continue key is not valid: encoded start key empty (version meta.k8s.io/v1)"
      else
        let key := if !hasPrefix c.startKey "/" then "/" ++ c.startKey else c.startKey
        let cleaned := GoPath.clean key
        if cleaned ≠ key then .error ("continue key is not valid: " ++ c.startKey)
        else .ok (keyPrefix ++ String.ofList (cleaned.toList.drop 1), c.resourceVersion)
    else
      .error ("continue key is not valid: server does not recognize this encoded version \"" ++ c.apiVersion ++ "\"")

/-- `encodeContinue`; it fails for a key outside of the prefix. -/
def encodeContinue (key keyPrefix : String) (resourceVersion : Int64) : Except String String :=
  let nextKey := trimPrefix key keyPrefix
  if nextKey = key then .error "unable to encode next field: the key and key prefix do not match"
  else .ok (s.marshal { apiVersion := "meta.k8s.io/v1", resourceVersion, startKey := nextKey })

/-! ### `List` -/

/-- The prefix of the keys that a list reads, with a separator at its end. -/
def keyPrefix (key : String) : String :=
  let key := if s.pathPrefix ≠ "" then GoPath.join s.pathPrefix key else key
  if !hasSuffix key "/" then key ++ "/" else key

variable (request : ListRequest α)

/-- `List` up to its first range read. Without a token, the range of the prefix is read, whether or not
the request has a limit. -/
def beginList : Except ListError (Loop α) :=
  let keyPrefix := s.keyPrefix request.key
  let paging := s.pagingEnabled && decide (0 < request.limit)
  let rangeEnd := getPrefixRangeEnd keyPrefix
  let limit := if paging then request.limit else 0
  if s.pagingEnabled && decide (0 < request.continue_.length) then
    match s.decodeContinue request.continue_ keyPrefix with
    | .error err => .error (.badRequest ("invalid continue token: " ++ err))
    | .ok (continueKey, continueRV) =>
      if request.resourceVersion.length > 0 ∧ request.resourceVersion ≠ "0" then
        .error (.badRequest "specifying resource version is not allowed when using continue")
      else
        -- a negative version in the token stands for the latest one
        let rev := if 0 < continueRV then continueRV else 0
        .ok { keyPrefix, key := continueKey, options := { rangeEnd, limit, rev }, paging, returnedRV := rev,
              items := [], lastKey := "" }
  else
    match parseResourceVersion request.resourceVersion with
    | .error err => .error (.badRequest ("invalid resource version: " ++ err))
    | .ok fromRV =>
      let rev := if 0 < fromRV then fromRV.toInt64 else 0
      .ok { keyPrefix, key := keyPrefix, options := { rangeEnd, limit, rev }, paging,
            returnedRV := fromRV.toInt64, items := [], lastKey := "" }

/-- `appendListItem`. An object that cannot be matched is left out like one that does not match. -/
def appendListItem (pred : SelectionPredicate α) (items : List (Object α)) (data : List UInt8) (rev : UInt64) :
    Except ListError (List (Object α)) :=
  match s.decode data with
  | .error err => .error (.decode err)
  | .ok obj =>
    let obj := updateObject obj rev
    match pred.matchesObject obj with
    | .ok true => .ok (items ++ [obj])
    | _ => .ok items

/-- The loop over the keys of a response: the items, the last key that was used, and whether it stopped
at a full page. -/
def fill (pred : SelectionPredicate α) (paging : Bool) (limit : Int64) :
    List Entry → List (Object α) → String → Except ListError (List (Object α) × String × Bool)
  | [], items, lastKey => .ok (items, lastKey, false)
  | kv :: rest, items, lastKey =>
    if paging ∧ limit.toInt ≤ items.length then .ok (items, lastKey, true)
    else
      match s.transformFromStorage kv.value kv.key with
      | .error err => .error (.internal ("unable to transform key \"" ++ kv.key ++ "\": " ++ err))
      | .ok (data, _) =>
        match s.appendListItem pred items data kv.modRevision.toUInt64 with
        | .error err => .error err
        | .ok items => fill pred paging limit rest items kv.key

/-- The turn of the loop for a response: it goes on, or ends with a page. -/
def afterRead (loop : Loop α) (getResp : GetResponse) : Except ListError (Loop α ⊕ Page α) :=
  if getResp.kvs.length = 0 ∧ getResp.more then
    .error (.other "no results were found, but etcd indicated there were more values remaining")
  else
    match s.fill request.pred loop.paging request.limit getResp.kvs loop.items loop.lastKey with
    | .error err => .error err
    | .ok (items, lastKey, full) =>
      let hasMore := getResp.more || full
      let returnedRV := if loop.returnedRV = 0 then getResp.revision else loop.returnedRV
      if hasMore ∧ loop.paging ∧ items.length < request.limit.toInt then
        .ok (.inl { loop with key := lastKey ++ "\x00", returnedRV, items, lastKey })
      else if hasMore then
        match s.encodeContinue (lastKey ++ "\x00") loop.keyPrefix returnedRV with
        | .error err => .error (.other err)
        | .ok next => .ok (.inr (updateList items returnedRV.toUInt64 next))
      else .ok (.inr (updateList items returnedRV.toUInt64 ""))

end ListStore

/-! ### A client that follows the tokens -/

/-- Where a client is: in a call, after the last page, or stopped by an error. -/
inductive Progress (α : Type) where
  | listing (loop : Loop α)
  | finished
  | failed (err : ListError)
deriving DecidableEq

structure Listing (α : Type) where
  etcd : Etcd
  request : ListRequest α
  progress : Progress α
  pages : List (Page α)

/-- Someone writes to etcd, or the call of the client makes its next range read. -/
inductive ListTurn where
  | commit (revision : Int64) (snapshot : Snapshot)
  | read

def ListTurn.isRead : ListTurn → Bool
  | .commit _ _ => false
  | .read => true

namespace ListStore
variable {α : Type} (s : ListStore α)

def send (request : ListRequest α) : Progress α :=
  match s.beginList request with
  | .error err => .failed err
  | .ok loop => .listing loop

def start (etcd : Etcd) (request : ListRequest α) : Listing α :=
  { etcd, request, progress := s.send request, pages := [] }

variable (w : Listing α)

/-- A page arrives, and the client sends its token, if it has one. -/
def receive (page : Page α) : Listing α :=
  if page.continue_ = "" then { w with progress := .finished, pages := w.pages ++ [page] }
  else
    let request := { w.request with continue_ := page.continue_, resourceVersion := "" }
    { w with request, progress := s.send request, pages := w.pages ++ [page] }

/-- The next range read of a call. -/
def readNext (loop : Loop α) : Listing α :=
  match w.etcd.get loop.key loop.options with
  | .error err => { w with progress := .failed (.etcd err) }
  | .ok getResp =>
    match s.afterRead w.request loop getResp with
    | .error err => { w with progress := .failed err }
    | .ok (.inl loop) => { w with progress := .listing loop }
    | .ok (.inr page) => s.receive w page

def next : ListTurn → Listing α
  | .commit revision snapshot => { w with etcd := w.etcd.commit revision snapshot }
  | .read =>
    match w.progress with
    | .listing loop => s.readNext w loop
    | _ => w

end ListStore

def Listing.Enabled {α : Type} (w : Listing α) : ListTurn → Prop
  | .commit revision _ => w.etcd.revision < revision
  | .read => ∃ loop, w.progress = .listing loop

end LeanKube.Etcd3
