import LeanKube.AllocationBitmap
import LeanKube.Transition

/-! Allocators that share one stored bitmap (`pkg/registry/core/service/allocator/storage`). Each changes
its own bitmap first, and then writes it in a `GuaranteedUpdate`, which reloads the stored bitmap unless
that still has the resource version that the allocator saw last. A change whose write failed stays in the
allocator's bitmap; an update that leaves the stored bitmap as it is writes nothing, and succeeds. -/

namespace LeanKube.EtcdAllocator
open Allocator BitSets BigEndian Option Finset AllocationBitmap

/-! ### The calls -/

/-- `api.RangeAllocation`. The version 0 is the empty one, of the object that is read where the key does
not exist. -/
structure RangeAllocation where
  resourceVersion : Nat
  range : String
  data : List UInt8
  deriving DecidableEq, Repr

structure Etcd where
  alloc : AllocationBitmap
  last : Nat
  deriving DecidableEq, Repr

inductive AllocatorError where
  | unableToAllocate
  /-- "cannot allocate resources of type %s at this time" -/
  | notInitialized
  | restore (message : String)
  | storage
  deriving DecidableEq, Repr

inductive Op where
  | allocate (offset : Nat)
  | allocateNext
  | release (item : Nat)
  deriving DecidableEq, Repr

inductive Call where
  | allocate (offset : Nat)
  | allocateNext (offset : Nat)
  | release (item : Nat)
  deriving DecidableEq, Repr

inductive Return where
  | allocate (offset : Nat) (ok : Bool) (err : Option AllocatorError)
  | allocateNext (offset : Nat) (ok : Bool) (err : Option AllocatorError)
  | release (err : Option AllocatorError)
  deriving DecidableEq, Repr

def Return.granted : Return → Option Nat
  | .allocate offset true none => some offset
  | .allocateNext offset true none => some offset
  | _ => none

/-- The end of a call, with the error of `tryUpdate`. `AllocateNext` returns the `ok` of its first
attempt. -/
def Call.finish : Call → Option AllocatorError → Return
  | .allocate offset, none => .allocate offset true none
  | .allocate offset, some .unableToAllocate => .allocate offset false none
  | .allocate offset, some err => .allocate offset false (some err)
  | .allocateNext offset, err => .allocateNext offset true err
  | .release _, err => .release err

def Call.retry (call : Call) (rand : Nat) (alloc : AllocationBitmap) :
    AllocationBitmap × Call × Option AllocatorError :=
  match call with
  | .allocate offset =>
    match alloc.allocate offset with
    | (alloc, true) => (alloc, .allocate offset, none)
    | (alloc, false) => (alloc, .allocate offset, some .unableToAllocate)
  | .allocateNext offset =>
    match alloc.allocate offset with
    | (alloc, true) => (alloc, .allocateNext offset, none)
    | (alloc, false) =>
      match alloc.allocateNext rand with
      | (alloc, some next) => (alloc, .allocateNext next, none)
      | (alloc, none) => (alloc, .allocateNext 0, some .unableToAllocate)
  | .release item => (alloc.release item, .release item, none)

variable (e : Etcd)

/-- The end of the function that `tryUpdate` gives to `GuaranteedUpdate`: the object to be written. -/
def Etcd.save (existing : RangeAllocation) : Etcd × RangeAllocation :=
  ({ e with last := existing.resourceVersion },
    { existing with range := e.alloc.snapshot.1, data := e.alloc.snapshot.2 })

def Etcd.update (call : Call) (rand : Nat) (existing : RangeAllocation) :
    Etcd × Call × Except AllocatorError RangeAllocation :=
  if existing.resourceVersion = 0 then (e, call, .error .notInitialized)
  else if existing.resourceVersion ≠ e.last then
    match e.alloc.restore existing.range existing.data with
    | .error message => (e, call, .error (.restore message))
    | .ok alloc =>
      match call.retry rand alloc with
      | (alloc, call, some err) => ({ e with alloc := alloc }, call, .error err)
      | (alloc, call, none) =>
        let (e, updated) := Etcd.save { e with alloc := alloc } existing
        (e, call, .ok updated)
  else
    let (e, updated) := e.save existing
    (e, call, .ok updated)

/-! ### The allocators and the store -/

inductive Point where
  | idle
  | reading (call : Call)
  | committing (call : Call) (updated : RangeAllocation)
  deriving DecidableEq, Repr

def Point.call : Point → Option Call
  | .idle => none
  | .reading call => some call
  | .committing call _ => some call

structure Client where
  etcd : Etcd
  point : Point
  deriving DecidableEq, Repr

def Etcd.begin (rand : Nat) : Op → Client × Option Return
  | .allocate offset =>
    match e.alloc.allocate offset with
    | (alloc, true) => (⟨{ e with alloc := alloc }, .reading (.allocate offset)⟩, none)
    | (alloc, false) => (⟨{ e with alloc := alloc }, .idle⟩, some (.allocate offset false none))
  | .allocateNext =>
    match e.alloc.allocateNext rand with
    | (alloc, some offset) => (⟨{ e with alloc := alloc }, .reading (.allocateNext offset)⟩, none)
    | (alloc, none) => (⟨{ e with alloc := alloc }, .idle⟩, some (.allocateNext 0 false none))
  | .release item => (⟨{ e with alloc := e.alloc.release item }, .reading (.release item)⟩, none)

/-- One pass of `GuaranteedUpdate` on the object that was read. If the function leaves the object as it
is, nothing is written. -/
def Etcd.pass (call : Call) (rand : Nat) (existing : RangeAllocation) : Client × Option Return :=
  match e.update call rand existing with
  | (e, call, .error err) => (⟨e, .idle⟩, some (call.finish (some err)))
  | (e, call, .ok updated) =>
    if updated = existing then (⟨e, .idle⟩, some (call.finish none))
    else (⟨e, .committing call updated⟩, none)

/-- A step of one allocator. A transaction writes under a new version if the stored version is the one
that was read, and else returns what is stored; `commitLost` returns an error all the same, and
`readFails` and `commitFails` are errors without effect. -/
inductive Event where
  | call (op : Op) (rand : Nat)
  | read (rand : Nat)
  | readFails
  | commit (version rand : Nat)
  | commitLost (version : Nat)
  | commitFails
  deriving DecidableEq, Repr

variable (stored : RangeAllocation) (client : Client)

def Client.enabled (event : Event) : Bool :=
  match event, client.point with
  | .call _ _, .idle => true
  | .read _, .reading _ => true
  | .readFails, .reading _ => true
  | .commit version _, .committing _ _ => stored.resourceVersion < version
  | .commitLost version, .committing _ _ => stored.resourceVersion < version
  | .commitFails, .committing _ _ => true
  | _, _ => false

def Client.step (event : Event) : RangeAllocation × Client × Option Return :=
  match event, client.point with
  | .call op rand, _ => (stored, client.etcd.begin rand op)
  | .read rand, .reading call => (stored, client.etcd.pass call rand stored)
  | .readFails, .reading call => (stored, ⟨client.etcd, .idle⟩, some (call.finish (some .storage)))
  | .commit version rand, .committing call updated =>
    if updated.resourceVersion = stored.resourceVersion then
      ({ updated with resourceVersion := version }, ⟨client.etcd, .idle⟩, some (call.finish none))
    else (stored, client.etcd.pass call rand stored)
  | .commitLost version, .committing call updated =>
    if updated.resourceVersion = stored.resourceVersion then
      ({ updated with resourceVersion := version }, ⟨client.etcd, .idle⟩, some (call.finish (some .storage)))
    else (stored, ⟨client.etcd, .idle⟩, some (call.finish (some .storage)))
  | .commitFails, .committing call _ => (stored, ⟨client.etcd, .idle⟩, some (call.finish (some .storage)))
  | _, _ => (stored, client, none)

structure World (ι : Type) where
  stored : RangeAllocation
  clients : ι → Client

namespace World
variable {ι : Type} [DecidableEq ι] (w : World ι) (label : ι × Event)

def Enabled : Prop := (w.clients label.1).enabled w.stored label.2 = true

def next : World ι :=
  let (stored, client, _) := (w.clients label.1).step w.stored label.2
  ⟨stored, Function.update w.clients label.1 client⟩

def granted : Option Nat :=
  ((w.clients label.1).step w.stored label.2).2.2.bind Return.granted

def Initial : Prop := ∀ i, (w.clients i).point = .idle ∧ (w.clients i).etcd.last = 0

def Releasing (offset : Nat) (w : World ι) : Prop := ∃ i, (w.clients i).point.call = some (.release offset)

end World

def Call.taken : Call → Option Nat
  | .allocate offset => some offset
  | .allocateNext offset => some offset
  | .release _ => none

def Point.taken (point : Point) : Option Nat := point.call.bind Call.taken

def Client.Sees (offset : Nat) : Prop :=
  client.etcd.alloc.has offset = true ∧ client.point.taken ≠ some offset

/-- **The condition.** A call that will succeed without a write, because its allocator still has the
stored version and its bitmap is the stored one, takes its offset only if every other allocator that
has the stored version sees that offset as allocated. -/
def World.Sound {ι : Type} (w : World ι) : ι × Event → Prop
  | (i, .read _) => ∀ offset ∈ (w.clients i).point.taken, (w.clients i).etcd.last = w.stored.resourceVersion →
      (w.clients i).etcd.alloc.snapshot = (w.stored.range, w.stored.data) →
      ∀ j, j ≠ i → (w.clients j).etcd.last = w.stored.resourceVersion → (w.clients j).Sees offset
  | _ => True

/-! ### One pass of an update -/

variable {e : Etcd} {call call' : Call} {rand x : Nat} {existing stored : RangeAllocation} {client : Client}

abbrev Etcd.set (e : Etcd) : Finset Nat := bits e.alloc.allocated

abbrev RangeAllocation.set (stored : RangeAllocation) : Finset Nat := bits (value stored.data)

theorem Client.sees_iff : client.Sees x ↔ x ∈ client.etcd.set ∧ client.point.taken ≠ some x := by
  rw [Sees, Etcd.set, mem_bits]
  rfl

theorem Call.granted_finish {err : Option AllocatorError} {offset : Nat}
    (h : (call.finish err).granted = some offset) : call.taken = some offset ∧ err = none := by
  cases call with
  | release => cases h
  | allocateNext =>
    cases err with
    | none => exact ⟨h, rfl⟩
    | some => cases h
  | allocate =>
    cases err with
    | none => exact ⟨h, rfl⟩
    | some err => cases err <;> cases h

theorem Call.retry_eq {alloc alloc' : AllocationBitmap} (h : call.retry rand alloc = (alloc', call', none)) :
    (∃ offset, call'.taken = some offset ∧ offset ∉ bits alloc.allocated ∧
      bits alloc'.allocated = insert offset (bits alloc.allocated)) ∨
    ∃ item, call = .release item ∧ call' = .release item ∧
      bits alloc'.allocated = (bits alloc.allocated).erase item := by
  cases call with
  | release item =>
    cases h
    exact .inr ⟨item, rfl, rfl, alloc.bits_release item⟩
  | allocate offset =>
    rw [retry] at h
    rcases alloc.allocate_cases offset with ⟨heq, -⟩ | ⟨heq, hfree⟩ <;> rw [heq] at h <;> cases h
    exact .inl ⟨offset, rfl, hfree, alloc.bits_take offset⟩
  | allocateNext offset =>
    rw [retry] at h
    rcases alloc.allocate_cases offset with ⟨heq, -⟩ | ⟨heq, hfree⟩ <;> simp only [heq] at h
    · rcases alloc.allocateNext_cases rand with heq | ⟨next, heq, -, hfree⟩ <;> rw [heq] at h <;> cases h
      exact .inl ⟨next, rfl, hfree, alloc.bits_take next⟩
    · cases h
      exact .inl ⟨offset, rfl, hfree, alloc.bits_take offset⟩

/-- How an update comes to the bitmap that is written: it is the allocator's own if its version is the stored
one, and else the stored bitmap, in which the call took or released an offset. -/
inductive Etcd.Updates (e : Etcd) (call : Call) (existing : RangeAllocation) (e' : Etcd) : Call → Prop where
  | kept (current : existing.resourceVersion = e.last) (alloc_eq : e'.alloc = e.alloc) : Updates e call existing e' call
  | took (call' : Call) (offset : Nat) (taken : call'.taken = some offset) (free : offset ∉ existing.set)
      (set_eq : e'.set = insert offset existing.set) : Updates e call existing e' call'
  | released (item : Nat) (release : call = .release item) (set_eq : e'.set = existing.set.erase item) :
      Updates e call existing e' call

theorem Etcd.update_cases (e : Etcd) (call : Call) (rand : Nat) (existing : RangeAllocation) :
    (∃ e' call' err, e.update call rand existing = (e', call', .error err) ∧ e'.last = e.last ∧
      (e' = e ∨ existing.resourceVersion ≠ e.last)) ∨
    ∃ e' call', e.update call rand existing = (e', call', .ok (e'.save existing).2) ∧
      e'.last = existing.resourceVersion ∧ e.Updates call existing e' call' := by
  rw [update]
  split_ifs with hzero hlast
  · exact .inl ⟨e, call, _, rfl, rfl, .inl rfl⟩
  · cases hrestore : e.alloc.restore existing.range existing.data with
    | error => exact .inl ⟨e, call, _, rfl, rfl, .inl rfl⟩
    | ok alloc =>
      have halloc : bits alloc.allocated = existing.set := by rw [(restore_ok_iff.mp hrestore).2]
      simp only
      rcases hretry : call.retry rand alloc with ⟨alloc', call', failed⟩
      cases failed with
      | some err => exact .inl ⟨{ e with alloc := alloc' }, call', err, rfl, rfl, .inr hlast⟩
      | none =>
        refine .inr ⟨⟨alloc', existing.resourceVersion⟩, call', rfl, rfl, ?_⟩
        rcases Call.retry_eq hretry with ⟨offset, htaken, hfree, hbits⟩ | ⟨item, rfl, rfl, hbits⟩
        · exact .took call' offset htaken (halloc ▸ hfree) (halloc ▸ hbits)
        · exact .released item rfl (halloc ▸ hbits)
  · exact .inr ⟨⟨e.alloc, existing.resourceVersion⟩, call, rfl, rfl, .kept (not_not.mp hlast) rfl⟩

variable {e' : Etcd}

/-- What an allocator knows between its steps: its version is not a later one than the stored one, what it
took is in its bitmap, and what it writes is its bitmap, for the version that it saw last. -/
structure Client.Consistent (stored : RangeAllocation) (client : Client) : Prop where
  last_le : client.etcd.last ≤ stored.resourceVersion
  taken_mem : ∀ offset, client.point.taken = some offset → offset ∈ client.etcd.set
  committing : ∀ call updated, client.point = .committing call updated →
    updated.resourceVersion = client.etcd.last ∧ updated.set = client.etcd.set

theorem Client.consistent_idle (h : e.last ≤ stored.resourceVersion) : Client.Consistent stored ⟨e, .idle⟩ where
  last_le := h
  taken_mem _ htaken := by cases htaken
  committing _ _ hpoint := by cases hpoint

theorem RangeAllocation.set_save (e : Etcd) (existing : RangeAllocation) : (e.save existing).2.set = e.set := by
  rw [set, Etcd.save, snapshot, value_bytes]

theorem Etcd.Updates.taken_mem (h : e.Updates call existing e' call')
    (htaken : ∀ offset, call.taken = some offset → offset ∈ e.set) {offset : Nat}
    (hoff : call'.taken = some offset) : offset ∈ e'.set := by
  cases h with
  | kept _ halloc =>
    rw [set, halloc]
    exact htaken offset hoff
  | took _ _ htaken' _ hset =>
    rw [hset, some.inj (hoff.symm.trans htaken')]
    exact mem_insert_self _ _
  | released _ hrelease =>
    rw [hrelease] at hoff
    cases hoff

theorem Etcd.pass_consistent (h : e.last ≤ existing.resourceVersion)
    (htaken : ∀ offset, call.taken = some offset → offset ∈ e.set) :
    (e.pass call rand existing).1.Consistent existing := by
  rw [pass]
  rcases e.update_cases call rand existing with ⟨_, _, _, heq, hlast, -⟩ | ⟨e', _, heq, hlast, hupdates⟩ <;> rw [heq]
  · exact Client.consistent_idle (hlast ▸ h)
  · simp only
    split_ifs
    · exact Client.consistent_idle hlast.le
    · refine ⟨hlast.le, fun _ => hupdates.taken_mem htaken, ?_⟩
      intro _ _ hpoint
      cases hpoint
      exact ⟨hlast.symm, RangeAllocation.set_save e' existing⟩

section
variable (hx : x ∈ existing.set) (hcall : call ≠ .release x)
  (hsees : existing.resourceVersion = e.last → x ∈ e.set ∧ call.taken ≠ some x)
include hx hcall hsees

theorem Etcd.Updates.sees (h : e.Updates call existing e' call') : x ∈ e'.set ∧ call'.taken ≠ some x := by
  cases h with
  | kept hcur halloc =>
    rw [set, halloc]
    exact hsees hcur
  | took _ _ htaken hfree hset =>
    rw [hset, htaken]
    exact ⟨mem_insert_of_mem hx, fun heq => hfree (some.inj heq ▸ hx)⟩
  | released _ hrelease hset =>
    rw [hset, hrelease]
    exact ⟨mem_erase.mpr ⟨fun heq => hcall (by rw [hrelease, heq]), hx⟩, (some_ne_none _).symm⟩

theorem Etcd.pass_sees (rand : Nat) :
    ((e.pass call rand existing).1.etcd.last = existing.resourceVersion → (e.pass call rand existing).1.Sees x) ∧
      (e.pass call rand existing).2.bind Return.granted ≠ some x := by
  rw [pass]
  rcases e.update_cases call rand existing with ⟨_, _, _, heq, hlast, horigin⟩ | ⟨_, _, heq, -, hupdates⟩ <;> rw [heq]
  · refine ⟨fun hcur => ?_, fun hgr => nomatch (Call.granted_finish hgr).2⟩
    have hcur' : existing.resourceVersion = e.last := hcur.symm.trans hlast
    obtain rfl := horigin.resolve_right (not_not.mpr hcur')
    exact Client.sees_iff.mpr ⟨(hsees hcur').1, (some_ne_none _).symm⟩
  · obtain ⟨hmem, hne⟩ := Updates.sees hx hcall hsees hupdates
    simp only
    split_ifs
    · exact ⟨fun _ => Client.sees_iff.mpr ⟨hmem, (some_ne_none _).symm⟩, fun hgr => hne (Call.granted_finish hgr).1⟩
    · exact ⟨fun _ => Client.sees_iff.mpr ⟨hmem, hne⟩, (some_ne_none _).symm⟩

end

theorem Etcd.pass_granted (htaken : ∀ offset, call.taken = some offset → offset ∈ e.set)
    (h : (e.pass call rand existing).2.bind Return.granted = some x) :
    existing.resourceVersion = e.last ∧ call.taken = some x ∧ e.alloc.snapshot = (existing.range, existing.data) ∧
      x ∈ existing.set ∧ (e.pass call rand existing).1.Sees x := by
  rw [pass] at h ⊢
  rcases e.update_cases call rand existing with ⟨_, _, _, heq, -⟩ | ⟨e', _, heq, -, hupdates⟩ <;> rw [heq] at h ⊢
  · exact nomatch (Call.granted_finish h).2
  · simp only at h ⊢
    by_cases hsame : (e'.save existing).2 = existing
    · rw [if_pos hsame] at h ⊢
      have hx := (Call.granted_finish h).1
      have hmem : x ∈ e'.set := hupdates.taken_mem htaken hx
      have hstored : x ∈ existing.set := by
        rw [← hsame, RangeAllocation.set_save]
        exact hmem
      cases hupdates with
      | kept hcur halloc =>
        refine ⟨hcur, hx, ?_, hstored, Client.sees_iff.mpr ⟨hmem, (some_ne_none _).symm⟩⟩
        rw [← halloc]
        exact Prod.ext (congrArg RangeAllocation.range hsame) (congrArg RangeAllocation.data hsame)
      | took _ _ htaken' hfree =>
        rw [← some.inj (hx.symm.trans htaken')] at hfree
        exact absurd hstored hfree
      | released _ hrelease =>
        rw [hrelease] at hx
        cases hx
    · rw [if_neg hsame] at h
      cases h

theorem Etcd.begin_cases (e : Etcd) (rand : Nat) (op : Op) :
    (e.begin rand op).1.etcd.last = e.last ∧ (e.begin rand op).2.bind Return.granted = none ∧
      (∀ call updated, (e.begin rand op).1.point ≠ .committing call updated) ∧
      ((e.begin rand op).1.point.taken = none ∧ (e.begin rand op).1.etcd.set = e.set ∨
        (∃ offset, (e.begin rand op).1.point.taken = some offset ∧ offset ∉ e.set ∧
          (e.begin rand op).1.etcd.set = insert offset e.set) ∨
        ∃ item, (e.begin rand op).1.point = .reading (.release item) ∧
          (e.begin rand op).1.etcd.set = e.set.erase item) := by
  cases op with
  | release item =>
    refine ⟨rfl, rfl, by simp [begin], .inr (.inr ⟨item, rfl, ?_⟩)⟩
    rw [begin, set, bits_release]
  | allocate offset =>
    rw [begin]
    rcases e.alloc.allocate_cases offset with ⟨heq, -⟩ | ⟨heq, hfree⟩ <;> rw [heq]
    · exact ⟨rfl, rfl, by simp, .inl ⟨rfl, rfl⟩⟩
    · exact ⟨rfl, rfl, by simp, .inr (.inl ⟨offset, rfl, hfree, e.alloc.bits_take offset⟩)⟩
  | allocateNext =>
    rw [begin]
    rcases e.alloc.allocateNext_cases rand with heq | ⟨next, heq, -, hfree⟩ <;> rw [heq]
    · exact ⟨rfl, rfl, by simp, .inl ⟨rfl, rfl⟩⟩
    · exact ⟨rfl, rfl, by simp, .inr (.inl ⟨next, rfl, hfree, e.alloc.bits_take next⟩)⟩

theorem Etcd.begin_consistent (h : e.last ≤ stored.resourceVersion) (op : Op) :
    (e.begin rand op).1.Consistent stored := by
  obtain ⟨hlast, -, hpoint, hcases⟩ := e.begin_cases rand op
  refine ⟨hlast ▸ h, fun _ htaken => ?_, fun call updated hcommitting => absurd hcommitting (hpoint call updated)⟩
  rcases hcases with ⟨hnone, -⟩ | ⟨_, htaken', -, hset⟩ | ⟨_, hrelease, -⟩
  · rw [htaken] at hnone
    cases hnone
  · rw [hset, some.inj (htaken.symm.trans htaken')]
    exact mem_insert_self _ _
  · rw [hrelease] at htaken
    cases htaken

theorem Etcd.begin_sees (hx : x ∈ e.set) {op : Op} (hrelease : (e.begin rand op).1.point.call ≠ some (.release x)) :
    (e.begin rand op).1.Sees x := by
  rw [Client.sees_iff]
  obtain ⟨-, -, -, ⟨hnone, hset⟩ | ⟨_, htaken, hfree, hset⟩ | ⟨_, hpoint, hset⟩⟩ := e.begin_cases rand op
  · rw [hnone, hset]
    exact ⟨hx, (some_ne_none _).symm⟩
  · rw [htaken, hset]
    exact ⟨mem_insert_of_mem hx, fun heq => hfree (some.inj heq ▸ hx)⟩
  · rw [hpoint] at hrelease ⊢
    rw [hset]
    exact ⟨mem_erase.mpr ⟨fun heq => hrelease (by rw [heq]; rfl), hx⟩, (some_ne_none _).symm⟩

end LeanKube.EtcdAllocator
