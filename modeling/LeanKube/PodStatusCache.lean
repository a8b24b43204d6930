import LeanKube.GoMap

/-! The pod status cache of the kubelet (`pkg/kubelet/container/cache.go`). A call of `GetNewerThan` waits until `Set`
or `UpdateTime` answers it. -/

namespace LeanKube.PodStatus
open List GoMap

structure Data (α : Type) where
  status : α
  err : Option String
  modified : Int

/-- A call of `GetNewerThan`. Its record is in the list of the subscribers of the pod while it waits; its channel has
room for one answer. -/
structure Call (α : Type) where
  id : String
  time : Int
  waiting : Bool
  sent : List (α × Option String)

structure Cache (α : Type) where
  pods : GoMap String (Data α) := ∅
  timestamp : Option Int := none
  calls : List (Call α) := []

inductive Op (α : Type) where
  | set (id : String) (status : α) (err : Option String) (timestamp : Int)
  | delete (id : String)
  | updateTime (timestamp : Int)
  | getNewerThan (id : String) (minTime : Int)

variable {α : Type}

/-- The time with which the call notifies the subscribers of the pod. -/
def Op.timestamp (id : String) : Op α → Option Int
  | .set id' _ _ timestamp => if id' = id then some timestamp else none
  | .updateTime timestamp => some timestamp
  | _ => none

def Call.notify (timestamp : Int) (answer : α × Option String) (r : Call α) : Call α :=
  if r.waiting ∧ ¬ timestamp < r.time then { r with waiting := false, sent := r.sent ++ [answer] } else r

namespace Cache
variable (defaultStatus : String → α) (c : Cache α) (id : String) (minTime timestamp : Int)

/-- The status and the error of the data, or of `makeDefaultData`. -/
def get : α × Option String := ((c.pods.lookup id).map fun d => (d.status, d.err)).getD (defaultStatus id, none)

def getIfNewerThan : Option (α × Option String) :=
  let globalTimestampIsNewer := c.timestamp.any (minTime < ·)
  match c.pods.lookup id with
  | none => if globalTimestampIsNewer then some (c.get defaultStatus id) else none
  | some d => if minTime < d.modified || globalTimestampIsNewer then some (c.get defaultStatus id) else none

/-- `notify` of the pods that `selected` has. -/
def notify (selected : String → Bool) : Cache α :=
  { c with calls := c.calls.map fun r => if selected r.id then r.notify timestamp (c.get defaultStatus r.id) else r }

def subscribe : Call α :=
  match c.getIfNewerThan defaultStatus id minTime with
  | some d => ⟨id, minTime, false, [d]⟩
  | none => ⟨id, minTime, true, []⟩

def apply : Op α → Cache α
  | .set id status err timestamp =>
    { c with pods := c.pods.insert id ⟨status, err, timestamp⟩ }.notify defaultStatus timestamp (id = ·)
  | .delete id => { c with pods := c.pods.erase id }
  | .updateTime timestamp => { c with timestamp := some timestamp }.notify defaultStatus timestamp fun _ => true
  | .getNewerThan id minTime => { c with calls := c.calls ++ [c.subscribe defaultStatus id minTime] }

/-- The entry of the pod was modified after the time, or the global timestamp is after it. -/
def newerThan : Bool := (c.pods.lookup id).any (minTime < ·.modified) || c.timestamp.any (minTime < ·)

theorem subscribe_eq : c.subscribe defaultStatus id minTime =
    ⟨id, minTime, !c.newerThan id minTime, if c.newerThan id minTime then [c.get defaultStatus id] else []⟩ := by
  have hif : c.getIfNewerThan defaultStatus id minTime =
      if c.newerThan id minTime then some (c.get defaultStatus id) else none := by
    rw [getIfNewerThan, newerThan]
    cases c.pods.lookup id <;> rfl
  rw [subscribe, hif]
  cases c.newerThan id minTime <;> rfl

variable {defaultStatus} {c} {id} {minTime timestamp} {op : Op α} {later : List (Op α)} {i : Nat} {r : Call α}

theorem newerThan_apply (h : c.newerThan id minTime = false) :
    (c.apply defaultStatus op).newerThan id minTime = (op.timestamp id).any (minTime < ·) := by
  rw [newerThan, Bool.or_eq_false_iff] at h
  cases op with
  | set id' =>
    rcases eq_or_ne id' id with rfl | hid
    · simp [apply, notify, newerThan, Op.timestamp, h.2]
    · simp [apply, notify, newerThan, Op.timestamp, hid, Finmap.lookup_insert_of_ne _ hid.symm, h]
  | delete id' =>
    simp only [apply, newerThan, Op.timestamp, lookup_erase_ite, h.2, Bool.or_false]
    split_ifs
    · rfl
    · exact h.1
  | updateTime => simp [apply, notify, newerThan, Op.timestamp, h.1]
  | getNewerThan => simp [apply, newerThan, Op.timestamp, h]

theorem calls_apply (hi : c.calls[i]? = some r) :
    (c.apply defaultStatus op).calls[i]? = some ((op.timestamp r.id).elim r fun timestamp =>
      r.notify timestamp ((c.apply defaultStatus op).get defaultStatus r.id)) := by
  cases op with
  | set id' => by_cases hid : id' = r.id <;> simp [apply, notify, Op.timestamp, hi, hid, get]
  | delete => exact hi
  | updateTime => simp [apply, notify, Op.timestamp, hi, get]
  | getNewerThan => exact (getElem?_append_left (List.getElem?_eq_some_iff.mp hi).1).trans hi

theorem calls_foldl (hi : c.calls[i]? = some r) (hwaiting : r.waiting = false) :
    (later.foldl (apply defaultStatus) c).calls[i]? = some r := by
  induction later generalizing c with
  | nil => exact hi
  | cons op later ih =>
    refine ih ((calls_apply hi).trans (congrArg some ?_))
    cases op.timestamp r.id <;> simp [Call.notify, hwaiting]

theorem find?_scanl (h : c.newerThan id minTime = true) :
    (later.scanl (apply defaultStatus) c).find? (·.newerThan id minTime) = some c := by
  cases later <;> simp [h]

section Waiting
variable (hi : c.calls[i]? = some ⟨id, minTime, true, []⟩) (hnewer : c.newerThan id minTime = false)
include hi

include hnewer

/-- A call that waits goes on waiting, or it is answered. -/
theorem waiting_cases (defaultStatus : String → α) (op : Op α) :
    ((c.apply defaultStatus op).calls[i]? = some ⟨id, minTime, true, []⟩ ∧
      (c.apply defaultStatus op).newerThan id minTime = false ∧ op.timestamp id ≠ some minTime) ∨
    ∃ timestamp, op.timestamp id = some timestamp ∧ minTime ≤ timestamp ∧ (c.apply defaultStatus op).calls[i]? =
        some ⟨id, minTime, false, [(c.apply defaultStatus op).get defaultStatus id]⟩ ∧
      (c.apply defaultStatus op).newerThan id minTime = decide (minTime < timestamp) := by
  rw [calls_apply hi, newerThan_apply hnewer]
  cases htimestamp : op.timestamp id with
  | none => exact .inl ⟨rfl, rfl, nofun⟩
  | some timestamp =>
    rcases Int.lt_or_le timestamp minTime with hlt | hle
    · refine .inl ⟨congrArg some (if_neg fun h => h.2 hlt), decide_eq_false (Int.not_lt.mpr (Int.le_of_lt hlt)), ?_⟩
      exact fun heq => Int.ne_of_lt hlt (Option.some.inj heq)
    · exact .inr ⟨timestamp, rfl, hle, congrArg some (if_pos ⟨rfl, Int.not_lt.mpr hle⟩), rfl⟩

/-- From a state in which the call waits. -/
theorem sent_of_waiting (htime : ∀ op ∈ later, op.timestamp id ≠ some minTime) :
    (later.foldl (apply defaultStatus) c).calls[i]?.map Call.sent = some
      (((later.scanl (apply defaultStatus) c).find? (·.newerThan id minTime)).toList.map (·.get defaultStatus id)) := by
  induction later generalizing c with
  | nil => simp [hi, hnewer]
  | cons op later ih =>
    obtain ⟨hop, htime⟩ := forall_mem_cons.mp htime
    rw [foldl_cons, scanl_cons, find?_cons_of_neg (by simp [hnewer])]
    rcases waiting_cases hi hnewer defaultStatus op with ⟨hnext, hready, -⟩ | ⟨timestamp, htimestamp, hle, hanswer,
      hready⟩
    · exact ih hnext hready htime
    · have hne : minTime ≠ timestamp := fun heq => hop (heq ▸ htimestamp)
      rw [decide_eq_true (Int.lt_iff_le_and_ne.mpr ⟨hle, hne⟩)] at hready
      rw [calls_foldl hanswer rfl, find?_scanl hready]
      rfl

/-- **The condition is needed.** If the times do not decrease and the call is at no instant answered otherwise, then no
call that notifies it has its very time. -/
theorem timestamp_ne_of_sent (hmono : (later.filterMap (Op.timestamp id)).Pairwise (· ≤ ·))
    (h : ∀ first, first <+: later → (first.foldl (apply defaultStatus) c).calls[i]?.map Call.sent = some
      (((first.scanl (apply defaultStatus) c).find? (·.newerThan id minTime)).toList.map (·.get defaultStatus id))) :
    ∀ op ∈ later, op.timestamp id ≠ some minTime := by
  induction later generalizing c with
  | nil => nofun
  | cons op later ih =>
    rcases waiting_cases hi hnewer defaultStatus op with ⟨hnext, hready, hop⟩ | ⟨timestamp, htimestamp, hle, hanswer,
      hready⟩
    · refine forall_mem_cons.mpr ⟨hop, ih hnext hready ?_ fun first hfirst => ?_⟩
      · exact hmono.sublist ((sublist_cons_self op later).filterMap _)
      · have hsent := h (op :: first) (prefix_cons_inj op |>.mpr hfirst)
        rwa [foldl_cons, scanl_cons, find?_cons_of_neg (by simp [hnewer])] at hsent
    · -- the call is answered here, so the cache is newer than its time
      have hsent := h [op] (prefix_append [op] later)
      have hgt : minTime < timestamp := by
        by_contra hnot
        simp [hanswer, hnewer, hready, hnot] at hsent
      rw [filterMap_cons_some htimestamp, pairwise_cons] at hmono
      refine forall_mem_cons.mpr ⟨fun heq => ?_, fun op' hop' heq => ?_⟩
      · exact Int.ne_of_lt hgt (Option.some.inj (heq.symm.trans htimestamp))
      · exact Int.not_lt.mpr (hmono.1 minTime (mem_filterMap.mpr ⟨op', hop', heq⟩)) hgt

end Waiting

/-- **A call of `GetNewerThan` is answered once, at the first instant at which the cache is newer than its time, with
the data of that instant**, if no call that notifies it has that very time. -/
theorem getNewerThan_first (htime : ∀ op ∈ later, op.timestamp id ≠ some minTime) :
    (later.foldl (apply defaultStatus) (c.apply defaultStatus (.getNewerThan id minTime))).calls[c.calls.length]?.map
      Call.sent = some (((later.scanl (apply defaultStatus) (c.apply defaultStatus (.getNewerThan id minTime))).find?
        (·.newerThan id minTime)).toList.map (·.get defaultStatus id)) := by
  have hi : (c.apply defaultStatus (.getNewerThan id minTime)).calls[c.calls.length]? = some _ := getElem?_concat_length
  rw [subscribe_eq] at hi
  cases hready : c.newerThan id minTime with
  | true =>
    have hnewer : (c.apply defaultStatus (.getNewerThan id minTime)).newerThan id minTime = true := hready
    rw [hready] at hi
    rw [calls_foldl hi rfl, find?_scanl hnewer]
    rfl
  | false =>
    rw [hready] at hi
    exact sent_of_waiting hi hready htime

end Cache

open Cache

def relist : List (Op String) := [.set "pod" "new" none 4, .updateTime 6]

theorem getNewerThan_first_relist : (∀ op ∈ relist, op.timestamp "pod" ≠ some 5) ∧
    (relist.foldl (apply id) (apply id {} (.getNewerThan "pod" 5))).calls[0]?.map Call.sent =
      some (((relist.scanl (apply id) (apply id {} (.getNewerThan "pod" 5))).find? (·.newerThan "pod" 5)).toList.map
        (·.get id "pod")) :=
  ⟨by decide, getNewerThan_first (by decide)⟩

/-- A call that waits for data newer than 5 is answered with those of 5. -/
theorem getNewerThan_equal : ∃ c c' : Cache String, c = apply id {} (.getNewerThan "pod" 5) ∧
    c' = c.apply id (.set "pod" "new" none 5) ∧ c.calls = [⟨"pod", 5, true, []⟩] ∧
    c'.calls = [⟨"pod", 5, false, [("new", none)]⟩] ∧ c'.newerThan "pod" 5 = false :=
  ⟨_, _, rfl, rfl, rfl, rfl, rfl⟩

end LeanKube.PodStatus
