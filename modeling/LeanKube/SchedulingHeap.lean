import LeanKube.ContainerHeap
import LeanKube.GoMap

/-! The heap of the scheduling queue: objects by key, and a queue of the keys in heap order. Every
object carries the position of its key, so that it can be exchanged or deleted in place. -/

namespace LeanKube.Scheduler
open GoMap HeapInterface List Option Finmap Equiv

structure HeapItem (α : Type) where
  obj : α
  index : Nat
deriving DecidableEq

structure HeapData (α : Type) where
  items : GoMap String (HeapItem α) := ∅
  queue : List String := []
deriving DecidableEq

namespace HeapData
variable {α : Type} (lessFunc : α → α → Bool) (d : HeapData α)

def less (i j : Nat) : Bool :=
  match d.queue[i]?.bind d.items.lookup, d.queue[j]?.bind d.items.lookup with
  | some itemi, some itemj => lessFunc itemi.obj itemj.obj
  | _, _ => false

def setIndex (items : GoMap String (HeapItem α)) (key : String) (index : Nat) : GoMap String (HeapItem α) :=
  match items.lookup key with
  | none => items
  | some item => items.insert key { item with index }

def swap (i j : Nat) : HeapData α :=
  match d.queue[i]?, d.queue[j]? with
  | some keyi, some keyj =>
    { items := setIndex (setIndex d.items keyj i) keyi j
      queue := (d.queue.set i keyj).set j keyi }
  | _, _ => d

def push (keyValue : String × α) : HeapData α where
  items := d.items.insert keyValue.1 { obj := keyValue.2, index := d.queue.length }
  queue := d.queue ++ [keyValue.1]

def pop : Option α × HeapData α :=
  match d.queue.getLast? with
  | none => (none, d)
  | some key =>
    let d := { d with queue := d.queue.dropLast }
    match d.items.lookup key with
    | none => (none, d)
    | some item => (some item.obj, { d with items := d.items.erase key })

def heapInterface : HeapInterface (HeapData α) (String × α) (Option α) where
  len d := d.queue.length
  less := less lessFunc
  swap := swap
  push := push
  pop := pop

variable (d : HeapData α)

def add (key : String) (obj : α) : HeapData α :=
  match d.items.lookup key with
  | some item =>
    (heapInterface lessFunc).heapFix
      { d with items := d.items.insert key { item with obj } } item.index
  | none => (heapInterface lessFunc).heapPush d (key, obj)

/-! ### The objects and their positions -/

def WellFormed : Prop :=
  ∀ key i, d.queue[i]? = some key ↔ ∃ item, d.items.lookup key = some item ∧ item.index = i

def objs : GoMap String α := d.items.mapValues HeapItem.obj

def objAt (i : Nat) : Option α := d.queue[i]?.bind d.objs.lookup

theorem less_eq (i j : Nat) : d.less lessFunc i j =
      match d.objAt i, d.objAt j with
      | some obji, some objj => lessFunc obji objj
      | _, _ => false := by
  have hobj : ∀ i, d.objAt i = (d.queue[i]?.bind d.items.lookup).map HeapItem.obj := by
    intro i
    rw [objAt]
    cases d.queue[i]? with
    | none => rfl
    | some => exact lookup_mapValues _ _ _
  rw [less, hobj i, hobj j]
  cases d.queue[i]?.bind d.items.lookup <;> cases d.queue[j]?.bind d.items.lookup <;> rfl

variable {keyValue : String × α} (items : GoMap String (HeapItem α))

theorem lookup_setIndex (key key' : String) (index : Nat) : (setIndex items key index).lookup key' =
      if key' = key then (items.lookup key').map (fun item => { item with index })
      else items.lookup key' := by
  rw [setIndex]
  cases hitem : items.lookup key with
  | none =>
    split_ifs with hkey
    · rw [hkey, hitem]
      rfl
    · rfl
  | some =>
    rw [lookup_insert_ite]
    split_ifs with hkey
    · rw [hkey, hitem]
      rfl
    · rfl

theorem length_swap (i j : Nat) : (d.swap i j).queue.length = d.queue.length := by
  rw [swap]
  split
  · rw [length_set, length_set]
  · rfl

section Swap
variable {d : HeapData α} {i j : Nat} (hi : i < d.queue.length) (hj : j < d.queue.length)
include hi hj

theorem swap_eq : d.swap i j =
    { items := setIndex (setIndex d.items d.queue[j] i) d.queue[i] j
      queue := (d.queue.set i d.queue[j]).set j d.queue[i] } := by
  rw [swap, getElem?_eq_getElem hi, getElem?_eq_getElem hj]

theorem queue_swap (k : Nat) : (d.swap i j).queue[k]? = d.queue[Equiv.swap i j k]? := by
  rw [swap_eq hi hj]
  simp only [getElem?_set, length_set]
  by_cases hkj : j = k
  · subst hkj
    rw [if_pos rfl, if_pos hj, swap_apply_right, getElem?_eq_getElem hi]
  · rw [if_neg hkj]
    by_cases hki : i = k
    · subst hki
      rw [if_pos rfl, if_pos hi, swap_apply_left, getElem?_eq_getElem hj]
    · rw [if_neg hki, swap_apply_of_ne_of_ne (Ne.symm hki) (Ne.symm hkj)]

section
variable (wf : d.WellFormed)
include wf

theorem items_swap (key : String) : (d.swap i j).items.lookup key =
      (d.items.lookup key).map fun item => { item with index := Equiv.swap i j item.index } := by
  rw [swap_eq hi hj]
  simp only [lookup_setIndex]
  cases hitem : d.items.lookup key with
  | none => split_ifs <;> rfl
  | some item =>
    have hat := (wf key item.index).mpr ⟨item, hitem, rfl⟩
    -- a key is the one at `i` or at `j` exactly if its item has that index
    have hkey : ∀ {k} (hk : k < d.queue.length), key = d.queue[k] ↔ item.index = k := by
      intro k hk
      constructor
      · intro heq
        obtain ⟨_, hitem', hidx⟩ := (wf key k).mp (heq ▸ getElem?_eq_getElem hk)
        exact some.inj (hitem.symm.trans hitem') ▸ hidx
      · rintro rfl
        rw [getElem?_eq_getElem hk] at hat
        exact (some.inj hat).symm
    simp only [hkey hi, hkey hj, map_some]
    split_ifs with h₁ h₂ h₂
    · rw [h₁, swap_apply_left]
      rfl
    · rw [h₁, swap_apply_left]
      rfl
    · rw [h₂, swap_apply_right]
    · rw [swap_apply_of_ne_of_ne h₁ h₂]

theorem objs_swap : (d.swap i j).objs = d.objs := by
  refine ext_lookup fun key => ?_
  rw [objs, objs, lookup_mapValues, lookup_mapValues, items_swap hi hj wf]
  cases d.items.lookup key <;> rfl

theorem objAt_swap (k : Nat) : (d.swap i j).objAt k = d.objAt (Equiv.swap i j k) := by
  rw [objAt, objAt, queue_swap hi hj, objs_swap hi hj wf]

theorem WellFormed.swap : (d.swap i j).WellFormed := by
  intro key k
  rw [queue_swap hi hj, wf key, items_swap hi hj wf]
  cases d.items.lookup key with
  | none => simp
  | some =>
    simp only [some.injEq, exists_eq_left', map_some]
    rw [← (Equiv.swap i j).injective.eq_iff, Equiv.swap_apply_self]

end
end Swap

variable {d : HeapData α} {key : String} {i : Nat}

theorem lookup_objs {obj : α} :
    d.objs.lookup key = some obj ↔ ∃ item, d.items.lookup key = some item ∧ item.obj = obj := by
  rw [objs, lookup_mapValues, map_eq_some_iff]

section
variable (wf : d.WellFormed)
include wf

theorem WellFormed.lookup_at (h : d.queue[i]? = some key) :
    ∃ obj, d.objs.lookup key = some obj ∧ d.objAt i = some obj := by
  obtain ⟨item, hitem, -⟩ := (wf key i).mp h
  have hobj := lookup_objs.mpr ⟨item, hitem, rfl⟩
  refine ⟨item.obj, hobj, ?_⟩
  rw [objAt, h]
  exact hobj

theorem WellFormed.exists_at (hi : i < d.queue.length) : ∃ obj, d.objAt i = some obj :=
  (wf.lookup_at (getElem?_eq_getElem hi)).imp fun _ => And.right

theorem WellFormed.at_lookup {obj : α} (h : d.objs.lookup key = some obj) :
    ∃ i < d.queue.length, d.objAt i = some obj := by
  obtain ⟨item, hitem, -⟩ := lookup_objs.mp h
  have hat := (wf key item.index).mpr ⟨item, hitem, rfl⟩
  refine ⟨item.index, (List.getElem?_eq_some_iff.mp hat).1, ?_⟩
  rw [objAt, hat]
  exact h

theorem WellFormed.index_eq {j : Nat} (hi : d.queue[i]? = some key) (hj : d.queue[j]? = some key) : i = j := by
  obtain ⟨_, hitem, rfl⟩ := (wf key i).mp hi
  obtain ⟨_, hitem', rfl⟩ := (wf key j).mp hj
  rw [some.inj (hitem.symm.trans hitem')]

/-! ### Push and pop -/

def Fresh (d : HeapData α) (keyValue : String × α) : Prop := d.items.lookup keyValue.1 = none

theorem WellFormed.push (hfresh : d.Fresh keyValue) : (d.push keyValue).WellFormed := by
  intro key i
  have hqueue : (d.push keyValue).queue[i]? = some key ↔
      d.queue[i]? = some key ∨ i = d.queue.length ∧ key = keyValue.1 := by
    simp only [HeapData.push, getElem?_append, getElem?_singleton]
    split_ifs with hlt hlast
    · constructor
      · exact .inl
      · rintro (hold | ⟨rfl, _⟩)
        · exact hold
        · omega
    · rw [getElem?_eq_none (by omega)]
      constructor
      · intro heq
        exact .inr ⟨by omega, (some.inj heq).symm⟩
      · rintro (hold | ⟨_, rfl⟩)
        · cases hold
        · rfl
    · rw [getElem?_eq_none (by omega)]
      constructor
      · intro heq
        cases heq
      · rintro (hold | ⟨rfl, _⟩)
        · cases hold
        · omega
  have hitem : (d.push keyValue).items.lookup key = if key = keyValue.1 then
      some ⟨keyValue.2, d.queue.length⟩ else d.items.lookup key := lookup_insert_ite ..
  rw [hqueue, hitem, wf key i]
  by_cases hkey : key = keyValue.1
  · rw [if_pos hkey, hkey, show d.items.lookup keyValue.1 = none from hfresh]
    simp [eq_comm]
  · simp [hkey]

end

theorem objs_push (keyValue : String × α) : (d.push keyValue).objs = d.objs.insert keyValue.1 keyValue.2 := by
  refine ext_lookup fun _ => ?_
  rw [objs, lookup_mapValues, push, lookup_insert_ite, lookup_insert_ite, objs, lookup_mapValues]
  split_ifs <;> rfl

theorem objAt_push (wf : d.WellFormed) (hfresh : d.Fresh keyValue) (hi : i < d.queue.length) :
    (d.push keyValue).objAt i = d.objAt i := by
  have hqueue : (d.push keyValue).queue[i]? = d.queue[i]? := getElem?_append_left hi
  rw [objAt, objAt, hqueue, objs_push, getElem?_eq_getElem hi, bind_some, bind_some, lookup_insert_ite, if_neg]
  intro hkey
  obtain ⟨_, hitem, -⟩ := (wf _ i).mp (getElem?_eq_getElem hi)
  rw [hkey, show d.items.lookup keyValue.1 = none from hfresh] at hitem
  cases hitem

theorem pop_nil (h : d.queue = []) : d.pop = (none, d) := by
  rw [pop, h]
  rfl

theorem getElem?_dropLast_of_lt (hi : i < d.queue.length - 1) : d.queue.dropLast[i]? = d.queue[i]? := by
  rw [getElem?_dropLast, if_pos hi]

theorem WellFormed.pop_eq (wf : d.WellFormed) (h : d.queue[d.queue.length - 1]? = some key) :
    d.pop = (d.objs.lookup key, { items := d.items.erase key, queue := d.queue.dropLast }) := by
  obtain ⟨item, hitem, -⟩ := (wf key _).mp h
  rw [pop, getLast?_eq_getElem?, h]
  simp only [hitem]
  rw [lookup_objs.mpr ⟨item, hitem, rfl⟩]

theorem WellFormed.pop (wf : d.WellFormed) : d.pop.2.WellFormed := by
  cases hlast : d.queue[d.queue.length - 1]? with
  | none =>
    have hnil : d.queue = [] := by
      have := getElem?_eq_none_iff.mp hlast
      exact eq_nil_of_length_eq_zero (by omega)
    rw [pop_nil hnil]
    exact wf
  | some =>
    rw [wf.pop_eq hlast]
    intro key i
    simp only [getElem?_dropLast, lookup_erase_ite]
    split_ifs with hi hkey hkey
    · subst hkey
      refine iff_of_false (fun hat => ?_) (by simp)
      have := wf.index_eq hat hlast
      omega
    · exact wf key i
    · exact iff_of_false (by simp) (by simp)
    · refine iff_of_false (by simp) ?_
      rintro ⟨item, hitem, rfl⟩
      have hat := (wf key item.index).mpr ⟨item, hitem, rfl⟩
      have hlt := (List.getElem?_eq_some_iff.mp hat).1
      rw [show item.index = d.queue.length - 1 by omega, hlast] at hat
      exact hkey (some.inj hat).symm

theorem objs_erase (key : String) (queue : List String) :
    objs { items := items.erase key, queue } = (items.mapValues HeapItem.obj).erase key := by
  refine ext_lookup fun _ => ?_
  rw [objs, lookup_mapValues, lookup_erase_ite, lookup_erase_ite, lookup_mapValues]
  split_ifs <;> rfl

theorem objAt_pop (wf : d.WellFormed) (hi : i < d.queue.length - 1) : d.pop.2.objAt i = d.objAt i := by
  have hlast := getElem?_eq_getElem (l := d.queue) (i := d.queue.length - 1) (by omega)
  have hat := getElem?_eq_getElem (l := d.queue) (i := i) (by omega)
  rw [wf.pop_eq hlast, objAt, objAt, objs_erase]
  simp only [getElem?_dropLast_of_lt hi, hat, bind_some, lookup_erase_ite]
  rw [if_neg, objs]
  intro hkey
  have := wf.index_eq hat (hkey ▸ hlast)
  omega

end HeapData

/-! ### The order -/

structure LessFunc (α : Type) where
  less : α → α → Bool
  asymm : ∀ a b, less a b = true → less b a = false
  trans : ∀ a b c, less b a = false → less c b = false → less c a = false

namespace HeapData
variable {α : Type} (lessFunc : LessFunc α)

theorem lawful : (heapInterface lessFunc.less).Lawful (WellFormed (α := α)) (Fresh (α := α)) where
  valid_swap _ _ _ wf hi hj := wf.swap hi hj
  len_swap := length_swap
  less_swap d i j a b hi hj wf := by
    change (d.swap i j).less lessFunc.less a b = d.less lessFunc.less (Equiv.swap i j a) (Equiv.swap i j b)
    rw [less_eq, objAt_swap hi hj wf, objAt_swap hi hj wf, ← less_eq]
  valid_push _ _ wf hfresh := wf.push hfresh
  len_push _ _ := length_append
  less_push d keyValue a b wf hfresh ha hb := by
    change (d.push keyValue).less lessFunc.less a b = d.less lessFunc.less a b
    rw [less_eq, objAt_push wf hfresh ha, objAt_push wf hfresh hb, ← less_eq]
  valid_pop _ wf := wf.pop
  len_pop d := by
    change d.pop.2.queue.length = d.queue.length - 1
    rw [pop, getLast?_eq_getElem?]
    split
    · next hlast =>
        have := getElem?_eq_none_iff.mp hlast
        change d.queue.length = d.queue.length - 1
        omega
    · simp only
      split <;> exact length_dropLast
  less_pop d a b wf ha hb := by
    change d.pop.2.less lessFunc.less a b = d.less lessFunc.less a b
    rw [less_eq, objAt_pop wf ha, objAt_pop wf hb, ← less_eq]
  asymm d a b := by
    change d.less lessFunc.less a b = true → d.less lessFunc.less b a = false
    rw [less_eq, less_eq]
    cases d.objAt a <;> cases d.objAt b
    all_goals first | exact lessFunc.asymm _ _ | exact fun _ => rfl
  trans d a b c wf ha hb hc := by
    change d.less lessFunc.less b a = false → d.less lessFunc.less c b = false → d.less lessFunc.less c a = false
    obtain ⟨obja, hobja⟩ := wf.exists_at ha
    obtain ⟨objb, hobjb⟩ := wf.exists_at hb
    obtain ⟨objc, hobjc⟩ := wf.exists_at hc
    rw [less_eq, less_eq, less_eq, hobja, hobjb, hobjc]
    exact lessFunc.trans obja objb objc

def Ordered (d : HeapData α) : Prop := (heapInterface lessFunc.less).Ordered d d.queue.length

variable {lessFunc} {d : HeapData α}

/-- The heap has these objects at its `length` positions. -/
structure Holds (d : HeapData α) (length : Nat) (objs : GoMap String α) : Prop where
  wf : d.WellFormed
  length_eq : d.queue.length = length
  objs_eq : d.objs = objs

theorem Holds.swap {n : Nat} {objs : GoMap String α} (d : HeapData α) (i j : Nat) (hi : i < n) (hj : j < n)
    (h : d.Holds n objs) : (d.swap i j).Holds n objs := by
  rw [← h.length_eq] at hi hj
  exact ⟨h.wf.swap hi hj, (length_swap d i j).trans h.length_eq, (objs_swap hi hj h.wf).trans h.objs_eq⟩

theorem Holds.ordered {n : Nat} {objs : GoMap String α} (h : d.Holds n objs)
    (hord : (heapInterface lessFunc.less).Ordered d n) : d.Ordered lessFunc := by
  rw [Ordered, h.length_eq]
  exact hord

section Exchanged
variable {key : String} {item : HeapItem α} (hitem : d.items.lookup key = some item) (obj : α)

def exchange (d : HeapData α) (key : String) (item : HeapItem α) (obj : α) : HeapData α :=
  { d with items := d.items.insert key { item with obj } }

theorem objs_exchange : (d.exchange key item obj).objs = d.objs.insert key obj := by
  refine ext_lookup fun _ => ?_
  rw [objs, lookup_mapValues, exchange, lookup_insert_ite, lookup_insert_ite, objs, lookup_mapValues]
  split_ifs <;> rfl

include hitem

theorem WellFormed.exchange (wf : d.WellFormed) : (d.exchange key item obj).WellFormed := by
  intro key' i
  change d.queue[i]? = some key' ↔ _
  rw [wf key' i, HeapData.exchange, lookup_insert_ite]
  split_ifs with hkey
  · rw [hkey, hitem]
    simp
  · rfl

theorem objAt_exchange (wf : d.WellFormed) {i : Nat} (hi : i ≠ item.index) :
    (d.exchange key item obj).objAt i = d.objAt i := by
  rw [objAt, objAt, objs_exchange]
  change d.queue[i]?.bind _ = _
  cases hkey : d.queue[i]? with
  | none => rfl
  | some key' =>
    have hne : key' ≠ key := by
      rintro rfl
      exact hi (wf.index_eq hkey ((wf key' item.index).mpr ⟨item, hitem, rfl⟩))
    exact (lookup_insert_ite ..).trans (if_neg hne)

end Exchanged

theorem add_spec (wf : d.WellFormed) (hord : d.Ordered lessFunc) (key : String) (obj : α) :
    (d.add lessFunc.less key obj).WellFormed ∧ (d.add lessFunc.less key obj).Ordered lessFunc ∧
      (d.add lessFunc.less key obj).objs = d.objs.insert key obj := by
  rw [add]
  cases hitem : d.items.lookup key with
  | some item =>
    have hat := (wf key item.index).mpr ⟨item, hitem, rfl⟩
    have hidx := (List.getElem?_eq_some_iff.mp hat).1
    have held : (d.exchange key item obj).Holds d.queue.length (d.objs.insert key obj) :=
      ⟨wf.exchange hitem obj, rfl, objs_exchange obj⟩
    have hsame : ∀ a b, a < d.queue.length → b < d.queue.length → a ≠ item.index →
        b ≠ item.index → (d.exchange key item obj).less lessFunc.less a b = d.less lessFunc.less a b := by
      intro a b _ _ ha hb
      rw [less_eq, objAt_exchange hitem obj wf ha, objAt_exchange hitem obj wf hb, ← less_eq]
    obtain ⟨hkept, hfixed⟩ :=
      heapFix_ordered (lawful lessFunc) Holds.swap wf held.wf hord rfl hidx hsame held
    exact ⟨hkept.wf, hkept.ordered hfixed, hkept.objs_eq⟩
  | none =>
    have held : (d.push (key, obj)).Holds (d.queue.length + 1) (d.objs.insert key obj) :=
      ⟨wf.push hitem, length_append, objs_push (key, obj)⟩
    obtain ⟨hkept, hpushed⟩ :=
      heapPush_ordered (x := (key, obj)) (lawful lessFunc) Holds.swap wf hitem hord held
    exact ⟨hkept.wf, hkept.ordered hpushed, hkept.objs_eq⟩

structure LastIs (d : HeapData α) (n : Nat) (key : String) (objs : GoMap String α) : Prop
    extends d.Holds (n + 1) objs where
  last : d.queue[n]? = some key

variable {key : String} {objs : GoMap String α} {n : Nat}

theorem LastIs.swap (d : HeapData α) (i j : Nat) (hi : i < n) (hj : j < n) (h : d.LastIs n key objs) :
    (d.swap i j).LastIs n key objs := by
  refine ⟨Holds.swap d i j (by omega) (by omega) h.toHolds, ?_⟩
  rw [queue_swap (h.length_eq ▸ by omega) (h.length_eq ▸ by omega),
    Equiv.swap_apply_of_ne_of_ne (by omega) (by omega)]
  exact h.last

theorem LastIs.pop (h : d.LastIs n key objs) (hord : (heapInterface lessFunc.less).Ordered d n) :
    d.pop.1 = objs.lookup key ∧ d.pop.2.objs = objs.erase key ∧
      d.pop.2.WellFormed ∧ d.pop.2.Ordered lessFunc := by
  have hlen : d.queue.length - 1 = n := by
    rw [h.length_eq]
    rfl
  have hpop := h.wf.pop_eq (hlen ▸ h.last)
  refine ⟨?_, ?_, h.wf.pop, pop_ordered (lawful lessFunc) h.wf (hlen.symm ▸ hord)⟩
  · rw [hpop, ← h.objs_eq]
  · rw [hpop, ← h.objs_eq]
    exact objs_erase _ _ _

theorem lastIs_swap (wf : d.WellFormed) {i : Nat} (hi : d.queue[i]? = some key) :
    (d.swap i (d.queue.length - 1)).LastIs (d.queue.length - 1) key d.objs := by
  have hlt := (List.getElem?_eq_some_iff.mp hi).1
  have hend : d.queue.length - 1 < d.queue.length := by omega
  have held : d.Holds (d.queue.length - 1 + 1) d.objs := ⟨wf, by omega, rfl⟩
  refine ⟨Holds.swap d _ _ (by omega) (by omega) held, ?_⟩
  rw [queue_swap hlt hend, Equiv.swap_apply_right]
  exact hi

section
variable (wf : d.WellFormed) (hord : d.Ordered lessFunc)
include wf hord

theorem heapRemove_spec {i : Nat} (hat : d.queue[i]? = some key) :
    let result := (heapInterface lessFunc.less).heapRemove d i
    result.1 = d.objs.lookup key ∧ result.2.objs = d.objs.erase key ∧
      result.2.WellFormed ∧ result.2.Ordered lessFunc := by
  have hi := (List.getElem?_eq_some_iff.mp hat).1
  have hend : i = d.queue.length - 1 → d.LastIs (d.queue.length - 1) key d.objs := by
    rintro rfl
    exact ⟨⟨wf, by omega, rfl⟩, hat⟩
  obtain ⟨t, hrem, hlast, ht⟩ :=
    heapRemove_ordered (lawful lessFunc) LastIs.swap wf hord hi hend (lastIs_swap wf hat)
  intro result
  rw [show result = _ from hrem]
  exact hlast.pop ht

theorem heapPop_spec (hfirst : d.queue[0]? = some key) :
    let result := (heapInterface lessFunc.less).heapPop d
    result.1 = d.objs.lookup key ∧ result.2.objs = d.objs.erase key ∧
      result.2.WellFormed ∧ result.2.Ordered lessFunc := by
  intro result
  rcases heapPop_cases (h := heapInterface lessFunc.less) d with ⟨hone, hpop⟩ | hpop
  · have hlast := lastIs_swap wf hfirst
    rw [show d.queue.length - 1 = 0 from hone] at hlast
    rw [show result = _ from hpop]
    exact hlast.pop fun k _ hk => absurd hk (Nat.not_lt_zero k)
  · rw [show result = _ from hpop]
    exact heapRemove_spec wf hord hfirst

end
end HeapData

/-! ### The heap -/

inductive HeapError (α : Type) where
  | keyError (obj : α) (err : String)
  | message (text : String)
deriving DecidableEq

/-- A heap with its invariant: the objects are stored under their keys, and the keys are in order. -/
structure Heap {α : Type} (keyFunc : α → Except String String) (lessFunc : LessFunc α) where
  data : HeapData α
  wellFormed : data.WellFormed
  ordered : data.Ordered lessFunc
  keyed : ∀ key obj, data.objs.lookup key = some obj → keyFunc obj = .ok key

namespace Heap
variable {α : Type} {keyFunc : α → Except String String} {lessFunc : LessFunc α}

def objs (h : Heap keyFunc lessFunc) : GoMap String α := h.data.objs

def newHeap : Heap keyFunc lessFunc where
  data := {}
  wellFormed key i := by simp
  ordered k _ hk := absurd hk (Nat.not_lt_zero k)
  keyed key obj h := by
    rw [HeapData.lookup_objs] at h
    obtain ⟨item, hitem, -⟩ := h
    cases hitem

def add (h : Heap keyFunc lessFunc) (obj : α) : Except (HeapError α) (Heap keyFunc lessFunc) :=
  match hkey : keyFunc obj with
  | .error err => .error (.keyError obj err)
  | .ok key =>
    .ok
      { data := h.data.add lessFunc.less key obj
        wellFormed := (HeapData.add_spec h.wellFormed h.ordered key obj).1
        ordered := (HeapData.add_spec h.wellFormed h.ordered key obj).2.1
        keyed := by
          rw [(HeapData.add_spec h.wellFormed h.ordered key obj).2.2]
          exact GoMap.forall_insert h.keyed hkey }

def update (h : Heap keyFunc lessFunc) (obj : α) : Except (HeapError α) (Heap keyFunc lessFunc) := h.add obj

variable {key : String} {obj : α}

theorem keyed_erase (h : Heap keyFunc lessFunc) {d : HeapData α}
    (hobjs : d.objs = h.data.objs.erase key) (key' : String) (obj : α)
    (hobj : d.objs.lookup key' = some obj) : keyFunc obj = .ok key' := by
  rw [hobjs] at hobj
  exact h.keyed key' obj (GoMap.of_lookup_erase hobj).2

theorem at_index (h : Heap keyFunc lessFunc) {item : HeapItem α}
    (hitem : h.data.items.lookup key = some item) : h.data.queue[item.index]? = some key :=
  (h.wellFormed key item.index).mpr ⟨item, hitem, rfl⟩

def delete (h : Heap keyFunc lessFunc) (obj : α) : Except (HeapError α) (Heap keyFunc lessFunc) :=
  match keyFunc obj with
  | .error err => .error (.keyError obj err)
  | .ok key =>
    match hitem : h.data.items.lookup key with
    | some item =>
      have hspec := HeapData.heapRemove_spec h.wellFormed h.ordered (h.at_index hitem)
      .ok
        { data := ((HeapData.heapInterface lessFunc.less).heapRemove h.data item.index).2
          wellFormed := hspec.2.2.1
          ordered := hspec.2.2.2
          keyed := h.keyed_erase hspec.2.1 }
    | none => .error (.message "object not found")

def pop (h : Heap keyFunc lessFunc) : Except (HeapError α) (α × Heap keyFunc lessFunc) :=
  match hfirst : h.data.queue[0]? with
  | none => .error (.message "object was removed from heap data")
  | some _ =>
    have hspec := HeapData.heapPop_spec h.wellFormed h.ordered hfirst
    let result := (HeapData.heapInterface lessFunc.less).heapPop h.data
    match result.1 with
    | some obj =>
      .ok (obj,
        { data := result.2
          wellFormed := hspec.2.2.1
          ordered := hspec.2.2.2
          keyed := h.keyed_erase hspec.2.1 })
    | none => .error (.message "object was removed from heap data")

def getByKey (h : Heap keyFunc lessFunc) (key : String) : Option α :=
  (h.data.items.lookup key).map HeapItem.obj

def get (h : Heap keyFunc lessFunc) (obj : α) : Except (HeapError α) (Option α) :=
  match keyFunc obj with
  | .error err => .error (.keyError obj err)
  | .ok key => .ok (h.getByKey key)

/-! ### What the operations do to the objects -/

variable (h : Heap keyFunc lessFunc)
include h

theorem getByKey_eq (key : String) : h.getByKey key = h.objs.lookup key := (lookup_mapValues ..).symm

theorem add_eq (hkey : keyFunc obj = .ok key) : ∃ h', h.add obj = .ok h' ∧ h'.objs = h.objs.insert key obj := by
  rw [add]
  split
  · next heq => exact absurd (heq.symm.trans hkey) (by simp)
  · next heq =>
      cases heq.symm.trans hkey
      exact ⟨_, rfl, (HeapData.add_spec h.wellFormed h.ordered key obj).2.2⟩

theorem delete_eq (hkey : keyFunc obj = .ok key) : (∃ h', h.delete obj = .ok h' ∧ h'.objs = h.objs.erase key) ∨
      h.delete obj = .error (.message "object not found") ∧ h.objs.lookup key = none := by
  rw [delete, hkey]
  simp only
  split
  · next item hitem =>
      exact .inl ⟨_, rfl, (HeapData.heapRemove_spec h.wellFormed h.ordered (h.at_index hitem)).2.1⟩
  · next hitem => exact .inr ⟨rfl, by rw [← getByKey_eq, getByKey, hitem]; rfl⟩

theorem not_less_first {first : String} {obj' : α} (hfirst : h.data.queue[0]? = some first)
    (hobj : h.objs.lookup first = some obj) (hobj' : h.objs.lookup key = some obj') :
    lessFunc.less obj' obj = false := by
  obtain ⟨i, hi, hat⟩ := h.wellFormed.at_lookup hobj'
  have hless : h.data.less lessFunc.less i 0 = false :=
    HeapInterface.Ordered.first (HeapData.lawful lessFunc) h.wellFormed (Nat.le_refl _) h.ordered hi
  have hat₀ : h.data.objAt 0 = some obj := by
    rw [HeapData.objAt, hfirst]
    exact hobj
  rwa [HeapData.less_eq, hat, hat₀] at hless

theorem pop_eq (hne : h.data.queue ≠ []) :
    ∃ key obj h', h.pop = .ok (obj, h') ∧ h.objs.lookup key = some obj ∧ h'.objs = h.objs.erase key ∧
      ∀ key' obj', h.objs.lookup key' = some obj' → lessFunc.less obj' obj = false := by
  rw [pop]
  split
  · next hfirst => exact absurd (eq_nil_of_length_eq_zero (by simpa using hfirst)) hne
  · next first hfirst =>
      obtain ⟨obj, hobj, -⟩ := h.wellFormed.lookup_at hfirst
      have hspec := HeapData.heapPop_spec h.wellFormed h.ordered hfirst
      simp only
      split
      · next popped hpopped =>
          cases hobj.symm.trans (hspec.1.symm.trans hpopped)
          exact ⟨first, obj, _, rfl, hobj, hspec.2.1, fun _ _ => h.not_less_first hfirst hobj⟩
      · next hpopped => exact absurd (hobj.symm.trans (hspec.1.symm.trans hpopped)) (by simp)

theorem queue_eq_nil_iff : h.data.queue = [] ↔ ∀ key, h.objs.lookup key = none := by
  constructor
  · intro hnil key
    rw [eq_none_iff_forall_ne_some]
    intro obj hobj
    obtain ⟨i, hi, -⟩ := h.wellFormed.at_lookup hobj
    rw [hnil] at hi
    exact Nat.not_lt_zero i hi
  · intro hnone
    by_contra hne
    obtain ⟨key, obj, -, -, hobj, -⟩ := h.pop_eq hne
    rw [hnone key] at hobj
    cases hobj

end Heap
end LeanKube.Scheduler
