import Mathlib.Logic.Equiv.Basic

/-! The heap operations of Go's `container/heap`, over any type that can compare, swap, push and
pop. They keep the order in which no element is less than its parent, so that no element is less
than the first one. -/

namespace LeanKube
open Equiv

/-- `heap.Interface`: a sequence of elements that are compared and swapped by position. `push` adds
an element at the end and `pop` removes the last one. -/
structure HeapInterface (σ ι ο : Type) where
  len : σ → Nat
  less : σ → Nat → Nat → Bool
  swap : σ → Nat → Nat → σ
  push : σ → ι → σ
  pop : σ → ο × σ

namespace HeapInterface
variable {σ ι ο : Type} (h : HeapInterface σ ι ο)

def parent (j : Nat) : Nat := (j - 1) / 2

def upLoop : Nat → σ → Nat → σ
  | 0, s, _ => s
  | turns + 1, s, j =>
    let i := parent j
    if i = j || !h.less s j i then s else upLoop turns (h.swap s i j) i

def up (s : σ) (j : Nat) : σ := h.upLoop (j + 1) s j

def downLoop (n : Nat) : Nat → σ → Nat → σ × Nat
  | 0, s, i => (s, i)
  | turns + 1, s, i =>
    let j1 := 2 * i + 1
    if j1 ≥ n then (s, i)
    else
      let j2 := j1 + 1
      let j := if j2 < n && h.less s j2 j1 then j2 else j1
      if !h.less s j i then (s, i) else downLoop n turns (h.swap s i j) j

variable (s : σ)

def down (i0 n : Nat) : σ × Bool :=
  let (s, i) := h.downLoop n n s i0
  (s, i > i0)

def heapPush (x : ι) : σ :=
  let s := h.push s x
  h.up s (h.len s - 1)

def heapPop : ο × σ :=
  let n := h.len s - 1
  h.pop (h.down (h.swap s 0 n) 0 n).1

def settle (i n : Nat) : σ :=
  let (s, moved) := h.down s i n
  if moved then s else h.up s i

def heapRemove (i : Nat) : ο × σ :=
  let n := h.len s - 1
  h.pop (if n ≠ i then h.settle (h.swap s i n) i n else s)

def heapFix (i : Nat) : σ := h.settle s i (h.len s)

/-- What the heap operations rely on, of the sequences that are `valid` and of the elements that may
be pushed to them: positions are swapped as a swap does, and "not less" is a total preorder. -/
structure Lawful (valid : σ → Prop) (fresh : σ → ι → Prop) : Prop where
  valid_swap : ∀ s i j, valid s → i < h.len s → j < h.len s → valid (h.swap s i j)
  len_swap : ∀ s i j, h.len (h.swap s i j) = h.len s
  less_swap : ∀ s i j a b, i < h.len s → j < h.len s → valid s →
    h.less (h.swap s i j) a b = h.less s (Equiv.swap i j a) (Equiv.swap i j b)
  valid_push : ∀ s x, valid s → fresh s x → valid (h.push s x)
  len_push : ∀ s x, h.len (h.push s x) = h.len s + 1
  less_push : ∀ s x a b, valid s → fresh s x → a < h.len s → b < h.len s → h.less (h.push s x) a b = h.less s a b
  valid_pop : ∀ s, valid s → valid (h.pop s).2
  len_pop : ∀ s, h.len (h.pop s).2 = h.len s - 1
  less_pop : ∀ s a b, valid s → a < h.len s - 1 → b < h.len s - 1 → h.less (h.pop s).2 a b = h.less s a b
  asymm : ∀ s a b, h.less s a b = true → h.less s b a = false
  trans : ∀ s a b c, valid s → a < h.len s → b < h.len s → c < h.len s →
    h.less s b a = false → h.less s c b = false → h.less s c a = false

/-! ### What swaps preserve -/

variable {j turns : Nat}

theorem parent_lt (hj : 0 < j) : parent j < j := by
  unfold parent
  omega

theorem parent_eq_self (hj : parent j = j) : j = 0 := by
  unfold parent at hj
  omega

theorem child_cases {k i : Nat} (hk : 0 < k) (hpar : parent k = i) : k = 2 * i + 1 ∨ k = 2 * i + 1 + 1 := by
  unfold parent at hpar
  omega

/-- What holds still when any two of the first `n` positions are swapped. -/
def SwapInvariant (n : Nat) (P : σ → Prop) : Prop := ∀ s i j, i < n → j < n → P s → P (h.swap s i j)

section Preserved
variable {h} {P : σ → Prop} {n : Nat} (hP : h.SwapInvariant n P)
include hP
variable {s : σ} {i : Nat}

theorem upLoop_preserves (turns : Nat) {j : Nat} (hj : j < n) (hs : P s) : P (h.upLoop turns s j) := by
  induction turns generalizing s j with
  | zero => exact hs
  | succ _ ih =>
    rw [upLoop]
    have hpar : parent j ≤ j := by unfold parent; omega
    split_ifs
    · exact hs
    · exact ih (by omega) (hP s _ _ (by omega) hj hs)

theorem downLoop_preserves (turns : Nat) (hi : i < n) (hs : P s) : P (h.downLoop n turns s i).1 := by
  induction turns generalizing s i with
  | zero => exact hs
  | succ _ ih =>
    rw [downLoop]
    simp only
    split_ifs with hlast hright hless hless
    · exact hs
    · exact hs
    · have hbound := of_decide_eq_true (Bool.and_eq_true_iff.mp hright).1
      exact ih hbound (hP s _ _ hi hbound hs)
    · exact hs
    · exact ih (by omega) (hP s _ _ hi (by omega) hs)

theorem up_preserves {j : Nat} (hj : j < n) (hs : P s) : P (h.up s j) := upLoop_preserves hP (j + 1) hj hs

theorem down_preserves (hi : i < n) (hs : P s) : P (h.down s i n).1 := downLoop_preserves hP n hi hs

theorem settle_preserves (hi : i < n) (hs : P s) : P (h.settle s i n) := by
  rw [settle]
  simp only
  split_ifs
  · exact down_preserves hP hi hs
  · exact up_preserves hP hi (down_preserves hP hi hs)

end Preserved

/-! ### Order -/

def Ordered (s : σ) (n : Nat) : Prop := ∀ k, 0 < k → k < n → h.less s k (parent k) = false

structure UpOrder (s : σ) (j n : Nat) : Prop where
  except : ∀ k, 0 < k → k < n → k ≠ j → h.less s k (parent k) = false
  grand : 0 < j → ∀ k, 0 < k → k < n → parent k = j → h.less s k (parent j) = false

/-- The order but for the element at `i`, which may be less than its parent or have children that
are less. -/
structure DownOrder (s : σ) (i n : Nat) : Prop where
  except : ∀ k, 0 < k → k < n → k ≠ i → parent k ≠ i → h.less s k (parent k) = false
  grand : 0 < i → ∀ k, 0 < k → k < n → parent k = i → h.less s k (parent i) = false

variable {h}

theorem UpOrder.ordered {s : σ} {n : Nat} (o : h.UpOrder s j n)
    (hj : 0 < j → h.less s j (parent j) = false) : h.Ordered s n := by
  intro k hk hkn
  by_cases hkj : k = j
  · subst hkj
    exact hj hk
  · exact o.except k hk hkn hkj

theorem DownOrder.upOrder {s : σ} {i n : Nat} (o : h.DownOrder s i n)
    (hbelow : ∀ k, 0 < k → k < n → parent k = i → h.less s k i = false) : h.UpOrder s i n where
  except k hk hkn hki := by
    by_cases hpi : parent k = i
    · exact hpi ▸ hbelow k hk hkn hpi
    · exact o.except k hk hkn hki hpi
  grand := o.grand

section Order
variable {valid : σ → Prop} {fresh : σ → ι → Prop} (law : h.Lawful valid fresh)
include law

theorem irrefl (s : σ) (a : Nat) : h.less s a a = false := by
  by_contra hless
  have htrue := Bool.not_eq_false _ ▸ hless
  exact hless (law.asymm s a a htrue)

variable {n j : Nat} {s s' : σ} {i : Nat}

section
variable (v : valid s) (hn : n ≤ h.len s)
include v hn

theorem UpOrder.move (o : h.UpOrder s j n) (hj : 0 < j) (hjn : j < n)
    (hless : h.less s j (parent j) = true) : h.UpOrder (h.swap s (parent j) j) (parent j) n := by
  have hlt := parent_lt hj
  have hswap : ∀ a b, h.less (h.swap s (parent j) j) a b =
      h.less s (Equiv.swap (parent j) j a) (Equiv.swap (parent j) j b) := fun a b =>
    law.less_swap s _ _ a b (by omega) (by omega) v
  have hfix : ∀ {a}, a ≠ parent j → a ≠ j → Equiv.swap (parent j) j a = a := fun h₁ h₂ =>
    swap_apply_of_ne_of_ne h₁ h₂
  have hback := law.asymm s _ _ hless
  -- an element that is not less than the parent of `j` is not less than `j` either
  have hsibling : ∀ k, k < n → h.less s k (parent j) = false → h.less s k j = false :=
    fun k hkn hk => law.trans s j (parent j) k v (by omega) (by omega) (by omega) hback hk
  constructor
  · intro k hk hkn hki
    rw [hswap]
    by_cases hkj : k = j
    · subst hkj
      rw [swap_apply_right, swap_apply_left]
      exact hback
    · rw [hfix hki hkj]
      by_cases hpj : parent k = j
      · rw [hpj, swap_apply_right]
        exact o.grand hj k hk hkn hpj
      · by_cases hpi : parent k = parent j
        · rw [hpi, swap_apply_left]
          exact hsibling k hkn (hpi ▸ o.except k hk hkn hkj)
        · rw [hfix hpi hpj]
          exact o.except k hk hkn hkj
  · intro hi k hk hkn hki
    have hgrand := parent_lt hi
    have hpar := o.except (parent j) hi (by omega) (by omega)
    rw [hswap, hfix (a := parent (parent j)) (by omega) (by omega)]
    by_cases hkj : k = j
    · subst hkj
      rw [swap_apply_right]
      exact hpar
    · have hchild := parent_lt hk
      rw [hfix (by omega) hkj]
      exact law.trans s _ _ _ v (by omega) (by omega) (by omega) hpar (hki ▸ o.except k hk hkn hkj)

theorem upLoop_ordered (hturns : j < turns) (o : h.UpOrder s j n) (hjn : j < n) : h.Ordered (h.upLoop turns s j) n := by
  induction turns generalizing s j with
  | zero => omega
  | succ _ ih =>
    rw [upLoop]
    split_ifs with hstop
    · refine o.ordered fun hj => ?_
      rcases Bool.or_eq_true_iff.mp hstop with hself | hless
      · have := parent_eq_self (of_decide_eq_true hself)
        omega
      · exact (Bool.not_eq_true' _).mp hless
    · rw [Bool.or_eq_true, not_or] at hstop
      have hj : 0 < j := by
        refine Nat.pos_of_ne_zero fun hzero => hstop.1 (decide_eq_true ?_)
        subst hzero
        rfl
      have hlt := parent_lt hj
      have hless : h.less s j (parent j) = true := by
        simpa using hstop.2
      refine ih (law.valid_swap s _ _ v (by omega) (by omega)) ?_ (by omega)
        (UpOrder.move law v hn o hj hjn hless) (by omega)
      rwa [law.len_swap]

theorem up_ordered (o : h.UpOrder s j n) (hjn : j < n) : h.Ordered (h.up s j) n :=
  upLoop_ordered law v hn (Nat.lt_succ_self j) o hjn

theorem DownOrder.move (o : h.DownOrder s i n) (hj : 0 < j) (hpar : parent j = i)
    (hjn : j < n) (hless : h.less s j i = true) (hleast : ∀ k, 0 < k → k < n → parent k = i → h.less s k j = false) :
    h.DownOrder (h.swap s i j) j n ∧ h.less (h.swap s i j) j (parent j) = false := by
  have hlt : i < j := hpar ▸ parent_lt hj
  have hswap : ∀ a b, h.less (h.swap s i j) a b = h.less s (Equiv.swap i j a) (Equiv.swap i j b) := fun a b =>
    law.less_swap s _ _ a b (by omega) (by omega) v
  have hfix : ∀ {a}, a ≠ i → a ≠ j → Equiv.swap i j a = a := fun h₁ h₂ => swap_apply_of_ne_of_ne h₁ h₂
  refine ⟨⟨?_, ?_⟩, ?_⟩
  · intro k hk hkn hkj hpj
    have hchild := parent_lt hk
    rw [hswap]
    by_cases hki : k = i
    · subst hki
      rw [swap_apply_left, hfix (by omega) hpj]
      exact o.grand hk j hj hjn hpar
    · rw [hfix hki hkj]
      by_cases hpi : parent k = i
      · rw [hpi, swap_apply_left]
        exact hleast k hk hkn hpi
      · rw [hfix hpi hpj]
        exact o.except k hk hkn hki hpi
  · intro _ k hk hkn hkj
    have hchild := parent_lt hk
    rw [hswap, hpar, Equiv.swap_apply_left, hfix (by omega) (by omega)]
    exact hkj ▸ o.except k hk hkn (by omega) (by omega)
  · rw [hswap, hpar, swap_apply_right, swap_apply_left]
    exact law.asymm s _ _ hless

theorem downLoop_turn (turns : Nat) (o : h.DownOrder s i n) :
    h.downLoop n (turns + 1) s i = (s, i) ∧ h.UpOrder s i n ∨
    ∃ j, i < j ∧ j < n ∧ h.downLoop n (turns + 1) s i = h.downLoop n turns (h.swap s i j) j ∧
      valid (h.swap s i j) ∧ h.DownOrder (h.swap s i j) j n ∧ h.less (h.swap s i j) j (parent j) = false := by
  rw [downLoop]
  simp only
  by_cases hlast : 2 * i + 1 ≥ n
  · refine .inl ⟨if_pos hlast, o.upOrder fun k hk hkn hpar => ?_⟩
    have := child_cases hk hpar
    omega
  · rw [if_neg hlast]
    generalize hj : (if (2 * i + 1 + 1 < n && h.less s (2 * i + 1 + 1) (2 * i + 1)) = true
      then 2 * i + 1 + 1 else 2 * i + 1) = j
    have hchild : 0 < j ∧ parent j = i ∧ j < n := by
      rw [← hj]
      unfold parent
      split_ifs with hright
      · have := of_decide_eq_true (Bool.and_eq_true_iff.mp hright).1
        omega
      · omega
    have hleast : ∀ k, 0 < k → k < n → parent k = i → h.less s k j = false := by
      intro k hk hkn hpar
      rw [← hj]
      split_ifs with hright
      · obtain ⟨_, hless⟩ := Bool.and_eq_true_iff.mp hright
        rcases child_cases hk hpar with rfl | rfl
        · exact law.asymm s _ _ hless
        · exact irrefl law s _
      · rcases child_cases hk hpar with rfl | rfl
        · exact irrefl law s _
        · by_contra hless
          exact hright (Bool.and_eq_true_iff.mpr ⟨decide_eq_true hkn, Bool.not_eq_false _ ▸ hless⟩)
    cases hless : h.less s j i with
    | false =>
      refine .inl ⟨rfl, o.upOrder fun k hk hkn hpar => ?_⟩
      exact law.trans s _ _ _ v (by omega) (by omega) (by omega) hless (hleast k hk hkn hpar)
    | true =>
      have hlt : i < j := hchild.2.1 ▸ parent_lt hchild.1
      exact .inr ⟨j, hlt, hchild.2.2, rfl, law.valid_swap s _ _ v (by omega) (by omega),
        DownOrder.move law v hn o hchild.1 hchild.2.1 hchild.2.2 hless hleast⟩

theorem downLoop_ordered (hturns : n ≤ turns + i) (o : h.DownOrder s i n)
    (hi : 0 < i → h.less s i (parent i) = false) (hin : i < n) :
    h.Ordered (h.downLoop n turns s i).1 n ∧ i ≤ (h.downLoop n turns s i).2 := by
  induction turns generalizing s i with
  | zero => omega
  | succ turns ih =>
    rcases downLoop_turn law v hn turns o with ⟨hstop, hup⟩ | ⟨j, _, hjn, hgo, v', hdown, hj⟩
    · rw [hstop]
      exact ⟨hup.ordered hi, Nat.le_refl i⟩
    · rw [hgo]
      have hlen : n ≤ h.len (h.swap s i j) := by rwa [law.len_swap]
      obtain ⟨hord, _⟩ := ih v' hlen (by omega) hdown (fun _ => hj) hjn
      exact ⟨hord, by omega⟩

section
variable (o : h.DownOrder s i n) (hin : i < n)
include o hin

theorem down_cases :
    h.down s i n = (s, false) ∧ h.UpOrder s i n ∨ (h.down s i n).2 = true ∧ h.Ordered (h.down s i n).1 n := by
  obtain ⟨turns, rfl⟩ : ∃ turns, n = turns + 1 := ⟨n - 1, by omega⟩
  rw [down]
  rcases downLoop_turn law v hn turns o with ⟨hstop, hup⟩ | ⟨j, hij, hjn, hgo, v', hdown, hj⟩
  · refine .inl ⟨?_, hup⟩
    rw [hstop]
    simp
  · have hlen : turns + 1 ≤ h.len (h.swap s i j) := by rwa [law.len_swap]
    have hturns : turns + 1 ≤ turns + j := by omega
    obtain ⟨hord, hle⟩ := downLoop_ordered law v' hlen hturns hdown (fun _ => hj) hjn
    rw [hgo]
    exact .inr ⟨decide_eq_true (Nat.lt_of_lt_of_le hij hle), hord⟩

theorem settle_ordered : h.Ordered (h.settle s i n) n := by
  rw [settle]
  rcases down_cases law v hn o hin with ⟨hstay, hup⟩ | ⟨hmoved, hord⟩
  · rw [hstay]
    exact up_ordered law v hn hup hin
  · simp only [hmoved, if_true]
    exact hord

end

/-! ### The operations -/

theorem Ordered.first (o : h.Ordered s n) {k : Nat} (hk : k < n) : h.less s k 0 = false := by
  induction k using Nat.strongRecOn with
  | ind k ih =>
    rcases Nat.eq_zero_or_pos k with rfl | hpos
    · exact irrefl law s 0
    · have hlt := parent_lt hpos
      exact law.trans s _ _ _ v (by omega) (by omega) (by omega) (ih (parent k) hlt (by omega)) (o k hpos hk)

theorem downOrder_of_changed (o : h.Ordered s n) (hi : i < n)
    (hsame : ∀ a b, a < n → b < n → a ≠ i → b ≠ i → h.less s' a b = h.less s a b) : h.DownOrder s' i n := by
  constructor
  · intro k hk hkn hki hpi
    have hlt := parent_lt hk
    rw [hsame k _ hkn (by omega) hki hpi]
    exact o k hk hkn
  · intro hpos k hk hkn hki
    have hlt := parent_lt hk
    have hlt' := parent_lt hpos
    rw [hsame k _ hkn (by omega) (by omega) (by omega)]
    exact law.trans s _ _ _ v (by omega) (by omega) (by omega) (o i hpos hi) (hki ▸ o k hk hkn)

end

/-! An operation restores the order and keeps what swaps keep. -/

section
variable {P : σ → Prop}

theorem heapPush_ordered {x : ι} (hP : h.SwapInvariant (h.len s + 1) P) (v : valid s) (hfresh : fresh s x)
    (o : h.Ordered s (h.len s)) (hs : P (h.push s x)) :
    P (h.heapPush s x) ∧ h.Ordered (h.heapPush s x) (h.len s + 1) := by
  have hlen := law.len_push s x
  have hup : h.UpOrder (h.push s x) (h.len s) (h.len s + 1) := by
    constructor
    · intro k hk hkn hne
      have hlt := parent_lt hk
      rw [law.less_push s x _ _ v hfresh (by omega) (by omega)]
      exact o k hk (by omega)
    · intro _ k hk hkn hpar
      have hlt := parent_lt hk
      omega
  have hpush : h.heapPush s x = h.up (h.push s x) (h.len s) := by
    rw [heapPush]
    simp only [hlen, Nat.add_sub_cancel]
  have hlast := Nat.lt_succ_self (h.len s)
  rw [hpush]
  exact ⟨up_preserves hP hlast hs,
    up_ordered law (law.valid_push s x v hfresh) (Nat.le_of_eq hlen.symm) hup hlast⟩

theorem heapFix_ordered (hP : h.SwapInvariant (h.len s) P) (v : valid s) (v' : valid s') (o : h.Ordered s (h.len s))
    (hlen : h.len s' = h.len s) (hi : i < h.len s)
    (hsame : ∀ a b, a < h.len s → b < h.len s → a ≠ i → b ≠ i → h.less s' a b = h.less s a b) (hs : P s') :
    P (h.heapFix s' i) ∧ h.Ordered (h.heapFix s' i) (h.len s) := by
  rw [heapFix, hlen]
  exact ⟨settle_preserves hP hi hs,
    settle_ordered law v' (Nat.le_of_eq hlen.symm) (downOrder_of_changed law v (Nat.le_refl _) o hi hsame) hi⟩

theorem heapRemove_ordered (hP : h.SwapInvariant (h.len s - 1) P) (v : valid s) (o : h.Ordered s (h.len s))
    (hi : i < h.len s) (hlast : i = h.len s - 1 → P s) (hs : P (h.swap s i (h.len s - 1))) :
    ∃ t, h.heapRemove s i = h.pop t ∧ P t ∧ h.Ordered t (h.len s - 1) := by
  refine ⟨_, rfl, ?_⟩
  by_cases hend : h.len s - 1 = i
  · rw [if_neg (not_not_intro hend)]
    exact ⟨hlast hend.symm, fun k hk _ => o k hk (by omega)⟩
  · rw [if_pos hend]
    have hlt : i < h.len s - 1 := by omega
    have hlen := law.len_swap s i (h.len s - 1)
    have v' := law.valid_swap s i (h.len s - 1) v hi (by omega)
    have hdown : h.DownOrder (h.swap s i (h.len s - 1)) i (h.len s - 1) := by
      refine downOrder_of_changed law v (Nat.sub_le _ _) (fun k hk _ => o k hk (by omega)) hlt ?_
      intro a b ha hb hai hbi
      rw [law.less_swap s _ _ a b (by omega) (by omega) v,
        swap_apply_of_ne_of_ne hai (by omega), swap_apply_of_ne_of_ne hbi (by omega)]
    exact ⟨settle_preserves hP hlt hs, settle_ordered law v' (by omega) hdown hlt⟩

end

theorem pop_ordered (v : valid s) (o : h.Ordered s (h.len s - 1)) : h.Ordered (h.pop s).2 (h.len (h.pop s).2) := by
  intro k hk hkn
  have hlt := parent_lt hk
  rw [law.len_pop] at hkn
  rw [law.less_pop s _ _ v hkn (by omega)]
  exact o k hk hkn

end Order

/-- Removing the first element is popping it: `up` leaves the first position alone. -/
theorem heapPop_cases (s : σ) :
    h.len s - 1 = 0 ∧ h.heapPop s = h.pop (h.swap s 0 0) ∨ h.heapPop s = h.heapRemove s 0 := by
  rw [heapPop, heapRemove]
  by_cases hzero : h.len s - 1 = 0
  · rw [hzero]
    exact .inl ⟨rfl, rfl⟩
  · refine .inr (congrArg h.pop ?_)
    rw [if_pos hzero, settle]
    simp only
    split_ifs <;> rfl

end HeapInterface
end LeanKube
