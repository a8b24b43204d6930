import LeanKube.GoMap

/-! A copy of a map that is brought up to date by comparing stamps. The values of the original carry
the number of the clock tick at which they were last written, in a type with finitely many stamps; as
long as the clock has not run through all stamps, equal stamps mean equal values. -/

namespace LeanKube
variable {K V T : Type} [DecidableEq K]

/-- The original `store` and its `copy` at the tick `clock`: every value carries the stamp of some
tick that has passed, and values of one key written at one tick are equal. -/
structure StampedCopy (stamp : V → T) (stampOf : Nat → T) (clock : Nat) (store copy : GoMap K V)
    (written copied : K → Nat) : Prop where
  store_stamp : ∀ key value, store.lookup key = some value → written key ≤ clock ∧ stamp value = stampOf (written key)
  copy_stamp : ∀ key value, copy.lookup key = some value → copied key ≤ clock ∧ stamp value = stampOf (copied key)
  agree : ∀ key value value', store.lookup key = some value → copy.lookup key = some value' →
    written key = copied key → value = value'

namespace StampedCopy
variable {stamp : V → T} {stampOf : Nat → T} {clock clock' : Nat} {store copy : GoMap K V}
  {written copied : K → Nat} (h : StampedCopy stamp stampOf clock store copy written copied)
include h

theorem tick (hclock : clock ≤ clock') : StampedCopy stamp stampOf clock' store copy written copied where
  store_stamp key value hval := by
    obtain ⟨hle, hstamp⟩ := h.store_stamp key value hval
    exact ⟨hle.trans hclock, hstamp⟩
  copy_stamp key value hval := by
    obtain ⟨hle, hstamp⟩ := h.copy_stamp key value hval
    exact ⟨hle.trans hclock, hstamp⟩
  agree := h.agree

theorem insert (hclock : clock < clock') {key : K} {value : V} (hstamp : stamp value = stampOf clock') :
    StampedCopy stamp stampOf clock' (store.insert key value) copy
      (fun key' => if key' = key then clock' else written key') copied where
  store_stamp key' value' hval' := by
    rw [GoMap.lookup_insert_ite] at hval'
    split_ifs at hval' ⊢ with hkey
    · cases hval'
      exact ⟨Nat.le_refl clock', hstamp⟩
    · exact (h.tick hclock.le).store_stamp key' value' hval'
  copy_stamp := (h.tick hclock.le).copy_stamp
  agree key' value' value'' hval' hval'' heq := by
    rw [GoMap.lookup_insert_ite] at hval'
    split_ifs at hval' heq
    · have hle := (h.copy_stamp key' value'' hval'').1
      omega
    · exact h.agree key' value' value'' hval' hval'' heq

theorem erase (hclock : clock ≤ clock') (key : K) :
    StampedCopy stamp stampOf clock' (store.erase key) copy written copied where
  store_stamp key' value' hval' := (h.tick hclock).store_stamp key' value' (GoMap.of_lookup_erase hval').2
  copy_stamp := (h.tick hclock).copy_stamp
  agree key' value' value'' hval' hval'' heq :=
    h.agree key' value' value'' (GoMap.of_lookup_erase hval').2 hval'' heq

theorem refresh : StampedCopy stamp stampOf clock store store written written where
  store_stamp := h.store_stamp
  copy_stamp := h.store_stamp
  agree _ value value' hval hval' _ := by
    rw [hval] at hval'
    exact Option.some.inj hval'

/-- **Equal stamps mean equal values** as long as the passed ticks have different stamps. -/
theorem eq_of_stamp (hinj : ∀ i ≤ clock, ∀ j ≤ clock, stampOf i = stampOf j → i = j) {key : K}
    {value value' : V} (hval : store.lookup key = some value)
    (hval' : copy.lookup key = some value') (hstamp : stamp value = stamp value') : value = value' := by
  obtain ⟨hle, hwr⟩ := h.store_stamp key value hval
  obtain ⟨hle', hcopied⟩ := h.copy_stamp key value' hval'
  refine h.agree key value value' hval hval' ?_
  exact hinj _ hle _ hle' (hwr.symm.trans (hstamp.trans hcopied))

end StampedCopy
end LeanKube
