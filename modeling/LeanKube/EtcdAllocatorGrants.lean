import LeanKube.EtcdAllocator

/-! Runs of allocators that share one stored bitmap. Once an offset was returned by a write, the allocators
that have the version of that write, or a later one, have the offset allocated, until a `Release` of it
is called: they reload the bitmap before they can take an offset. An offset that was returned without a
write does not change the version, and the allocators that have the stored version do not reload it. -/

namespace LeanKube.EtcdAllocator
open Allocator BitSets BigEndian Client Option Etcd RangeAllocation
variable {x : Nat} {stored : RangeAllocation} {e : Etcd} {client : Client} {event : Event}

/-! ### Steps of one allocator -/

inductive Client.Steps (stored : RangeAllocation) (e : Etcd) :
    Point → Event → RangeAllocation × Client × Option Return → Prop where
  | begin (op : Op) (rand : Nat) : Steps stored e .idle (.call op rand) (stored, e.begin rand op)
  | read (call : Call) (rand : Nat) : Steps stored e (.reading call) (.read rand) (stored, e.pass call rand stored)
  | conflict (call : Call) {updated : RangeAllocation} (version rand : Nat) :
      updated.resourceVersion ≠ stored.resourceVersion →
      Steps stored e (.committing call updated) (.commit version rand) (stored, e.pass call rand stored)
  | fails {point : Point} {call : Call} (event : Event) : point.call = some call →
      Steps stored e point event (stored, ⟨e, .idle⟩, some (call.finish (some .storage)))
  | writes (call : Call) {updated : RangeAllocation} {version : Nat} (event : Event) (err : Option AllocatorError) :
      updated.resourceVersion = stored.resourceVersion → stored.resourceVersion < version →
      Steps stored e (.committing call updated) event
        ({ updated with resourceVersion := version }, ⟨e, .idle⟩, some (call.finish err))

theorem Client.steps (h : client.enabled stored event = true) :
    Steps stored client.etcd client.point event (client.step stored event) := by
  obtain ⟨e, point⟩ := client
  cases event with
  | call op rand =>
    cases point with
    | idle => exact .begin op rand
    | reading | committing => cases h
  | read rand =>
    cases point with
    | reading call => exact .read call rand
    | idle | committing => cases h
  | readFails =>
    cases point with
    | reading => exact .fails _ rfl
    | idle | committing => cases h
  | commitFails =>
    cases point with
    | committing => exact .fails _ rfl
    | idle | reading => cases h
  | commit version rand =>
    cases point with
    | idle | reading => cases h
    | committing call updated =>
      have hlt : stored.resourceVersion < version := of_decide_eq_true h
      simp only [step]
      split_ifs with hsame
      · exact .writes call _ none hsame hlt
      · exact .conflict call version rand hsame
  | commitLost version =>
    cases point with
    | idle | reading => cases h
    | committing call updated =>
      have hlt : stored.resourceVersion < version := of_decide_eq_true h
      simp only [step]
      split_ifs with hsame
      · exact .writes call _ _ hsame hlt
      · exact .fails _ rfl

theorem Client.Consistent.mono {stored' : RangeAllocation} (h : client.Consistent stored)
    (hle : stored.resourceVersion ≤ stored'.resourceVersion) : client.Consistent stored' :=
  ⟨h.last_le.trans hle, h.taken_mem, h.committing⟩

theorem Client.Consistent.taken_of_call (h : client.Consistent stored) {call : Call}
    (hcall : client.point.call = some call) (offset : Nat) (hoff : call.taken = some offset) :
    offset ∈ client.etcd.set := by
  apply h.taken_mem
  rw [Point.taken, hcall, bind_some, hoff]

variable {point : Point} {result : RangeAllocation × Client × Option Return}

theorem Client.Steps.stored_eq_or (h : Steps stored e point event result) :
    result.1 = stored ∨ stored.resourceVersion < result.1.resourceVersion := by
  cases h with
  | begin | read | conflict | fails => exact .inl rfl
  | writes _ _ _ _ hlt => exact .inr hlt

theorem Client.Steps.consistent (h : Steps stored e point event result) (hc : Client.Consistent stored ⟨e, point⟩) :
    result.2.1.Consistent result.1 := by
  cases h with
  | begin op => exact begin_consistent hc.last_le op
  | read | conflict => exact pass_consistent hc.last_le (hc.taken_of_call rfl)
  | fails => exact consistent_idle hc.last_le
  | writes _ _ _ _ hlt => exact consistent_idle (hc.last_le.trans hlt.le)

section Sees
variable (h : Client.Steps stored e point event result) (hc : Client.Consistent stored ⟨e, point⟩)
  (hx : x ∈ stored.set) (hsees : e.last = stored.resourceVersion → Client.Sees ⟨e, point⟩ x)
  (hbefore : point.call ≠ some (.release x))
include h hc hx hsees hbefore

theorem Client.Steps.sees : result.2.2.bind Return.granted ≠ some x ∧
    (result.2.1.point.call ≠ some (.release x) →
      x ∈ result.1.set ∧ (result.2.1.etcd.last = result.1.resourceVersion → result.2.1.Sees x)) := by
  cases h with
  | begin op rand =>
    obtain ⟨hlast, hgranted, -⟩ := e.begin_cases rand op
    rw [hgranted]
    refine ⟨(some_ne_none x).symm, fun hafter => ⟨hx, fun hcur => ?_⟩⟩
    exact begin_sees (sees_iff.mp (hsees (hlast.symm.trans hcur))).1 hafter
  | read call rand =>
    have hpass := pass_sees hx (fun heq => hbefore (congrArg some heq)) (fun hcur => sees_iff.mp (hsees hcur.symm)) rand
    exact ⟨hpass.2, fun _ => ⟨hx, hpass.1⟩⟩
  | conflict call _ rand hne =>
    -- The version that was read is the one that the allocator saw last, and it is not the stored one.
    have hpass := pass_sees hx (fun heq => hbefore (congrArg some heq))
      (fun hcur => absurd ((hc.committing _ _ rfl).1.trans hcur.symm) hne) rand
    exact ⟨hpass.2, fun _ => ⟨hx, hpass.1⟩⟩
  | fails =>
    refine ⟨fun hgr => (nomatch (Call.granted_finish hgr).2), fun _ => ⟨hx, fun hlast => ?_⟩⟩
    exact ⟨(hsees hlast).1, (some_ne_none x).symm⟩
  | @writes call updated version event err hsame hlt =>
    obtain ⟨hver, hset⟩ := hc.committing _ _ rfl
    have hwriting := sees_iff.mp (hsees (hver.symm.trans hsame))
    refine ⟨fun hgr => hwriting.2 (Call.granted_finish hgr).1, fun _ => ⟨hset ▸ hwriting.1, fun hcur => ?_⟩⟩
    have hle : e.last ≤ stored.resourceVersion := hc.last_le
    rw [show e.last = version from hcur] at hle
    exact absurd hle (not_le.mpr hlt)

end Sees

section
variable (h : Steps stored e point event result) (hc : Client.Consistent stored ⟨e, point⟩)
include h hc

theorem Client.Steps.granted (hgr : result.2.2.bind Return.granted = some x) : x ∈ result.1.set ∧
      (stored.resourceVersion < result.1.resourceVersion ∨
        (∃ rand, event = .read rand) ∧ result.1 = stored ∧ e.last = stored.resourceVersion ∧
          point.taken = some x ∧ e.alloc.snapshot = (stored.range, stored.data) ∧ result.2.1.Sees x) := by
  cases h with
  | begin op rand =>
    rw [(e.begin_cases rand op).2.1] at hgr
    cases hgr
  | read _ rand =>
    obtain ⟨hcur, htaken, hsnapshot, hmem, hsees⟩ := pass_granted (hc.taken_of_call rfl) hgr
    exact ⟨hmem, .inr ⟨⟨rand, rfl⟩, rfl, hcur.symm, htaken, hsnapshot, hsees⟩⟩
  | conflict _ _ _ hne =>
    obtain ⟨hcur, -⟩ := pass_granted (hc.taken_of_call rfl) hgr
    exact absurd ((hc.committing _ _ rfl).1.trans hcur.symm) hne
  | fails => exact nomatch (Call.granted_finish hgr).2
  | @writes call updated version event err hsame hlt =>
    refine ⟨?_, .inl hlt⟩
    rw [(hc.committing _ _ rfl).2]
    exact hc.taken_of_call rfl x (Call.granted_finish hgr).1

theorem Client.Steps.last_le : result.2.1.etcd.last ≤ stored.resourceVersion := by
  cases h with
  | begin op rand => exact (e.begin_cases rand op).1.le.trans hc.last_le
  | read | conflict => exact (pass_consistent hc.last_le (hc.taken_of_call rfl)).last_le
  | fails | writes => exact hc.last_le

end

/-! ### Runs -/

namespace World
variable {ι : Type} [DecidableEq ι] {w w' : World ι} {label : ι × Event}

def allocators (ι : Type) [DecidableEq ι] : System (World ι) (ι × Event) := .ofFun Enabled next

/-- The steps under the condition. -/
def soundAllocators (ι : Type) [DecidableEq ι] : System (World ι) (ι × Event) :=
  .ofFun (fun w label => w.Enabled label ∧ w.Sound label) next

def Consistent (w : World ι) : Prop := ∀ i, (w.clients i).Consistent w.stored

theorem next_clients (w : World ι) (label : ι × Event) (j : ι) : (w.next label).clients j =
    if j = label.1 then ((w.clients label.1).step w.stored label.2).2.1 else w.clients j := by
  rw [next]
  simp only [Function.update_apply]

theorem stored_le (h : w.Enabled label) : w.stored.resourceVersion ≤ (w.next label).stored.resourceVersion := by
  rcases (steps h).stored_eq_or with heq | hlt
  · exact le_of_eq (congrArg resourceVersion heq.symm)
  · exact hlt.le

theorem Consistent.next (hc : w.Consistent) (h : w.Enabled label) : (w.next label).Consistent := by
  intro j
  rw [next_clients]
  split_ifs with hj
  · exact (steps h).consistent (hc label.1)
  · exact (hc j).mono (stored_le h)

omit [DecidableEq ι] in
theorem Initial.consistent (h : w.Initial) : w.Consistent := by
  intro i
  obtain ⟨hpoint, hlast⟩ := h i
  have hclient : w.clients i = ⟨(w.clients i).etcd, .idle⟩ := by rw [← hpoint]
  rw [hclient]
  exact consistent_idle (hlast ▸ Nat.zero_le _)

/-- The offset is stored as allocated, and so it is for every allocator that has the stored version. -/
structure Held (x : Nat) (w : World ι) : Prop where
  stored : x ∈ w.stored.set
  sees : ∀ i, (w.clients i).etcd.last = w.stored.resourceVersion → (w.clients i).Sees x

omit [DecidableEq ι] in
theorem Held.granted_ne (hheld : w.Held x) (hc : w.Consistent) (h : w.Enabled label) (hbefore : ¬ w.Releasing x) :
    w.granted label ≠ some x :=
  ((steps h).sees (hc label.1) hheld.stored (hheld.sees label.1) fun hcall => hbefore ⟨label.1, hcall⟩).1

theorem Held.next (hheld : w.Held x) (hc : w.Consistent) (h : w.Enabled label) (hbefore : ¬ w.Releasing x)
    (hafter : ¬ (w.next label).Releasing x) : (w.next label).Held x := by
  have hnext : ((w.next label).clients label.1) = ((w.clients label.1).step w.stored label.2).2.1 := by
    rw [next_clients, if_pos rfl]
  obtain ⟨hstored, hsees⟩ := ((steps h).sees (hc label.1) hheld.stored (hheld.sees label.1)
    fun hcall => hbefore ⟨label.1, hcall⟩).2 fun hcall => hafter ⟨label.1, by rw [hnext, hcall]⟩
  refine ⟨hstored, fun j hlast => ?_⟩
  rw [next_clients] at hlast ⊢
  split_ifs at hlast ⊢ with hj
  · exact hsees hlast
  · rcases (steps h).stored_eq_or with heq | hlt
    · exact hheld.sees j (hlast.trans (congrArg resourceVersion heq))
    · exact absurd (hlast.symm.le.trans (hc j).last_le) (not_le.mpr hlt)

theorem held_of_granted (hc : w.Consistent) (h : w.Enabled label) (hsound : w.Sound label)
    (hgr : w.granted label = some x) : (w.next label).Held x := by
  obtain ⟨hstored, hcases⟩ := (steps h).granted (hc label.1) hgr
  refine ⟨hstored, fun j hlast => ?_⟩
  rw [next_clients] at hlast ⊢
  rcases hcases with hlt | ⟨⟨_, hevent⟩, heq, hcur, htaken, hsnapshot, hsees⟩
  · -- No allocator has the version of the write.
    have hle : (if j = label.1 then ((w.clients label.1).step w.stored label.2).2.1 else w.clients j).etcd.last ≤
        w.stored.resourceVersion := by
      split_ifs with hj
      · exact (steps h).last_le (hc label.1)
      · exact (hc j).last_le
    exact absurd (hlast.symm.le.trans hle) (not_le.mpr hlt)
  · split_ifs at hlast ⊢ with hj
    · exact hsees
    · obtain ⟨i, _⟩ := label
      subst hevent
      exact hsound x htaken hcur hsnapshot j hj (hlast.trans (congrArg resourceVersion heq))

theorem soundAllocators_step (h : (soundAllocators ι).step w label w') :
    w.Enabled label ∧ w.Sound label ∧ w' = w.next label := ⟨h.1.1, h.1.2, h.2⟩

variable {labels : List (ι × Event)}

theorem Consistent.run (hc : w.Consistent) (hrun : (soundAllocators ι).Run w labels w') : w'.Consistent := by
  refine hrun.invariant Consistent (fun s _ t hstep hs => ?_) hc
  obtain ⟨hen, -, rfl⟩ := soundAllocators_step hstep
  exact hs.next hen

theorem Held.run (hheld : w.Held x) (hc : w.Consistent) (hrun : (soundAllocators ι).Run w labels w') :
    (soundAllocators ι).Visits (Releasing x) w labels w' ∨ w'.Held x := by
  induction hrun with
  | nil => exact .inr hheld
  | @snoc t u labels label hrun hstep ih =>
    rcases ih with hvis | hheldt
    · exact .inl (hvis.snoc hstep)
    · by_cases hbefore : t.Releasing x
      · exact .inl ((hrun.visits_last hbefore).snoc hstep)
      · by_cases hafter : u.Releasing x
        · exact .inl ((hrun.snoc hstep).visits_last hafter)
        · obtain ⟨hen, -, rfl⟩ := soundAllocators_step hstep
          exact .inr (hheldt.next (hc.run hrun) hen hbefore hafter)

/-- **No double allocation, under the condition.** In every run of allocators that share a store, in which
no call succeeds without a write while another allocator that has the stored version sees its offset as
free, an offset that was returned is returned again only after a `Release` of it was called: one is being
called at some moment in between. -/
theorem no_double_allocation {w₀ w₁ w₂ w₃ w₄ : World ι} {first second : List (ι × Event)} {label label' : ι × Event}
    (hinit : w₀.Initial) (hfirst : (soundAllocators ι).Run w₀ first w₁)
    (hstep : (soundAllocators ι).step w₁ label w₂) (hgranted : w₁.granted label = some x)
    (hsecond : (soundAllocators ι).Run w₂ second w₃) (hstep' : (soundAllocators ι).step w₃ label' w₄)
    (hgranted' : w₃.granted label' = some x) : (soundAllocators ι).Visits (Releasing x) w₂ second w₃ := by
  obtain ⟨henabled, hsound, rfl⟩ := soundAllocators_step hstep
  have hc₁ : w₁.Consistent := hinit.consistent.run hfirst
  have hc₂ := hc₁.next henabled
  rcases (held_of_granted hc₁ henabled hsound hgranted).run hc₂ hsecond with hvisits | hheld
  · exact hvisits
  · by_cases hreleasing : w₃.Releasing x
    · exact hsecond.visits_last hreleasing
    · exact absurd hgranted' (hheld.granted_ne (hc₂.run hsecond) (soundAllocators_step hstep').1 hreleasing)

/-! ### Runs of two allocators -/

instance enabledDecidable (w : World ι) (label : ι × Event) : Decidable (w.Enabled label) :=
  inferInstanceAs (Decidable (_ = true))

instance seesDecidable (client : Client) (offset : Nat) : Decidable (client.Sees offset) :=
  inferInstanceAs (Decidable (_ ∧ _))

instance soundDecidable [Fintype ι] (w : World ι) (label : ι × Event) : Decidable (w.Sound label) := by
  obtain ⟨_, event⟩ := label
  cases event <;> dsimp only [Sound] <;> infer_instance

def twoAllocators : World Bool where
  stored := ⟨1, "10.0.0.0/28", []⟩
  clients _ := ⟨⟨.newAllocationMap 14 "10.0.0.0/28", 0⟩, .idle⟩

theorem twoAllocators_initial : twoAllocators.Initial := fun _ => ⟨rfl, rfl⟩

/-- The offset 5 is allocated, released by the other allocator, and allocated there. -/
theorem no_double_allocation_released : ∃ first second : List (Bool × Event), ∃ label label' : Bool × Event,
    let w₁ := first.foldl next twoAllocators
    let w₂ := w₁.next label
    let w₃ := second.foldl next w₂
    w₁.granted label = some 5 ∧ w₃.granted label' = some 5 ∧
      (soundAllocators Bool).Visits (Releasing 5) w₂ second w₃ := by
  refine ⟨[(false, .call (.allocate 5) 0), (false, .read 0)],
    [(true, .call (.release 5) 0), (true, .read 0), (true, .commit 3 0), (true, .call (.allocate 5) 0),
      (true, .read 0)],
    (false, .commit 2 0), (true, .commit 4 0), by decide +kernel, by decide +kernel, ?_⟩
  exact @no_double_allocation 5 Bool _ _ _ _ _ _ _ _ (false, .commit 2 0) (true, .commit 4 0) twoAllocators_initial
    (System.run_foldl (by decide +kernel)) ⟨by decide +kernel, rfl⟩ (by decide +kernel)
    (System.run_foldl (by decide +kernel)) ⟨by decide +kernel, rfl⟩ (by decide +kernel)

/-- The offset 5 is allocated, and a `Release` of it fails at both allocators. Each then has the offset
free, at the stored version. Both allocate it: neither of them writes anything. -/
theorem allocated_twice_after_failed_releases : ∃ first second : List (Bool × Event), ∃ label label' : Bool × Event,
    let w₁ := first.foldl next twoAllocators
    let w₂ := w₁.next label
    let w₃ := second.foldl next w₂
    twoAllocators.Initial ∧ (allocators Bool).Run twoAllocators first w₁ ∧ (allocators Bool).step w₁ label w₂ ∧
      w₁.granted label = some 5 ∧ (allocators Bool).Run w₂ second w₃ ∧
      (allocators Bool).step w₃ label' (w₃.next label') ∧ w₃.granted label' = some 5 ∧
      ¬ (allocators Bool).Visits (Releasing 5) w₂ second w₃ := by
  refine ⟨[(false, .call (.allocate 5) 0), (false, .read 0), (false, .commit 2 0),
      (false, .call (.release 5) 0), (false, .read 0), (false, .commitFails),
      (true, .call (.release 5) 0), (true, .read 0), (true, .commitFails),
      (false, .call (.allocate 5) 0)],
    [(true, .call (.allocate 5) 0)], (false, .read 0), (true, .read 0), twoAllocators_initial,
    System.run_foldl (by decide +kernel), ⟨by decide +kernel, rfl⟩, by decide +kernel,
    System.run_foldl (by decide +kernel), ⟨by decide +kernel, rfl⟩, by decide +kernel, fun hvisits => ?_⟩
  rcases hvisits.of_single with hreleasing | hreleasing
  · exact absurd hreleasing (by unfold Releasing; decide +kernel)
  · exact absurd hreleasing (by unfold Releasing; decide +kernel)

end World
end LeanKube.EtcdAllocator
