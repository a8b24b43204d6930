import LeanKube.NodeCidrSetMarks

/-! Runs of a node CIDR set: calls change the used bits only, so that a set that numbers its blocks and marks
what a CIDR touches is exact after any calls. -/

namespace LeanKube.NodeIpam
open Net BigEndian BitSets List Except CidrSet
variable {c d : CIDR} {i : Nat} {s : CidrSet} {size : Int}

namespace CidrSet

/-! ### One call -/

variable (s)

def withUsed (nextCandidate used : Nat) : CidrSet := { s with nextCandidate, used }

theorem allocateNext_cases :
    (∀ i ∈ s.indices, i ∈ bits s.used) ∧ s.allocateNext = (s, .error .noCIDRsRemaining) ∨
      ∃ i ∈ s.indices, i ∉ bits s.used ∧ s.allocateNext =
        (s.withUsed ((i + 1) % s.maxCIDRs.toNat) (setBit s.used i true), .ok (s.indexToCIDRBlock i)) := by
  have hscan : ∀ i, i ∈ (List.range s.maxCIDRs.toNat).map (fun k => (k + s.nextCandidate) % s.maxCIDRs.toNat) ↔
      i ∈ s.indices := by
    intro i
    simp only [Nat.add_comm _ s.nextCandidate]
    rw [mem_map_add_mod, indices, Set.mem_ofPred_eq]
    omega
  rw [allocateNext]
  cases hfind : List.find? (fun candidate => !s.used.testBit candidate)
      ((List.range s.maxCIDRs.toNat).map fun k => (k + s.nextCandidate) % s.maxCIDRs.toNat) with
  | none =>
    refine .inl ⟨fun i hi => ?_, rfl⟩
    have hused := List.find?_eq_none.mp hfind i ((hscan i).mpr hi)
    simpa using hused
  | some i =>
    refine .inr ⟨i, (hscan i).mp (mem_of_find?_eq_some hfind), fun hused => ?_, rfl⟩
    have hfree := List.find?_some hfind
    rw [mem_bits] at hused
    simp [hused] at hfree

theorem next_eq (op : Op) : ∃ nextCandidate used, s.next op = s.withUsed nextCandidate used := by
  cases op with
  | allocateNext =>
    rcases s.allocateNext_cases with ⟨-, h⟩ | ⟨i, -, -, h⟩
    · exact ⟨s.nextCandidate, s.used, congrArg Prod.fst h⟩
    · exact ⟨_, _, congrArg Prod.fst h⟩
  | occupy =>
    rw [next, occupy]
    split
    · exact ⟨s.nextCandidate, s.used, rfl⟩
    · exact ⟨s.nextCandidate, _, rfl⟩
  | release =>
    rw [next, release]
    split
    · exact ⟨s.nextCandidate, s.used, rfl⟩
    · exact ⟨s.nextCandidate, _, rfl⟩

variable (ops : List Op)

theorem run_eq : ∃ nextCandidate used, s.run ops = s.withUsed nextCandidate used := by
  induction ops generalizing s with
  | nil => exact ⟨s.nextCandidate, s.used, rfl⟩
  | cons op _ ih =>
    obtain ⟨nextCandidate, used, hop⟩ := s.next_eq op
    obtain ⟨nextCandidate', used', hrest⟩ := ih (s.next op)
    refine ⟨nextCandidate', used', hrest.trans ?_⟩
    rw [hop]
    rfl

variable (nextCandidate used : Nat)

theorem getIndexForIP_withUsed (ip : IP) : (s.withUsed nextCandidate used).getIndexForIP ip = s.getIndexForIP ip := by
  unfold getIndexForIP
  cases to4 ip with
  | some => rfl
  | none =>
    cases to16 ip with
    | some | none => rfl

variable (net : IPNet)

theorem firstAndLastIndex_withUsed :
    (s.withUsed nextCandidate used).firstAndLastIndex net = s.firstAndLastIndex net := by
  unfold firstAndLastIndex
  simp only [getIndexForIP_withUsed]
  rfl

theorem getBeginingAndEndIndices_withUsed :
    (s.withUsed nextCandidate used).getBeginingAndEndIndices net = s.getBeginingAndEndIndices net := by
  unfold getBeginingAndEndIndices
  rw [firstAndLastIndex_withUsed]
  rfl

theorem marked_run : (s.run ops).marked net = s.marked net := by
  obtain ⟨_, _, h⟩ := s.run_eq ops
  rw [h, marked, getBeginingAndEndIndices_withUsed, marked]

theorem allocateNext_run : (∀ i ∈ s.indices, i ∈ bits (s.run ops).used) ∧
        (s.run ops).allocateNext = (s.run ops, .error .noCIDRsRemaining) ∨
      ∃ i ∈ s.indices, i ∉ bits (s.run ops).used ∧ i ∈ bits ((s.run ops).next .allocateNext).used ∧
        (s.run ops).allocateNext.2 = .ok (s.indexToCIDRBlock i) := by
  obtain ⟨nextCandidate, used, h⟩ := s.run_eq ops
  rw [h]
  rcases (s.withUsed nextCandidate used).allocateNext_cases with hfull | ⟨i, hi, hfree, hnext⟩
  · exact .inl hfull
  · refine .inr ⟨i, hi, hfree, ?_, congrArg Prod.snd hnext⟩
    rw [next, hnext, withUsed, mem_bits, testBit_setBit, if_pos rfl]

variable {s}

theorem mem_bits_run {t : CidrSet} {since : List Op} (hi : i ∈ bits t.used)
    (h : ∀ e, Op.release e ∈ since → i ∉ t.marked e.net) : i ∈ bits (t.run since).used := by
  induction since generalizing t with
  | nil => exact hi
  | cons op _ ih =>
    have hmarked : ∀ net, (t.next op).marked net = t.marked net := t.marked_run [op]
    apply ih
    · cases op with
      | allocateNext =>
        rw [next]
        rcases t.allocateNext_cases with ⟨-, hnext⟩ | ⟨j, -, -, hnext⟩
        · rw [hnext]
          exact hi
        · rw [mem_bits] at hi
          rw [hnext, withUsed, mem_bits, testBit_setBit, hi, ite_self]
      | occupy d => exact (t.mem_occupy d.net).mpr (.inl hi)
      | release d => exact (t.mem_release d.net).mpr ⟨hi, h d mem_cons_self⟩
    · intro e he
      rw [hmarked]
      exact h e (mem_cons_of_mem op he)

end CidrSet

/-! ### Exact sets -/

theorem addresses_eq_of_net (h : c.net = d.net) : addresses c = addresses d := by
  obtain ⟨hip, hones⟩ := net_inj h
  rw [addresses, addresses, CIDR.hostBits, CIDR.hostBits, hip, hones]

structure Numbers (c : CIDR) (size : Int) (s : CidrSet) : Prop where
  bijOn : Set.BijOn s.indexToCIDRBlock s.indices (blocks c size)
  getIndexForIP : ∀ i ∈ s.indices, ∀ b : CIDR, s.indexToCIDRBlock i = b.net → ∀ ip ∈ addresses b,
    s.getIndexForIP ip = .ok i
  marked_eq : ∀ d : CIDR, d.ip.length = c.ip.length → s.marked d.net = s.touched d

theorem Numbers.eq_of_intersect (h : Numbers c size s) {j : Nat} {b : CIDR} (hi : i ∈ s.indices) (hj : j ∈ s.indices)
    (hb : s.indexToCIDRBlock i = b.net) (hd : s.indexToCIDRBlock j = d.net) (hint : Intersect b d) : i = j := by
  obtain ⟨ip, hipb, hipd⟩ := hint
  have hidx := (h.getIndexForIP i hi b hb ip hipb).symm.trans (h.getIndexForIP j hj d hd ip hipd)
  exact ok.inj hidx

theorem Numbers.not_since_released (h : Numbers c size s) {before since : List CidrSet.Op} {op : CidrSet.Op}
    (hfits : ∀ op' ∈ before ++ op :: since, op'.Fits c.ip.length) {b : CIDR}
    (hop : op = .occupy d ∨ op = .allocateNext ∧ (s.run before).allocateNext.2 = .ok d.net)
    (hb : (s.run (before ++ op :: since)).allocateNext.2 = .ok b.net) (hint : Intersect b d) :
    ∃ e, .release e ∈ since ∧ Intersect b e := by
  have hrun : s.run (before ++ op :: since) = ((s.run before).next op).run since := by
    rw [run, foldl_append, foldl_cons]
    rfl
  have hmarked : ∀ net, ((s.run before).next op).marked net = s.marked net := by
    intro net
    have happend : s.run (before ++ [op]) = (s.run before).next op := foldl_concat ..
    rw [← happend, marked_run]
  -- The index of the returned block is free.
  obtain ⟨i, hi, hfree, hblock⟩ : ∃ i ∈ s.indices, i ∉ bits (s.run (before ++ op :: since)).used ∧
      s.indexToCIDRBlock i = b.net := by
    rcases s.allocateNext_run (before ++ op :: since) with ⟨-, herror⟩ | ⟨i, hi, hfree, -, hok⟩
    · rw [herror] at hb
      cases hb
    · exact ⟨i, hi, hfree, ok.inj (hok.symm.trans hb)⟩
  -- After the call it was used.
  have hused : i ∈ bits ((s.run before).next op).used := by
    rcases hop with rfl | ⟨rfl, hallocated⟩
    · have hlen : d.ip.length = c.ip.length := hfits (.occupy d) (by simp)
      apply (mem_occupy _ d.net).mpr
      rw [marked_run, h.marked_eq d hlen]
      exact .inr ⟨hi, b, hblock, hint⟩
    · rcases s.allocateNext_run before with ⟨-, herror⟩ | ⟨j, hj, -, hused, hok⟩
      · rw [herror] at hallocated
        cases hallocated
      · have hij := h.eq_of_intersect hi hj hblock (ok.inj (hok.symm.trans hallocated)) hint
        rw [hij]
        exact hused
  by_contra hnone
  apply hfree
  rw [hrun]
  apply mem_bits_run hused
  intro e he
  have hlen : e.ip.length = c.ip.length := hfits (.release e) (mem_append_right _ (mem_cons_of_mem op he))
  rw [hmarked, h.marked_eq e hlen]
  rintro ⟨-, _, hb', hint'⟩
  refine hnone ⟨e, he, ?_⟩
  rw [Intersect, addresses_eq_of_net (hblock.symm.trans hb')]
  exact hint'

/-- **A set that numbers its blocks and marks what a CIDR touches is exact.** -/
theorem Numbers.exact (h : Numbers c size s) : Exact c size s where
  bijOn := h.bijOn
  disjoint i hi j hj hij b d hb hd hint := hij (h.eq_of_intersect hi hj hb hd hint)
  getIndexForIP := h.getIndexForIP
  occupy ops d hint i := by
    rw [mem_occupy, marked_run, h.marked_eq d (intersect_iff.mp hint).1]
  release ops d hint i := by
    rw [mem_release, marked_run, h.marked_eq d (intersect_iff.mp hint).1]
  allocateNext ops := by
    rcases s.allocateNext_run ops with ⟨hfull, herror⟩ | ⟨i, hi, hfree, -, hok⟩
    · rw [herror]
      exact ⟨⟨fun _ => hfull, fun _ => ⟨_, rfl⟩⟩, fun net hnet => by cases hnet⟩
    · rw [hok]
      refine ⟨⟨?_, fun hfull => absurd (hfull i hi) hfree⟩, fun net hnet => ?_⟩
      · rintro ⟨_, herr⟩
        cases herr
      · exact ⟨i, hi, hfree, (ok.inj hnet).symm⟩
  not_since_released before since op hfits b d hop hb hint := h.not_since_released hfits hop hb hint

/-! ### Regular sets -/

variable {σ : Nat}

theorem CidrSet.Of.bijOn (hs : s.Of c σ) (h : Regular c σ) : Set.BijOn s.indexToCIDRBlock s.indices (blocks c σ) := by
  have hpos := Nat.two_pow_pos (blockBits c σ)
  refine ⟨fun i hi => ?_, fun i hi j hj heq => ?_, fun net hnet => ?_⟩
  · rw [hs.mem_indices h] at hi
    obtain ⟨b, hb, hlen, hones, hval, hhost⟩ := hs.exists_block h.toMaskSize h.plain h.diff_le hi
    refine ⟨b, hb, by rw [hones], addresses_subset_iff.mpr ⟨hlen, ?_, ?_⟩⟩
    · rw [hval]
      exact Nat.le_add_right _ _
    · have := h.toMaskSize.add_le hi
      rw [hval, hhost]
      omega
  · rw [hs.mem_indices h] at hi hj
    obtain ⟨b, hb, -, -, hvalueb, -⟩ := hs.exists_block h.toMaskSize h.plain h.diff_le hi
    obtain ⟨d, hd, -, -, hvalued, -⟩ := hs.exists_block h.toMaskSize h.plain h.diff_le hj
    obtain ⟨hip, -⟩ := net_inj (hb.symm.trans (heq.trans hd))
    rw [hip, hvalued] at hvalueb
    exact (Nat.eq_of_mul_eq_mul_right hpos (Nat.add_left_cancel hvalueb)).symm
  · obtain ⟨d, rfl, hones, hsub⟩ := hnet
    obtain ⟨hlen, _, hhigh⟩ := addresses_subset_iff.mp hsub
    have hones' : d.ones = σ := by omega
    have hhost : d.hostBits = blockBits c σ := by rw [CIDR.hostBits, hlen, hones', blockBits]
    -- The distance from the cluster's number is a multiple of the block size.
    obtain ⟨i, hi⟩ := Nat.dvd_sub (hhost ▸ d.dvd) h.toMaskSize.dvd
    rw [Nat.mul_comm] at hi
    have hval : value d.ip = value c.ip + i * 2 ^ blockBits c σ := by omega
    have hlt : i < 2 ^ (σ - c.ones) := by
      have hmul : i * 2 ^ blockBits c σ < 2 ^ (σ - c.ones) * 2 ^ blockBits c σ := by
        rw [← h.toMaskSize.pow_hostBits]
        rw [hhost] at hhigh
        omega
      exact Nat.lt_of_mul_lt_mul_right hmul
    refine ⟨i, (hs.mem_indices h).mpr hlt, ?_⟩
    rw [hs.indexToCIDRBlock_eq h.toMaskSize h.plain h.diff_le hlt, CIDR.net, hlen, hones', ← hval]
    congr 1
    exact encode_value hlen

theorem CidrSet.Of.numbers (hs : s.Of c σ) (h : Regular c σ) : Numbers c σ s where
  bijOn := hs.bijOn h
  getIndexForIP i hi b hb ip hip := by
    rw [hs.mem_indices h] at hi
    obtain ⟨_, hb', hlen, -, hval, hhost⟩ := hs.exists_block h.toMaskSize h.plain h.diff_le hi
    rw [addresses_eq_of_net (hb.symm.trans hb')] at hip
    obtain ⟨hlen', _, hhigh⟩ := hip
    rw [hval, hhost] at hhigh
    have hadd := h.toMaskSize.add_le hi
    have hmem : ip ∈ addresses c := ⟨hlen'.trans hlen, by omega, by omega⟩
    rw [hs.getIndexForIP_eq h.toMaskSize hmem (h.form.imp_right fun hform => ⟨hform.1, hform.2.1 ip hmem, by omega⟩)]
    have hdiv : (value ip - value c.ip) / 2 ^ blockBits c σ = i := by
      apply Nat.div_eq_of_lt_le
      · omega
      · rw [Nat.succ_mul]
        omega
    rw [hdiv]
  marked_eq d hlen := hs.marked_eq_touched h hlen

end LeanKube.NodeIpam
