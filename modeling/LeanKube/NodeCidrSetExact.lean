import LeanKube.NodeCidrSetRuns

/-! The cluster CIDRs and node mask sizes for which a new node CIDR set is exact. -/

namespace LeanKube.NodeIpam
open Net BigEndian BitSets Set Option List CidrSet CIDR
variable {c d : CIDR} {i σ : Nat} {ip : IP} {s : CidrSet} {size : Int}

/-- The mask size is one of the cluster's addresses and at most `2 ^ 31` blocks of IPv4 addresses are
numbered; an IPv6 cluster has no IPv4 addresses, or is a single block. Where `1 << n` shifts out, there are
no indices, and no blocks. -/
def Sound (c : CIDR) (size : Int) : Prop :=
  64 ≤ toUint 32 (size - c.ones) ∨ 0 ≤ size ∧ size ≤ 8 * c.ip.length ∧ (c.ip.length = 4 → ¬ (c.ones = 0 ∧ size = 32)) ∧
      (c.ip.length = 16 → size = 0 ∨ ∀ ip ∈ addresses c, to4 ip = none)

/-! ### No indices -/

theorem intersect_self (c : CIDR) : Intersect c c := ⟨c.ip, ip_mem_addresses c, ip_mem_addresses c⟩

theorem maskSize_of_block {net : IPNet} (h : net ∈ blocks c size) : ∃ σ : Nat, size = σ ∧ MaskSize c σ := by
  obtain ⟨d, rfl, hones, hsub⟩ := h
  obtain ⟨hlen, _, _⟩ := addresses_subset_iff.mp hsub
  have hd := d.ones_le
  have hc := c.ones_le
  have hhost : d.hostBits ≤ c.hostBits := by
    apply (Nat.pow_le_pow_iff_right (show 1 < 2 by decide)).mp
    omega
  rw [hostBits, hostBits, hlen] at hhost
  rw [hlen] at hd
  exact ⟨d.ones, hones.symm, by omega, hd⟩

theorem toUint_of_maskSize (h : MaskSize c σ) : toUint 32 ((σ : Int) - c.ones) = σ - c.ones := by
  have hones := h.ones_le
  have hle := h.le_length
  have hlen := c.length_ip
  have hsub : (σ : Int) - c.ones = ((σ - c.ones : Nat) : Int) := by omega
  rw [hsub, toUint_eq (by omega)]

theorem MaskSize.diff_le (h : MaskSize c σ) (hlimit : to4 c.ip = none → (σ : Int) - c.ones ≤ 16) : σ - c.ones ≤ 32 := by
  have hle := h.le_length
  rcases c.forms with ⟨_, -⟩ | ⟨-, hnone, -⟩ | ⟨_, -, -, -, -, _⟩
  · omega
  · have := hlimit hnone
    omega
  · omega

theorem getIndexForIP_of_empty (hmax : s.maxCIDRs = 0) (ip : IP) : ∃ err, s.getIndexForIP ip = .error err := by
  have h32 : toUint 32 0 = 0 := by decide
  have h64 : toUint 64 0 = 0 := by decide
  rw [getIndexForIP, hmax, h32, h64]
  cases to4 ip with
  | some => exact ⟨_, if_pos (Nat.zero_le _)⟩
  | none =>
    cases to16 ip with
    | some => exact ⟨_, if_pos (Nat.zero_le _)⟩
    | none => exact ⟨_, rfl⟩

theorem CidrSet.Of.numbers_of_empty (hs : s.Of c size) (hlimit : to4 c.ip = none → size - c.ones ≤ 16)
    (h : 64 ≤ toUint 32 (size - c.ones)) : Numbers c size s := by
  have hmax : s.maxCIDRs = 0 := by rw [hs.maxCIDRs_eq, oneShl, if_neg (not_lt.mpr h)]
  have hindices : s.indices = ∅ := by
    ext i
    rw [indices, hmax, mem_ofPred_eq]
    exact ⟨fun hi => absurd hi (by omega), fun hi => absurd hi (notMem_empty i)⟩
  have hblocks : blocks c size = ∅ := by
    rw [eq_empty_iff_forall_notMem]
    intro net hnet
    obtain ⟨σ, rfl, hσ⟩ := maskSize_of_block hnet
    rw [toUint_of_maskSize hσ] at h
    have := hσ.diff_le hlimit
    omega
  refine ⟨?_, fun i hi => absurd (hindices ▸ hi) (notMem_empty i), fun d hlen => ?_⟩
  · rw [hindices, hblocks]
    exact bijOn_empty _
  · have htouched : s.touched d = ∅ := by
      rw [eq_empty_iff_forall_notMem]
      rintro i ⟨hi, -⟩
      rw [hindices] at hi
      exact hi
    rw [htouched]
    by_cases hint : Intersect d c
    · rw [marked, hs.getBegining_of_intersect hint]
      by_cases hones : c.ones < d.ones
      · obtain ⟨_, herr⟩ := getIndexForIP_of_empty hmax
          (applyMask d.net.ip (cidrMask s.subNetMaskSize ((if (to4 d.net.ip).isNone then 16 else 4) * 8)))
        rw [if_pos hones, firstAndLastIndex, herr]
      · -- From the index 0 to the index -1.
        have hlast : ((0 : Int) - 1).bmod (2 ^ 64) = -1 := by decide
        rw [if_neg hones, hmax, hlast, eq_empty_iff_forall_notMem]
        rintro i ⟨-, hi⟩
        omega
    · exact hs.marked_of_not_intersect hlen hint

/-! ### One block -/

theorem applyMask_mapped {x : IP} {mask : List UInt8} (hx : x.length = 4) (hmask : mask.length = 4) :
    applyMask (v4InV6 ++ x) mask = applyMask x mask := by
  have hlen : (v4InV6 ++ x).length = 16 := by rw [length_append, hx, length_v4InV6]
  have hmapped : mask.length = 4 ∧ (v4InV6 ++ x).length = 16 ∧ (v4InV6 ++ x).take 12 = v4InV6 :=
    ⟨hmask, hlen, take_left' length_v4InV6⟩
  have hlong : ¬ (mask.length = 16 ∧ (v4InV6 ++ x).length = 4 ∧ mask.take 12 = List.replicate 12 0xff) := by omega
  have hdrop : (v4InV6 ++ x).drop 12 = x := drop_left' length_v4InV6
  rw [applyMask_of_length (hx.trans hmask.symm), applyMask]
  simp only [if_neg hlong, if_pos hmapped, hdrop]
  rw [if_neg (not_not.mpr (hx.trans hmask.symm))]

theorem CidrSet.Of.getIndexForIP_of_all (hs : s.Of c (0 : Nat)) (hmax : s.maxCIDRs = 1)
    (hip : ip.length = 4 ∨ ip.length = 16) : s.getIndexForIP ip = .ok 0 := by
  have hto16 : to4 ip = none → to16 ip = some ip := by
    intro hnone
    have h16 : ip.length = 16 := hip.resolve_left fun h4 => by
      rw [to4_of_length h4] at hnone
      cases hnone
    rw [to16, if_neg (by omega), if_pos h16]
  rw [getIndexForIP, hs.subNetMaskSize_eq, hmax]
  cases hto4 : to4 ip with
  | some => rfl
  | none =>
    rw [hto16 hto4]
    rfl

theorem CidrSet.Of.firstAndLastIndex_of_all (hs : s.Of c (0 : Nat)) (hmax : s.maxCIDRs = 1)
    (h16 : d.ip.length = 16) : s.firstAndLastIndex d.net = .ok (0, 0) := by
  have hip : d.net.ip = d.ip := rfl
  rw [firstAndLastIndex, hs.subNetMaskSize_eq, lastIP, hip]
  cases hto4 : to4 d.ip with
  | none =>
    have hlast : ∀ l r, (encode 8 l ++ encode 8 r).length = 16 := fun l r => by
      rw [length_append, length_encode, length_encode]
    have hmask : ∀ ip : IP, ip.length = 16 → s.getIndexForIP (applyMask ip (cidrMask (0 : Nat) (16 * 8))) = .ok 0 :=
      fun ip hip => hs.getIndexForIP_of_all hmax (.inr (Net.value_applyMask hip (Nat.zero_le _)).1)
    simp only [isNone_none, isSome_none, if_true, Bool.false_eq_true, if_false, hmask _ h16, hmask _ (hlast _ _)]
    rfl
  | some x =>
    have hmask : ∀ ip : IP, ip.length = 4 → s.getIndexForIP (applyMask ip (cidrMask (0 : Nat) (4 * 8))) = .ok 0 :=
      fun ip hip => hs.getIndexForIP_of_all hmax (.inl (Net.value_applyMask hip (Nat.zero_le _)).1)
    obtain ⟨-, hmapped, hx⟩ := (to4_eq_some hto4).resolve_left fun _ => by omega
    have hfirst : applyMask d.ip (cidrMask (0 : Nat) (4 * 8)) = applyMask x (cidrMask (0 : Nat) (4 * 8)) := by
      rw [hmapped, applyMask_mapped hx rfl]
    simp only [isNone_some, isSome_some, if_true, Bool.false_eq_true, if_false, hfirst, hmask _ hx,
      hmask _ (length_encode _ _)]
    rfl

theorem value_eq_zero (h : c.ones = 0) : value c.ip = 0 := by
  have hbound := value_add_le c
  have hpos : 256 ^ c.ip.length = 2 ^ c.hostBits := by
    rw [hostBits, h, Nat.sub_zero, pow_mul]
    rfl
  omega

theorem CidrSet.Of.numbers_of_all (hs : s.Of c (0 : Nat)) (hones : c.ones = 0) (h16 : c.ip.length = 16) :
    Numbers c (0 : Nat) s := by
  have hsize : MaskSize c 0 := ⟨hones.le, Nat.zero_le _⟩
  have hdiff : 0 - c.ones ≤ 32 := by omega
  have hmax : s.maxCIDRs = 1 := by rw [hs.maxCIDRs hsize (by omega), Nat.zero_sub, pow_zero]
  have hzero := value_eq_zero hones
  have hplain : Plain c := .inr ⟨h16, (to4_eq_none_iff h16).mpr (by omega)⟩
  have hindices : ∀ i, i ∈ s.indices ↔ i = 0 := by
    intro i
    rw [indices, hmax, mem_ofPred_eq]
    omega
  have haddresses : ∀ d : CIDR, d.ip.length = 16 → Intersect d c := by
    intro d hlen
    have hlt := value_lt d.ip
    rw [hlen] at hlt
    have hhost : c.hostBits = 128 := by rw [hostBits, hones, h16]
    refine ⟨d.ip, ip_mem_addresses d, hlen.trans h16.symm, by omega, ?_⟩
    rw [hzero, hhost]
    omega
  -- The block of the index 0 is the cluster itself.
  have hblock : s.indexToCIDRBlock 0 = c.net := by
    rw [hs.indexToCIDRBlock_eq hsize hplain hdiff (Nat.two_pow_pos _), Nat.zero_mul, Nat.add_zero, encode_value rfl,
      net, hones]
  refine ⟨⟨fun i hi => ?_, fun i hi j hj _ => ?_, fun net hnet => ?_⟩, fun i hi b hb ip hip => ?_, fun d hlen => ?_⟩
  · rw [(hindices i).mp hi, hblock]
    exact ⟨c, rfl, by rw [hones], Set.Subset.refl _⟩
  · rw [(hindices i).mp hi, (hindices j).mp hj]
  · obtain ⟨d, rfl, _, hsub⟩ := hnet
    obtain ⟨hlen, -, -⟩ := addresses_subset_iff.mp hsub
    refine ⟨0, (hindices 0).mpr rfl, ?_⟩
    have hd : d.ones = 0 := by omega
    have hip : d.ip = c.ip := value_inj hlen ((value_eq_zero hd).trans hzero.symm)
    rw [hblock, net, net, hip, hones, hd]
  · rw [(hindices i).mp hi]
    rw [(hindices i).mp hi, hblock] at hb
    rw [← addresses_eq_of_net hb] at hip
    exact hs.getIndexForIP_of_all hmax (.inr (hip.1.trans h16))
  · have hrange : s.getBeginingAndEndIndices d.net = .ok (0, 0) := by
      rw [hs.getBegining_of_intersect (haddresses d (hlen.trans h16)),
        hs.firstAndLastIndex_of_all hmax (hlen.trans h16), hmax]
      exact ite_self _
    ext i
    rw [marked, hrange, mem_ofPred_eq, touched, mem_ofPred_eq, hindices]
    constructor
    · intro hi
      have hi' : i = 0 := by omega
      rw [hi']
      exact ⟨rfl, c, hblock, intersect_symm (haddresses d (hlen.trans h16))⟩
    · rintro ⟨rfl, -⟩
      decide

/-! ### Sound sizes -/

theorem Sound.numbers (h : Sound c size) (hs : s.Of c size) (hlimit : to4 c.ip = none → size - c.ones ≤ 16) :
    Numbers c size s := by
  by_cases hempty : 64 ≤ toUint 32 (size - c.ones)
  · exact hs.numbers_of_empty hlimit hempty
  · obtain ⟨hpos, _, h4, h16⟩ := h.resolve_left hempty
    obtain ⟨σ, rfl⟩ := Int.eq_ofNat_of_zero_le hpos
    have hc := c.ones_le
    have hlen := c.length_ip
    have hones : c.ones ≤ σ := by
      by_contra hlt
      apply hempty
      rw [toUint]
      omega
    have hsize : MaskSize c σ := ⟨hones, by omega⟩
    rcases hlen with hlen | hlen
    · exact hs.numbers ⟨hsize, .inl ⟨hlen, by omega⟩⟩
    · rcases h16 hlen with _ | hnone
      · have hσ : σ = 0 := by omega
        rw [hσ] at hs ⊢
        exact hs.numbers_of_all (by omega) hlen
      · have hdiff := hlimit (hnone c.ip (ip_mem_addresses c))
        exact hs.numbers ⟨hsize, .inr ⟨hlen, hnone, by omega⟩⟩

/-! ### Exact sets are sound -/

section Converse
variable (h : Exact c size s) (hs : s.Of c size) (hused : s.used = 0)
include h hused

theorem Exact.marked_eq (hint : Intersect d c) : s.marked d.net = s.touched d := by
  ext i
  have hmark := h.occupy [] d hint i
  have hempty : i ∉ bits (s.run []).used := by
    have hrun : (s.run []).used = 0 := hused
    rw [hrun, mem_bits, Nat.zero_testBit]
    exact Bool.false_ne_true
  rw [mem_occupy, or_iff_right hempty, or_iff_right hempty] at hmark
  exact hmark

include hs

theorem Exact.shift_ne : toUint 32 (size - c.ones) ≠ 63 := by
  intro hshift
  have hmax : s.maxCIDRs = -2 ^ 63 := by
    rw [hs.maxCIDRs_eq, hshift]
    decide
  have hlast : ((-2 ^ 63 : Int) - 1).bmod (2 ^ 64) = 2 ^ 63 - 1 := by decide
  have hmarked : 0 ∈ s.marked c.net := by
    rw [marked, hs.getBegining_of_intersect (intersect_self c), if_neg (lt_irrefl _), hmax, hlast]
    exact ⟨le_refl _, by decide⟩
  rw [h.marked_eq hused (intersect_self c)] at hmarked
  have hidx : ((0 : Nat) : Int) < s.maxCIDRs := hmarked.1
  rw [hmax] at hidx
  exact absurd hidx (by decide)

theorem Exact.zero_mem (hshift : toUint 32 (size - c.ones) < 64) :
    0 ∈ s.indices ∧ ∃ b : CIDR, s.indexToCIDRBlock 0 = b.net ∧ b.net ∈ blocks c size := by
  have hne := h.shift_ne hs hused
  have hzero : 0 ∈ s.indices := by
    rw [indices, mem_ofPred_eq, hs.maxCIDRs_eq, oneShl_eq (by omega)]
    exact Int.pow_pos (by decide)
  have hblock := h.bijOn.mapsTo hzero
  obtain ⟨b, hb, hones, hsub⟩ := hblock
  exact ⟨hzero, b, hb, b, rfl, hones, hsub⟩

end Converse

theorem Exact.not_all (h : Exact c size s) (hs : s.Of c size) (hzero : 0 ∈ s.indices) {b : CIDR}
    (hb : s.indexToCIDRBlock 0 = b.net) (h4 : b.ip.length = 4) : ¬ (c.ones = 0 ∧ size = 32) := by
  rintro ⟨hones, rfl⟩
  have hidx := h.getIndexForIP 0 hzero b hb b.ip (ip_mem_addresses b)
  have hmax : toUint 32 s.maxCIDRs = 0 := by
    rw [hs.maxCIDRs_eq, hones]
    decide
  rw [CidrSet.getIndexForIP, to4_of_length h4, hmax] at hidx
  cases hidx

theorem CidrSet.Of.mem_touched_of_mem (hs : s.Of c σ) (h : MaskSize c σ) (hplain : Plain c) (hdiff : σ - c.ones ≤ 32)
    (hc : ip ∈ addresses c) (hd : ip ∈ addresses d) : (value ip - value c.ip) / 2 ^ blockBits c σ ∈ s.touched d := by
  obtain ⟨hlen, _, _⟩ := hc
  have hpos := Nat.two_pow_pos (blockBits c σ)
  have hlt : (value ip - value c.ip) / 2 ^ blockBits c σ < 2 ^ (σ - c.ones) := by
    apply Nat.div_lt_of_lt_mul
    rw [Nat.mul_comm, ← h.pow_hostBits]
    omega
  obtain ⟨b, hb, hlengthb, -, hval, hhost⟩ := hs.exists_block h hplain hdiff hlt
  have hdiv := Nat.div_mul_le_self (value ip - value c.ip) (2 ^ blockBits c σ)
  have hmod := Nat.lt_div_mul_add hpos (a := value ip - value c.ip)
  refine ⟨?_, b, hb, ip, ⟨hlen.trans hlengthb.symm, ?_, ?_⟩, hd⟩
  · rw [indices, hs.maxCIDRs h (by omega), mem_ofPred_eq]
    exact_mod_cast hlt
  · omega
  · rw [hval, hhost]
    omega

theorem last_mapped_mem (h16 : c.ip.length = 16) (hnone : to4 c.ip = none) (hip : ip ∈ addresses c)
    (hto4 : to4 ip ≠ none) : value c.ip < 0xffff * 2 ^ 32 ∧ 2 ^ 48 ≤ value c.ip + 2 ^ c.hostBits := by
  obtain ⟨hlen, _, _⟩ := hip
  rw [Ne, to4_eq_none_iff (hlen.trans h16), not_not] at hto4
  rw [to4_eq_none_iff h16] at hnone
  have hlt : value c.ip < 0xffff * 2 ^ 32 := by omega
  refine ⟨hlt, ?_⟩
  have hhost : 32 < c.hostBits := by
    by_contra hle
    have hdvd : 2 ^ c.hostBits ∣ 0xffff * 2 ^ 32 := Nat.dvd_mul_left_of_dvd (Nat.pow_dvd_pow 2 (not_lt.mp hle)) _
    have := add_le_of_dvd_of_lt c.dvd hdvd hlt
    omega
  by_contra hshort
  have hhost' : c.hostBits ≤ 48 := by
    apply (Nat.pow_le_pow_iff_right (show 1 < 2 by decide)).mp
    omega
  have hnext := add_le_of_dvd_of_lt (Nat.dvd_add c.dvd (Nat.dvd_refl _)) (Nat.pow_dvd_pow 2 hhost') (not_le.mp hshort)
  have hpow : 2 ^ 33 ≤ 2 ^ c.hostBits := Nat.pow_le_pow_right (by decide) hhost
  omega

theorem uint32_eq_zero (h16 : ip.length = 16) (hlt : value ip < 2 ^ 96) : uint32 ip = 0 := by
  have hsplit := value_append (ip.take 4) (ip.drop 4)
  have hdrop : (ip.drop 4).length = 12 := by rw [length_drop, h16]
  rw [take_append_drop, hdrop] at hsplit
  rw [uint32]
  omega

theorem exists_last_mapped : ∃ d : CIDR, d.ip = v4InV6 ++ [255, 255, 255, 255] ∧ d.ones = 128 := by
  have hone : 2 ^ (8 * 16 - 128) ∣ 2 ^ 48 - 1 := Nat.one_dvd _
  obtain ⟨d, hip, hones⟩ := exists_cidr (.inr rfl) (le_refl 128) (by decide) hone
  exact ⟨d, hip.trans (by decide), hones⟩

section Mapped
variable (hd : d.ip = v4InV6 ++ [255, 255, 255, 255])
  (hrange : s.getBeginingAndEndIndices d.net = s.firstAndLastIndex d.net)
include hd hrange

/-- Only what comes at or after the index of the address under the IPv4 mask is marked. -/
theorem CidrSet.notMem_marked_of_mapped (h : ∀ first, s.getIndexForIP (applyMask (v4InV6 ++ [255, 255, 255, 255])
      (cidrMask s.subNetMaskSize (4 * 8))) = .ok first → i < first) : i ∉ s.marked d.net := by
  have hip : d.net.ip = v4InV6 ++ [255, 255, 255, 255] := hd
  rw [marked, hrange, firstAndLastIndex, hip, to4_mapped rfl]
  simp only [isNone_some, Bool.false_eq_true, if_false]
  cases hfirst : s.getIndexForIP (applyMask (v4InV6 ++ [255, 255, 255, 255]) (cidrMask s.subNetMaskSize (4 * 8))) with
  | error => exact notMem_empty i
  | ok first =>
    have hlt := h first hfirst
    cases s.getIndexForIP (applyMask (lastIP d.net) (cidrMask s.subNetMaskSize (4 * 8))) with
    | error => exact notMem_empty i
    | ok =>
      rintro ⟨_, -⟩
      omega

theorem CidrSet.Of.zero_notMem_marked (hs : s.Of c σ) (h16 : c.ip.length = 16)
    (hlt : value c.ip < 2 ^ 48) (hpos : σ ≠ 0) (hσ : σ ≤ 32) : 0 ∉ s.marked d.net := by
  have hmask : cidrMask σ (4 * 8) = maskBytes 4 σ := by
    rw [cidrMask, if_neg (by decide), if_neg (by omega), Int.toNat_natCast]
  obtain ⟨hlen, hval⟩ : (applyMask [255, 255, 255, 255] (maskBytes 4 σ)).length = 4 ∧
      value (applyMask [255, 255, 255, 255] (maskBytes 4 σ)) = (2 ^ 32 - 1) / 2 ^ (32 - σ) * 2 ^ (32 - σ) := by
    exact Net.value_applyMask rfl hσ
  have hshift : toUint 32 (32 - (σ : Int)) = 32 - σ := by
    have hsub : (32 : Int) - σ = ((32 - σ : Nat) : Int) := by omega
    rw [hsub, toUint_eq (by omega)]
  have hpow : 2 ^ (32 - σ) ≤ 2 ^ 31 := Nat.pow_le_pow_right (by decide) (by omega)
  have hmul := Nat.div_mul_le_self (2 ^ 32 - 1) (2 ^ (32 - σ))
  have hquot : 0 < (2 ^ 32 - 1) / 2 ^ (32 - σ) := Nat.div_pos (by omega) (Nat.two_pow_pos _)
  apply notMem_marked_of_mapped hd hrange
  intro first hfirst
  rw [hs.subNetMaskSize_eq, hmask, applyMask_mapped rfl (length_maskBytes 4 σ), getIndexForIP,
    to4_of_length hlen, hs.clusterIP_eq, hs.subNetMaskSize_eq, hshift] at hfirst
  simp only at hfirst
  rw [uint32_eq_zero h16 (by omega), Nat.zero_xor, uint32_of_length hlen, hval, shr_eq (by omega),
    Nat.mul_div_cancel _ (Nat.two_pow_pos _)] at hfirst
  split_ifs at hfirst
  cases hfirst
  exact_mod_cast hquot

theorem CidrSet.Of.notMem_marked (hs : s.Of c σ) (hσ : 32 < σ) : i ∉ s.marked d.net := by
  have hmask : cidrMask σ (4 * 8) = [] := by
    rw [cidrMask, if_neg (by decide), if_pos (by omega)]
  apply notMem_marked_of_mapped hd hrange
  intro first hfirst
  rw [hs.subNetMaskSize_eq, hmask, getIndexForIP] at hfirst
  cases hfirst

end Mapped

theorem Exact.eq_zero_or_none (h : Exact c σ s) (hs : s.Of c σ) (hused : s.used = 0) (hsize : MaskSize c σ)
    (hdiff : to4 c.ip = none → (σ : Int) - c.ones ≤ 16) (h16 : c.ip.length = 16) (hnone : to4 c.ip = none) :
    (σ : Int) = 0 ∨ ∀ ip ∈ addresses c, to4 ip = none := by
  by_contra hnot
  rw [not_or] at hnot
  obtain ⟨_, hall⟩ := hnot
  push Not at hall
  obtain ⟨ip, hip, hto4⟩ := hall
  obtain ⟨_, _⟩ := last_mapped_mem h16 hnone hip hto4
  obtain ⟨d, hd, _⟩ := exists_last_mapped
  have hval : value d.ip = 2 ^ 48 - 1 := by
    rw [hd]
    decide
  have hmem : d.ip ∈ addresses c := ⟨by rw [hd, h16]; rfl, by omega, by omega⟩
  have hint : Intersect d c := ⟨d.ip, ip_mem_addresses d, hmem⟩
  have hdiff' := hdiff hnone
  have hhost : 32 < c.hostBits := by
    by_contra hle
    have hpow : 2 ^ c.hostBits ≤ 2 ^ 32 := Nat.pow_le_pow_right (by decide) (not_lt.mp hle)
    omega
  have hlong : c.ones < d.ones := by
    rw [hostBits, h16] at hhost
    omega
  have hrange : s.getBeginingAndEndIndices d.net = s.firstAndLastIndex d.net := by
    rw [hs.getBegining_of_intersect hint, if_pos hlong]
  have htouched := hs.mem_touched_of_mem hsize (.inr ⟨h16, hnone⟩) (by omega) hmem (ip_mem_addresses d)
  rw [← h.marked_eq hused hint] at htouched
  rcases Nat.lt_or_ge 32 σ with hσ | hσ
  · exact CidrSet.Of.notMem_marked hd hrange hs hσ htouched
  · -- The blocks are so large that the address lies in the first one.
    have hzero : (value d.ip - value c.ip) / 2 ^ blockBits c σ = 0 := by
      apply Nat.div_eq_of_lt
      have hpow : 2 ^ 96 ≤ 2 ^ blockBits c σ := Nat.pow_le_pow_right (by decide) (by rw [blockBits, h16]; omega)
      omega
    rw [hzero] at htouched
    exact CidrSet.Of.zero_notMem_marked hd hrange hs h16 (by omega) (by omega) hσ htouched

theorem Exact.sound (h : Exact c size s) (hs : s.Of c size) (hused : s.used = 0)
    (hlimit : to4 c.ip = none → size - c.ones ≤ 16) : Sound c size := by
  by_cases hempty : 64 ≤ toUint 32 (size - c.ones)
  · exact .inl hempty
  · obtain ⟨hzero, b, hb, hblock⟩ := h.zero_mem hs hused (not_le.mp hempty)
    obtain ⟨σ, rfl, hsize⟩ := maskSize_of_block hblock
    obtain ⟨_, hb', -, hsub⟩ := hblock
    have hlen : b.ip.length = c.ip.length := by
      rw [(net_inj hb').1]
      exact (addresses_subset_iff.mp hsub).1
    have hle := hsize.le_length
    refine .inr ⟨by omega, by omega, fun h4 => h.not_all hs hzero hb (hlen.trans h4), fun h16 => ?_⟩
    rcases c.forms with ⟨h4, -⟩ | ⟨-, hnone, -⟩ | ⟨-, x, hmapped, hx, -, -⟩
    · omega
    · exact h.eq_zero_or_none hs hused hsize hlimit h16 hnone
    · -- The blocks of an IPv4 cluster in 16 bytes have 4 bytes.
      have hsome : (to4 c.ip).isSome = true := by rw [hmapped, to4_mapped hx, isSome_some]
      have hip : b.ip.length = 4 := by
        have hip := congrArg IPNet.ip hb
        rw [indexToCIDRBlock, hs.clusterIP_eq, hsome] at hip
        simp only [if_true] at hip
        have hnet : b.net.ip = b.ip := rfl
        rw [← hnet, ← hip, length_encode]
      omega

/-- **A new node CIDR set** numbers the blocks of its size in the cluster, marks what CIDRs touch and
allocates only free blocks, after any calls, for the sound sizes and for no others. -/
theorem exact_iff (h : newCIDRSet c.net size = .ok s) : Exact c size s ↔ Sound c size := by
  obtain ⟨hs, hused, hlimit⟩ := newCIDRSet_ok h
  exact ⟨fun hexact => hexact.sound hs hused hlimit, fun hsound => (hsound.numbers hs hlimit).exact⟩

/-- The blocks of 24 bits in `10.244.0.0/16`. -/
theorem exact_of_ten : ∃ (c : CIDR) (s : CidrSet), c.ip = [10, 244, 0, 0] ∧ c.ones = 16 ∧
    newCIDRSet c.net 24 = .ok s ∧ s.maxCIDRs = 256 ∧ Sound c 24 ∧ Exact c 24 s := by
  refine ⟨⟨[10, 244, 0, 0], 16, .inl rfl, by decide, by decide⟩, _, rfl, rfl, rfl, by decide, ?_, ?_⟩
  · exact .inr ⟨by decide, by decide, fun _ => by decide, fun h16 => absurd h16 (by decide)⟩
  · exact (exact_iff rfl).mpr (.inr ⟨by decide, by decide, fun _ => by decide, fun h16 => absurd h16 (by decide)⟩)

/-- In `0.0.0.0/0` with blocks of one address, the first block has the index 0, but its address has none. -/
theorem no_index_of_all_ipv4 : ∃ (c : CIDR) (s : CidrSet), c.ip = [0, 0, 0, 0] ∧ c.ones = 0 ∧
    newCIDRSet c.net 32 = .ok s ∧ 0 ∈ s.indices ∧ (∃ b : CIDR, s.indexToCIDRBlock 0 = b.net ∧ c.ip ∈ addresses b ∧
        s.getIndexForIP c.ip = .error (.outOfRange c.ip 32) ∧
          (s.occupy b.net).2 = .error (.outOfRange c.ip 32) ∧ (s.occupy b.net).1.used = 0) := by
  refine ⟨⟨[0, 0, 0, 0], 0, .inl rfl, by decide, by decide⟩, _, rfl, rfl, rfl, ?_,
    ⟨[0, 0, 0, 0], 32, .inl rfl, by decide, by decide⟩, ?_, ip_mem_addresses _, ?_, ?_, ?_⟩
  · change ((0 : Nat) : Int) < _
    decide
  · decide
  · decide +kernel
  · decide +kernel
  · decide +kernel

end LeanKube.NodeIpam
