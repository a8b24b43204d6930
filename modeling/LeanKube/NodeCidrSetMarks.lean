import LeanKube.NodeCidrSetBlocks

/-! What `Occupy` and `Release` mark in a node CIDR set, and the sets for which that is right. -/

namespace LeanKube.NodeIpam
open Net BigEndian BitSets List Set Option CIDR
variable {c d : CIDR} {σ i : Nat} {ip : IP} {s : CidrSet} {size : Int}

/-! ### The last address of a CIDR -/

theorem complement_mask (l n : Nat) : 256 ^ l - 1 - value (maskBytes l n) = 2 ^ (8 * l - n) - 1 := by
  have := value_maskBytes l n
  omega

theorem lastIP_eq (hplain : Plain d) : CidrSet.lastIP d.net = encode d.ip.length (value d.ip + 2 ^ d.hostBits - 1) := by
  have hones := d.ones_le
  have hpos := Nat.two_pow_pos d.hostBits
  have hbound := value_add_le d
  have hlast : 2 ^ d.hostBits - 1 < 2 ^ d.hostBits := by omega
  rw [CidrSet.lastIP, net]
  rcases hplain with hlen | ⟨hlen, hto4⟩
  · have hsome : (to4 d.ip).isSome = true := by rw [to4_of_length hlen, isSome_some]
    have hmask : 2 ^ 32 - 1 - uint32 (maskBytes d.ip.length d.ones) = 2 ^ d.hostBits - 1 := by
      rw [uint32_of_length (by rw [length_maskBytes, hlen]), hostBits, ← complement_mask, hlen]
      rfl
    simp only [hsome, if_true]
    rw [hmask, uint32_of_length hlen, or_eq_add d.masked hlast, hlen, Nat.add_sub_assoc hpos]
  · have hsome : (to4 d.ip).isSome = false := by rw [hto4, isSome_none]
    have hmaskLeft : uint64 (maskBytes 16 d.ones) = value (maskBytes 8 d.ones) := by
      rw [uint64, take_maskBytes (by decide)]
    have hmaskRight : uint64 ((maskBytes 16 d.ones).drop 8) = value (maskBytes 8 (d.ones - 64)) := by
      rw [uint64, drop_maskBytes (by decide), take_of_length_le (by rw [length_maskBytes])]
    have hhost : d.hostBits = 128 - d.ones := by rw [hostBits, hlen]
    have hV := value_halves hlen
    have hR := uint64_lt (d.ip.drop 8)
    have hmasked : 2 ^ d.hostBits ∣ value d.ip := d.masked
    rw [hlen] at hones hbound
    simp only [hsome, Bool.false_eq_true, if_false, hlen]
    rw [hmaskLeft, hmaskRight, hV, show (2 : Nat) ^ 64 - 1 = 256 ^ 8 - 1 from rfl, complement_mask, complement_mask]
    rw [hV] at hmasked hbound
    by_cases h64 : 64 ≤ d.ones
    · -- The host bits lie in the right half.
      have hdvdR : 2 ^ d.hostBits ∣ uint64 (d.ip.drop 8) := by
        have hpow : 2 ^ d.hostBits ∣ 2 ^ 64 := Nat.pow_dvd_pow 2 (by omega)
        exact (Nat.dvd_add_right (Nat.dvd_mul_left_of_dvd hpow _)).mp hmasked
      have hright := add_le_of_dvd_of_lt hdvdR (Nat.pow_dvd_pow 2 (by omega : d.hostBits ≤ 64)) hR
      rw [show 8 * 8 - d.ones = 0 by omega, show 8 * 8 - (d.ones - 64) = d.hostBits by omega, or_eq_add hdvdR hlast]
      apply encode_halves
      · omega
      · omega
      · rw [pow_zero, Nat.sub_self, Nat.or_zero]
        omega
    · -- They fill it, and lie in the left half.
      have hzero := right_eq_zero hR hmasked (by omega)
      have hdvdL := left_dvd (q := 64 - d.ones) hR hmasked (by omega)
      have hpow : 2 ^ d.hostBits = 2 ^ (64 - d.ones) * 2 ^ 64 := by
        rw [← pow_add]
        congr 1
        omega
      have hposL := Nat.two_pow_pos (64 - d.ones)
      rw [show 8 * 8 - d.ones = 64 - d.ones by omega, show 8 * 8 - (d.ones - 64) = 64 by omega, hzero,
        or_eq_add hdvdL (Nat.sub_lt hposL Nat.one_pos), Nat.zero_or, hpow]
      apply encode_halves
      · decide
      · omega
      · omega

/-! ### Marking an interval of indices -/

variable (s) (cidr : IPNet)

def CidrSet.marked : Set Nat :=
  match s.getBeginingAndEndIndices cidr with
  | .error _ => ∅
  | .ok (first, last) => {i | first.toNat ≤ i ∧ i < first.toNat + (last - first + 1).toNat}

theorem testBit_foldl_setBit (used first m : Nat) (b : Bool) (i : Nat) :
    ((List.range m).foldl (fun used k => setBit used (first + k) b) used).testBit i =
      if first ≤ i ∧ i < first + m then b else used.testBit i := by
  induction m with
  | zero => rw [range_zero, foldl_nil, if_neg (by omega)]
  | succ m ih =>
    rw [range_succ, foldl_append, foldl_cons, foldl_nil, testBit_setBit, ih]
    by_cases hlast : i = first + m
    · rw [if_pos hlast, if_pos (by omega)]
    · rw [if_neg hlast]
      by_cases hi : first ≤ i ∧ i < first + m
      · rw [if_pos hi, if_pos (by omega)]
      · rw [if_neg hi, if_neg (by omega)]

theorem CidrSet.mem_occupy : i ∈ bits (s.occupy cidr).1.used ↔ i ∈ bits s.used ∨ i ∈ s.marked cidr := by
  rw [occupy, marked]
  cases hrange : s.getBeginingAndEndIndices cidr with
  | error => simp
  | ok =>
    rw [mem_bits, mem_bits, mem_ofPred_eq]
    simp only [mark]
    rw [testBit_foldl_setBit]
    split_ifs with hi
    · exact ⟨fun _ => .inr hi, fun _ => rfl⟩
    · exact ⟨.inl, fun h => h.resolve_right hi⟩

theorem CidrSet.mem_release : i ∈ bits (s.release cidr).1.used ↔ i ∈ bits s.used ∧ i ∉ s.marked cidr := by
  rw [release, marked]
  cases hrange : s.getBeginingAndEndIndices cidr with
  | error => simp
  | ok =>
    rw [mem_bits, mem_bits, mem_ofPred_eq]
    simp only [mark]
    rw [testBit_foldl_setBit]
    split_ifs with hi
    · exact ⟨fun h => absurd h (by decide), fun h => absurd hi h.2⟩
    · exact ⟨fun h => ⟨h, hi⟩, fun h => h.1⟩

variable {s}

/-! ### Networks that share an address -/

theorem le_of_intersect (hint : Intersect d c) (hones : c.ones ≤ d.ones) : d.ip.length = c.ip.length ∧
    d.hostBits ≤ c.hostBits ∧ value c.ip ≤ value d.ip ∧ value d.ip + 2 ^ d.hostBits ≤ value c.ip + 2 ^ c.hostBits := by
  obtain ⟨hlen, hdc, _⟩ := intersect_iff.mp hint
  have hhost : d.hostBits ≤ c.hostBits := by
    rw [hostBits, hostBits, hlen]
    omega
  have hpow : 2 ^ d.hostBits ∣ 2 ^ c.hostBits := Nat.pow_dvd_pow 2 hhost
  have hdvd : 2 ^ d.hostBits ∣ value c.ip := hpow.trans c.dvd
  have hle : value c.ip ≤ value d.ip := by
    by_contra hlt
    have := add_le_of_dvd_of_lt d.dvd hdvd (not_le.mp hlt)
    omega
  exact ⟨hlen, hhost, hle, add_le_of_dvd_of_lt d.dvd (Nat.dvd_add hdvd hpow) hdc⟩

theorem applyMask_of_intersect (hint : Intersect d c) (hones : c.ones ≤ d.ones) : applyMask d.ip c.net.mask = c.ip := by
  obtain ⟨hlen, -, hle, _⟩ := le_of_intersect hint hones
  obtain ⟨hlen', hval⟩ := CIDR.value_applyMask hlen
  have hpos := Nat.two_pow_pos d.hostBits
  have hdiv : value d.ip / 2 ^ c.hostBits = value c.ip / 2 ^ c.hostBits :=
    (div_eq_div_iff (Nat.two_pow_pos _) c.dvd).mpr ⟨hle, by omega⟩
  apply value_inj hlen'
  rw [hval, hdiv, Nat.div_mul_cancel c.dvd]

theorem contains_self (c : CIDR) : c.net.contains c.ip = true :=
  contains_iff_le.mpr ⟨rfl, le_refl _, Nat.lt_add_of_pos_right (Nat.two_pow_pos _)⟩

theorem mem_of_contains (hlen : ip.length = c.ip.length) (h : c.net.contains ip = true) : ip ∈ addresses c := by
  obtain ⟨hnormal, hlow, hhigh⟩ := contains_iff_le.mp h
  rcases c.forms with ⟨-, hc⟩ | ⟨-, -, hc⟩ | ⟨h16, x, hmapped, hx, hc, -⟩
  · rw [hc] at hnormal hlow hhigh
    rw [normal_of_length_eq (hnormal.trans hlen.symm)] at hlow hhigh
    exact ⟨hlen, hlow, hhigh⟩
  · rw [hc] at hnormal hlow hhigh
    rw [normal_of_length_eq (hnormal.trans hlen.symm)] at hlow hhigh
    exact ⟨hlen, hlow, hhigh⟩
  · -- An IPv4 network in 16 bytes contains addresses in 16 bytes that are IPv4 addresses.
    rw [hc] at hnormal hlow hhigh
    cases hto4 : to4 ip with
    | none =>
      rw [normal, hto4, getD_none, hlen, h16, hx] at hnormal
      exact absurd hnormal (by decide)
    | some =>
      rw [normal, hto4, getD_some] at hnormal hlow hhigh
      rcases to4_eq_some hto4 with ⟨h4, -⟩ | ⟨-, hip, hy⟩
      · rw [hlen, h16] at h4
        exact absurd h4 (by decide)
      · refine ⟨hlen, ?_, ?_⟩
        · rw [hip, hmapped, value_append, value_append, hx, hy]
          omega
        · rw [hip, hmapped, value_append, value_append, hx, hy]
          omega

theorem not_contains_of_not_intersect (hlen : d.ip.length = c.ip.length) (h : ¬ Intersect d c) :
    c.net.contains (applyMask d.ip c.net.mask) = false := by
  rw [Bool.eq_false_iff]
  intro hcon
  obtain ⟨hlen', hval⟩ := CIDR.value_applyMask hlen
  obtain ⟨-, hlow, hhigh⟩ := mem_of_contains hlen' hcon
  rw [hval] at hlow hhigh
  have hdiv := (div_eq_div_iff (Nat.two_pow_pos _) c.dvd).mpr ⟨hlow, hhigh⟩
  rw [Nat.mul_div_cancel _ (Nat.two_pow_pos _)] at hdiv
  obtain ⟨hle, hlt⟩ := (div_eq_div_iff (Nat.two_pow_pos _) c.dvd).mp hdiv
  exact h ⟨d.ip, ⟨rfl, le_refl _, Nat.lt_add_of_pos_right (Nat.two_pow_pos _)⟩, hlen, hle, hlt⟩

theorem intersect_symm (h : Intersect c d) : Intersect d c := by
  rw [Intersect, inter_comm]
  exact h

theorem CidrSet.Of.marked_of_not_intersect (hs : s.Of c size) (hlen : d.ip.length = c.ip.length)
    (h : ¬ Intersect d c) : s.marked d.net = ∅ := by
  have hc : c.net.contains (applyMask d.net.ip c.net.mask) = false := not_contains_of_not_intersect hlen h
  have hd : d.net.contains (applyMask c.net.ip d.net.mask) = false :=
    not_contains_of_not_intersect hlen.symm fun hint => h (intersect_symm hint)
  have herror : s.getBeginingAndEndIndices d.net = .error (.outOfCluster d.net c.net) := by
    rw [getBeginingAndEndIndices, hs.clusterCIDR_eq, hc, hd, if_pos ⟨rfl, rfl⟩]
  rw [marked, herror]

theorem CidrSet.Of.getBegining_of_intersect (hs : s.Of c size) (h : Intersect d c) : s.getBeginingAndEndIndices d.net =
      if c.ones < d.ones then s.firstAndLastIndex d.net else .ok (0, (s.maxCIDRs - 1).bmod (2 ^ 64)) := by
  have hpass : ¬ ((!c.net.contains (applyMask d.net.ip c.net.mask)) = true ∧
      (!d.net.contains (applyMask c.net.ip d.net.mask)) = true) := by
    rintro ⟨hc, hd⟩
    rcases Nat.le_total c.ones d.ones with hle | hle
    · have hmask : applyMask d.net.ip c.net.mask = c.ip := applyMask_of_intersect h hle
      rw [hmask, contains_self] at hc
      exact Bool.false_ne_true hc
    · have hmask : applyMask c.net.ip d.net.mask = d.ip := applyMask_of_intersect (intersect_symm h) hle
      rw [hmask, contains_self] at hd
      exact Bool.false_ne_true hd
  have hsize : (maskSize d.net.mask).1 = d.ones := by rw [net, maskSize_maskBytes d.ones_le]
  rw [getBeginingAndEndIndices, hs.clusterCIDR_eq, hs.clusterMaskSize_eq, hsize, if_neg hpass]

/-! ### Sets that mark what they should -/

/-- A cluster CIDR and a mask size whose indices are computed as they should be: an IPv4 cluster with less
than `2 ^ 32` blocks, or an IPv6 cluster without IPv4 addresses. -/
structure Regular (c : CIDR) (σ : Nat) : Prop extends MaskSize c σ where
  form : c.ip.length = 4 ∧ σ - c.ones < 32 ∨ c.ip.length = 16 ∧ (∀ ip ∈ addresses c, to4 ip = none) ∧ σ - c.ones ≤ 16

theorem ip_mem_addresses (c : CIDR) : c.ip ∈ addresses c :=
  ⟨rfl, le_refl _, Nat.lt_add_of_pos_right (Nat.two_pow_pos _)⟩

theorem Regular.plain (h : Regular c σ) : Plain c :=
  h.form.imp And.left fun hform => ⟨hform.1, hform.2.1 c.ip (ip_mem_addresses c)⟩

theorem Regular.diff_le (h : Regular c σ) : σ - c.ones ≤ 32 := by
  rcases h.form with ⟨-, _⟩ | ⟨-, -, _⟩
  · omega
  · omega

theorem CidrSet.Of.mem_indices (hs : s.Of c σ) (h : Regular c σ) : i ∈ s.indices ↔ i < 2 ^ (σ - c.ones) := by
  rw [indices, hs.maxCIDRs h.toMaskSize (by have := h.diff_le; omega), mem_ofPred_eq]
  norm_cast

theorem Regular.plain_of_intersect (h : Regular c σ) (hint : Intersect d c) : Plain d := by
  have hlen := (intersect_iff.mp hint).1
  rcases h.form with ⟨h4, -⟩ | ⟨h16, hnone, -⟩
  · exact .inl (hlen.trans h4)
  · refine .inr ⟨hlen.trans h16, ?_⟩
    obtain ⟨ip, ⟨hip, hlow, hhigh⟩, hc⟩ := hint
    have hip16 : ip.length = 16 := hip.trans (hlen.trans h16)
    have hsome := (to4_eq_none_iff hip16).mp (hnone ip hc)
    rw [to4_eq_none_iff (hlen.trans h16)]
    -- All the addresses of an IPv4 network are IPv4 addresses.
    rintro ⟨hge, hlt⟩
    have hhost : d.hostBits ≤ 48 := by
      by_contra hgt
      have hdvd : 2 ^ 48 ∣ value d.ip := (Nat.pow_dvd_pow 2 (by omega)).trans d.dvd
      omega
    have hbound := add_le_of_dvd_of_lt d.dvd (Nat.pow_dvd_pow 2 hhost) hlt
    exact hsome ⟨hge.trans hlow, hhigh.trans_le hbound⟩

theorem subNetMask_eq (h : MaskSize c σ) (hplain : Plain d) (hlen : d.ip.length = c.ip.length) :
    cidrMask σ ((if (to4 d.ip).isNone then 16 else 4) * 8) = maskBytes c.ip.length σ := by
  have hsize : (if (to4 d.ip).isNone then 16 else 4) * 8 = 8 * c.ip.length := by
    rcases hplain with h4 | ⟨h16, hnone⟩
    · rw [to4_of_length h4, ← hlen, h4]
      rfl
    · rw [hnone, ← hlen, h16]
      rfl
  rw [hsize, cidrMask_eq h]

variable (hs : s.Of c σ) (h : Regular c σ)
include hs h

theorem CidrSet.Of.getIndexForIP_masked (hip : ip ∈ addresses c) :
    s.getIndexForIP (applyMask ip (maskBytes c.ip.length σ)) = .ok ((value ip - value c.ip) / 2 ^ blockBits c σ) := by
  obtain ⟨hlen, hlow, hhigh⟩ := hip
  obtain ⟨hlen', hval⟩ := value_applyMask hlen h.le_length
  change _ = value ip / 2 ^ blockBits c σ * 2 ^ blockBits c σ at hval
  have hpos := Nat.two_pow_pos (blockBits c σ)
  obtain ⟨q, hq⟩ := h.toMaskSize.dvd
  have hquot : q ≤ value ip / 2 ^ blockBits c σ := by
    rw [Nat.le_div_iff_mul_le hpos, Nat.mul_comm, ← hq]
    exact hlow
  have hmem : applyMask ip (maskBytes c.ip.length σ) ∈ addresses c := by
    refine ⟨hlen', ?_, ?_⟩
    · rw [hval, hq, Nat.mul_comm]
      exact Nat.mul_le_mul_right _ hquot
    · rw [hval]
      exact (Nat.div_mul_le_self _ _).trans_lt hhigh
  rw [hs.getIndexForIP_eq h.toMaskSize hmem (h.form.imp_right fun hform => ⟨hform.1, hform.2.1 _ hmem, by omega⟩),
    hval, hq]
  rw [Nat.mul_comm (2 ^ blockBits c σ), ← Nat.sub_mul, Nat.mul_div_cancel _ hpos, Nat.mul_comm q, Nat.sub_mul_div]

theorem CidrSet.Of.mem_touched (hlen : d.ip.length = c.ip.length) :
    i ∈ s.touched d ↔ i < 2 ^ (σ - c.ones) ∧ value c.ip + i * 2 ^ blockBits c σ < value d.ip + 2 ^ d.hostBits ∧
        value d.ip < value c.ip + i * 2 ^ blockBits c σ + 2 ^ blockBits c σ := by
  rw [touched, mem_ofPred_eq, hs.mem_indices h]
  refine and_congr_right fun hi => ?_
  obtain ⟨b, hb, hlengthb, -, hval, hhost⟩ := hs.exists_block h.toMaskSize h.plain h.diff_le hi
  rw [← hval, ← hhost]
  constructor
  · rintro ⟨b', hb', hint⟩
    obtain ⟨hip, hones⟩ := net_inj (hb.symm.trans hb')
    obtain ⟨-, hbd, hdb⟩ := intersect_iff.mp hint
    have hhost' : b'.hostBits = b.hostBits := by rw [hostBits, hostBits, hip, hones]
    rw [← hip] at hbd hdb
    rw [hhost'] at hdb
    exact ⟨hbd, hdb⟩
  · rintro ⟨hbd, hdb⟩
    exact ⟨b, hb, intersect_iff.mpr ⟨hlengthb.trans hlen.symm, hbd, hdb⟩⟩

theorem CidrSet.Of.firstAndLastIndex_eq (hint : Intersect d c) (hones : c.ones ≤ d.ones) :
    s.firstAndLastIndex d.net = .ok (((value d.ip - value c.ip) / 2 ^ blockBits c σ : Nat),
        ((value d.ip + 2 ^ d.hostBits - 1 - value c.ip) / 2 ^ blockBits c σ : Nat)) := by
  obtain ⟨hlen, -, hle, _⟩ := le_of_intersect hint hones
  have hplain := h.plain_of_intersect hint
  have hpos := Nat.two_pow_pos d.hostBits
  have hbound := value_add_le d
  have hfirst : d.ip ∈ addresses c := ⟨hlen, hle, by omega⟩
  have hval : value (encode d.ip.length (value d.ip + 2 ^ d.hostBits - 1)) = value d.ip + 2 ^ d.hostBits - 1 :=
    value_encode_of_lt (by omega)
  have hmem : encode d.ip.length (value d.ip + 2 ^ d.hostBits - 1) ∈ addresses c :=
    ⟨(length_encode _ _).trans hlen, by omega, by omega⟩
  have hip : d.net.ip = d.ip := rfl
  rw [firstAndLastIndex, hs.subNetMaskSize_eq, hip, subNetMask_eq h.toMaskSize hplain hlen, lastIP_eq hplain,
    hs.getIndexForIP_masked h hfirst, hs.getIndexForIP_masked h hmem, hval]

/-- **`Occupy` and `Release` mark the blocks that the CIDR touches.** -/
theorem CidrSet.Of.marked_eq_touched (hlen : d.ip.length = c.ip.length) : s.marked d.net = s.touched d := by
  have hS := Nat.two_pow_pos (blockBits c σ)
  have hd := Nat.two_pow_pos d.hostBits
  ext i
  rw [hs.mem_touched h hlen]
  by_cases hint : Intersect d c
  · rw [marked, hs.getBegining_of_intersect hint]
    by_cases hones : c.ones < d.ones
    · -- The CIDR lies in the cluster: from the block of its first address to that of its last one.
      obtain ⟨-, -, hle, hlast⟩ := le_of_intersect hint hones.le
      rw [if_pos hones, hs.firstAndLastIndex_eq h hint hones.le, mem_ofPred_eq]
      have hfirst : (value d.ip - value c.ip) / 2 ^ blockBits c σ ≤ i ↔
          value d.ip < value c.ip + i * 2 ^ blockBits c σ + 2 ^ blockBits c σ := by
        rw [← Nat.lt_succ_iff, Nat.div_lt_iff_lt_mul hS, Nat.succ_mul]
        omega
      have hlastIndex : i ≤ (value d.ip + 2 ^ d.hostBits - 1 - value c.ip) / 2 ^ blockBits c σ ↔
          value c.ip + i * 2 ^ blockBits c σ < value d.ip + 2 ^ d.hostBits := by
        rw [Nat.le_div_iff_mul_le hS]
        omega
      have hmax : value c.ip + i * 2 ^ blockBits c σ < value d.ip + 2 ^ d.hostBits → i < 2 ^ (σ - c.ones) := by
        intro hlt
        have hmul : i * 2 ^ blockBits c σ < 2 ^ (σ - c.ones) * 2 ^ blockBits c σ := by
          rw [← h.toMaskSize.pow_hostBits]
          omega
        exact Nat.lt_of_mul_lt_mul_right hmul
      have hmono : (value d.ip - value c.ip) / 2 ^ blockBits c σ ≤
          (value d.ip + 2 ^ d.hostBits - 1 - value c.ip) / 2 ^ blockBits c σ := Nat.div_le_div_right (by omega)
      rw [← hfirst, ← hlastIndex]
      generalize (value d.ip - value c.ip) / 2 ^ blockBits c σ = first at hmono ⊢
      omega
    · -- The CIDR covers the cluster: all the blocks.
      obtain ⟨-, -, hle, hlast⟩ := le_of_intersect (intersect_symm hint) (not_lt.mp hones)
      have hmax : s.maxCIDRs = ((2 ^ (σ - c.ones) : Nat) : Int) := by
        rw [hs.maxCIDRs h.toMaskSize (by have := h.diff_le; omega)]
        norm_cast
      have hpow : 2 ^ (σ - c.ones) ≤ 2 ^ 32 := Nat.pow_le_pow_right (by decide) h.diff_le
      have hpos := Nat.two_pow_pos (σ - c.ones)
      rw [if_neg hones, hmax, Int.bmod_eq_of_le (by omega) (by omega), mem_ofPred_eq]
      constructor
      · intro hi
        have hi' : i < 2 ^ (σ - c.ones) := by omega
        have := h.toMaskSize.add_le hi'
        exact ⟨hi', by omega, by omega⟩
      · omega
  · rw [hs.marked_of_not_intersect hlen hint]
    refine ⟨fun hmem => absurd hmem (notMem_empty i), fun ⟨hi, _, _⟩ => absurd ?_ hint⟩
    have := h.toMaskSize.add_le hi
    exact intersect_iff.mpr ⟨hlen, by omega, by omega⟩

end LeanKube.NodeIpam
