import LeanKube.NodeCidrSet

/-! The blocks of a node CIDR set as numbers: the block of an index is the cluster's address plus a
multiple of the block size, and the index of an address is the quotient of its distance. -/

namespace LeanKube.NodeIpam
open Net BigEndian BitSets Nat List Option CIDR

/-! ### Bits of a sum -/

theorem or_eq_add {V y h : Nat} (hV : 2 ^ h ∣ V) (hy : y < 2 ^ h) : V ||| y = V + y := by
  obtain ⟨q, rfl⟩ := hV
  exact (two_pow_add_eq_or_of_lt hy q).symm

theorem xor_eq_sub {V v h : Nat} (hV : 2 ^ h ∣ V) (hle : V ≤ v) (hlt : v < V + 2 ^ h) : V ^^^ v = v - V := by
  obtain ⟨y, rfl⟩ := Nat.exists_eq_add_of_le hle
  have hy : y < 2 ^ h := lt_of_add_lt_add_left hlt
  obtain ⟨q, rfl⟩ := hV
  apply eq_of_testBit_eq
  intro j
  rw [testBit_xor, testBit_two_pow_mul_add q hy, testBit_two_pow_mul]
  by_cases hj : j < h
  · simp [hj, not_le.mpr hj]
  · have hbit : y.testBit j = false :=
      Nat.testBit_lt_two_pow (hy.trans_le (Nat.pow_le_pow_right (by decide) (not_lt.mp hj)))
    simp [hj, not_lt.mp hj, hbit]

theorem shr_eq {w x s : Nat} (hx : x < 2 ^ w) : shr w x s = x / 2 ^ s := by
  rw [shr]
  split_ifs with hs
  · rfl
  · rw [Nat.div_eq_of_lt (hx.trans_le (Nat.pow_le_pow_right (by decide) (not_lt.mp hs)))]

theorem shl_eq {w x s : Nat} (h : x * 2 ^ s < 2 ^ w) : shl w x s = x * 2 ^ s := by
  rw [shl]
  split_ifs with hs
  · exact mod_eq_of_lt h
  · have hpow : 2 ^ w ≤ 2 ^ s := Nat.pow_le_pow_right (by decide) (not_lt.mp hs)
    rcases Nat.eq_zero_or_pos x with rfl | hx
    · rw [zero_mul]
    · exact absurd h (not_lt.mpr (hpow.trans (Nat.le_mul_of_pos_left _ hx)))

theorem toUint_eq {w k : Nat} (h : k < 2 ^ w) : toUint w k = k := by
  have hcast : (k : Int) % 2 ^ w = ((k % 2 ^ w : Nat) : Int) := by norm_cast
  rw [toUint, hcast, Int.toNat_natCast, mod_eq_of_lt h]

theorem oneShl_eq {k : Nat} (h : k < 63) : oneShl k = 2 ^ k := by
  have hpow : (2 : Int) ^ k < 2 ^ 63 := pow_lt_pow_right₀ (by decide) h
  have hpos : (0 : Int) < 2 ^ k := by positivity
  rw [oneShl, if_pos (by omega), Int.bmod_eq_of_le (by omega) (by omega)]

theorem lt_two_pow_bitLength (x : Nat) : x < 2 ^ bitLength x := by
  rw [bitLength]
  split_ifs with hx
  · rw [hx]
    decide
  · exact lt_log2_self

/-! ### Blocks as numbers -/

variable {c d : CIDR} {σ i : Nat} {ip : IP}

theorem value_add_le (c : CIDR) : value c.ip + 2 ^ c.hostBits ≤ 256 ^ c.ip.length :=
  add_le_of_dvd_of_lt c.masked (two_pow_dvd_pow (sub_le _ _)) (value_lt _)

structure MaskSize (c : CIDR) (σ : Nat) : Prop where
  ones_le : c.ones ≤ σ
  le_length : σ ≤ 8 * c.ip.length

def blockBits (c : CIDR) (σ : Nat) : Nat := 8 * c.ip.length - σ

section
variable (h : MaskSize c σ)
include h

theorem MaskSize.hostBits_eq : c.hostBits = blockBits c σ + (σ - c.ones) := by
  have := h.ones_le
  have := h.le_length
  rw [hostBits, blockBits]
  omega

theorem MaskSize.pow_hostBits : 2 ^ c.hostBits = 2 ^ (σ - c.ones) * 2 ^ blockBits c σ := by
  rw [h.hostBits_eq, pow_add, mul_comm]

theorem MaskSize.add_le (hi : i < 2 ^ (σ - c.ones)) : i * 2 ^ blockBits c σ + 2 ^ blockBits c σ ≤ 2 ^ c.hostBits := by
  rw [h.pow_hostBits, ← succ_mul]
  exact mul_le_mul_right _ hi

theorem MaskSize.dvd : 2 ^ blockBits c σ ∣ value c.ip := by
  have hle : blockBits c σ ≤ c.hostBits := by
    rw [h.hostBits_eq]
    exact le_add_right _ _
  exact (pow_dvd_pow 2 hle).trans c.masked

end

theorem exists_cidr {n x : Nat} (hn : n = 4 ∨ n = 16) (hσ : σ ≤ 8 * n) (hx : x < 256 ^ n) (hdvd : 2 ^ (8 * n - σ) ∣ x) :
    ∃ b : CIDR, b.ip = encode n x ∧ b.ones = σ := by
  have hlen := length_encode n x
  refine ⟨⟨encode n x, σ, ?_, ?_, ?_⟩, rfl, rfl⟩
  · rwa [hlen]
  · rwa [hlen]
  · rwa [hlen, value_encode_of_lt hx]

theorem MaskSize.exists_block (h : MaskSize c σ) (hi : i < 2 ^ (σ - c.ones)) :
    ∃ b : CIDR, b.ip = encode c.ip.length (value c.ip + i * 2 ^ blockBits c σ) ∧ b.ones = σ ∧
      value b.ip = value c.ip + i * 2 ^ blockBits c σ ∧ b.hostBits = blockBits c σ := by
  have hlt : value c.ip + i * 2 ^ blockBits c σ < 256 ^ c.ip.length := by
    have := h.add_le hi
    have := value_add_le c
    have := Nat.two_pow_pos (blockBits c σ)
    omega
  have hval := value_encode_of_lt hlt
  obtain ⟨b, hip, hones⟩ := exists_cidr c.length_ip h.le_length hlt (dvd_add h.dvd (dvd_mul_left _ i))
  refine ⟨b, hip, hones, by rw [hip, hval], ?_⟩
  rw [hostBits, hip, hones, length_encode, blockBits]

/-! ### Blocks and addresses -/

theorem intersect_iff : Intersect c d ↔ c.ip.length = d.ip.length ∧ value c.ip < value d.ip + 2 ^ d.hostBits ∧
    value d.ip < value c.ip + 2 ^ c.hostBits := by
  constructor
  · rintro ⟨ip, ⟨hlen, hlow, hhigh⟩, hlen', hlow', hhigh'⟩
    exact ⟨hlen.symm.trans hlen', hlow.trans_lt hhigh', hlow'.trans_lt hhigh⟩
  · rintro ⟨hlen, hcd, hdc⟩
    -- The larger of the two first addresses.
    have hc := Nat.two_pow_pos c.hostBits
    have hd := Nat.two_pow_pos d.hostBits
    rcases le_total (value c.ip) (value d.ip) with hle | hle
    · exact ⟨d.ip, ⟨hlen.symm, hle, hdc⟩, rfl, le_refl _, Nat.lt_add_of_pos_right hd⟩
    · exact ⟨c.ip, ⟨rfl, le_refl _, Nat.lt_add_of_pos_right hc⟩, hlen, hle, hcd⟩

theorem addresses_subset_iff : addresses d ⊆ addresses c ↔ d.ip.length = c.ip.length ∧ value c.ip ≤ value d.ip ∧
    value d.ip + 2 ^ d.hostBits ≤ value c.ip + 2 ^ c.hostBits := by
  have hpos := Nat.two_pow_pos d.hostBits
  have hbound := value_add_le d
  constructor
  · intro hsub
    obtain ⟨hlen, hlow, -⟩ := hsub (show d.ip ∈ addresses d from ⟨rfl, le_refl _, Nat.lt_add_of_pos_right hpos⟩)
    -- The last address of the inner network.
    have hlast : value (encode d.ip.length (value d.ip + 2 ^ d.hostBits - 1)) = value d.ip + 2 ^ d.hostBits - 1 :=
      value_encode_of_lt (by omega)
    obtain ⟨-, -, hhigh⟩ := hsub (show encode d.ip.length (value d.ip + 2 ^ d.hostBits - 1) ∈ addresses d from
      ⟨length_encode _ _, by omega, by omega⟩)
    exact ⟨hlen, hlow, by omega⟩
  · rintro ⟨hlen, hlow, hhigh⟩ ip ⟨hlen', hlow', hhigh'⟩
    exact ⟨hlen'.trans hlen, hlow.trans hlow', hhigh'.trans_le hhigh⟩

theorem net_inj (h : c.net = d.net) : c.ip = d.ip ∧ c.ones = d.ones := by
  have hip : c.ip = d.ip := congrArg IPNet.ip h
  have hmask := congrArg (fun net => maskSize net.mask) h
  simp only [net, maskSize_maskBytes c.ones_le, maskSize_maskBytes d.ones_le] at hmask
  exact ⟨hip, congrArg Prod.fst hmask⟩

/-! ### The set of a cluster -/

structure CidrSet.Of (c : CIDR) (size : Int) (s : CidrSet) : Prop where
  clusterCIDR_eq : s.clusterCIDR = c.net
  clusterIP_eq : s.clusterIP = c.ip
  clusterMaskSize_eq : s.clusterMaskSize = c.ones
  maxCIDRs_eq : s.maxCIDRs = oneShl (toUint 32 (size - c.ones))
  subNetMaskSize_eq : s.subNetMaskSize = size

theorem newCIDRSet_ok {size : Int} {s : CidrSet} (h : newCIDRSet c.net size = .ok s) :
    s.Of c size ∧ s.used = 0 ∧ (to4 c.ip = none → size - c.ones ≤ 16) := by
  have hones : (maskSize c.net.mask).1 = c.ones := by rw [net, maskSize_maskBytes c.ones_le]
  rw [newCIDRSet, hones] at h
  by_cases hlimit : (to4 c.net.ip).isNone ∧ 16 < size - c.ones
  · simp only [if_pos hlimit] at h
    cases h
  · simp only [if_neg hlimit] at h
    cases h
    refine ⟨⟨rfl, rfl, rfl, rfl, rfl⟩, rfl, fun hnone => ?_⟩
    by_contra hlt
    exact hlimit ⟨isNone_iff_eq_none.mpr hnone, not_le.mp hlt⟩

variable {s : CidrSet}

theorem CidrSet.Of.maxCIDRs (hs : s.Of c σ) (h : MaskSize c σ) (hdiff : σ - c.ones < 63) :
    s.maxCIDRs = 2 ^ (σ - c.ones) := by
  have hsub : (σ : Int) - c.ones = ((σ - c.ones : Nat) : Int) := by
    have := h.ones_le
    omega
  rw [hs.maxCIDRs_eq, hsub, toUint_eq (by omega), oneShl_eq hdiff]

def Plain (c : CIDR) : Prop := c.ip.length = 4 ∨ c.ip.length = 16 ∧ to4 c.ip = none

theorem cidrMask_eq (h : MaskSize c σ) : cidrMask σ (8 * c.ip.length) = maskBytes c.ip.length σ := by
  have hle := h.le_length
  have hlen : ¬ (8 * c.ip.length ≠ 32 ∧ 8 * c.ip.length ≠ 128) := by
    rcases c.length_ip with hn | hn
    · omega
    · omega
  rw [cidrMask, if_neg hlen, if_neg (by omega), Nat.mul_div_cancel_left _ (by decide), Int.toNat_natCast]

theorem value_halves (h : ip.length = 16) : value ip = uint64 ip * 2 ^ 64 + uint64 (ip.drop 8) := by
  have hsplit := value_append (ip.take 8) (ip.drop 8)
  have hdrop : (ip.drop 8).length = 8 := by rw [length_drop, h]
  rw [take_append_drop, hdrop] at hsplit
  rw [hsplit, uint64, uint64, take_of_length_le hdrop.le]
  rfl

theorem uint64_lt (bs : List UInt8) : uint64 bs < 2 ^ 64 := by
  have hle : (bs.take 8).length ≤ 8 := length_take_le _ _
  calc
    uint64 bs < 256 ^ (bs.take 8).length := value_lt _
    _ ≤ 256 ^ 8 := Nat.pow_le_pow_right (by decide) hle

theorem encode_halves {l r N : Nat} (hr : r < 2 ^ 64) (hN : N < 2 ^ 128) (h : l * 2 ^ 64 + r = N) :
    encode 8 l ++ encode 8 r = encode 16 N := by
  have hl : l < 2 ^ 64 := by omega
  apply value_inj
  · rw [length_append, length_encode, length_encode, length_encode]
  · rw [value_append, length_encode, value_encode_of_lt hl, value_encode_of_lt hr, value_encode_of_lt hN, ← h]
    rfl

section Halves

/- The cluster's number `L * 2 ^ 64 + R`, a multiple of `2 ^ h`, and an index for blocks of size `2 ^ b`. -/
variable {L R h b : Nat} (hR : R < 2 ^ 64) (hdvd : 2 ^ h ∣ L * 2 ^ 64 + R) (hi : i * 2 ^ b + 2 ^ b ≤ 2 ^ h)
include hR hdvd

theorem right_eq_zero (hh : 64 ≤ h) : R = 0 := by
  have hdvd' : 2 ^ 64 ∣ L * 2 ^ 64 + R := (pow_dvd_pow 2 hh).trans hdvd
  exact Nat.eq_zero_of_dvd_of_lt ((Nat.dvd_add_right (Nat.dvd_mul_left _ L)).mp hdvd') hR

theorem left_dvd {q : Nat} (hh : h = 64 + q) : 2 ^ q ∣ L := by
  have hzero := right_eq_zero hR hdvd (by omega)
  rw [hzero, add_zero, hh, pow_add, mul_comm] at hdvd
  exact Nat.dvd_of_mul_dvd_mul_right (by decide) hdvd

include hi

theorem halves_left (hh : h ≤ 128) (hb : 64 ≤ b) (hbh : b ≤ h) :
    (L ||| shl 64 i (b - 64)) * 2 ^ 64 + R = L * 2 ^ 64 + R + i * 2 ^ b := by
  obtain ⟨p, rfl⟩ := Nat.exists_eq_add_of_le hb
  obtain ⟨q, rfl⟩ := Nat.exists_eq_add_of_le (hb.trans hbh)
  have hlt : i * 2 ^ p < 2 ^ q := by
    have hlt : i * 2 ^ (64 + p) < 2 ^ (64 + q) := by
      have := Nat.two_pow_pos (64 + p)
      omega
    rw [pow_add, pow_add, mul_left_comm] at hlt
    exact Nat.lt_of_mul_lt_mul_left hlt
  have hpow : 2 ^ q ≤ 2 ^ 64 := Nat.pow_le_pow_right (by decide) (by omega)
  rw [Nat.add_sub_cancel_left, shl_eq (hlt.trans_le hpow), or_eq_add (left_dvd hR hdvd rfl) hlt, pow_add]
  ring

theorem halves_both (hb : b < 64) (hh : 64 < h) :
    (L ||| i / 2 ^ (64 - b)) * 2 ^ 64 + (R ||| i * 2 ^ b % 2 ^ 64) = L * 2 ^ 64 + R + i * 2 ^ b := by
  obtain ⟨q, rfl⟩ := Nat.exists_eq_add_of_le hh.le
  have hpow : 2 ^ b * 2 ^ (64 - b) = 2 ^ 64 := by rw [← pow_add, Nat.add_sub_cancel' hb.le]
  have hquot : i / 2 ^ (64 - b) = i * 2 ^ b / 2 ^ 64 := by
    rw [← hpow, Nat.mul_comm i, Nat.mul_div_mul_left _ _ (Nat.two_pow_pos b)]
  have hlt : i / 2 ^ (64 - b) < 2 ^ q := by
    rw [hquot]
    apply Nat.div_lt_of_lt_mul
    rw [← pow_add]
    have := Nat.two_pow_pos b
    omega
  rw [right_eq_zero hR hdvd (by omega), or_eq_add (left_dvd hR hdvd rfl) hlt, zero_or, hquot]
  omega

omit hR in
theorem halves_right (hh : h ≤ 64) : L * 2 ^ 64 + (R ||| shl 64 i b) = L * 2 ^ 64 + R + i * 2 ^ b := by
  have hlt : i * 2 ^ b < 2 ^ h := by
    have := Nat.two_pow_pos b
    omega
  have hpow : 2 ^ h ∣ 2 ^ 64 := pow_dvd_pow 2 hh
  have hdvdR : 2 ^ h ∣ R := (Nat.dvd_add_right (Nat.dvd_mul_left_of_dvd hpow L)).mp hdvd
  rw [shl_eq (hlt.trans_le (Nat.pow_le_pow_right (by decide) hh)), or_eq_add hdvdR hlt, Nat.add_assoc]

end Halves

theorem CidrSet.Of.halves_eq (hs : s.Of c σ) (h : MaskSize c σ) (hlen : c.ip.length = 16)
    (hi : i < 2 ^ (σ - c.ones)) (hi' : i < 2 ^ 64) : (s.halves i).2 < 2 ^ 64 ∧
      (s.halves i).1 * 2 ^ 64 + (s.halves i).2 = value c.ip + i * 2 ^ blockBits c σ := by
  have hV := value_halves hlen
  have hR := uint64_lt (c.ip.drop 8)
  have hmasked : 2 ^ c.hostBits ∣ value c.ip := c.masked
  have hones := h.ones_le
  have hle := h.le_length
  have hadd := h.add_le hi
  have hbits : blockBits c σ = 128 - σ := by rw [blockBits, hlen]
  have hhost : c.hostBits = 128 - c.ones := by rw [hostBits, hlen]
  rw [hbits, hhost] at hadd
  rw [hhost, hV] at hmasked
  rw [halves, hs.clusterIP_eq, hs.subNetMaskSize_eq, hs.clusterMaskSize_eq, hbits, hV]
  by_cases hσ : σ ≤ 64
  · have hcond : (σ : Int) ≤ 64 := by omega
    have hshift : toUint 64 (64 - (σ : Int)) = 128 - σ - 64 := by
      have hsub : (64 : Int) - σ = ((128 - σ - 64 : Nat) : Int) := by omega
      rw [hsub, toUint_eq (by omega)]
    simp only [if_pos hcond, hshift]
    exact ⟨hR, halves_left hR hmasked hadd (by omega) (by omega) (by omega)⟩
  · have hcond : ¬ (σ : Int) ≤ 64 := by omega
    have hbtl : toUint 64 ((σ : Int) - 64) = 64 - (128 - σ) := by
      have hsub : (σ : Int) - 64 = ((64 - (128 - σ) : Nat) : Int) := by omega
      rw [hsub, toUint_eq (by omega)]
    have hshift : toUint 64 (128 - (σ : Int)) = 128 - σ := by
      have hsub : (128 : Int) - σ = ((128 - σ : Nat) : Int) := by omega
      rw [hsub, toUint_eq (by omega)]
    simp only [if_neg hcond, hbtl, hshift]
    by_cases hcluster : c.ones < 64
    · -- Where the index does not reach the left half, its quotient is zero.
      have hleft : (if c.ones < 64 ∧ 64 - (128 - σ) < bitLength i then uint64 c.ip ||| shr 64 i (64 - (128 - σ))
          else uint64 c.ip) = uint64 c.ip ||| i / 2 ^ (64 - (128 - σ)) := by
        split_ifs with hreach
        · rw [shr_eq hi']
        · have hbl : bitLength i ≤ 64 - (128 - σ) := not_lt.mp fun hlt => hreach ⟨hcluster, hlt⟩
          have hzero : i / 2 ^ (64 - (128 - σ)) = 0 :=
            Nat.div_eq_of_lt ((lt_two_pow_bitLength i).trans_le (Nat.pow_le_pow_right (by decide) hbl))
          rw [hzero, or_zero]
      have hshl : shl 64 i (128 - σ) = i * 2 ^ (128 - σ) % 2 ^ 64 := by rw [shl, if_pos (by omega)]
      rw [hleft, hshl]
      exact ⟨or_lt_two_pow hR (mod_lt _ (by decide)), halves_both hR hmasked hadd (by omega) (by omega)⟩
    · have hleft : (if c.ones < 64 ∧ 64 - (128 - σ) < bitLength i then uint64 c.ip ||| shr 64 i (64 - (128 - σ))
          else uint64 c.ip) = uint64 c.ip := if_neg fun hand => hcluster hand.1
      have hshl : shl 64 i (128 - σ) < 2 ^ 64 := by
        rw [shl, if_pos (by omega)]
        exact mod_lt _ (by decide)
      rw [hleft]
      exact ⟨or_lt_two_pow hR hshl, halves_right hmasked hadd (by omega)⟩

theorem uint32_of_length (h : ip.length = 4) : uint32 ip = value ip := by rw [uint32, take_of_length_le h.le]

variable (hs : s.Of c σ) (h : MaskSize c σ)
include hs h

section
variable (hplain : Plain c) (hdiff : σ - c.ones ≤ 32) (hi : i < 2 ^ (σ - c.ones))
include hplain hdiff hi

/-- **The block of an index** is the cluster's number plus that many block sizes. -/
theorem CidrSet.Of.indexToCIDRBlock_eq : s.indexToCIDRBlock i =
      ⟨encode c.ip.length (value c.ip + i * 2 ^ blockBits c σ), maskBytes c.ip.length σ⟩ := by
  have hi32 : i < 2 ^ 32 := hi.trans_le (Nat.pow_le_pow_right (by decide) hdiff)
  have hadd := h.add_le hi
  have htotal := value_add_le c
  have hpos := Nat.two_pow_pos (blockBits c σ)
  rw [indexToCIDRBlock, hs.clusterIP_eq, hs.subNetMaskSize_eq, ← cidrMask_eq h]
  rcases hplain with hlen | ⟨hlen, hto4⟩
  · have hle := h.le_length
    have hshift : toUint 32 (32 - (σ : Int)) = blockBits c σ := by
      have hsub : (32 : Int) - σ = ((blockBits c σ : Nat) : Int) := by
        rw [blockBits]
        omega
      rw [hsub, toUint_eq]
      omega
    have hlt : i * 2 ^ blockBits c σ < 2 ^ c.hostBits := by omega
    have hhost : 2 ^ c.hostBits ≤ 2 ^ 32 := by
      rw [hlen] at htotal
      omega
    have hsome : (to4 c.ip).isSome = true := by rw [to4_of_length hlen, isSome_some]
    simp only [hsome, if_true, uint32_of_length hlen, hshift, mod_eq_of_lt hi32, shl_eq (hlt.trans_le hhost),
      or_eq_add c.masked hlt, hlen]
  · have hsome : (to4 c.ip).isSome = false := by rw [hto4, isSome_none]
    have h16 : (to16 c.ip).isSome = true := by
      rw [to16, if_neg (by rw [hlen]; decide), if_pos hlen, isSome_some]
    obtain ⟨hright, hnum⟩ := hs.halves_eq h hlen hi (hi32.trans (by decide))
    have hbound : value c.ip + i * 2 ^ blockBits c σ < 2 ^ 128 := by
      rw [hlen] at htotal
      omega
    simp only [hsome, h16, if_true, Bool.false_eq_true, if_false, encode_halves hright hbound hnum, hlen]

theorem CidrSet.Of.exists_block : ∃ b : CIDR, s.indexToCIDRBlock i = b.net ∧ b.ip.length = c.ip.length ∧ b.ones = σ ∧
      value b.ip = value c.ip + i * 2 ^ blockBits c σ ∧ b.hostBits = blockBits c σ := by
  obtain ⟨b, hip, hones, hval, hhost⟩ := h.exists_block hi
  have hlen : b.ip.length = c.ip.length := by rw [hip, length_encode]
  refine ⟨b, ?_, hlen, hones, hval, hhost⟩
  rw [hs.indexToCIDRBlock_eq h hplain hdiff hi, net, hlen, hones, hip]

end

/-- **The index of an address** is the quotient of its distance from the cluster's. -/
theorem CidrSet.Of.getIndexForIP_eq (hip : ip ∈ addresses c)
    (hform : c.ip.length = 4 ∧ σ - c.ones < 32 ∨ c.ip.length = 16 ∧ to4 ip = none ∧ σ - c.ones ≤ 32) :
    s.getIndexForIP ip = .ok ((value ip - value c.ip) / 2 ^ blockBits c σ) := by
  obtain ⟨hlen, hlow, hhigh⟩ := hip
  have hxor := xor_eq_sub c.masked hlow hhigh
  have hle := h.le_length
  have hbits : blockBits c σ = 8 * c.ip.length - σ := rfl
  have htotal := value_add_le c
  have hidx : (value ip - value c.ip) / 2 ^ blockBits c σ < 2 ^ (σ - c.ones) := by
    apply Nat.div_lt_of_lt_mul
    rw [Nat.mul_comm, ← h.pow_hostBits]
    omega
  have hmax : s.maxCIDRs = ((2 ^ (σ - c.ones) : Nat) : Int) := by
    rw [hs.maxCIDRs h (by omega)]
    norm_cast
  have hpow : 2 ^ (σ - c.ones) ≤ 2 ^ 32 := Nat.pow_le_pow_right (by decide) (by omega)
  rw [getIndexForIP, hs.clusterIP_eq, hs.subNetMaskSize_eq, hmax]
  rcases hform with ⟨h4, hdiff⟩ | ⟨h16, hnone, hdiff⟩
  · have hip4 : ip.length = 4 := hlen.trans h4
    have hshift : toUint 32 (32 - (σ : Int)) = blockBits c σ := by
      have hsub : (32 : Int) - σ = ((blockBits c σ : Nat) : Int) := by omega
      rw [hsub, toUint_eq (by omega)]
    have hlt : 2 ^ (σ - c.ones) < 2 ^ 32 := Nat.pow_lt_pow_right (by decide) hdiff
    rw [h4] at htotal
    rw [to4_of_length hip4]
    simp only
    rw [uint32_of_length h4, uint32_of_length hip4, hxor, hshift, shr_eq (by omega), toUint_eq hlt,
      if_neg (not_le.mpr hidx)]
  · have hip16 : ip.length = 16 := hlen.trans h16
    have hshift : toUint 64 (128 - (σ : Int)) = blockBits c σ := by
      have hsub : (128 : Int) - σ = ((blockBits c σ : Nat) : Int) := by omega
      rw [hsub, toUint_eq (by omega)]
    have hto16 : to16 ip = some ip := by rw [to16, if_neg (by rw [hip16]; decide), if_pos hip16]
    rw [h16] at htotal
    rw [hnone, hto16]
    simp only
    rw [hxor, hshift, shr_eq (by omega), mod_eq_of_lt (by omega), toUint_eq (by omega), if_neg (not_le.mpr hidx)]

end LeanKube.NodeIpam
