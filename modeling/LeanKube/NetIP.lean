import LeanKube.BigEndian

/-! Addresses and networks as the Go package `net` has them: byte strings with two forms of an IPv4
address, prefix masks, and the containment test, which compares masked bytes. A masked address is the
largest multiple of the network's size below it, so a network contains the addresses that have its
number after division by its size. -/

namespace LeanKube.Net
open List BigEndian Nat Option

abbrev IP := List UInt8

def v4InV6 : List UInt8 := [0, 0, 0, 0, 0, 0, 0, 0, 0, 0, 0xff, 0xff]

theorem length_v4InV6 : v4InV6.length = 12 := rfl

variable (ip : IP)

def to4 : Option IP :=
  if ip.length = 4 then some ip
  else if ip.length = 16 ∧ ip.take 12 = v4InV6 then some (ip.drop 12) else none

/-- `ip.To4()`, or `ip` itself where that is nil: the form in which networks compare addresses. -/
def normal : IP := (to4 ip).getD ip

def to16 : Option IP :=
  if ip.length = 4 then some (v4InV6 ++ ip) else if ip.length = 16 then some ip else none

def equal (ip x : IP) : Bool :=
  if ip.length = x.length then ip == x
  else if ip.length = 4 ∧ x.length = 16 then x.take 12 == v4InV6 && ip == x.drop 12
  else if ip.length = 16 ∧ x.length = 4 then ip.take 12 == v4InV6 && ip.drop 12 == x
  else false

/-! ### Masks -/

def partialByte (n : Nat) : UInt8 := ~~~((0xff : UInt8) >>> n.toUInt8)

def maskBytes : Nat → Nat → List UInt8
  | 0, _ => []
  | l + 1, n => if 8 ≤ n then 0xff :: maskBytes l (n - 8) else partialByte n :: maskBytes l 0

def cidrMask (ones : Int) (bits : Nat) : List UInt8 :=
  if bits ≠ 32 ∧ bits ≠ 128 then []
  else if ones < 0 ∨ bits < ones then []
  else maskBytes (bits / 8) ones.toNat

def shiftOnes : Nat → UInt8 → Nat × UInt8
  | 0, v => (0, v)
  | fuel + 1, v =>
    if v &&& 0x80 ≠ 0 then
      let (n, rest) := shiftOnes fuel (v <<< 1)
      (n + 1, rest)
    else (0, v)

def simpleMaskLength : List UInt8 → Option Nat
  | [] => some 0
  | v :: rest =>
    if v = 0xff then (simpleMaskLength rest).map (8 + ·)
    else
      let (n, v') := shiftOnes 8 v
      if v' ≠ 0 then none else if rest.all (· == 0) then some n else none

variable (mask : List UInt8)

def maskSize : Nat × Nat :=
  match simpleMaskLength mask with
  | some ones => (ones, 8 * mask.length)
  | none => (0, 0)

def applyMask : IP :=
  let mask := if mask.length = 16 ∧ ip.length = 4 ∧ mask.take 12 = List.replicate 12 0xff then mask.drop 12 else mask
  let ip := if mask.length = 4 ∧ ip.length = 16 ∧ ip.take 12 = v4InV6 then ip.drop 12 else ip
  if ip.length ≠ mask.length then [] else List.zipWith (· &&& ·) ip mask

/-! ### Networks -/

structure IPNet where
  ip : IP
  mask : List UInt8
  deriving DecidableEq, Repr

def IPNet.networkNumberAndMask (n : IPNet) : IP × List UInt8 :=
  let ip := normal n.ip
  if ip.length ≠ 4 ∧ ip.length ≠ 16 then ([], [])
  else if n.mask.length = 4 then
    if ip.length ≠ 4 then ([], []) else (ip, n.mask)
  else if n.mask.length = 16 then
    if ip.length = 4 then (ip, n.mask.drop 12) else (ip, n.mask)
  else ([], [])

def IPNet.contains (n : IPNet) (ip : IP) : Bool :=
  let (nn, m) := n.networkNumberAndMask
  let ip := normal ip
  if ip.length ≠ nn.length then false
  else List.zipWith (· &&& ·) nn m == List.zipWith (· &&& ·) ip m

/-! ### Masks and division -/

variable {ip x : IP} {l n : Nat}

@[simp] theorem length_maskBytes (l n : Nat) : (maskBytes l n).length = l := by
  induction l generalizing n with
  | zero => rfl
  | succ l ih =>
    rw [maskBytes]
    split_ifs
    · rw [length_cons, ih]
    · rw [length_cons, ih]

theorem and_partial_byte : ∀ n < 8, ∀ b < 256,
    (UInt8.ofNat b &&& partialByte n).toNat = b / 2 ^ (8 - n) * 2 ^ (8 - n) := by
  decide +kernel

theorem and_ff (b : UInt8) : b &&& 255 = b := by
  apply UInt8.toNat_inj.mp
  exact (and_two_pow_sub_one_eq_mod b.toNat 8).trans (mod_eq_of_lt b.toNat_lt)

theorem value_and_mask (hlen : ip.length = l) (hn : n ≤ 8 * l) : value (List.zipWith (· &&& ·) ip (maskBytes l n)) =
      value ip / 2 ^ (8 * l - n) * 2 ^ (8 * l - n) := by
  induction ip generalizing l n with
  | nil => rw [zipWith_nil_left, value_nil, Nat.zero_div, Nat.zero_mul]
  | cons b bs ih =>
    subst hlen
    rw [length_cons, maskBytes]
    have hzip : ∀ n, (List.zipWith (· &&& ·) bs (maskBytes bs.length n)).length = bs.length := by
      intro n
      rw [length_zipWith, length_maskBytes, min_self]
    split_ifs with h8
    · -- The byte is kept, and the cleared bits lie in the rest.
      have hsub : 8 * (bs.length + 1) - n = 8 * bs.length - (n - 8) := by omega
      have hle : 8 * bs.length - (n - 8) ≤ 8 * bs.length := sub_le _ _
      rw [zipWith_cons_cons, value_cons, hzip, ih rfl (by rw [length_cons] at hn; omega), hsub, value_cons]
      generalize 8 * bs.length - (n - 8) = h at hle
      have hpow : 256 ^ bs.length = 2 ^ h * 2 ^ (8 * bs.length - h) := by
        rw [← pow_add, Nat.add_sub_cancel' hle]
        exact (pow_mul 2 8 bs.length).symm
      have hff : (b &&& 255).toNat = b.toNat := by rw [and_ff]
      rw [hff, hpow, Nat.mul_left_comm, Nat.mul_add_div (Nat.two_pow_pos h), Nat.add_mul]
      ring
    · -- The rest is cleared, with the last bits of the byte.
      have hbyte := and_partial_byte n (by omega) b.toNat b.toNat_lt
      rw [UInt8.ofNat_toNat] at hbyte
      have hsub : 8 * (bs.length + 1) - n = 8 * bs.length + (8 - n) := by omega
      have hpow : (2 : Nat) ^ (8 * bs.length) = 256 ^ bs.length := pow_mul 2 8 bs.length
      rw [zipWith_cons_cons, value_cons, hzip, hbyte, ih rfl (zero_le _), hsub, pow_add, value_cons,
        Nat.sub_zero, hpow, Nat.div_eq_of_lt (value_lt bs), Nat.zero_mul, Nat.add_zero,
        ← Nat.div_div_eq_div_mul, Nat.mul_comm b.toNat, Nat.mul_add_div (Nat.pow_pos (by decide)),
        div_eq_of_lt (value_lt bs), add_zero]
      ring

theorem maskBytes_succ (l n : Nat) :
    maskBytes (l + 1) n = (if 8 ≤ n then 0xff else partialByte n) :: maskBytes l (n - 8) := by
  rw [maskBytes]
  split_ifs with h8
  · rfl
  · rw [Nat.sub_eq_zero_of_le (not_le.mp h8).le]

theorem drop_maskBytes {k : Nat} (hk : k ≤ l) : (maskBytes l n).drop k = maskBytes (l - k) (n - 8 * k) := by
  induction k generalizing l n with
  | zero => rfl
  | succ k ih =>
    obtain ⟨l, rfl⟩ : ∃ l', l = l' + 1 := ⟨l - 1, by omega⟩
    rw [maskBytes_succ, drop_succ_cons, ih (by omega), Nat.add_sub_add_right, Nat.sub_sub, Nat.add_comm 8, ← mul_succ]

theorem take_maskBytes {k : Nat} (hk : k ≤ l) : (maskBytes l n).take k = maskBytes k n := by
  induction k generalizing l n with
  | zero => rfl
  | succ k ih =>
    obtain ⟨l, rfl⟩ : ∃ l', l = l' + 1 := ⟨l - 1, by omega⟩
    rw [maskBytes_succ, maskBytes_succ, take_succ_cons, ih (by omega)]

theorem toNat_partialByte : ∀ n < 8, (partialByte n).toNat + 2 ^ (8 - n) = 256 := by decide

theorem value_maskBytes (l n : Nat) : value (maskBytes l n) + 2 ^ (8 * l - n) = 256 ^ l := by
  induction l generalizing n with
  | zero => rw [maskBytes, value_nil, Nat.mul_zero, Nat.zero_sub, pow_zero, pow_zero, Nat.zero_add]
  | succ l ih =>
    rw [maskBytes_succ, value_cons, length_maskBytes, pow_succ]
    by_cases h8 : 8 ≤ n
    · have hrest := ih (n - 8)
      rw [show 8 * l - (n - 8) = 8 * (l + 1) - n by omega] at hrest
      rw [if_pos h8, add_assoc, hrest, show (255 : UInt8).toNat = 255 from rfl]
      ring
    · have hbyte := toNat_partialByte n (by omega)
      have hpow : (2 : Nat) ^ (8 * (l + 1) - n) = 2 ^ (8 - n) * 256 ^ l := by
        rw [show 8 * (l + 1) - n = (8 - n) + 8 * l by omega, pow_add]
        exact congrArg _ (pow_mul 2 8 l)
      have hrest : value (maskBytes l (n - 8)) = 0 := by
        have hzero := ih 0
        rw [Nat.sub_zero, show (2 : Nat) ^ (8 * l) = 256 ^ l from pow_mul 2 8 l] at hzero
        rw [Nat.sub_eq_zero_of_le (not_le.mp h8).le]
        omega
      rw [if_neg h8, hrest, hpow, add_zero, ← add_mul, hbyte, mul_comm]

theorem maskBytes_zero (l : Nat) : (maskBytes l 0).all (· == 0) = true := by
  induction l with
  | zero => rfl
  | succ l ih =>
    rw [maskBytes, if_neg (by decide), all_cons, ih]
    decide

theorem shiftOnes_partialByte : ∀ n < 8, partialByte n ≠ 0xff ∧ shiftOnes 8 (partialByte n) = (n, 0) := by
  decide

theorem simpleMaskLength_maskBytes (hn : n ≤ 8 * l) : simpleMaskLength (maskBytes l n) = some n := by
  induction l generalizing n with
  | zero =>
    obtain rfl : n = 0 := by omega
    rfl
  | succ l ih =>
    rw [maskBytes]
    split_ifs with h8
    · rw [simpleMaskLength, if_pos rfl, ih (by omega), Option.map_some, Nat.add_sub_cancel' h8]
    · obtain ⟨hne, hshift⟩ := shiftOnes_partialByte n (by omega)
      rw [simpleMaskLength, if_neg hne, hshift]
      simp only [ne_eq, not_true_eq_false, if_false, maskBytes_zero, if_true]

theorem maskSize_maskBytes (hn : n ≤ 8 * l) : maskSize (maskBytes l n) = (n, 8 * l) := by
  rw [maskSize, simpleMaskLength_maskBytes hn, length_maskBytes]

theorem applyMask_of_length {mask : List UInt8} (h : ip.length = mask.length) :
    applyMask ip mask = List.zipWith (· &&& ·) ip mask := by
  have hmask : ¬ (mask.length = 16 ∧ ip.length = 4 ∧ mask.take 12 = List.replicate 12 0xff) := by
    omega
  have hip : ¬ (mask.length = 4 ∧ ip.length = 16 ∧ ip.take 12 = v4InV6) := by
    omega
  rw [applyMask]
  simp only [if_neg hmask, if_neg hip]
  rw [if_neg (not_not.mpr h)]

theorem value_applyMask (h : ip.length = l) (hn : n ≤ 8 * l) : (applyMask ip (maskBytes l n)).length = l ∧
    value (applyMask ip (maskBytes l n)) = value ip / 2 ^ (8 * l - n) * 2 ^ (8 * l - n) := by
  have hlen : ip.length = (maskBytes l n).length := by rw [length_maskBytes, h]
  rw [applyMask_of_length hlen]
  exact ⟨by rw [length_zipWith, ← hlen, min_self, h], value_and_mask h hn⟩

/-! ### Forms of an address -/

theorem to4_of_length (h : ip.length = 4) : to4 ip = some ip := if_pos h

theorem to4_eq_some (h : to4 ip = some x) :
    ip.length = 4 ∧ x = ip ∨ ip.length = 16 ∧ ip = v4InV6 ++ x ∧ x.length = 4 := by
  rw [to4] at h
  split_ifs at h with h4 h16
  · exact .inl ⟨h4, (some.inj h).symm⟩
  · obtain rfl := some.inj h
    refine .inr ⟨h16.1, ?_, by rw [length_drop, h16.1]⟩
    rw [← h16.2, take_append_drop]

theorem to4_mapped (h : x.length = 4) : to4 (v4InV6 ++ x) = some x := by
  have hlen : (v4InV6 ++ x).length = 16 := by rw [length_append, h, length_v4InV6]
  rw [to4, if_neg (by rw [hlen]; decide), if_pos ⟨hlen, take_left' length_v4InV6⟩]
  exact congrArg some (drop_left' length_v4InV6)

theorem to4_eq_none_iff (h : ip.length = 16) : to4 ip = none ↔ ¬ (0xffff * 2 ^ 32 ≤ value ip ∧ value ip < 2 ^ 48) := by
  have hsplit : ip.take 12 ++ ip.drop 12 = ip := take_append_drop 12 ip
  have hdrop : (ip.drop 12).length = 4 := by rw [length_drop, h]
  have htake : (ip.take 12).length = 12 := by rw [length_take, h]; rfl
  have hval : value ip = value (ip.take 12) * 2 ^ 32 + value (ip.drop 12) := by
    have happend := value_append (ip.take 12) (ip.drop 12)
    rw [hsplit, hdrop] at happend
    exact happend
  have hlow := value_lt (ip.drop 12)
  rw [hdrop] at hlow
  have hmapped : value v4InV6 = 0xffff := by decide
  rw [to4, if_neg (by rw [h]; decide)]
  by_cases hv4 : ip.take 12 = v4InV6
  · rw [if_pos ⟨h, hv4⟩, hval, hv4, hmapped]
    exact ⟨fun hnone => absurd hnone (some_ne_none _), fun hnot => absurd ⟨by omega, by omega⟩ hnot⟩
  · rw [if_neg fun hand => hv4 hand.2, hval]
    refine ⟨fun _ hand => hv4 (value_inj htake ?_), fun _ => rfl⟩
    omega

theorem normal_of_four (h : ip.length = 4) : normal ip = ip := by rw [normal, to4_of_length h, getD_some]

theorem length_normal (h : ip.length = 4 ∨ ip.length = 16) :
    (normal ip).length = 4 ∨ (normal ip).length = 16 ∧ to4 ip = none := by
  rw [normal]
  cases hto4 : to4 ip with
  | some =>
    rcases to4_eq_some hto4 with ⟨h4, rfl⟩ | ⟨-, -, h4⟩
    · exact .inl h4
    · exact .inl h4
  | none =>
    rcases h with h | h
    · rw [to4_of_length h] at hto4
      cases hto4
    · exact .inr ⟨h, rfl⟩

theorem normal_of_length_eq (h : (normal ip).length = ip.length) : normal ip = ip := by
  rw [normal] at h ⊢
  cases hto4 : to4 ip with
  | none => rfl
  | some =>
    rw [hto4, getD_some] at h
    rcases to4_eq_some hto4 with ⟨-, rfl⟩ | ⟨_, -, _⟩
    · rfl
    · omega

theorem equal_normal (ip : IP) : equal (normal ip) ip = true := by
  rw [normal]
  cases hto4 : to4 ip with
  | none => rw [getD_none, equal, if_pos rfl, beq_self_eq_true]
  | some =>
    rw [getD_some, equal]
    rcases to4_eq_some hto4 with ⟨-, rfl⟩ | ⟨h16, rfl, h4⟩
    · rw [if_pos rfl, beq_self_eq_true]
    · rw [if_neg (by rw [h16, h4]; decide), if_pos ⟨h4, h16⟩, take_left' length_v4InV6, drop_left' length_v4InV6,
        beq_self_eq_true, beq_self_eq_true, Bool.and_self]

theorem normal_eq_of_equal (h : equal ip x = true) : normal ip = normal x := by
  have hmapped : ∀ {y z : IP}, y.length = 4 → z.length = 16 → z.take 12 = v4InV6 → y = z.drop 12 →
      normal y = normal z := by
    intro y z hy hz htake heq
    have hz' : z = v4InV6 ++ y := by rw [← htake, heq, take_append_drop]
    rw [normal_of_four hy, normal, hz', to4_mapped hy, getD_some]
  rw [equal] at h
  split_ifs at h with hsame h4 h16
  · rw [beq_iff_eq.mp h]
  · rw [Bool.and_eq_true, beq_iff_eq, beq_iff_eq] at h
    exact hmapped h4.1 h4.2 h.1 h.2
  · rw [Bool.and_eq_true, beq_iff_eq, beq_iff_eq] at h
    exact (hmapped h16.2 h16.1 h.1 h.2.symm).symm

theorem normal_of_head {b : UInt8} (h : ip.head? = some b) (hb : b ≠ 0) : normal ip = ip := by
  rw [normal]
  cases hto4 : to4 ip with
  | none => rfl
  | some =>
    rcases to4_eq_some hto4 with ⟨-, rfl⟩ | ⟨-, rfl, -⟩
    · rfl
    · exact absurd (some.inj h).symm hb

theorem div_eq_div_iff {d v m : Nat} (hd : 0 < d) (hv : d ∣ v) : m / d = v / d ↔ v ≤ m ∧ m < v + d := by
  obtain ⟨q, rfl⟩ := hv
  rw [Nat.mul_div_cancel_left q hd, Nat.div_eq_iff hd, Nat.mul_comm q d]
  omega

theorem add_le_of_dvd_of_lt {d v w : Nat} (hv : d ∣ v) (hw : d ∣ w) (h : v < w) : v + d ≤ w := by
  obtain ⟨p, rfl⟩ := hv
  obtain ⟨q, rfl⟩ := hw
  exact Nat.mul_le_mul_left d (Nat.lt_of_mul_lt_mul_left h)

theorem two_pow_dvd_pow {h k : Nat} (hk : h ≤ 8 * k) : 2 ^ h ∣ 256 ^ k :=
  (pow_dvd_pow 2 hk).trans (dvd_of_eq (pow_mul 2 8 k))

/-! ### Prefix networks -/

/-- A network as `net.ParseCIDR` returns it: the bits of the address after the mask are zero. -/
structure CIDR where
  ip : IP
  ones : Nat
  length_ip : ip.length = 4 ∨ ip.length = 16
  ones_le : ones ≤ 8 * ip.length
  masked : 2 ^ (8 * ip.length - ones) ∣ value ip

namespace CIDR
variable (c : CIDR)

def hostBits : Nat := 8 * c.ip.length - c.ones

def net : IPNet := ⟨c.ip, maskBytes c.ip.length c.ones⟩

variable {c}

theorem dvd : 2 ^ c.hostBits ∣ value c.ip := c.masked

theorem value_applyMask (h : ip.length = c.ip.length) : (applyMask ip c.net.mask).length = c.ip.length ∧
    value (applyMask ip c.net.mask) = value ip / 2 ^ c.hostBits * 2 ^ c.hostBits :=
  Net.value_applyMask h c.ones_le

theorem le_ones_of_mapped {x : IP} (h : c.ip = v4InV6 ++ x) (hx : x.length = 4) : 96 ≤ c.ones := by
  by_contra hlt
  have hlen : c.ip.length = 16 := by rw [h, length_append, hx, length_v4InV6]
  have hdvd : 2 ^ 33 ∣ value c.ip := by
    refine dvd_trans (pow_dvd_pow 2 ?_) c.masked
    omega
  have hval : value c.ip = 0xffff * 2 ^ 32 + value x := by
    rw [h, value_append, hx]
    rfl
  have hx' : value x < 2 ^ 32 := by
    have := value_lt x
    rwa [hx] at this
  omega

theorem forms (c : CIDR) : c.ip.length = 4 ∧ normal c.ip = c.ip ∨
    c.ip.length = 16 ∧ to4 c.ip = none ∧ normal c.ip = c.ip ∨
      c.ip.length = 16 ∧ ∃ x, c.ip = v4InV6 ++ x ∧ x.length = 4 ∧ normal c.ip = x ∧ 96 ≤ c.ones := by
  rw [normal]
  cases hto4 : to4 c.ip with
  | none =>
    have hlen : c.ip.length = 16 := c.length_ip.resolve_left fun h4 => by
      rw [to4_of_length h4] at hto4
      cases hto4
    exact .inr (.inl ⟨hlen, rfl, rfl⟩)
  | some x =>
    rcases to4_eq_some hto4 with ⟨hlen, rfl⟩ | ⟨hlen, hmapped, hx⟩
    · exact .inl ⟨hlen, rfl⟩
    · exact .inr (.inr ⟨hlen, x, hmapped, hx, rfl, le_ones_of_mapped hmapped hx⟩)

theorem hostBits_le : c.hostBits ≤ 8 * (normal c.ip).length := by
  rw [hostBits]
  rcases c.forms with ⟨-, hnormal⟩ | ⟨-, -, hnormal⟩ | ⟨hlen, x, -, hx, hnormal, _⟩
  · rw [hnormal]
    exact sub_le _ _
  · rw [hnormal]
    exact sub_le _ _
  · rw [hnormal, hlen, hx]
    omega

theorem dvd_normal : 2 ^ c.hostBits ∣ value (normal c.ip) := by
  have hmasked := c.masked
  rcases c.forms with ⟨-, hnormal⟩ | ⟨-, -, hnormal⟩ | ⟨hlen, x, hmapped, hx, hnormal, _⟩
  · rwa [hnormal]
  · rwa [hnormal]
  · -- The bytes in front stand for a multiple of the number of IPv4 addresses.
    have hle : c.hostBits ≤ 32 := by
      rw [hostBits, hlen]
      omega
    rw [hnormal]
    change 2 ^ c.hostBits ∣ value c.ip at hmasked
    rw [hmapped, value_append, hx, show (256 : Nat) ^ 4 = 2 ^ 32 from rfl] at hmasked
    exact (Nat.dvd_add_right (Nat.dvd_mul_left_of_dvd (Nat.pow_dvd_pow 2 hle) _)).mp hmasked

theorem networkNumberAndMask_net (c : CIDR) : c.net.networkNumberAndMask =
    (normal c.ip, maskBytes (normal c.ip).length (8 * (normal c.ip).length - c.hostBits)) := by
  have hones := c.ones_le
  rw [hostBits, IPNet.networkNumberAndMask]
  simp only [net, length_maskBytes]
  rcases c.forms with ⟨hlen, hnormal⟩ | ⟨hlen, -, hnormal⟩ | ⟨hlen, x, -, hx, hnormal, _⟩
  · rw [hlen] at hones
    simp [hnormal, hlen, Nat.sub_sub_self hones]
  · rw [hlen] at hones
    simp [hnormal, hlen, Nat.sub_sub_self hones]
  · have hmask : (maskBytes 16 c.ones).drop 12 = maskBytes 4 (32 - (128 - c.ones)) := by
      rw [drop_maskBytes (by decide)]
      congr 1
      omega
    simp [hnormal, hlen, hx, hmask]

theorem contains_iff : c.net.contains ip = true ↔ (normal ip).length = (normal c.ip).length ∧
    value (normal ip) / 2 ^ c.hostBits = value (normal c.ip) / 2 ^ c.hostBits := by
  rw [IPNet.contains, networkNumberAndMask_net]
  simp only
  by_cases hlen : (normal ip).length = (normal c.ip).length
  · rw [if_neg (not_not.mpr hlen), beq_iff_eq]
    have hmask : ∀ {x : IP}, x.length = (normal c.ip).length →
        value (List.zipWith (· &&& ·) x (maskBytes (normal c.ip).length (8 * (normal c.ip).length - c.hostBits))) =
          value x / 2 ^ c.hostBits * 2 ^ c.hostBits := by
      intro x hx
      rw [value_and_mask hx (Nat.sub_le _ _), Nat.sub_sub_self hostBits_le]
    constructor
    · intro heq
      have hval := congrArg value heq
      rw [hmask rfl, hmask hlen] at hval
      exact ⟨hlen, (Nat.eq_of_mul_eq_mul_right (Nat.two_pow_pos _) hval).symm⟩
    · rintro ⟨-, hdiv⟩
      apply value_inj
      · rw [length_zipWith, length_zipWith, hlen]
      · rw [hmask rfl, hmask hlen, hdiv]
  · rw [if_pos hlen]
    exact ⟨fun h => absurd h Bool.false_ne_true, fun h => absurd h.1 hlen⟩

theorem contains_iff_le : c.net.contains ip = true ↔ (normal ip).length = (normal c.ip).length ∧
    value (normal c.ip) ≤ value (normal ip) ∧ value (normal ip) < value (normal c.ip) + 2 ^ c.hostBits := by
  rw [contains_iff, div_eq_div_iff (Nat.two_pow_pos _) dvd_normal]

theorem add_le_pow : value (normal c.ip) + 2 ^ c.hostBits ≤ 256 ^ (normal c.ip).length :=
  add_le_of_dvd_of_lt dvd_normal (two_pow_dvd_pow hostBits_le) (value_lt _)

end CIDR
end LeanKube.Net
