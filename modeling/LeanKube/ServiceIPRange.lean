import LeanKube.AllocationBitmap
import LeanKube.NetIP

/-! The service IP range (`pkg/registry/core/service/ipallocator`): the addresses of a network between
its first and its last one, allocated by their offsets in a bitmap. An offset is turned into an address
by taking the bytes of a number, without leading zeros, so the correspondence needs a network whose
first byte is not zero. -/

namespace LeanKube.IPAllocator
open Net Allocator BigEndian BitSets Option AllocationBitmap CIDR

/-! ### The model -/

inductive RangeError where
  | full
  | allocated
  | mismatchedNetwork
  | notInRange (validRange : String)
  deriving DecidableEq, Repr

section Model

/- `ipString` is `IP.String`, which only names the range. -/
variable (ipString : IP → String)

def maskString (mask : List UInt8) : String :=
  if mask = [] then "<nil>"
  else String.ofList (mask.flatMap fun b => [Nat.digitChar (b.toNat / 16), Nat.digitChar (b.toNat % 16)])

def netString (n : IPNet) : String :=
  let (nn, m) := n.networkNumberAndMask
  if nn = [] ∨ m = [] then "<nil>"
  else match simpleMaskLength m with
    | some l => ipString nn ++ "/" ++ toString l
    | none => ipString nn ++ "/" ++ maskString m

def bigForIP (ip : IP) : Nat := value (((to4 ip).or (to16 ip)).getD [])

def addIPOffset (base offset : Nat) : IP := bytes (base + offset)

def calculateIPOffset (base : Nat) (ip : IP) : Int := ((bigForIP ip : Int) - base).bmod (2 ^ 64)

def rangeSize (subnet : IPNet) : Int :=
  let (ones, bits) := maskSize subnet.mask
  if bits = 32 ∧ 31 ≤ bits - ones ∨ bits = 128 ∧ 127 ≤ bits - ones then 0
  else if bits = 128 ∧ 16 ≤ bits - ones then 2 ^ 16
  else 2 ^ (bits - ones)

def getIndexedIP (subnet : IPNet) (index : Nat) : Except String IP :=
  let ip := addIPOffset (bigForIP subnet.ip) index
  if !subnet.contains ip then
    .error ("can't generate IP with index " ++ toString index ++ " from subnet. subnet too small. subnet: \"" ++
      netString ipString subnet ++ "\"")
  else .ok ip

structure Range where
  net : IPNet
  base : Nat
  max : Nat
  alloc : AllocationBitmap
  deriving DecidableEq, Repr

namespace Range

def newCIDRRange (cidr : IPNet) : Range :=
  let max := (rangeSize cidr - 2).toNat
  { net := cidr
    base := bigForIP cidr.ip + 1
    max := max
    alloc := .newAllocationMap max (netString ipString cidr) }

variable (r : Range) (ip : IP)

def contains : Option Nat :=
  if !r.net.contains ip then none
  else
    let offset := calculateIPOffset r.base ip
    if offset < 0 ∨ r.max ≤ offset then none else some offset.toNat

def allocate : Range × Except RangeError Unit :=
  match r.contains ip with
  | none => (r, .error (.notInRange (netString ipString r.net)))
  | some offset =>
    match r.alloc.allocate offset with
    | (alloc, false) => ({ r with alloc := alloc }, .error .allocated)
    | (alloc, true) => ({ r with alloc := alloc }, .ok ())

def allocateNext (rand : Nat) : Range × Except RangeError IP :=
  match r.alloc.allocateNext rand with
  | (alloc, none) => ({ r with alloc := alloc }, .error .full)
  | (alloc, some offset) => ({ r with alloc := alloc }, .ok (addIPOffset r.base offset))

def release : Range :=
  match r.contains ip with
  | none => r
  | some offset => { r with alloc := r.alloc.release offset }

/-- `ForEach`: the addresses that the function is called with, where no bytes stand for nil. -/
def forEach : List IP :=
  r.alloc.forEach.map fun offset =>
    match getIndexedIP ipString r.net (offset + 1) with
    | .ok ip => ip
    | .error _ => []

def has : Bool :=
  match r.contains ip with
  | none => false
  | some offset => r.alloc.has offset

def snapshot : String × List UInt8 := r.alloc.snapshot

def restore (net : IPNet) (data : List UInt8) : Range × Except RangeError Unit :=
  if !equal net.ip r.net.ip ∨ maskString net.mask ≠ maskString r.net.mask then (r, .error .mismatchedNetwork)
  else match r.alloc.restore (netString ipString net) data with
    | .ok alloc => ({ r with alloc := alloc }, .ok ())
    | .error _ => (r, .ok ())

end Range

/-- The ranges that a sequence of operations makes for a network. What is restored is a snapshot of such
a range, of this one or of another. -/
inductive Reachable (c : CIDR) : Range → Prop where
  | new : Reachable c (.newCIDRRange ipString c.net)
  | allocate {r : Range} (ip : IP) : Reachable c r → Reachable c (r.allocate ipString ip).1
  | allocateNext {r : Range} (rand : Nat) : Reachable c r → Reachable c (r.allocateNext rand).1
  | release {r : Range} (ip : IP) : Reachable c r → Reachable c (r.release ip)
  | restore {r saved : Range} (net : IPNet) :
      Reachable c r → Reachable c saved → Reachable c (r.restore ipString net saved.snapshot.2).1

end Model

/-! ### What a range is for -/

def Range.address (r : Range) (offset : Nat) : IP := addIPOffset r.base offset

variable (c : CIDR)

def lastAddress : IP := encode (normal c.ip).length (value (normal c.ip) + 2 ^ c.hostBits - 1)

def Usable (ip : IP) : Prop :=
  c.net.contains ip = true ∧ equal ip c.ip = false ∧ equal ip (lastAddress c) = false

def leadingByte : UInt8 := (normal c.ip).headD 0

/-- The range is a set of addresses of the network: the offsets and the addresses correspond, and each
operation is about the bit of its address. -/
structure Range.Exact (ipString : IP → String) (c : CIDR) (r : Range) : Prop where
  count_eq : r.alloc.count = (bits r.alloc.allocated).card
  /-- `AllocateNext` succeeds when an offset in the range is free. -/
  allocateNext_isOk :
    ∀ rand, (∃ ip, (r.allocateNext rand).2 = .ok ip) ↔ ∃ offset < r.max, offset ∉ bits r.alloc.allocated
  /-- It returns the address of an offset that was free, and takes that offset. -/
  allocateNext_ok : ∀ rand ip, (r.allocateNext rand).2 = .ok ip →
    ∃ offset < r.max, offset ∉ bits r.alloc.allocated ∧ ip = r.address offset ∧
      bits (r.allocateNext rand).1.alloc.allocated = insert offset (bits r.alloc.allocated)
  contains_address : ∀ offset < r.max, r.contains (r.address offset) = some offset
  address_contains : ∀ ip offset, r.contains ip = some offset → offset < r.max ∧ equal (r.address offset) ip = true
  /-- The addresses that can be handed out lie inside of the network. -/
  usable : ∀ offset < r.max, Usable c (r.address offset)
  /-- `Allocate` takes the offset of the address, if that is in the range and free. -/
  allocate_ok : ∀ ip, (r.allocate ipString ip).2 = .ok () →
    ∃ offset < r.max, offset ∉ bits r.alloc.allocated ∧ equal (r.address offset) ip = true ∧
      bits (r.allocate ipString ip).1.alloc.allocated = insert offset (bits r.alloc.allocated)
  /-- `Has` reads the bit of the address. -/
  has_iff : ∀ ip, r.has ip = true ↔ ∃ offset ∈ bits r.alloc.allocated, equal (r.address offset) ip = true
  /-- `Release` clears the bit of the address and no other. -/
  mem_release : ∀ ip offset, offset ∈ bits (r.release ip).alloc.allocated ↔
    offset ∈ bits r.alloc.allocated ∧ equal (r.address offset) ip = false
  /-- `ForEach` is called with the address of each set bit, once. -/
  forEach_eq : r.forEach ipString = r.alloc.allocated.bitIndices.map r.address

/-! ### Numbers of addresses -/

theorem bigForIP_eq (ip : IP) : bigForIP ip =
    if (normal ip).length = 4 ∨ (normal ip).length = 16 then value (normal ip) else 0 := by
  rw [bigForIP, normal]
  cases hto4 : to4 ip with
  | some x =>
    have hx : x.length = 4 := by
      rcases to4_eq_some hto4 with ⟨h4, rfl⟩ | ⟨-, -, h4⟩
      · exact h4
      · exact h4
    rw [some_or, getD_some, getD_some, if_pos (.inl hx)]
  | none =>
    have h4 : ip.length ≠ 4 := fun h => by
      rw [to4_of_length h] at hto4
      cases hto4
    rw [none_or, to16, if_neg h4, getD_none]
    by_cases h16 : ip.length = 16
    · rw [if_pos h16, if_pos (.inr h16), getD_some]
    · rw [if_neg h16, if_neg (not_or.mpr ⟨h4, h16⟩), getD_none, value_nil]

variable {ipString : IP → String} {c : CIDR} {r : Range} {ip x : IP} {offset rand : Nat}

theorem Range.contains_congr (h : normal ip = normal x) : r.contains ip = r.contains x := by
  rw [Range.contains, Range.contains, calculateIPOffset, calculateIPOffset, bigForIP_eq, bigForIP_eq, IPNet.contains,
    IPNet.contains, h]

theorem length_normal_ip (c : CIDR) : (normal c.ip).length = 4 ∨ (normal c.ip).length = 16 :=
  (length_normal c.length_ip).imp_right And.left

theorem bigForIP_ip (c : CIDR) : bigForIP c.ip = value (normal c.ip) := by
  rw [bigForIP_eq, if_pos (length_normal_ip c)]

def usableSize (c : CIDR) : Nat := (rangeSize c.net - 2).toNat

theorem rangeSize_eq (hle : c.hostBits ≤ 20) :
    rangeSize c.net = 2 ^ c.hostBits ∨ 16 ≤ c.hostBits ∧ rangeSize c.net = 2 ^ 16 := by
  rw [hostBits] at *
  rw [rangeSize, net, maskSize_maskBytes c.ones_le]
  simp only
  rw [if_neg (by omega)]
  by_cases hlarge : 8 * c.ip.length = 128 ∧ 16 ≤ 8 * c.ip.length - c.ones
  · exact .inr ⟨hlarge.2, if_pos hlarge⟩
  · exact .inl (if_neg hlarge)

theorem usableSize_pos (hge : 2 ≤ c.hostBits) (hle : c.hostBits ≤ 20) : 0 < usableSize c := by
  have hfour : (2 : Int) ^ 2 ≤ 2 ^ c.hostBits := pow_le_pow_right₀ (by decide) hge
  rw [usableSize]
  rcases rangeSize_eq hle with hsize | ⟨-, hsize⟩
  · omega
  · rw [hsize]
    decide

theorem usableSize_le (hge : 2 ≤ c.hostBits) (hle : c.hostBits ≤ 20) : usableSize c + 2 ≤ 2 ^ c.hostBits := by
  have hfour : (2 : Int) ^ 2 ≤ 2 ^ c.hostBits := pow_le_pow_right₀ (by decide) hge
  have hcast : ((2 ^ c.hostBits : Nat) : Int) = 2 ^ c.hostBits := by norm_cast
  rw [usableSize]
  rcases rangeSize_eq hle with hsize | ⟨hlarge, hsize⟩
  · omega
  · have hpow : (2 : Nat) ^ 16 ≤ 2 ^ c.hostBits := Nat.pow_le_pow_right (by decide) hlarge
    omega

/-! ### The ranges of a network -/

structure Range.Of (ipString : IP → String) (c : CIDR) (r : Range) : Prop where
  net_eq : r.net = c.net
  base_eq : r.base = value (normal c.ip) + 1
  max_eq : r.max = usableSize c
  alloc_max : r.alloc.max = r.max
  rangeSpec_eq : r.alloc.rangeSpec = netString ipString c.net
  valid : r.alloc.Valid

theorem Range.Of.set (h : r.Of ipString c) {alloc : AllocationBitmap} (halloc : alloc.ValidAs r.alloc) :
    { r with alloc := alloc : Range }.Of ipString c where
  __ := h
  alloc_max := halloc.max_eq.trans h.alloc_max
  rangeSpec_eq := halloc.rangeSpec_eq.trans h.rangeSpec_eq
  valid := halloc.valid

theorem Range.contains_eq_some_iff : r.contains ip = some offset ↔
    r.net.contains ip = true ∧ calculateIPOffset r.base ip = offset ∧ offset < r.max := by
  rw [Range.contains]
  cases r.net.contains ip with
  | false => simp
  | true =>
    rw [if_neg (by decide)]
    simp only [true_and]
    by_cases hrange : calculateIPOffset r.base ip < 0 ∨ r.max ≤ calculateIPOffset r.base ip
    · rw [if_pos hrange]
      constructor
      · intro h
        cases h
      · omega
    · rw [if_neg hrange, some.injEq]
      omega

theorem Range.Of.restore (h : r.Of ipString c) {saved : Range} (hsaved : saved.Of ipString c) (net : IPNet) :
    (r.restore ipString net saved.snapshot.2).1.Of ipString c := by
  rw [Range.restore]
  split_ifs
  · exact h
  · cases halloc : r.alloc.restore (netString ipString net) saved.snapshot.2 with
    | error => exact h
    | ok =>
      have hmax : saved.alloc.max = r.alloc.max := by rw [hsaved.alloc_max, hsaved.max_eq, h.alloc_max, h.max_eq]
      exact h.set (AllocationBitmap.Valid.restore hsaved.valid hmax halloc)

theorem Range.allocate_of_some (h : r.contains ip = some offset) :
    (r.allocate ipString ip).1 = { r with alloc := (r.alloc.allocate offset).1 } ∧
      ((r.allocate ipString ip).2 = .ok () ↔ (r.alloc.allocate offset).2 = true) := by
  rw [Range.allocate, h]
  simp only
  obtain ⟨alloc, ok⟩ := r.alloc.allocate offset
  cases ok with
  | false | true => exact ⟨rfl, by simp⟩

theorem Range.allocateNext_eq (r : Range) (rand : Nat) :
    (r.allocateNext rand).1 = { r with alloc := (r.alloc.allocateNext rand).1 } ∧
      ∀ ip, (r.allocateNext rand).2 = .ok ip ↔
        ∃ offset, (r.alloc.allocateNext rand).2 = some offset ∧ ip = r.address offset := by
  rw [Range.allocateNext]
  obtain ⟨alloc, found⟩ := r.alloc.allocateNext rand
  cases found with
  | none => exact ⟨rfl, by simp⟩
  | some => exact ⟨rfl, fun _ => by simp [Range.address, eq_comm]⟩

theorem Reachable.of (h : Reachable ipString c r) : r.Of ipString c := by
  induction h with
  | new => exact ⟨rfl, by rw [Range.newCIDRRange, net, bigForIP_ip], rfl, rfl, rfl, .new _ _⟩
  | @allocate r ip _ ih =>
    cases hcon : r.contains ip with
    | none =>
      rw [Range.allocate, hcon]
      exact ih
    | some offset =>
      have hlt : offset < r.alloc.max := by
        rw [ih.alloc_max]
        exact (Range.contains_eq_some_iff.mp hcon).2.2
      rw [(Range.allocate_of_some hcon).1]
      exact ih.set (ih.valid.allocate hlt)
  | @allocateNext r rand _ ih =>
    rw [(r.allocateNext_eq rand).1]
    exact ih.set (ih.valid.allocateNext rand)
  | @release r ip _ ih =>
    rw [Range.release]
    cases r.contains ip with
    | none => exact ih
    | some offset => exact ih.set (ih.valid.release offset)
  | @restore r saved net _ _ ih ihsaved => exact ih.restore ihsaved net

/-! ### Offsets and addresses -/

theorem Range.Of.normal_address (hr : r.Of ipString c) (offset : Nat) :
    normal (r.address offset) = r.address offset ∧ value (r.address offset) = r.base + offset := by
  have hpos : 0 < r.base + offset := by
    rw [hr.base_eq]
    omega
  obtain ⟨b, hhead, hne⟩ := head_bytes hpos
  exact ⟨normal_of_head hhead hne, value_bytes _⟩

section Offsets
variable (hr : r.Of ipString c) (hge : 2 ≤ c.hostBits) (hle : c.hostBits ≤ 20)
include hr hge hle

theorem Range.Of.contains_iff : r.contains ip = some offset ↔
    (normal ip).length = (normal c.ip).length ∧ value (normal ip) = r.base + offset ∧ offset < r.max := by
  have hsize := usableSize_le hge hle
  have hpow : 2 ^ c.hostBits ≤ 2 ^ 20 := Nat.pow_le_pow_right (by decide) hle
  rw [Range.contains_eq_some_iff, hr.net_eq, contains_iff_le, calculateIPOffset, hr.base_eq, hr.max_eq]
  constructor
  · rintro ⟨⟨hlen, _, _⟩, hoff, hlt⟩
    rw [bigForIP_eq, if_pos (hlen ▸ length_normal_ip c), Int.bmod_eq_of_le (by omega) (by omega)] at hoff
    omega
  · rintro ⟨hlen, hval, hlt⟩
    rw [bigForIP_eq, if_pos (hlen ▸ length_normal_ip c), hval, Int.bmod_eq_of_le (by omega) (by omega)]
    refine ⟨⟨hlen, ?_, ?_⟩, ?_, hlt⟩
    · omega
    · omega
    · omega

theorem Range.Of.length_address (hoff : offset < r.max) :
    (r.address offset).length = (normal c.ip).length ↔ leadingByte c ≠ 0 := by
  have hsize := usableSize_le hge hle
  have hlow : value (normal c.ip) ≤ r.base + offset := by
    rw [hr.base_eq]
    omega
  have hhigh : r.base + offset < value (normal c.ip) + 2 ^ c.hostBits := by
    rw [hr.base_eq]
    rw [hr.max_eq] at hoff
    omega
  have htotal : value (normal c.ip) + 2 ^ c.hostBits ≤ 256 ^ (normal c.ip).length := c.add_le_pow
  have hdvd : 2 ^ c.hostBits ∣ value (normal c.ip) := c.dvd_normal
  have hlen := length_normal_ip c
  rw [Range.address, addIPOffset, length_bytes, leadingByte]
  cases hbytes : normal c.ip with
  | nil =>
    rw [hbytes] at hlen
    exact absurd hlen (by decide)
  | cons b bs =>
    rw [hbytes] at hlow hhigh htotal hdvd hlen
    rw [List.length_cons] at hlen
    rw [List.headD_cons, List.length_cons]
    have hfirst : 256 ^ bs.length ≤ value (b :: bs) ↔ b ≠ 0 := pow_le_value_iff
    constructor
    · -- A network with a leading zero does not reach the numbers without one.
      intro hbyteLength
      have hpow := pow_le_of_byteLength_eq hbyteLength
      rw [← hfirst]
      by_contra hlt
      have hreach := add_le_of_dvd_of_lt hdvd (two_pow_dvd_pow (by omega)) (not_le.mp hlt)
      omega
    · intro hne
      exact byteLength_eq ((hfirst.mpr hne).trans hlow) (hhigh.trans_le htotal)

variable (hlead : leadingByte c ≠ 0)
include hlead

theorem Range.Of.contains_address (hoff : offset < r.max) : r.contains (r.address offset) = some offset := by
  obtain ⟨hnormal, hval⟩ := hr.normal_address offset
  rw [hr.contains_iff hge hle, hnormal]
  exact ⟨(hr.length_address hge hle hoff).mpr hlead, hval, hoff⟩

theorem Range.Of.normal_eq_address (h : r.contains ip = some offset) : normal ip = r.address offset := by
  obtain ⟨hlen, hval, hoff⟩ := (hr.contains_iff hge hle).mp h
  apply value_inj
  · rw [hlen, (hr.length_address hge hle hoff).mpr hlead]
  · rw [hval, (hr.normal_address offset).2]

theorem Range.Of.equal_address_iff (hoff : offset < r.max) :
    equal (r.address offset) ip = true ↔ r.contains ip = some offset := by
  constructor
  · intro hequal
    rw [← Range.contains_congr (normal_eq_of_equal hequal)]
    exact hr.contains_address hge hle hlead hoff
  · intro hcon
    rw [← hr.normal_eq_address hge hle hlead hcon]
    exact equal_normal ip

theorem Range.Of.usable_address (hoff : offset < r.max) : Usable c (r.address offset) := by
  have hcon := hr.contains_address hge hle hlead hoff
  obtain ⟨hnormal, hval⟩ := hr.normal_address offset
  have hlen := (hr.length_address hge hle hoff).mpr hlead
  have hsize := usableSize_le hge hle
  have hbase := hr.base_eq
  rw [hr.max_eq] at hoff
  refine ⟨?_, ?_, ?_⟩
  · rw [← hr.net_eq]
    exact (Range.contains_eq_some_iff.mp hcon).1
  · rw [Bool.eq_false_iff]
    intro hequal
    have heq := congrArg value (normal_eq_of_equal hequal)
    rw [hnormal, hval] at heq
    omega
  · rw [Bool.eq_false_iff]
    intro hequal
    have heq := normal_eq_of_equal hequal
    rw [hnormal] at heq
    have hlast : (lastAddress c).length = (normal c.ip).length := length_encode _ _
    have hvalueLast : value (lastAddress c) = value (normal c.ip) + 2 ^ c.hostBits - 1 :=
      value_encode_of_lt (by have := c.add_le_pow; have := Nat.two_pow_pos c.hostBits; omega)
    have hnormalLast : normal (lastAddress c) = lastAddress c := by
      apply normal_of_length_eq
      rw [← heq, hlen, hlast]
    rw [hnormalLast] at heq
    have hnum := congrArg value heq
    omega

theorem Range.Of.exact : r.Exact ipString c where
  count_eq := by
    rw [card_bits]
    exact hr.valid.count_eq
  allocateNext_isOk rand := by
    rw [← hr.alloc_max, ← hr.valid.allocateNext_isSome_iff rand, isSome_iff_exists]
    simp only [(r.allocateNext_eq rand).2]
    constructor
    · rintro ⟨-, offset, hsome, -⟩
      exact ⟨offset, hsome⟩
    · rintro ⟨offset, hsome⟩
      exact ⟨_, offset, hsome, rfl⟩
  allocateNext_ok rand ip hok := by
    obtain ⟨offset, hsome, rfl⟩ := ((r.allocateNext_eq rand).2 ip).mp hok
    rcases r.alloc.allocateNext_cases rand with heq | ⟨next, heq, hlt, hfree⟩
    · simp [heq] at hsome
    · obtain rfl : next = offset := by simpa [heq] using hsome
      rw [(r.allocateNext_eq rand).1, heq]
      exact ⟨next, hr.alloc_max ▸ hlt, hfree, rfl, r.alloc.bits_take next⟩
  contains_address offset hoff := hr.contains_address hge hle hlead hoff
  address_contains ip offset hcon := by
    have hlt := (Range.contains_eq_some_iff.mp hcon).2.2
    exact ⟨hlt, (hr.equal_address_iff hge hle hlead hlt).mpr hcon⟩
  usable offset hoff := hr.usable_address hge hle hlead hoff
  allocate_ok ip hok := by
    cases hcon : r.contains ip with
    | none =>
      rw [Range.allocate, hcon] at hok
      cases hok
    | some offset =>
      have hlt := (Range.contains_eq_some_iff.mp hcon).2.2
      obtain ⟨hafter, hres⟩ := Range.allocate_of_some hcon
      rw [hres] at hok
      rcases r.alloc.allocate_cases offset with ⟨heq, -⟩ | ⟨heq, hfree⟩
      · simp [heq] at hok
      · rw [hafter, heq]
        exact ⟨offset, hlt, hfree, (hr.equal_address_iff hge hle hlead hlt).mpr hcon, r.alloc.bits_take offset⟩
  has_iff ip := by
    rw [Range.has]
    constructor
    · intro hhas
      split at hhas
      · cases hhas
      · next offset hcon =>
          have hlt := (Range.contains_eq_some_iff.mp hcon).2.2
          exact ⟨offset, mem_bits.mpr hhas, (hr.equal_address_iff hge hle hlead hlt).mpr hcon⟩
    · rintro ⟨offset, hmem, hequal⟩
      have hlt : offset < r.max := hr.alloc_max ▸ hr.valid.lt_max offset (mem_bits.mp hmem)
      rw [(hr.equal_address_iff hge hle hlead hlt).mp hequal]
      exact mem_bits.mp hmem
  mem_release ip offset := by
    have hmem :
        offset ∈ bits r.alloc.allocated → (equal (r.address offset) ip = false ↔ r.contains ip ≠ some offset) := by
      intro hmem
      have hlt : offset < r.max := hr.alloc_max ▸ hr.valid.lt_max offset (mem_bits.mp hmem)
      rw [Bool.eq_false_iff, ne_eq, hr.equal_address_iff hge hle hlead hlt]
    rw [Range.release, and_congr_right hmem]
    cases hcon : r.contains ip with
    | none => simp
    | some => rw [bits_release, Finset.mem_erase, ne_eq, ne_eq, some.injEq, and_comm, eq_comm]
  forEach_eq := by
    rw [Range.forEach, forEach_eq]
    apply List.map_congr_left
    intro offset hmem
    have hlt : offset < r.max := hr.alloc_max ▸ hr.valid.lt_max offset (Nat.mem_bitIndices.mp hmem)
    have haddress : addIPOffset (bigForIP r.net.ip) (offset + 1) = r.address offset := by
      rw [Range.address, hr.net_eq, CIDR.net, bigForIP_ip, hr.base_eq, addIPOffset, addIPOffset, Nat.add_right_comm,
        Nat.add_assoc]
    have hcon := hr.contains_address hge hle hlead hlt
    rw [getIndexedIP, haddress, (Range.contains_eq_some_iff.mp hcon).1]
    rfl

end Offsets

theorem Range.Of.restore_snapshot {saved : Range} (hr : r.Of ipString c) (hsaved : saved.Of ipString c) :
    (r.restore ipString saved.net saved.snapshot.2).2 = .ok () ∧
      (r.restore ipString saved.net saved.snapshot.2).1.alloc.allocated = saved.alloc.allocated := by
  have hequal : equal c.net.ip c.net.ip = true := by rw [equal, if_pos rfl, beq_self_eq_true]
  have halloc : r.alloc.restore (netString ipString c.net) saved.snapshot.2 = .ok _ :=
    restore_ok_iff.mpr ⟨hr.rangeSpec_eq, rfl⟩
  rw [Range.restore, hsaved.net_eq, hr.net_eq, hequal, if_neg (by simp), halloc]
  exact ⟨rfl, value_bytes _⟩

/-- **The service IP range is exact for the networks whose first byte is not zero.** For a network with 2
to 20 host bits, every range that a sequence of operations makes is an exact set of usable addresses,
and restoring a snapshot reproduces its set, if and only if the first byte of the network is not zero. -/
theorem range_exact_iff (ipString : IP → String) (c : CIDR) (hge : 2 ≤ c.hostBits) (hle : c.hostBits ≤ 20) :
    (∀ r, Reachable ipString c r → r.Exact ipString c ∧ ∀ saved, Reachable ipString c saved →
      (r.restore ipString saved.net saved.snapshot.2).2 = .ok () ∧
        bits (r.restore ipString saved.net saved.snapshot.2).1.alloc.allocated = bits saved.alloc.allocated) ↔
      leadingByte c ≠ 0 := by
  constructor
  · intro hexact
    obtain ⟨hnew, -⟩ := hexact _ .new
    have hr : (Range.newCIDRRange ipString c.net).Of ipString c := Reachable.of .new
    have hpos : 0 < (Range.newCIDRRange ipString c.net).max := by
      exact usableSize_pos hge hle
    -- The first address of the range lies in the network, so it has the length of the network's address.
    have hcontains := (hnew.usable 0 hpos).1
    rw [CIDR.contains_iff_le, (hr.normal_address 0).1] at hcontains
    exact (hr.length_address hge hle hpos).mp hcontains.1
  · intro hlead r hreach
    refine ⟨hreach.of.exact hge hle hlead, fun _ hsaved => ?_⟩
    obtain ⟨hok, hallocated⟩ := hreach.of.restore_snapshot hsaved.of
    exact ⟨hok, congrArg bits hallocated⟩

/-- The first byte of `10.0.0.0/24` is not zero. -/
theorem range_exact_iff_ten : ∃ c : CIDR, c.ip = [10, 0, 0, 0] ∧ c.ones = 24 ∧ 2 ≤ c.hostBits ∧ c.hostBits ≤ 20 ∧
    leadingByte c ≠ 0 ∧ ∀ r, Reachable (fun _ => "") c r → r.Exact (fun _ => "") c := by
  refine ⟨⟨[10, 0, 0, 0], 24, .inl rfl, by decide, by decide⟩, rfl, rfl, by decide, by decide, by decide,
    fun r hr => ?_⟩
  exact ((range_exact_iff (fun _ => "") _ (by decide) (by decide)).mpr (by decide) r hr).1

/-- In `0.10.0.0/28` the address of the first offset has three bytes, and does not lie in the network. -/
theorem leading_zero_dropped : ∃ c : CIDR, c.ip = [0, 10, 0, 0] ∧ c.ones = 28 ∧ 2 ≤ c.hostBits ∧ c.hostBits ≤ 20 ∧
    ∃ ip, ((Range.newCIDRRange (fun _ => "") c.net).allocateNext 0).2 = .ok ip ∧ ip = [10, 0, 1] ∧
      c.net.contains ip = false ∧ (Range.newCIDRRange (fun _ => "") c.net).contains ip = none := by
  refine ⟨⟨[0, 10, 0, 0], 28, .inl rfl, by decide, by decide⟩, rfl, rfl, by decide, by decide, [10, 0, 1], rfl, rfl,
    by decide, by decide⟩

end LeanKube.IPAllocator
