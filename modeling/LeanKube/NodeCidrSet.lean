import LeanKube.BitSets
import LeanKube.NetIP
import Mathlib.Tactic.Linarith

/-! The node CIDR allocator (`pkg/controller/nodeipam/ipam/cidrset`): the blocks of one mask size inside
of a cluster CIDR, numbered by the bits between the two masks, and the set of the used ones. -/

namespace LeanKube.NodeIpam
open Net BigEndian BitSets

/-! ### Machine integers -/

/-- A conversion to an unsigned integer of `w` bits. -/
def toUint (w : Nat) (x : Int) : Nat := (x % 2 ^ w).toNat

/-- A left shift of an unsigned integer of `w` bits. -/
def shl (w x s : Nat) : Nat := if s < w then x * 2 ^ s % 2 ^ w else 0

/-- A right shift of an unsigned integer of `w` bits. -/
def shr (w x s : Nat) : Nat := if s < w then x / 2 ^ s else 0

/-- The `int` `1 << s`. -/
def oneShl (s : Nat) : Int := if s < 64 then (2 ^ s : Int).bmod (2 ^ 64) else 0

variable (bs : List UInt8)

/-- `binary.BigEndian.Uint32`. -/
def uint32 : Nat := value (bs.take 4)

/-- `binary.BigEndian.Uint64`. -/
def uint64 : Nat := value (bs.take 8)

/-- The number `64 - bits.LeadingZeros64(x)`. -/
def bitLength (x : Nat) : Nat := if x = 0 then 0 else x.log2 + 1

/-! ### The model -/

/-- `CidrSet`, its big integer of used indices as a number. -/
structure CidrSet where
  clusterCIDR : IPNet
  clusterIP : IP
  clusterMaskSize : Nat
  maxCIDRs : Int
  nextCandidate : Nat
  used : Nat
  subNetMaskSize : Int
  deriving DecidableEq, Repr

inductive CidrError where
  /-- "CIDR allocation failed; there are no remaining CIDRs left to allocate in the accepted range" -/
  | noCIDRsRemaining
  /-- "New CIDR set failed; the node CIDR size is too big" -/
  | subNetTooBig
  /-- "cidr %v is out the range of cluster cidr %v" -/
  | outOfCluster (cidr clusterCIDR : IPNet)
  /-- "CIDR: %v/%v is out of the range of CIDR allocator" -/
  | outOfRange (ip : IP) (subNetMaskSize : Int)
  /-- "invalid IP: %v" -/
  | invalidIP (ip : IP)
  deriving DecidableEq, Repr

/-- `NewCIDRSet`. An IPv6 cluster may have at most 16 bits of indices. -/
def newCIDRSet (clusterCIDR : IPNet) (subNetMaskSize : Int) : Except CidrError CidrSet :=
  let clusterMaskSize := (maskSize clusterCIDR.mask).1
  if (to4 clusterCIDR.ip).isNone ∧ 16 < subNetMaskSize - clusterMaskSize then
    .error .subNetTooBig
  else .ok
    { clusterCIDR := clusterCIDR
      clusterIP := clusterCIDR.ip
      clusterMaskSize := clusterMaskSize
      maxCIDRs := oneShl (toUint 32 (subNetMaskSize - clusterMaskSize))
      nextCandidate := 0
      used := 0
      subNetMaskSize := subNetMaskSize }

namespace CidrSet
variable (s : CidrSet)

/-- The two halves of the IPv6 block with an index; the index may reach into both. -/
def halves (index : Nat) : Nat × Nat :=
  let leftClusterIP := uint64 s.clusterIP
  let rightClusterIP := uint64 (s.clusterIP.drop 8)
  if s.subNetMaskSize ≤ 64 then
    (leftClusterIP ||| shl 64 index (toUint 64 (64 - s.subNetMaskSize)), rightClusterIP)
  else
    let btl := toUint 64 (s.subNetMaskSize - 64)
    (if s.clusterMaskSize < 64 ∧ btl < bitLength index then leftClusterIP ||| shr 64 index btl else leftClusterIP,
      rightClusterIP ||| shl 64 index (toUint 64 (128 - s.subNetMaskSize)))

/-- `indexToCIDRBlock`: the block with an index. -/
def indexToCIDRBlock (index : Nat) : IPNet :=
  if (to4 s.clusterIP).isSome then
    let j := shl 32 (index % 2 ^ 32) (toUint 32 (32 - s.subNetMaskSize))
    ⟨encode 4 (uint32 s.clusterIP ||| j), cidrMask s.subNetMaskSize 32⟩
  else if (to16 s.clusterIP).isSome then
    let (left, right) := s.halves index
    ⟨encode 8 left ++ encode 8 right, cidrMask s.subNetMaskSize 128⟩
  else ⟨[], cidrMask s.subNetMaskSize 0⟩

/-- `AllocateNext`: the first unused index from the candidate on, around the end. -/
def allocateNext : CidrSet × Except CidrError IPNet :=
  let max := s.maxCIDRs.toNat
  match ((List.range max).map fun i => (i + s.nextCandidate) % max).find? fun candidate =>
    !s.used.testBit candidate with
  | none => (s, .error .noCIDRsRemaining)
  | some nextUnused =>
    ({ s with nextCandidate := (nextUnused + 1) % max, used := setBit s.used nextUnused true },
      .ok (s.indexToCIDRBlock nextUnused))

/-- `getIndexForIP`. The numbers have at most 128 bits, and the index of an IPv6 address is cut to 64. -/
@[irreducible] def getIndexForIP (ip : IP) : Except CidrError Nat :=
  match to4 ip with
  | some ip4 =>
    let cidrIndex := shr 32 (uint32 s.clusterIP ^^^ uint32 ip4) (toUint 32 (32 - s.subNetMaskSize))
    if toUint 32 s.maxCIDRs ≤ cidrIndex then .error (.outOfRange ip s.subNetMaskSize) else .ok cidrIndex
  | none =>
    match to16 ip with
    | some _ =>
      let cidrIndex := shr 128 (value s.clusterIP ^^^ value ip) (toUint 64 (128 - s.subNetMaskSize)) % 2 ^ 64
      if toUint 64 s.maxCIDRs ≤ cidrIndex then .error (.outOfRange ip s.subNetMaskSize) else .ok cidrIndex
    | none => .error (.invalidIP ip)

variable (cidr : IPNet)

/-- The last address of a CIDR. -/
def lastIP : IP :=
  if (to4 cidr.ip).isSome then
    encode 4 (uint32 cidr.ip ||| (2 ^ 32 - 1 - uint32 cidr.mask))
  else
    encode 8 (uint64 cidr.ip ||| (2 ^ 64 - 1 - uint64 cidr.mask)) ++
      encode 8 (uint64 (cidr.ip.drop 8) ||| (2 ^ 64 - 1 - uint64 (cidr.mask.drop 8)))

/-- The indices of the blocks of the first and the last address of a CIDR. -/
def firstAndLastIndex : Except CidrError (Int × Int) :=
  let ipSize := if (to4 cidr.ip).isNone then 16 else 4
  let subNetMask := cidrMask s.subNetMaskSize (ipSize * 8)
  match s.getIndexForIP (applyMask cidr.ip subNetMask), s.getIndexForIP (applyMask (lastIP cidr) subNetMask) with
  | .error err, _ => .error err
  | .ok _, .error err => .error err
  | .ok first, .ok last => .ok (first, last)

/-- `getBeginingAndEndIndices`. A CIDR that contains the cluster has all indices. -/
@[irreducible] def getBeginingAndEndIndices : Except CidrError (Int × Int) :=
  if !s.clusterCIDR.contains (applyMask cidr.ip s.clusterCIDR.mask) ∧
      !cidr.contains (applyMask s.clusterCIDR.ip cidr.mask) then
    .error (.outOfCluster cidr s.clusterCIDR)
  else if s.clusterMaskSize < (maskSize cidr.mask).1 then s.firstAndLastIndex cidr
  else .ok (0, (s.maxCIDRs - 1).bmod (2 ^ 64))

/-- The loops of `Occupy` and `Release`. -/
def mark (first last : Int) (b : Bool) : CidrSet :=
  { s with used := (List.range (last - first + 1).toNat).foldl (fun used i => setBit used (first.toNat + i) b) s.used }

def release : CidrSet × Except CidrError Unit :=
  match s.getBeginingAndEndIndices cidr with
  | .error err => (s, .error err)
  | .ok (first, last) => (s.mark first last false, .ok ())

def occupy : CidrSet × Except CidrError Unit :=
  match s.getBeginingAndEndIndices cidr with
  | .error err => (s, .error err)
  | .ok (first, last) => (s.mark first last true, .ok ())

inductive Op where
  | allocateNext
  | occupy (cidr : CIDR)
  | release (cidr : CIDR)

def next : Op → CidrSet
  | .allocateNext => s.allocateNext.1
  | .occupy cidr => (s.occupy cidr.net).1
  | .release cidr => (s.release cidr.net).1

end CidrSet

/-! ### What the set is for -/

/-- The addresses of a CIDR. -/
def addresses (c : CIDR) : Set IP :=
  {ip | ip.length = c.ip.length ∧ value c.ip ≤ value ip ∧ value ip < value c.ip + 2 ^ c.hostBits}

def Intersect (c d : CIDR) : Prop := (addresses c ∩ addresses d).Nonempty

/-- The blocks of a mask size inside of a CIDR. -/
def blocks (c : CIDR) (size : Int) : Set IPNet :=
  {net | ∃ d : CIDR, net = d.net ∧ (d.ones : Int) = size ∧ addresses d ⊆ addresses c}

variable (s : CidrSet)

def CidrSet.indices : Set Nat := {i | (i : Int) < s.maxCIDRs}

/-- The indices whose blocks share an address with a CIDR. -/
def CidrSet.touched (d : CIDR) : Set Nat :=
  {i | i ∈ s.indices ∧ ∃ b : CIDR, s.indexToCIDRBlock i = b.net ∧ Intersect b d}

/-- The CIDR of a call has addresses of the length `n`. -/
def CidrSet.Op.Fits (n : Nat) : CidrSet.Op → Prop
  | .allocateNext => True
  | .occupy d => d.ip.length = n
  | .release d => d.ip.length = n

def CidrSet.run (ops : List CidrSet.Op) : CidrSet := ops.foldl CidrSet.next s

/-- What the set `s`, new for the cluster CIDR `c`, and the sets that calls make of it have to do. -/
structure Exact (c : CIDR) (size : Int) (s : CidrSet) : Prop where
  bijOn : Set.BijOn s.indexToCIDRBlock s.indices (blocks c size)
  disjoint : ∀ i ∈ s.indices, ∀ j ∈ s.indices, i ≠ j → ∀ b d : CIDR,
    s.indexToCIDRBlock i = b.net → s.indexToCIDRBlock j = d.net → ¬ Intersect b d
  /-- `getIndexForIP` is the index of the block of an address. -/
  getIndexForIP : ∀ i ∈ s.indices, ∀ b : CIDR, s.indexToCIDRBlock i = b.net → ∀ ip ∈ addresses b,
    s.getIndexForIP ip = .ok i
  /-- `Occupy` marks the indices whose blocks share an address with the CIDR. -/
  occupy : ∀ (ops : List CidrSet.Op) (d : CIDR), Intersect d c →
    ∀ i, i ∈ bits ((s.run ops).occupy d.net).1.used ↔ i ∈ bits (s.run ops).used ∨ i ∈ s.touched d
  /-- `Release` clears them. -/
  release : ∀ (ops : List CidrSet.Op) (d : CIDR), Intersect d c →
    ∀ i, i ∈ bits ((s.run ops).release d.net).1.used ↔ i ∈ bits (s.run ops).used ∧ i ∉ s.touched d
  /-- `AllocateNext` fails when every block is in use, and else returns one that is not. -/
  allocateNext : ∀ ops : List CidrSet.Op,
    ((∃ err, (s.run ops).allocateNext.2 = .error err) ↔ ∀ i ∈ s.indices, i ∈ bits (s.run ops).used) ∧
      ∀ net, (s.run ops).allocateNext.2 = .ok net →
        ∃ i ∈ s.indices, i ∉ bits (s.run ops).used ∧ net = s.indexToCIDRBlock i
  /-- It never returns a block that shares an address with a CIDR that was occupied, or with a block that
  was allocated, unless the block was released since. -/
  not_since_released : ∀ (before since : List CidrSet.Op) (op : CidrSet.Op),
    (∀ op' ∈ before ++ op :: since, op'.Fits c.ip.length) → ∀ b d : CIDR,
    op = .occupy d ∨ op = .allocateNext ∧ (s.run before).allocateNext.2 = .ok d.net →
    (s.run (before ++ op :: since)).allocateNext.2 = .ok b.net → Intersect b d →
    ∃ e, .release e ∈ since ∧ Intersect b e

end LeanKube.NodeIpam
