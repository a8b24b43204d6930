import Mathlib.Data.Nat.Log
import Mathlib.Tactic.Ring

/-! Big-endian byte strings: the number that a string stands for, the strings of a fixed length, and the
shortest string of a number. Only a string with no leading zero is the shortest string of its number. -/

namespace LeanKube.BigEndian
open Nat

/-- The number that bytes stand for, the most significant one first. -/
def value : List UInt8 → Nat
  | [] => 0
  | b :: bs => b.toNat * 256 ^ bs.length + value bs

/-- The last `k` bytes of a number. -/
def encode : Nat → Nat → List UInt8
  | 0, _ => []
  | k + 1, n => UInt8.ofNat (n / 256 ^ k) :: encode k n

/-- The number of bytes of `big.Int.Bytes`. -/
def byteLength (n : Nat) : Nat := if n = 0 then 0 else n.log2 / 8 + 1

/-- `big.Int.Bytes`: no leading zero. -/
def bytes (n : Nat) : List UInt8 := encode (byteLength n) n

variable {bs cs : List UInt8} {b : UInt8} {k n : Nat}

@[simp] theorem value_nil : value [] = 0 := rfl

theorem value_cons : value (b :: bs) = b.toNat * 256 ^ bs.length + value bs := rfl

@[simp] theorem length_encode (k n : Nat) : (encode k n).length = k := by
  induction k with
  | zero => rfl
  | succ k ih => rw [encode, List.length_cons, ih]

theorem value_lt (bs : List UInt8) : value bs < 256 ^ bs.length := by
  induction bs with
  | nil => decide
  | cons b bs ih =>
    have hb : b.toNat + 1 ≤ 256 := b.toNat_lt
    calc
      value (b :: bs) < b.toNat * 256 ^ bs.length + 256 ^ bs.length := Nat.add_lt_add_left ih _
      _ = (b.toNat + 1) * 256 ^ bs.length := by ring
      _ ≤ 256 * 256 ^ bs.length := mul_le_mul_right _ hb
      _ = 256 ^ (b :: bs).length := by rw [List.length_cons, pow_succ']

theorem value_append (bs cs : List UInt8) : value (bs ++ cs) = value bs * 256 ^ cs.length + value cs := by
  induction bs with
  | nil => simp
  | cons _ _ ih =>
    rw [List.cons_append, value_cons, value_cons, ih, List.length_append, pow_add]
    ring

theorem value_encode (k n : Nat) : value (encode k n) = n % 256 ^ k := by
  induction k with
  | zero => rw [pow_zero, mod_one, encode, value_nil]
  | succ k ih =>
    have hhead : (UInt8.ofNat (n / 256 ^ k)).toNat = n / 256 ^ k % 256 := UInt8.toNat_ofNat
    rw [encode, value_cons, ih, length_encode, hhead, pow_succ, mod_mul]
    ring

theorem value_encode_of_lt (h : n < 256 ^ k) : value (encode k n) = n := by
  rw [value_encode, mod_eq_of_lt h]

/-- Bytes of one length are determined by their number. -/
theorem value_inj (hlen : bs.length = cs.length) (h : value bs = value cs) : bs = cs := by
  induction bs generalizing cs with
  | nil => exact (List.length_eq_zero_iff.mp hlen.symm).symm
  | cons b bs ih =>
    cases cs with
    | nil => cases hlen
    | cons c cs =>
      have hlen' : bs.length = cs.length := succ.inj hlen
      have hpos : 0 < 256 ^ cs.length := Nat.pow_pos (by decide)
      rw [value_cons, value_cons, hlen'] at h
      have hb := congrArg (· / 256 ^ cs.length) h
      simp only [mul_comm _ (256 ^ cs.length), mul_add_div hpos,
        div_eq_of_lt (value_lt cs), div_eq_of_lt (hlen' ▸ value_lt bs), add_zero] at hb
      obtain rfl := UInt8.toNat_inj.mp hb
      rw [ih hlen' (add_left_cancel h)]

theorem encode_value (h : bs.length = k) : encode k (value bs) = bs := by
  apply value_inj
  · rw [length_encode, h]
  · rw [value_encode_of_lt (h ▸ value_lt bs)]

/-! ### Shortest strings -/

theorem lt_pow_byteLength (n : Nat) : n < 256 ^ byteLength n := by
  rw [byteLength]
  split_ifs with hn
  · rw [hn]
    decide
  · have hlog : n < 2 ^ (n.log2 + 1) := lt_log2_self
    refine hlog.trans_le ?_
    rw [show (256 : Nat) = 2 ^ 8 from rfl, ← pow_mul]
    exact Nat.pow_le_pow_right (by decide) (by omega)

theorem pow_le_of_byteLength_eq (h : byteLength n = k + 1) : 256 ^ k ≤ n := by
  rw [byteLength] at h
  split_ifs at h with hn
  · calc
      256 ^ k = 2 ^ (8 * k) := (pow_mul 2 8 k).symm
      _ ≤ 2 ^ n.log2 := Nat.pow_le_pow_right (by decide) (by omega)
      _ ≤ n := log2_self_le hn

theorem byteLength_le (h : n < 256 ^ k) : byteLength n ≤ k := by
  cases hlen : byteLength n with
  | zero => exact zero_le k
  | succ l =>
    have hle : 256 ^ l < 256 ^ k := (pow_le_of_byteLength_eq hlen).trans_lt h
    exact (Nat.pow_lt_pow_iff_right (by decide)).mp hle

theorem byteLength_eq (hle : 256 ^ k ≤ n) (hlt : n < 256 ^ (k + 1)) : byteLength n = k + 1 := by
  refine le_antisymm (byteLength_le hlt) ?_
  have hpow : 256 ^ k < 256 ^ byteLength n := hle.trans_lt (lt_pow_byteLength n)
  exact (Nat.pow_lt_pow_iff_right (by decide)).mp hpow

@[simp] theorem length_bytes (n : Nat) : (bytes n).length = byteLength n := length_encode _ _

@[simp] theorem value_bytes (n : Nat) : value (bytes n) = n := value_encode_of_lt (lt_pow_byteLength n)

/-- The first byte is not zero. -/
theorem head_bytes (h : 0 < n) : ∃ b, (bytes n).head? = some b ∧ b ≠ 0 := by
  cases hlen : byteLength n with
  | zero =>
    have hlt := lt_pow_byteLength n
    rw [hlen, pow_zero] at hlt
    omega
  | succ k =>
    refine ⟨UInt8.ofNat (n / 256 ^ k), ?_, fun hzero => ?_⟩
    · rw [bytes, hlen, encode, List.head?_cons]
    · have hlt : n < 256 ^ (k + 1) := hlen ▸ lt_pow_byteLength n
      have hpos : 0 < n / 256 ^ k := Nat.div_pos (pow_le_of_byteLength_eq hlen) (Nat.pow_pos (by decide))
      have hmod : n / 256 ^ k % 256 = 0 := by
        have htoNat : (UInt8.ofNat (n / 256 ^ k)).toNat = n / 256 ^ k % 256 := UInt8.toNat_ofNat
        rw [← htoNat, hzero, UInt8.toNat_zero]
      rw [Nat.mod_eq_of_lt (Nat.div_lt_of_lt_mul (pow_succ 256 k ▸ hlt))] at hmod
      omega

theorem pow_le_value_iff : 256 ^ bs.length ≤ value (b :: bs) ↔ b ≠ 0 := by
  rw [value_cons]
  constructor
  · rintro hle rfl
    have hlt := value_lt bs
    rw [UInt8.toNat_zero, zero_mul, zero_add] at hle
    omega
  · intro hne
    have hpos : 1 ≤ b.toNat := pos_of_ne_zero fun hzero => hne (UInt8.toNat_inj.mp hzero)
    calc
      256 ^ bs.length = 1 * 256 ^ bs.length := (one_mul _).symm
      _ ≤ b.toNat * 256 ^ bs.length := mul_le_mul_right _ hpos
      _ ≤ _ := le_add_right _ _

end LeanKube.BigEndian
