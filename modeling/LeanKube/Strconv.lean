import Mathlib.Algebra.Order.Ring.Nat
import Mathlib.Data.List.Basic

/-! Decimal integers as in Go's `strconv`: printing and parsing 64-bit numbers. -/

namespace LeanKube.Strconv
open Nat

inductive NumError where
  | invalid (func num : String)
  | outOfRange (func num : String)
  deriving DecidableEq, Repr

def NumError.text : NumError → String
  | .invalid func num => "strconv." ++ func ++ ": parsing \"" ++ num ++ "\": invalid syntax"
  | .outOfRange func num => "strconv." ++ func ++ ": parsing \"" ++ num ++ "\": value out of range"

variable (v : UInt64)

def formatUint : String := v.toNat.repr

/-- The loop of `ParseUint(num, 10, 64)` over the characters left, `n` being the value so far. -/
def parseUintLoop (func num : String) : List Char → Nat → Except NumError Nat
  | [], n => .ok n
  | c :: rest, n =>
    if c.isDigit then
      let n' := 10 * n + (c.toNat - '0'.toNat)
      if n' < 2 ^ 64 then parseUintLoop func num rest n' else .error (.outOfRange func num)
    else .error (.invalid func num)

def parseUint (num : String) : Except NumError UInt64 :=
  match num.toList with
  | [] => .error (.invalid "ParseUint" num)
  | cs => (parseUintLoop "ParseUint" num cs 0).map UInt64.ofNat

def parseInt (num : String) : Except NumError Int :=
  let unsigned (digits : List Char) : Except NumError Nat :=
    if digits = [] then .error (.invalid "ParseInt" num)
    else parseUintLoop "ParseInt" num digits 0
  match num.toList with
  | '-' :: digits => do
    let n ← unsigned digits
    if n ≤ 2 ^ 63 then .ok (-(n : Int)) else .error (.outOfRange "ParseInt" num)
  | '+' :: digits => do
    let n ← unsigned digits
    if n < 2 ^ 63 then .ok (n : Int) else .error (.outOfRange "ParseInt" num)
  | digits => do
    let n ← unsigned digits
    if n < 2 ^ 63 then .ok (n : Int) else .error (.outOfRange "ParseInt" num)

theorem le_ofDigitChars (cs : List Char) (n : Nat) : n ≤ Nat.ofDigitChars 10 cs n := by
  induction cs generalizing n with
  | nil => exact le_of_eq ofDigitChars_nil.symm
  | cons c _ ih =>
    calc n ≤ 10 * n + (c.toNat - '0'.toNat) := by omega
      _ ≤ _ := ih _

theorem parseUintLoop_eq (func num : String) {cs : List Char} {n : Nat}
    (hdigits : ∀ c ∈ cs, c.isDigit = true) (hbound : Nat.ofDigitChars 10 cs n < 2 ^ 64) :
    parseUintLoop func num cs n = .ok (Nat.ofDigitChars 10 cs n) := by
  induction cs generalizing n with
  | nil => rw [ofDigitChars_nil]; rfl
  | cons c rest ih =>
    have hlt := lt_of_le_of_lt (le_ofDigitChars rest _) hbound
    rw [parseUintLoop, if_pos (hdigits c List.mem_cons_self)]
    rw [if_pos hlt]
    exact ih (fun d hd => hdigits d (List.mem_cons_of_mem c hd)) hbound

theorem parseUint_formatUint : parseUint (formatUint v) = .ok v := by
  have hdigits : ∀ c ∈ Nat.toDigits 10 v.toNat, c.isDigit = true := fun c hc =>
    isDigit_of_mem_toDigits (by omega) (by omega) hc
  have hval : Nat.ofDigitChars 10 (Nat.toDigits 10 v.toNat) 0 = v.toNat := ofDigitChars_ten_toDigits
  have hloop := parseUintLoop_eq "ParseUint" (formatUint v) hdigits (by rw [hval]; exact v.toNat_lt)
  rw [hval] at hloop
  have hlist : (formatUint v).toList = Nat.toDigits 10 v.toNat := toList_repr
  unfold parseUint
  split
  · next h => exact absurd (hlist.symm.trans h) toDigits_ne_nil
  · rw [hlist, hloop]
    show Except.ok (UInt64.ofNat v.toNat) = _
    rw [UInt64.ofNat_toNat]

theorem formatUint_ne_empty : formatUint v ≠ "" := repr_ne_empty

end LeanKube.Strconv
