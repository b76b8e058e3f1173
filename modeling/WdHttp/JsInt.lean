import Mathlib.Data.Int.Basic
import Mathlib.Tactic.IntervalCases

/-!
# JavaScript's bitwise operators

A JavaScript number with an integer value is an integer here. The operators
convert their operands to 32 bits first; all results are signed, except that of
the unsigned right shift. A shift count is taken modulo 32.
-/

set_option autoImplicit false

namespace WdHttp.JsInt

/-- The bits an operator sees of a number. -/
def bits (x : ℤ) : BitVec 32 := BitVec.ofInt 32 x

def shiftCount (n : ℤ) : ℕ := (bits n).toNat%32

def and (x y : ℤ) : ℤ := (bits x &&& bits y).toInt
def or (x y : ℤ) : ℤ := (bits x ||| bits y).toInt
def xor (x y : ℤ) : ℤ := (bits x ^^^ bits y).toInt
def not (x : ℤ) : ℤ := (~~~bits x).toInt
def shl (x n : ℤ) : ℤ := (bits x <<< shiftCount n).toInt
def sar (x n : ℤ) : ℤ := ((bits x).sshiftRight (shiftCount n)).toInt
def shr (x n : ℤ) : ℤ := (bits x >>> shiftCount n).toNat

@[simp] theorem bits_and (x y : ℤ) : bits (and x y) = bits x &&& bits y := BitVec.ofInt_toInt

@[simp] theorem bits_or (x y : ℤ) : bits (or x y) = bits x ||| bits y := BitVec.ofInt_toInt

@[simp] theorem bits_xor (x y : ℤ) : bits (xor x y) = bits x ^^^ bits y := BitVec.ofInt_toInt

@[simp] theorem bits_not (x : ℤ) : bits (not x) = ~~~bits x := BitVec.ofInt_toInt

@[simp] theorem bits_shl (x n : ℤ) : bits (shl x n) = bits x <<< shiftCount n :=
  BitVec.ofInt_toInt

@[simp] theorem bits_sar (x n : ℤ) : bits (sar x n) = (bits x).sshiftRight (shiftCount n) :=
  BitVec.ofInt_toInt

@[simp] theorem bits_shr (x n : ℤ) : bits (shr x n) = bits x >>> shiftCount n := by
  rw [shr, bits, BitVec.ofInt_natCast, BitVec.ofNat_toNat, BitVec.setWidth_eq]

@[simp] theorem bits_add (x y : ℤ) : bits (x+y) = bits x + bits y := BitVec.ofInt_add x y

theorem bits_natCast (n : ℕ) : bits n = BitVec.ofNat 32 n := BitVec.ofInt_natCast 32 n

theorem shiftCount_natCast (n : ℕ) (h : n < 32) : shiftCount n = n := by
  rw [shiftCount, bits_natCast, BitVec.toNat_ofNat, Nat.mod_eq_of_lt (a := n) (by omega),
    Nat.mod_eq_of_lt h]

theorem toInt_eq_toNat (w : BitVec 32) (h : w.toNat < 2^31) : w.toInt = w.toNat := by
  rw [BitVec.toInt_eq_toNat_of_lt (by omega)]

theorem and_mask (n k : ℕ) (hk : k ≤ 31) : and n ((2^k-1 : ℕ) : ℤ) = (n%2^k : ℕ) := by
  have hp : (2:ℕ)^k ≤ 2^31 := Nat.pow_le_pow_right (by omega) hk
  have h1 : (bits n &&& bits ((2^k-1 : ℕ) : ℤ)).toNat = n%2^k := by
    rw [bits_natCast, bits_natCast, BitVec.toNat_and, BitVec.toNat_ofNat, BitVec.toNat_ofNat,
      Nat.mod_eq_of_lt (a := 2^k-1) (by omega), Nat.and_two_pow_sub_one_eq_mod,
      Nat.mod_mod_of_dvd _ (Nat.pow_dvd_pow 2 (by omega))]
  have h2 : n%2^k < 2^k := Nat.mod_lt _ (Nat.two_pow_pos k)
  rw [and, toInt_eq_toNat _ (by omega), h1]

theorem sar_natCast (n k : ℕ) (hn : n < 2^31) (hk : k < 32) : sar n k = (n/2^k : ℕ) := by
  have hm : (bits n).toNat = n := by
    rw [bits_natCast, BitVec.toNat_ofNat, Nat.mod_eq_of_lt (by omega)]
  have hmsb : (bits n).msb = false := by
    rw [BitVec.msb_eq_false_iff_two_mul_lt]
    omega
  have h1 : ((bits n).sshiftRight (shiftCount k)).toNat = n/2^k := by
    rw [BitVec.toNat_sshiftRight_of_msb_false hmsb, hm, Nat.shiftRight_eq_div_pow,
      shiftCount_natCast k hk]
  have h2 : n/2^k ≤ n := Nat.div_le_self n _
  rw [sar, toInt_eq_toNat _ (by omega), h1]

/-- Bits taken out of any number: the sign does not reach them. -/
theorem sar_and_mask (x : ℤ) (n k : ℕ) (hk : k ≤ 31) (hn : n+k ≤ 32) (hn' : n < 32) :
    and (sar x n) ((2^k-1 : ℕ) : ℤ) = ((bits x).toNat/2^n%2^k : ℕ) := by
  have hp : (2:ℕ)^k ≤ 2^31 := Nat.pow_le_pow_right (by omega) hk
  have hmask : ∀ i, (bits ((2^k-1 : ℕ) : ℤ)).getLsbD i = decide (i < k) := by
    intro i
    rw [bits_natCast, BitVec.getLsbD_ofNat, Nat.testBit_two_pow_sub_one]
    by_cases hi : i < k
    · simp [hi, show i < 32 by omega]
    · simp [hi]
  have h1 : (bits x).sshiftRight n &&& bits ((2^k-1 : ℕ) : ℤ) =
      bits x >>> n &&& bits ((2^k-1 : ℕ) : ℤ) := by
    apply BitVec.eq_of_getLsbD_eq
    intro i hi
    simp only [BitVec.getLsbD_and, hmask, BitVec.getLsbD_sshiftRight, BitVec.getLsbD_ushiftRight]
    by_cases hik : i < k
    · simp [hik, show ¬ 32 ≤ i by omega, show n+i < 32 by omega]
    · simp [hik]
  have h2 : (bits x >>> n &&& bits ((2^k-1 : ℕ) : ℤ)).toNat = (bits x).toNat/2^n%2^k := by
    rw [bits_natCast, BitVec.toNat_and, BitVec.toNat_ofNat, BitVec.toNat_ushiftRight,
      Nat.mod_eq_of_lt (a := 2^k-1) (by omega), Nat.and_two_pow_sub_one_eq_mod,
      Nat.shiftRight_eq_div_pow]
  have h3 : (bits x).toNat/2^n%2^k < 2^k := Nat.mod_lt _ (Nat.two_pow_pos k)
  rw [and, bits_sar, shiftCount_natCast n hn', h1, toInt_eq_toNat _ (by omega), h2]

end WdHttp.JsInt
