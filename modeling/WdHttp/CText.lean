import Mathlib.Data.List.Basic
import Mathlib.Data.List.TakeWhile
import Mathlib.Data.Int.Notation
import Mathlib.Tactic.Linarith

/-!
# C strings, `int` and decimal text

A `std::string` is the list of its characters; no operation used here looks
at more than equality of characters. `c_str` stops at the first NUL. The
conversions `std::to_string`, `std::stoi` and the `printf` conversion `%02d`
follow their documented behaviour; `stoi` returns nothing where it throws.
-/

set_option autoImplicit false

namespace WdHttp.CText

abbrev Str := List Char

def cStr (s : Str) : Str := s.takeWhile (· ≠ '\x00')

theorem cStr_of_no_nul (s : Str) (h : '\x00' ∉ s) : cStr s = s := by
  rw [cStr, List.takeWhile_eq_self_iff]
  intro c hc
  have : c ≠ '\x00' := fun he => h (he ▸ hc)
  simpa using this

theorem findIdx?_append_cons (s t : Str) (c : Char) (hc : c ∉ s) :
    (s ++ c::t).findIdx? (fun d => d = c) = some s.length := by
  have hs : s.findIdx? (fun d => d = c) = none := by
    rw [List.findIdx?_eq_none_iff]
    intro d hd
    exact decide_eq_false fun he => hc (he ▸ hd)
  simp [List.findIdx?_append, hs, List.findIdx?_cons]

/-- Conversion of an integer to a 32-bit `int`, modulo `2^32`. -/
def toInt (z : ℤ) : ℤ := Int.bmod z (2^32)

def IsInt (z : ℤ) : Prop := -2^31 ≤ z ∧ z < 2^31

instance (z : ℤ) : Decidable (IsInt z) := inferInstanceAs (Decidable (_ ∧ _))

theorem toInt_isInt (z : ℤ) : IsInt (toInt z) := by
  have h1 := Int.le_bmod (x := z) (m := 2^32) (by norm_num)
  have h2 := Int.bmod_lt (x := z) (m := 2^32) (by norm_num)
  simp only [IsInt, toInt]
  omega

theorem toInt_of_isInt (z : ℤ) (h : IsInt z) : toInt z = z := by
  obtain ⟨h1,h2⟩ := h
  exact Int.bmod_eq_of_le (by norm_num; omega) (by norm_num; omega)

def stdToString : ℤ → Str
  | .ofNat n => Nat.toDigits 10 n
  | .negSucc n => '-' :: Nat.toDigits 10 (n+1)

def isSpace (c : Char) : Bool :=
  c = ' ' || c = '\t' || c = '\n' || c = '\x0b' || c = '\x0c' || c = '\r'

def splitSign : Str → Bool × Str
  | '-'::s => (true,s)
  | '+'::s => (false,s)
  | s => (false,s)

def stoi (s : Str) : Option ℤ :=
  let signed := splitSign (s.dropWhile isSpace)
  let digits := signed.2.takeWhile Char.isDigit
  let n : ℤ := Nat.ofDigitChars 10 digits 0
  let z := if signed.1 then -n else n
  if digits = [] then none else if IsInt z then some z else none

theorem isDigit_not_space (c : Char) (h : c.isDigit) : isSpace c = false := by
  simp only [isSpace, Bool.or_eq_false_iff, decide_eq_false_iff_not]
  refine ⟨⟨⟨⟨⟨?_,?_⟩,?_⟩,?_⟩,?_⟩,?_⟩ <;> rintro rfl <;> revert h <;> decide

theorem isDigit_ascii (c : Char) (h : c.isDigit) : c.toNat < 128 := by
  simp only [Char.isDigit, Bool.and_eq_true, decide_eq_true_eq] at h
  exact lt_of_le_of_lt (UInt32.le_iff_toNat_le.mp h.2) (by decide)

theorem takeWhile_digits (s : Str) (h : ∀ c ∈ s, c.isDigit) : s.takeWhile Char.isDigit = s :=
  List.takeWhile_eq_self_iff.mpr h

theorem splitSign_digits (s : Str) (h : ∀ c ∈ s, c.isDigit) : splitSign s = (false,s) := by
  unfold splitSign
  split
  · exact absurd (h '-' (by simp)) (by decide)
  · exact absurd (h '+' (by simp)) (by decide)
  · rfl

theorem stoi_digits (s : Str) (h : ∀ c ∈ s, c.isDigit) (hne : s ≠ [])
    (hb : Nat.ofDigitChars 10 s 0 < 2^31) : stoi s = some (Nat.ofDigitChars 10 s 0 : ℤ) := by
  have hd : s.dropWhile isSpace = s := by
    cases s with
    | nil => rfl
    | cons c s => simp [List.dropWhile, isDigit_not_space c (h c (by simp))]
  have hi : IsInt (Nat.ofDigitChars 10 s 0 : ℤ) := by
    simp only [IsInt]
    omega
  simp only [stoi, hd, splitSign_digits s h, takeWhile_digits s h, hne, if_false,
    Bool.false_eq_true, hi, if_true]

theorem stoi_neg_digits (s : Str) (h : ∀ c ∈ s, c.isDigit) (hne : s ≠ [])
    (hb : Nat.ofDigitChars 10 s 0 ≤ 2^31) :
    stoi ('-'::s) = some (-(Nat.ofDigitChars 10 s 0 : ℤ)) := by
  have hi : IsInt (-(Nat.ofDigitChars 10 s 0 : ℤ)) := by
    simp only [IsInt]
    omega
  have hd : ('-'::s).dropWhile isSpace = '-'::s := rfl
  simp only [stoi, hd, splitSign, takeWhile_digits s h, hne, if_false, if_true, hi]

theorem stoi_stdToString (z : ℤ) (h : IsInt z) : stoi (stdToString z) = some z := by
  have hdig : ∀ n, ∀ c ∈ Nat.toDigits 10 n, c.isDigit :=
    fun n c hc => Nat.isDigit_of_mem_toDigits (by decide) (by decide) hc
  cases z with
  | ofNat n =>
    have hb : n < 2^31 := by
      have := h.2
      simp only [Int.ofNat_eq_natCast] at this
      omega
    have hs := stoi_digits (Nat.toDigits 10 n) (hdig n) Nat.toDigits_ne_nil
      (by simpa using hb)
    simpa [stdToString] using hs
  | negSucc n =>
    have hb : n+1 ≤ 2^31 := by
      have := h.1
      omega
    have hs := stoi_neg_digits (Nat.toDigits 10 (n+1)) (hdig (n+1)) Nat.toDigits_ne_nil
      (by simpa using hb)
    simpa [stdToString, Int.negSucc_eq] using hs

/-- The conversion `%02d` of a non-negative number. -/
def pad02 (n : ℕ) : Str :=
  if n < 10 then '0' :: Nat.toDigits 10 n else Nat.toDigits 10 n

theorem pad02_digits (n : ℕ) (c : Char) (h : c ∈ pad02 n) : c.isDigit := by
  have hdig : ∀ c ∈ Nat.toDigits 10 n, c.isDigit :=
    fun c hc => Nat.isDigit_of_mem_toDigits (by decide) (by decide) hc
  unfold pad02 at h
  split at h
  · rw [List.mem_cons] at h
    rcases h with rfl | h
    · rfl
    · exact hdig c h
  · exact hdig c h

theorem pad02_value (n : ℕ) : Nat.ofDigitChars 10 (pad02 n) 0 = n := by
  unfold pad02
  split
  · simp [Nat.ofDigitChars_cons]
  · simp

theorem pad02_injective : Function.Injective pad02 := by
  intro m n h
  rw [← pad02_value m, h, pad02_value]

theorem pad02_length (n : ℕ) (h : n < 100) : (pad02 n).length = 2 := by
  unfold pad02
  split
  · rename_i hn
    simp [Nat.toDigits_of_lt_base hn]
  · rename_i hn
    have h1 : (Nat.toDigits 10 n).length ≤ 2 :=
      (Nat.length_toDigits_le_iff (by decide) (by decide)).mpr (by omega)
    have h2 : ¬ (Nat.toDigits 10 n).length ≤ 1 := by
      rw [Nat.length_toDigits_le_iff (by decide) (by decide)]
      omega
    omega

/-- Numbers of two digits each, without separators. -/
def readPairs : Str → List ℕ
  | a::b::s => Nat.ofDigitChars 10 [a,b] 0 :: readPairs s
  | _ => []

theorem readPairs_pad02 (ns : List ℕ) (h : ∀ n ∈ ns, n < 100) :
    readPairs (ns.flatMap pad02) = ns := by
  induction ns with
  | nil => rfl
  | cons n ns ih =>
    obtain ⟨a,b,hab⟩ := List.length_eq_two.mp (pad02_length n (h n (by simp)))
    have hv := pad02_value n
    rw [hab] at hv
    rw [List.flatMap_cons, hab, List.cons_append, List.cons_append, List.nil_append, readPairs, hv,
      ih fun m hm => h m (by simp [hm])]

theorem pad02_flatMap_length (ns : List ℕ) (h : ∀ n ∈ ns, n < 100) :
    (ns.flatMap pad02).length = 2*ns.length := by
  induction ns with
  | nil => rfl
  | cons n ns ih =>
    rw [List.flatMap_cons, List.length_append, pad02_length n (h n (by simp)), List.length_cons,
      ih fun m hm => h m (by simp [hm])]
    omega

end WdHttp.CText
