import Mathlib.Data.List.Basic
import Mathlib.Data.List.GetD
import Mathlib.Tactic.IntervalCases

/-!
# The Secure Hash Algorithm on bytes

The standard's definition: padding to blocks of sixteen 32-bit words, the
message schedule, eighty rounds and the digest. A message is a list of bytes,
its words are read big-endian, and a byte past the end reads as zero.
-/

set_option autoImplicit false

namespace WdHttp.Fips180

abbrev Word := BitVec 32

def byteWord (b : UInt8) : Word := BitVec.ofNat 32 b.toNat

/-- The `k`-th word of a message. -/
def word (m : List UInt8) (k : ℕ) : Word :=
  byteWord (m.getD (4*k) 0) <<< 24 ||| byteWord (m.getD (4*k+1) 0) <<< 16 |||
    byteWord (m.getD (4*k+2) 0) <<< 8 ||| byteWord (m.getD (4*k+3) 0)

def byteAt (w : Word) (s : ℕ) : UInt8 := UInt8.ofNat (w >>> s).toNat

def bytes (w : Word) : List UInt8 := [byteAt w 24,byteAt w 16,byteAt w 8,byteAt w 0]

def zeros (n : ℕ) : ℕ := (119-n%64)%64

/-- The message, a one bit, zeros, and the length in bits as two words. -/
def pad (m : List UInt8) : List UInt8 :=
  m ++ [0x80] ++ List.replicate (zeros m.length) 0 ++
    bytes (BitVec.ofNat 32 (8*m.length/2^32)) ++ bytes (BitVec.ofNat 32 (8*m.length))

def f (t : ℕ) (b c d : Word) : Word :=
  if t < 20 then (b &&& c) ||| (~~~b &&& d)
  else if t < 40 then b ^^^ c ^^^ d
  else if t < 60 then (b &&& c) ||| (b &&& d) ||| (c &&& d)
  else b ^^^ c ^^^ d

def K (t : ℕ) : Word :=
  if t < 20 then 0x5A827999 else if t < 40 then 0x6ED9EBA1 else if t < 60 then 0x8F1BBCDC
  else 0xCA62C1D6

structure Vars where
  a : Word
  b : Word
  c : Word
  d : Word
  e : Word
  deriving DecidableEq

def H0 : Vars := ⟨0x67452301,0xEFCDAB89,0x98BADCFE,0x10325476,0xC3D2E1F0⟩

def nextWord (w : List Word) : Word :=
  (w.getD (w.length-3) 0 ^^^ w.getD (w.length-8) 0 ^^^ w.getD (w.length-14) 0 ^^^
    w.getD (w.length-16) 0).rotateLeft 1

/-- The first words of the schedule, and `n` more. -/
def schedule (M : List Word) (n : ℕ) : List Word :=
  (List.range n).foldl (fun w _ => w ++ [nextWord w]) M

def oneRound (W : List Word) (v : Vars) (t : ℕ) : Vars :=
  ⟨v.a.rotateLeft 5 + f t v.b v.c v.d + v.e + W.getD t 0 + K t,v.a,v.b.rotateLeft 30,v.c,v.d⟩

def Vars.add (v H : Vars) : Vars := ⟨v.a+H.a,v.b+H.b,v.c+H.c,v.d+H.d,v.e+H.e⟩

def compress (H : Vars) (M : List Word) : Vars :=
  ((List.range 80).foldl (oneRound (schedule M 64)) H).add H

def block (p : List UInt8) (i : ℕ) : List Word := (List.range 16).map fun t => word p (16*i+t)

def digest (m : List UInt8) : Vars :=
  (List.range ((pad m).length/64)).foldl (fun H i => compress H (block (pad m) i)) H0

def Vars.bytes (v : Vars) : List UInt8 :=
  Fips180.bytes v.a ++ Fips180.bytes v.b ++ Fips180.bytes v.c ++ Fips180.bytes v.d ++
    Fips180.bytes v.e

def sha1 (m : List UInt8) : List UInt8 := (digest m).bytes

/-- Lower-case hexadecimal, two digits a byte. -/
def hex (bs : List UInt8) : List Char :=
  bs.flatMap fun b => [Nat.digitChar (b.toNat/16),Nat.digitChar (b.toNat%16)]

def lowerHex (c : Char) : Bool := c.isDigit || ('a' ≤ c && c ≤ 'f')

def nibble (c : Char) : ℕ := if c.isDigit then c.toNat-48 else c.toNat-87

/-- The bytes that pairs of hexadecimal digits stand for. -/
def unhex : List Char → List UInt8
  | a::b::s => UInt8.ofNat (16*nibble a+nibble b) :: unhex s
  | _ => []

theorem lowerHex_digitChar : ∀ n < 16, lowerHex (Nat.digitChar n) := by decide

theorem nibble_digitChar : ∀ n < 16, nibble (Nat.digitChar n) = n := by decide

theorem hex_cons (b : UInt8) (bs : List UInt8) :
    hex (b::bs) = Nat.digitChar (b.toNat/16) :: Nat.digitChar (b.toNat%16) :: hex bs := rfl

theorem hex_length (bs : List UInt8) : (hex bs).length = 2*bs.length := by
  induction bs with
  | nil => rfl
  | cons b bs ih =>
    rw [hex_cons, List.length_cons, List.length_cons, List.length_cons, ih]
    omega

theorem lowerHex_of_mem (bs : List UInt8) (c : Char) (h : c ∈ hex bs) : lowerHex c := by
  induction bs with
  | nil => cases h
  | cons b bs ih =>
    have hb := b.toNat_lt
    rw [hex_cons, List.mem_cons, List.mem_cons] at h
    rcases h with rfl | rfl | h
    · exact lowerHex_digitChar _ (by omega)
    · exact lowerHex_digitChar _ (by omega)
    · exact ih h

theorem unhex_hex (bs : List UInt8) : unhex (hex bs) = bs := by
  induction bs with
  | nil => rfl
  | cons b bs ih =>
    have hb := b.toNat_lt
    rw [hex_cons, unhex, nibble_digitChar _ (by omega), nibble_digitChar _ (by omega), ih,
      Nat.div_add_mod, UInt8.ofNat_toNat]

theorem bytes_length (w : Word) : (bytes w).length = 4 := rfl

theorem pad_length (m : List UInt8) : (pad m).length = 64*((m.length+8)/64+1) := by
  simp only [pad, List.length_append, List.length_singleton, List.length_replicate, bytes_length,
    zeros]
  omega

theorem byteWord_zero : byteWord 0 = 0 := rfl

theorem word_snoc (l : List UInt8) (b : UInt8) (k : ℕ) :
    word (l++[b]) k =
      word l k ||| if k = l.length/4 then byteWord b <<< (24-l.length%4*8) else 0#32 := by
  have hget : ∀ i, (l++[b]).getD i 0 = if i = l.length then b else l.getD i 0 := by
    intro i
    by_cases hi : i < l.length
    · rw [List.getD_append _ _ _ _ hi, if_neg (by omega)]
    · by_cases he : i = l.length
      · simp [he]
      · rw [if_neg he, List.getD_eq_default _ _ (by simp; omega),
          List.getD_eq_default _ _ (by omega)]
  have hend : ∀ i, l.length ≤ i → l.getD i 0 = 0 := fun i hi => List.getD_eq_default _ _ hi
  by_cases hk : k = l.length/4
  · have hr : l.length%4 = 0 ∨ l.length%4 = 1 ∨ l.length%4 = 2 ∨ l.length%4 = 3 := by omega
    rw [if_pos hk]
    simp only [word, hget]
    rcases hr with hr | hr | hr | hr
    · rw [if_pos (by omega), if_neg (by omega), if_neg (by omega), if_neg (by omega), hr,
        hend (4*k) (by omega), hend (4*k+1) (by omega), hend (4*k+2) (by omega),
        hend (4*k+3) (by omega)]
      simp [byteWord_zero]
    · rw [if_neg (by omega), if_pos (by omega), if_neg (by omega), if_neg (by omega), hr,
        hend (4*k+1) (by omega), hend (4*k+2) (by omega), hend (4*k+3) (by omega)]
      simp [byteWord_zero]
    · rw [if_neg (by omega), if_neg (by omega), if_pos (by omega), if_neg (by omega), hr,
        hend (4*k+2) (by omega), hend (4*k+3) (by omega)]
      simp [byteWord_zero]
    · rw [if_neg (by omega), if_neg (by omega), if_neg (by omega), if_pos (by omega), hr,
        hend (4*k+3) (by omega)]
      simp [byteWord_zero]
  · rw [if_neg hk, BitVec.or_zero]
    simp only [word, hget]
    rw [if_neg (by omega), if_neg (by omega), if_neg (by omega), if_neg (by omega)]

theorem word_replicate (l : List UInt8) (n k : ℕ) :
    word (l ++ List.replicate n 0) k = word l k := by
  induction n with
  | zero => simp
  | succ n ih =>
    rw [List.replicate_succ', ← List.append_assoc, word_snoc, ih, byteWord_zero]
    simp

theorem word_append (l r : List UInt8) (k : ℕ) (h : 4*k+3 < l.length) :
    word (l++r) k = word l k := by
  simp only [word]
  rw [List.getD_append _ _ _ _ (by omega), List.getD_append _ _ _ _ (by omega),
    List.getD_append _ _ _ _ (by omega), List.getD_append _ _ _ _ h]

theorem word_past (l : List UInt8) (k : ℕ) (h : l.length ≤ 4*k) : word l k = 0#32 := by
  simp only [word]
  rw [List.getD_eq_default _ _ h, List.getD_eq_default _ _ (by omega),
    List.getD_eq_default _ _ (by omega), List.getD_eq_default _ _ (by omega)]
  rfl

theorem byteWord_byteAt (w : Word) (s : ℕ) : byteWord (byteAt w s) = (w >>> s) &&& 0xFF := by
  apply BitVec.eq_of_toNat_eq
  rw [byteWord, byteAt, UInt8.toNat_ofNat', BitVec.toNat_ofNat, BitVec.toNat_and]
  show _ = _ &&& (2^8-1)
  rw [Nat.and_two_pow_sub_one_eq_mod]
  omega

theorem word_bytes (l : List UInt8) (w : Word) (k : ℕ) (h : l.length = 4*k) :
    word (l ++ bytes w) k = w := by
  have hget : ∀ i, (l ++ bytes w).getD (4*k+i) 0 = (bytes w).getD i 0 := by
    intro i
    rw [List.getD_append_right _ _ _ _ (by omega), h, Nat.add_sub_cancel_left]
  rw [word, hget, hget, hget, show 4*k = 4*k+0 from rfl, hget]
  simp only [bytes, List.getD_cons_zero, List.getD_cons_succ, byteWord_byteAt]
  ext i hi
  interval_cases i <;> simp

theorem schedule_succ (M : List Word) (n : ℕ) :
    schedule M (n+1) = schedule M n ++ [nextWord (schedule M n)] := by
  rw [schedule, List.range_succ, List.foldl_append]
  rfl

theorem schedule_length (M : List Word) (n : ℕ) : (schedule M n).length = M.length+n := by
  induction n with
  | zero => rfl
  | succ n ih =>
    rw [schedule_succ, List.length_append, ih]
    rfl

theorem schedule_stable (M : List Word) (n k t : ℕ) (h : t < M.length+n) :
    (schedule M (n+k)).getD t 0 = (schedule M n).getD t 0 := by
  induction k with
  | zero => rfl
  | succ k ih =>
    rw [← Nat.add_assoc, schedule_succ, List.getD_append _ _ _ _ (by rw [schedule_length]; omega),
      ih]

theorem schedule_rec (M : List Word) (n t : ℕ) (hM : M.length = 16) (h1 : 16 ≤ t)
    (h2 : t < 16+n) :
    (schedule M n).getD t 0 =
      ((schedule M n).getD (t-3) 0 ^^^ (schedule M n).getD (t-8) 0 ^^^
        (schedule M n).getD (t-14) 0 ^^^ (schedule M n).getD (t-16) 0).rotateLeft 1 := by
  obtain ⟨j,rfl⟩ : ∃ j, t = 16+j := ⟨t-16,by omega⟩
  obtain ⟨k,rfl⟩ : ∃ k, n = j+1+k := ⟨n-(j+1),by omega⟩
  have hold : ∀ i, i < 16+j → (schedule M (j+1+k)).getD i 0 = (schedule M j).getD i 0 := by
    intro i hi
    rw [Nat.add_assoc]
    exact schedule_stable M j (1+k) i (by omega)
  have hl : (schedule M j).length = 16+j := by rw [schedule_length, hM]
  rw [schedule_stable M (j+1) k (16+j) (by omega), schedule_succ,
    List.getD_append_right _ _ _ _ (by omega), hl, Nat.sub_self, List.getD_cons_zero, nextWord, hl,
    hold _ (by omega), hold _ (by omega), hold _ (by omega), hold _ (by omega)]

theorem schedule_first (M : List Word) (n t : ℕ) (h : t < M.length) :
    (schedule M n).getD t 0 = M.getD t 0 := by
  have hs := schedule_stable M 0 n t (by omega)
  rw [Nat.zero_add] at hs
  exact hs

end WdHttp.Fips180
