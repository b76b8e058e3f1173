import WdHttp.FileUtil
import WdHttp.JsInt

/-!
# The hash computed by the page

The script of `static/view/index.html`, function by function. A string is its
list of UTF-16 code units, an array a list of numbers; an element that was never
set reads as zero in an operator. The loops run over the values of their index.
-/

set_option autoImplicit false

namespace WdHttp.PageSha1
open WdHttp.CText WdHttp.PosixFile WdHttp.Fips180 WdHttp.FileUtil WdHttp.JsInt

def charCodeAt (str : List UInt16) (i : ℕ) : ℤ := (str.getD i 0).toNat

/-- `blks[i] |= x`. -/
def orAt (blks : List ℤ) (i x : ℤ) : List ℤ :=
  blks.set i.toNat (JsInt.or (blks.getD i.toNat 0) x)

def nblk (str : List UInt16) : ℤ := sar (str.length+8) 6 + 1

/-- One turn of the loop over the characters, also used for the final bit. -/
def putByte (blks : List ℤ) (i : ℕ) (code : ℤ) : List ℤ :=
  orAt blks (sar i 2) (shl code (24-JsInt.and i 3*8))

def alignSHA1 (str : List UInt16) : List ℤ :=
  let blks := List.replicate (nblk str*16).toNat 0
  let blks := (List.range str.length).foldl (fun blks i => putByte blks i (charCodeAt str i)) blks
  let blks := putByte blks str.length 0x80
  blks.set (nblk str*16-1).toNat (str.length*8)

def rol (num cnt : ℤ) : ℤ := JsInt.or (shl num cnt) (shr num (32-cnt))

def safeAdd (x y : ℤ) : ℤ :=
  let lsw := JsInt.and x 0xFFFF + JsInt.and y 0xFFFF
  let msw := sar x 16 + sar y 16 + sar lsw 16
  JsInt.or (shl msw 16) (JsInt.and lsw 0xFFFF)

def sha1Ft (t : ℕ) (b c d : ℤ) : ℤ :=
  if t < 20 then JsInt.or (JsInt.and b c) (JsInt.and (JsInt.not b) d)
  else if t < 40 then JsInt.xor (JsInt.xor b c) d
  else if t < 60 then
    JsInt.or (JsInt.or (JsInt.and b c) (JsInt.and b d)) (JsInt.and c d)
  else JsInt.xor (JsInt.xor b c) d

def sha1Kt (t : ℕ) : ℤ :=
  if t < 20 then 1518500249 else if t < 40 then 1859775393 else if t < 60 then -1894007588
  else -899497514

structure Regs where
  a : ℤ
  b : ℤ
  c : ℤ
  d : ℤ
  e : ℤ
  deriving DecidableEq

/-- The registers and the array `w`, which is kept from block to block. -/
structure Core where
  regs : Regs
  w : List ℤ

def expandStep (x : List ℤ) (i : ℕ) (w : List ℤ) (j : ℕ) : List ℤ :=
  w.set j (if j < 16 then x.getD (i+j) 0
    else rol (JsInt.xor (JsInt.xor (JsInt.xor (w.getD (j-3) 0) (w.getD (j-8) 0))
      (w.getD (j-14) 0)) (w.getD (j-16) 0)) 1)

def roundStep (r : Regs) (j : ℕ) (wj : ℤ) : Regs where
  a := safeAdd (safeAdd (rol r.a 5) (sha1Ft j r.b r.c r.d))
    (safeAdd (safeAdd r.e wj) (sha1Kt j))
  b := r.a
  c := rol r.b 30
  d := r.c
  e := r.d

def coreStep (x : List ℤ) (i : ℕ) (s : Core) (j : ℕ) : Core :=
  let w := expandStep x i s.w j
  ⟨roundStep s.regs j (w.getD j 0),w⟩

def addOld (r old : Regs) : Regs where
  a := safeAdd r.a old.a
  b := safeAdd r.b old.b
  c := safeAdd r.c old.c
  d := safeAdd r.d old.d
  e := safeAdd r.e old.e

def coreBlock (x : List ℤ) (s : Core) (k : ℕ) : Core :=
  let s' := (List.range 80).foldl (coreStep x (16*k)) s
  ⟨addOld s'.regs s.regs,s'.w⟩

def initialRegs : Regs := ⟨1732584193,-271733879,-1732584194,271733878,-1009589776⟩

def coreSha1 (x : List ℤ) : List ℤ :=
  let r := ((List.range ((x.length+15)/16)).foldl (coreBlock x)
    ⟨initialRegs,List.replicate 80 0⟩).regs
  [r.a,r.b,r.c,r.d,r.e]

def hexcase : ℤ := 0

def hexTab : List Char :=
  if hexcase ≠ 0 then "0123456789ABCDEF".toList else "0123456789abcdef".toList

def charAt (n : ℤ) : List Char := (hexTab[n.toNat]?).toList

/-- One turn of the loop over the bytes of the array. -/
def hexPair (binarray : List ℤ) (i : ℕ) : List Char :=
  charAt (JsInt.and (sar (binarray.getD (sar i 2).toNat 0) ((3-i%4)*8+4)) 0xF) ++
    charAt (JsInt.and (sar (binarray.getD (sar i 2).toNat 0) ((3-i%4)*8)) 0xF)

def binb2hex (binarray : List ℤ) : List Char :=
  (List.range (binarray.length*4)).flatMap (hexPair binarray)

def hexSha1 (s : List UInt16) : List Char := binb2hex (coreSha1 (alignSHA1 s))

/-- The self-test of the page. -/
def sha1VmTest : Bool :=
  hexSha1 [0x61,0x62,0x63] = "a9993e364706816aba3e25717850c26c9cd0d89d".toList

section Words

theorem bits_rol (num : ℤ) (cnt : ℕ) (h1 : 0 < cnt) (h2 : cnt < 32) :
    bits (rol num cnt) = (bits num).rotateLeft cnt := by
  have hc : (32-cnt : ℤ) = ((32-cnt : ℕ) : ℤ) := by omega
  rw [rol, bits_or, bits_shl, bits_shr, hc, shiftCount_natCast cnt h2,
    shiftCount_natCast (32-cnt) (by omega), BitVec.rotateLeft_def, Nat.mod_eq_of_lt h2]

theorem toNat_and_mask (x : Word) : (x &&& bits 0xFFFF).toNat = x.toNat%65536 := by
  rw [BitVec.toNat_and]
  show _ &&& (2^16-1) = _
  rw [Nat.and_two_pow_sub_one_eq_mod]

theorem toNat_sshiftRight_mod (x : Word) : (x.sshiftRight 16).toNat%65536 = x.toNat/65536 := by
  have h : x.sshiftRight 16 &&& bits 0xFFFF = x >>> 16 := by
    apply BitVec.eq_of_getLsbD_eq
    intro i hi
    simp only [BitVec.getLsbD_and, BitVec.getLsbD_sshiftRight, BitVec.getLsbD_ushiftRight]
    have hm : (bits 0xFFFF).getLsbD i = decide (i < 16) := by
      revert i
      decide
    by_cases h16 : i < 16
    · simp [hm, h16, show ¬ 32 ≤ i by omega, show 16+i < 32 by omega]
    · simp [hm, h16, BitVec.getLsbD_of_ge x (16+i) (by omega)]
  rw [← toNat_and_mask, h, BitVec.toNat_ushiftRight, Nat.shiftRight_eq_div_pow]

theorem toNat_shl_or (x y : Word) (hy : y.toNat < 65536) :
    (x <<< 16 ||| y).toNat = 65536*(x.toNat%65536) + y.toNat := by
  have hx : (x <<< 16).toNat = 2^16*(x.toNat%65536) := by
    rw [BitVec.toNat_shiftLeft, Nat.shiftLeft_eq]
    omega
  rw [BitVec.toNat_or, hx, ← Nat.two_pow_add_eq_or_of_lt (by omega)]

theorem bits_safeAdd (x y : ℤ) : bits (safeAdd x y) = bits x + bits y := by
  have hs : shiftCount 16 = 16 := rfl
  have hx := toNat_sshiftRight_mod (bits x)
  have hy := toNat_sshiftRight_mod (bits y)
  have hl := toNat_sshiftRight_mod ((bits x &&& bits 0xFFFF) + (bits y &&& bits 0xFFFF))
  apply BitVec.eq_of_toNat_eq
  simp only [safeAdd, bits_or, bits_and, bits_shl, bits_sar, bits_add, hs]
  rw [toNat_shl_or _ _ (by rw [toNat_and_mask]; omega), toNat_and_mask]
  simp only [BitVec.toNat_add, toNat_and_mask] at hl ⊢
  omega

theorem bits_sha1Ft (t : ℕ) (b c d : ℤ) : bits (sha1Ft t b c d) = f t (bits b) (bits c) (bits d) := by
  simp only [sha1Ft, f]
  split_ifs <;> simp

theorem bits_sha1Kt (t : ℕ) : bits (sha1Kt t) = K t := by
  simp only [sha1Kt, K]
  split_ifs <;> rfl

end Words

/-- The bytes of a string whose character codes are bytes. -/
def bytesOf (str : List UInt16) : Bytes := str.map fun c => UInt8.ofNat c.toNat

section Padding

/-- The array holds the words of the message. -/
def Holds (blks : List ℤ) (n : ℕ) (m : Bytes) : Prop :=
  blks.length = n ∧ ∀ k, k < n → bits (blks.getD k 0) = word m k

theorem getD_set (l : List ℤ) (i k : ℕ) (x : ℤ) (hi : i < l.length) :
    (l.set i x).getD k 0 = if k = i then x else l.getD k 0 := by
  by_cases hk : k = i
  · subst hk
    simp [List.getD_eq_getElem?_getD, hi]
  · simp [List.getD_eq_getElem?_getD, hk, Ne.symm hk]

theorem putByte_holds (blks : List ℤ) (n : ℕ) (m : Bytes) (b : UInt8) (h : Holds blks n m)
    (hn : m.length < 4*n) (hm : m.length < 2^31) :
    Holds (putByte blks m.length b.toNat) n (m++[b]) := by
  obtain ⟨hl,hw⟩ := h
  have hi : (sar (m.length : ℤ) 2).toNat = m.length/4 := by
    have hsar := sar_natCast m.length 2 hm (by decide)
    exact (congrArg Int.toNat hsar).trans (Int.toNat_natCast _)
  have hs : shiftCount (24-JsInt.and m.length 3*8) = 24-m.length%4*8 := by
    have hand := and_mask m.length 2 (by decide)
    have he : 24-JsInt.and m.length 3*8 = ((24-m.length%4*8 : ℕ) : ℤ) := by
      have hand' : JsInt.and m.length 3 = ((m.length%4 : ℕ) : ℤ) := hand
      rw [hand']
      omega
    rw [he, shiftCount_natCast _ (by omega)]
  have hb : bits (b.toNat : ℤ) = byteWord b := bits_natCast _
  refine ⟨by simp [putByte, orAt, hl],fun k hk => ?_⟩
  rw [putByte, orAt, hi, getD_set _ _ _ _ (by omega), word_snoc]
  by_cases he : k = m.length/4
  · rw [if_pos he, if_pos he, bits_or, bits_shl, hs, hb, hw _ (by omega), he]
  · rw [if_neg he, if_neg he, BitVec.or_zero, hw k hk]

theorem bytesOf_snoc (str : List UInt16) (n : ℕ) (h : n < str.length)
    (hc : ∀ c ∈ str, c.toNat ≤ 255) :
    ∃ b : UInt8, charCodeAt str n = b.toNat ∧
      (bytesOf str).take (n+1) = (bytesOf str).take n ++ [b] := by
  have hn : n < (bytesOf str).length := by simpa [bytesOf] using h
  have hle := hc str[n] (List.getElem_mem h)
  refine ⟨(bytesOf str)[n],?_,List.take_succ_eq_append_getElem hn⟩
  simp only [charCodeAt, List.getD_eq_getElem _ _ h, bytesOf, List.getElem_map, Nat.cast_inj]
  rw [UInt8.toNat_ofNat', Nat.mod_eq_of_lt (by omega)]

theorem loop_holds (str : List UInt16) (n L : ℕ) (hn : n ≤ str.length) (hL : str.length < 4*L)
    (hl : str.length < 2^31) (hc : ∀ c ∈ str, c.toNat ≤ 255) :
    Holds ((List.range n).foldl (fun blks i => putByte blks i (charCodeAt str i))
      (List.replicate L 0)) L ((bytesOf str).take n) := by
  induction n with
  | zero =>
    refine ⟨by simp,fun k hk => ?_⟩
    rw [List.range_zero, List.foldl_nil, List.getD_replicate _ hk, List.take_zero,
      word_past [] k (by simp)]
    rfl
  | succ n ih =>
    obtain ⟨b,hb,ht⟩ := bytesOf_snoc str n (by omega) hc
    have hlen : ((bytesOf str).take n).length = n := by
      simp [bytesOf]
      omega
    have hp := putByte_holds _ L _ b (ih (by omega)) (by omega) (by omega)
    rw [hlen] at hp
    rw [List.range_succ, List.foldl_append, ht, List.foldl_cons, List.foldl_nil, hb]
    exact hp

theorem nblk_eq (str : List UInt16) (hl : str.length < 2^29) :
    nblk str = (((str.length+8)/64+1 : ℕ) : ℤ) := by
  have h := sar_natCast (str.length+8) 6 (by omega) (by decide)
  rw [nblk]
  exact congrArg (· + 1) h

theorem bytesOf_length (str : List UInt16) : (bytesOf str).length = str.length := by
  simp [bytesOf]

theorem word_pad (m : Bytes) (k : ℕ) (hl : m.length < 2^29) (hk : k < 16*((m.length+8)/64+1)) :
    word (pad m) k = if k = 16*((m.length+8)/64+1)-1 then BitVec.ofNat 32 (8*m.length)
      else word (m++[0x80]) k := by
  have hz : (m ++ [0x80] ++ List.replicate (zeros m.length) (0:UInt8)).length =
      4*(16*((m.length+8)/64+1)-2) := by
    simp only [List.length_append, List.length_singleton, List.length_replicate, zeros]
    omega
  have hhi : BitVec.ofNat 32 (8*m.length/2^32) = 0#32 := by
    rw [Nat.div_eq_of_lt (by omega)]
  have hb : ∀ w, (bytes w).length = 4 := bytes_length
  rw [pad]
  split
  · rename_i he
    apply word_bytes
    rw [List.length_append, hz, hb]
    omega
  · rename_i hne
    rw [word_append _ _ _ (by rw [List.length_append, hz, hb]; omega), hhi]
    by_cases h2 : k = 16*((m.length+8)/64+1)-2
    · rw [word_bytes _ _ _ (by rw [hz, h2]), word_past _ _ (by
        simp only [List.length_append, List.length_singleton]
        omega)]
    · rw [word_append _ _ _ (by rw [hz]; omega), word_replicate]

theorem alignSHA1_holds (str : List UInt16) (hl : str.length < 2^29)
    (hc : ∀ c ∈ str, c.toNat ≤ 255) :
    Holds (alignSHA1 str) (16*((str.length+8)/64+1)) (pad (bytesOf str)) := by
  have h1 : (nblk str*16).toNat = 16*((str.length+8)/64+1) := by
    rw [nblk_eq str hl]
    omega
  have h2 : (nblk str*16-1).toNat = 16*((str.length+8)/64+1)-1 := by
    rw [nblk_eq str hl]
    omega
  have hlen := bytesOf_length str
  have hloop := loop_holds str str.length (16*((str.length+8)/64+1)) (le_refl _) (by omega)
    (by omega) hc
  rw [List.take_of_length_le (by omega)] at hloop
  have hend := putByte_holds _ _ _ 0x80 hloop (by omega) (by omega)
  rw [hlen, show (((0x80 : UInt8).toNat : ℕ) : ℤ) = 0x80 from rfl] at hend
  obtain ⟨hl',hw⟩ := hend
  simp only [alignSHA1, h1, h2]
  refine ⟨by rw [List.length_set]; exact hl',fun k hk => ?_⟩
  rw [getD_set _ _ _ _ (by rw [hl']; omega), word_pad _ _ (by omega) (by omega),
    hlen]
  split
  · rw [Nat.mul_comm, ← bits_natCast]
    simp
  · exact hw k hk

end Padding

section Rounds

def Regs.vars (r : Regs) : Vars := ⟨bits r.a,bits r.b,bits r.c,bits r.d,bits r.e⟩

theorem roundStep_vars (r : Regs) (j : ℕ) (wj : ℤ) (W : List Word) (h : bits wj = W.getD j 0) :
    (roundStep r j wj).vars = oneRound W r.vars j := by
  have h5 : bits (rol r.a 5) = (bits r.a).rotateLeft 5 := bits_rol r.a 5 (by decide) (by decide)
  have h30 : bits (rol r.b 30) = (bits r.b).rotateLeft 30 :=
    bits_rol r.b 30 (by decide) (by decide)
  simp only [roundStep, Regs.vars, oneRound, bits_safeAdd, h5, h30, bits_sha1Ft, bits_sha1Kt, h,
    Vars.mk.injEq, and_self, and_true]
  simp only [BitVec.add_assoc]

theorem addOld_vars (r old : Regs) : (addOld r old).vars = r.vars.add old.vars := by
  simp only [addOld, Regs.vars, Vars.add, bits_safeAdd]

/-- After `j` rounds the array holds the first `j` words of the schedule. -/
def Expanded (w : List ℤ) (W : List Word) (j : ℕ) : Prop :=
  w.length = 80 ∧ ∀ t, t < j → bits (w.getD t 0) = W.getD t 0

theorem expandStep_expanded (x w : List ℤ) (i j : ℕ) (M : List Word) (hM : M.length = 16)
    (hx : ∀ t, t < 16 → bits (x.getD (i+t) 0) = M.getD t 0) (hj : j < 80)
    (h : Expanded w (schedule M 64) j) :
    Expanded (expandStep x i w j) (schedule M 64) (j+1) := by
  obtain ⟨hl,hw⟩ := h
  refine ⟨by simp [expandStep, hl],fun t ht => ?_⟩
  rw [expandStep, getD_set _ _ _ _ (by omega)]
  by_cases he : t = j
  · rw [if_pos he, he]
    by_cases h16 : j < 16
    · rw [if_pos h16, hx j h16, schedule_first M 64 j (by omega)]
    · have hrol : ∀ z, bits (rol z 1) = (bits z).rotateLeft 1 :=
        fun z => bits_rol z 1 (by decide) (by decide)
      rw [if_neg h16, schedule_rec M 64 j hM (by omega) (by omega), ← hw (j-3) (by omega),
        ← hw (j-8) (by omega), ← hw (j-14) (by omega), ← hw (j-16) (by omega), hrol, bits_xor,
        bits_xor, bits_xor]
  · rw [if_neg he, hw t (by omega)]

theorem rounds_vars (x : List ℤ) (s : Core) (i n : ℕ) (M : List Word) (hM : M.length = 16)
    (hx : ∀ t, t < 16 → bits (x.getD (i+t) 0) = M.getD t 0) (hw : s.w.length = 80) (hn : n ≤ 80) :
    ((List.range n).foldl (coreStep x i) s).regs.vars =
        (List.range n).foldl (oneRound (schedule M 64)) s.regs.vars ∧
      Expanded ((List.range n).foldl (coreStep x i) s).w (schedule M 64) n := by
  induction n with
  | zero => exact ⟨rfl,hw,fun t ht => absurd ht (Nat.not_lt_zero t)⟩
  | succ n ih =>
    obtain ⟨hr,he⟩ := ih (by omega)
    have he' := expandStep_expanded x _ i n M hM hx (by omega) he
    rw [List.range_succ, List.foldl_append, List.foldl_append]
    refine ⟨?_,he'⟩
    rw [List.foldl_cons, List.foldl_nil, List.foldl_cons, List.foldl_nil, ← hr]
    exact roundStep_vars _ n _ _ (he'.2 n (by omega))

theorem coreBlock_vars (x : List ℤ) (s : Core) (k : ℕ) (M : List Word) (hM : M.length = 16)
    (hx : ∀ t, t < 16 → bits (x.getD (16*k+t) 0) = M.getD t 0) (hw : s.w.length = 80) :
    (coreBlock x s k).regs.vars = compress s.regs.vars M ∧ (coreBlock x s k).w.length = 80 := by
  obtain ⟨hr,he,-⟩ := rounds_vars x s (16*k) 80 M hM hx hw (le_refl 80)
  unfold coreBlock
  dsimp only
  rw [addOld_vars, hr, compress]
  exact ⟨rfl,he⟩

theorem blocks_vars (x : List ℤ) (p : Bytes) (n L : ℕ) (h : Holds x L p) (hn : 16*n ≤ L) :
    ((List.range n).foldl (coreBlock x) ⟨initialRegs,List.replicate 80 0⟩).regs.vars =
        (List.range n).foldl (fun H i => compress H (block p i)) H0 ∧
      ((List.range n).foldl (coreBlock x) ⟨initialRegs,List.replicate 80 0⟩).w.length = 80 := by
  induction n with
  | zero => exact ⟨rfl,rfl⟩
  | succ n ih =>
    obtain ⟨hr,hw⟩ := ih (by omega)
    have hx : ∀ t, t < 16 → bits (x.getD (16*n+t) 0) = (block p n).getD t 0 := by
      intro t ht
      rw [h.2 _ (by omega), block, List.getD_eq_getElem _ _ (by simpa using ht),
        List.getElem_map, List.getElem_range]
    rw [List.range_succ, List.foldl_append, List.foldl_append, List.foldl_cons, List.foldl_nil,
      List.foldl_cons, List.foldl_nil, ← hr]
    exact coreBlock_vars x _ n (block p n) (by simp [block]) hx hw

end Rounds

section Hex

theorem charAt_eq (n : ℕ) (h : n < 16) : charAt n = [Nat.digitChar n] := by
  interval_cases n <;> rfl

theorem charAt_nibble (x : ℤ) (n : ℕ) (h : n ≤ 28) :
    charAt (JsInt.and (sar x n) 0xF) = [Nat.digitChar ((bits x).toNat/2^n%16)] := by
  have hm := sar_and_mask x n 4 (by decide) (by omega) (by omega)
  rw [← charAt_eq _ (Nat.mod_lt _ (by decide))]
  exact congrArg charAt hm

theorem byteAt_toNat (w : Word) (s : ℕ) : (byteAt w s).toNat = w.toNat/2^s%256 := by
  rw [byteAt, UInt8.toNat_ofNat', BitVec.toNat_ushiftRight, Nat.shiftRight_eq_div_pow]

theorem charAt_byte (x : ℤ) (s : ℕ) (h : s ≤ 24) :
    charAt (JsInt.and (sar x (s+4)) 0xF) ++ charAt (JsInt.and (sar x s) 0xF) =
      hex [byteAt (bits x) s] := by
  have h4 := charAt_nibble x (s+4) (by omega)
  have hdiv : (bits x).toNat/2^s%256/16 = (bits x).toNat/2^(s+4)%16 := by
    rw [Nat.pow_add, ← Nat.div_div_eq_div_mul]
    omega
  have hmod : (bits x).toNat/2^s%256%16 = (bits x).toNat/2^s%16 := by omega
  rw [show ((s : ℤ)+4) = ((s+4 : ℕ) : ℤ) from rfl, h4, charAt_nibble x s (by omega)]
  simp [hex, byteAt_toNat, hdiv, hmod]

theorem hexPair_eq (binarray : List ℤ) (q r : ℕ) (hq : q < 2^28) (hr : r < 4) :
    hexPair binarray (4*q+r) = hex [byteAt (bits (binarray.getD q 0)) (24-8*r)] := by
  have hi : (sar ((4*q+r : ℕ) : ℤ) 2).toNat = q := by
    have hsar := sar_natCast (4*q+r) 2 (by omega) (by decide)
    rw [show ((2 : ℕ) : ℤ) = 2 from rfl] at hsar
    rw [hsar, Int.toNat_natCast]
    omega
  have hs : (3-((4*q+r : ℕ) : ℤ)%4)*8 = ((24-8*r : ℕ) : ℤ) := by omega
  rw [hexPair, hi, hs]
  exact charAt_byte _ _ (by omega)

theorem hex_append (bs cs : Bytes) : hex (bs++cs) = hex bs ++ hex cs := List.flatMap_append

theorem binb2hex_regs (r : Regs) : binb2hex [r.a,r.b,r.c,r.d,r.e] = hex r.vars.bytes := by
  have hrange : List.range ([r.a,r.b,r.c,r.d,r.e].length*4) =
      (List.range 5).flatMap fun q => [4*q+0,4*q+1,4*q+2,4*q+3] := rfl
  have hword : ∀ q, q < 5 → ([4*q+0,4*q+1,4*q+2,4*q+3].flatMap
      (hexPair [r.a,r.b,r.c,r.d,r.e])) = hex (bytes (bits ([r.a,r.b,r.c,r.d,r.e].getD q 0))) := by
    intro q hq
    simp only [List.flatMap_cons, List.flatMap_nil, List.append_nil]
    rw [hexPair_eq _ q 0 (by omega) (by decide), hexPair_eq _ q 1 (by omega) (by decide),
      hexPair_eq _ q 2 (by omega) (by decide), hexPair_eq _ q 3 (by omega) (by decide),
      ← hex_append, ← hex_append, ← hex_append]
    rfl
  rw [binb2hex, hrange, List.flatMap_assoc,
    List.flatMap_congr (fun q hq => hword q (List.mem_range.mp hq))]
  simp only [Vars.bytes, hex_append]
  rfl

end Hex

/-- The page computes the standard digest. -/
theorem hexSha1_eq (str : List UInt16) (hc : ∀ c ∈ str, c.toNat ≤ 255)
    (hl : str.length < 2^29) : hexSha1 str = hex (sha1 (bytesOf str)) := by
  have hA := alignSHA1_holds str hl hc
  have hn : (alignSHA1 str).length = 16*((str.length+8)/64+1) := hA.1
  obtain ⟨hv,-⟩ := blocks_vars _ _ ((str.length+8)/64+1) _ hA (le_refl _)
  have hcount : ((alignSHA1 str).length+15)/16 = (str.length+8)/64+1 := by omega
  have hblocks : (pad (bytesOf str)).length/64 = (str.length+8)/64+1 := by
    rw [pad_length, bytesOf_length]
    omega
  rw [hexSha1, coreSha1, hcount, binb2hex_regs, hv, sha1, digest, hblocks]

theorem hex_sha1_length (m : Bytes) : (hex (sha1 m)).length = 40 := rfl

theorem sha1_abc :
    hex (sha1 [0x61,0x62,0x63]) = "a9993e364706816aba3e25717850c26c9cd0d89d".toList := by
  decide +kernel

theorem sha1VmTest_passes : sha1VmTest = true := by
  rw [sha1VmTest, hexSha1_eq _ (by simp) (by simp), decide_eq_true_eq]
  exact sha1_abc

/-- For every string of bytes, the page and the server agree on the forty digits
of the standard digest, however the server's file is read. -/
theorem page_sha1_is_sha1 (s : List UInt16) (hc : ∀ c ∈ s, c.toNat ≤ 255)
    (hl : s.length < 2^29) :
    hexSha1 s = hex (sha1 (bytesOf s)) ∧ (hexSha1 s).length = 40 ∧
      ∀ (o : Openssl) (reads : List (Option Bytes)), o.Standard → Delivers (bytesOf s) reads →
        sha1File o reads = some (hexSha1 s) := by
  have h := hexSha1_eq s hc hl
  refine ⟨h,by rw [h, hex_sha1_length],fun o reads ho hr => ?_⟩
  rw [h]
  exact sha1File_eq o ho (bytesOf s) (by rw [bytesOf_length]; omega) reads hr

def buffering : Openssl where
  Ctx := Bytes
  sha1Init := []
  sha1Update := fun ctx buf => ctx++buf
  sha1Final := sha1

theorem foldl_append_flatten (pieces : List Bytes) (ctx : Bytes) :
    pieces.foldl (fun ctx buf => ctx++buf) ctx = ctx ++ pieces.flatten := by
  induction pieces generalizing ctx with
  | nil => simp
  | cons buf pieces ih => rw [List.foldl_cons, ih, List.flatten_cons, List.append_assoc]

theorem buffering_standard : buffering.Standard :=
  fun pieces _ => congrArg sha1 (foldl_append_flatten pieces [])

theorem page_sha1_abc :
    hexSha1 [0x61,0x62,0x63] = "a9993e364706816aba3e25717850c26c9cd0d89d".toList ∧
      sha1File buffering [some [0x61],some [0x62,0x63],some []] = some (hexSha1 [0x61,0x62,0x63]) := by
  obtain ⟨h1,-,h3⟩ := page_sha1_is_sha1 [0x61,0x62,0x63] (by simp) (by simp)
  refine ⟨?_,h3 buffering _ buffering_standard ?_⟩
  · rw [h1]
    exact sha1_abc
  · exact ⟨by decide,by decide,[0x62,0x63],rfl,by decide,by decide,[],rfl,rfl,rfl⟩

end WdHttp.PageSha1
