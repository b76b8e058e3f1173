import WdHttp.StrUtil

/-!
# Percent encoding

`CodeUtil` of wfrest. The server encodes the path of every request before it looks for a
route; the slash is among the bytes that stay.
-/

set_option autoImplicit false

namespace WdHttp.CodeUtil
open WdHttp.PosixFile WdHttp.StrUtil

def percent : UInt8 := 37
def plus : UInt8 := 43

def isDigit (c : UInt8) : Bool := 48 ≤ c && c ≤ 57
def isUpper (c : UInt8) : Bool := 65 ≤ c && c ≤ 90
def isLower (c : UInt8) : Bool := 97 ≤ c && c ≤ 122

/-- The bytes that `url_encode` keeps; the last ones are `-`, `.`, `_`, `~` and `/`. -/
def kept (c : UInt8) : Bool :=
  isDigit c || isUpper c || isLower c || [45,46,95,126,slash].contains c

def hexChars : Bytes := ascii "0123456789ABCDEF"

def hexChar (n : ℕ) : UInt8 := hexChars.getD n 0

def encodeByte (c : UInt8) : Bytes :=
  if kept c then [c] else [percent,hexChar (c.toNat/16),hexChar (c.toNat%16)]

def urlEncode (value : Bytes) : Bytes := value.flatMap encodeByte

def hexValue (c : UInt8) : Option ℕ :=
  if isDigit c then some (c.toNat-48)
  else if isUpper c && c ≤ 70 then some (c.toNat-55)
  else if isLower c && c ≤ 102 then some (c.toNat-87)
  else none

def hexDigits : Bytes → ℕ → ℕ
  | [], acc => acc
  | c :: cs, acc =>
    match hexValue c with
    | some d => hexDigits cs (16*acc+d)
    | none => acc

/-- `strtol` to the base 16: blanks, a sign and `0x` may stand in front. -/
def strtol (s : Bytes) : ℤ :=
  let s := s.dropWhile isspace
  let t := if s.head? = some 45 ∨ s.head? = some plus then s.tail else s
  let marked := t.head? = some 48 ∧ (t.tail.head? = some 120 ∨ t.tail.head? = some 88) ∧
    (t[2]?.bind hexValue).isSome
  let n := hexDigits (if marked then t.drop 2 else t) 0
  if s.head? = some 45 then -n else n

def toChar (n : ℤ) : UInt8 := (n%256).toNat.toUInt8

def plusToBlank (c : UInt8) : UInt8 := if c = plus then 32 else c

def urlDecode : Bytes → Bytes
  | [] => []
  | c :: a :: b :: rest =>
    if c = percent then toChar (strtol [a,b]) :: urlDecode rest
    else plusToBlank c :: urlDecode (a :: b :: rest)
  | c :: rest => plusToBlank c :: urlDecode rest

theorem hexChar_spec : ∀ n < 16, isspace (hexChar n) = false ∧ hexChar n ≠ 45 ∧
    hexChar n ≠ plus ∧ hexChar n ≠ 120 ∧ hexChar n ≠ 88 ∧ hexValue (hexChar n) = some n ∧
    hexChar n ≠ slash ∧ kept (hexChar n) = true := by
  decide

theorem strtol_hex {m n : ℕ} (hm : m < 16) (hn : n < 16) :
    strtol [hexChar m,hexChar n] = 16*m+n := by
  obtain ⟨hs,h1,h2,-,-,hv,-⟩ := hexChar_spec m hm
  obtain ⟨-,-,-,h3,h4,hv',-⟩ := hexChar_spec n hn
  have hdrop : [hexChar m,hexChar n].dropWhile isspace = [hexChar m,hexChar n] :=
    List.dropWhile_cons_of_neg (by rw [hs]; decide)
  simp [strtol, hdrop, h1, h2, h3, h4, hexDigits, hv, hv']

theorem toChar_toNat (c : UInt8) : toChar (c.toNat : ℤ) = c := by
  have hc := c.toNat_lt
  have hmod : ((c.toNat : ℤ)%256).toNat = c.toNat := by omega
  rw [toChar, hmod]
  exact UInt8.ofNat_toNat

theorem urlDecode_plain {c : UInt8} (h1 : c ≠ percent) (h2 : c ≠ plus) (rest : Bytes) :
    urlDecode (c :: rest) = c :: urlDecode rest := by
  have hc : plusToBlank c = c := if_neg h2
  rcases rest with _ | ⟨a,_ | ⟨b,rest⟩⟩
  · simp [urlDecode, hc]
  · simp [urlDecode, hc]
  · rw [urlDecode, if_neg h1, hc]

theorem urlDecode_encodeByte (c : UInt8) (rest : Bytes) :
    urlDecode (encodeByte c ++ rest) = c :: urlDecode rest := by
  rw [encodeByte]
  split
  next hk =>
    apply urlDecode_plain
    · rintro rfl
      exact absurd hk (by decide)
    · rintro rfl
      exact absurd hk (by decide)
  next =>
    have hc := c.toNat_lt
    have hm : c.toNat/16 < 16 := by omega
    have hn : c.toNat%16 < 16 := by omega
    have hsum : (16*(c.toNat/16 : ℕ)+(c.toNat%16 : ℕ) : ℤ) = c.toNat := by omega
    rw [List.cons_append, List.cons_append, List.singleton_append, urlDecode, if_pos rfl,
      strtol_hex hm hn, hsum, toChar_toNat]

/-- What is encoded is decoded again, whatever bytes it has. -/
theorem urlDecode_urlEncode (value : Bytes) : urlDecode (urlEncode value) = value := by
  induction value with
  | nil => rfl
  | cons c value ih => rw [urlEncode, List.flatMap_cons, urlDecode_encodeByte, ← urlEncode, ih]

theorem urlEncode_injective : Function.Injective urlEncode :=
  Function.LeftInverse.injective urlDecode_urlEncode

theorem urlEncode_cons (c : UInt8) (s : Bytes) : urlEncode (c :: s) = encodeByte c ++ urlEncode s :=
  List.flatMap_cons

theorem urlEncode_append (s t : Bytes) : urlEncode (s ++ t) = urlEncode s ++ urlEncode t :=
  List.flatMap_append

theorem mem_urlEncode {c : UInt8} {s : Bytes} (h : c ∈ urlEncode s) :
    kept c = true ∨ c = percent := by
  obtain ⟨b,-,hb⟩ := List.mem_flatMap.mp h
  rw [encodeByte] at hb
  split at hb
  next hk =>
    rw [List.mem_singleton.mp hb]
    exact Or.inl hk
  next =>
    have hlt := b.toNat_lt
    obtain ⟨-,-,-,-,-,-,-,h1⟩ := hexChar_spec (b.toNat/16) (by omega)
    obtain ⟨-,-,-,-,-,-,-,h2⟩ := hexChar_spec (b.toNat%16) (by omega)
    simp only [List.mem_cons, List.not_mem_nil, or_false] at hb
    rcases hb with hb | hb | hb
    · exact Or.inr hb
    · exact Or.inl (hb ▸ h1)
    · exact Or.inl (hb ▸ h2)

theorem slash_mem_encodeByte {c : UInt8} (h : slash ∈ encodeByte c) : c = slash := by
  rw [encodeByte] at h
  split at h
  · exact (List.mem_singleton.mp h).symm
  · have hc := c.toNat_lt
    obtain ⟨-,-,-,-,-,-,h1,-⟩ := hexChar_spec (c.toNat/16) (by omega)
    obtain ⟨-,-,-,-,-,-,h2,-⟩ := hexChar_spec (c.toNat%16) (by omega)
    simp only [List.mem_cons, List.not_mem_nil, or_false] at h
    rcases h with h | h | h
    · exact absurd h (by decide)
    · exact absurd h.symm h1
    · exact absurd h.symm h2

theorem encodeByte_slash : encodeByte slash = [slash] := by decide

theorem splitFrom_urlEncode (cursor s : Bytes) :
    splitFrom slash (urlEncode cursor) (urlEncode s) =
      (splitFrom slash cursor s).map urlEncode := by
  induction s generalizing cursor with
  | nil => rfl
  | cons c s ih =>
    rw [splitFrom, urlEncode_cons]
    by_cases hc : c = slash
    · subst hc
      rw [if_pos rfl, encodeByte_slash, List.singleton_append, splitFrom, if_pos rfl,
        List.map_cons, ← ih []]
      rfl
    · have hno : slash ∉ encodeByte c := fun h => hc (slash_mem_encodeByte h)
      have hsnoc : urlEncode (cursor ++ [c]) = urlEncode cursor ++ encodeByte c := by
        rw [urlEncode_append, urlEncode_cons]
        exact congrArg _ (List.append_nil _)
      rw [if_neg hc, splitFrom_skip hno, ← ih, hsnoc]

end WdHttp.CodeUtil
