import WdHttp.CText

/-!
# The text of a JSON document

The serialiser of the bundled `json.hpp`, with its table for decoding UTF-8. It
throws on a string that is not UTF-8. The strings it accepts are compared with the
byte ranges that define the encoding. The members of an object are in the order
of their names.
-/

set_option autoImplicit false

namespace WdHttp.JsonDump
open WdHttp.CText

def utf8Accept : ℕ := 0
def utf8Reject : ℕ := 1

/-- The first part of `utf8d`, by bytes. -/
def byteTypes : List ℕ := [
  0,0,0,0,0,0,0,0,0,0,0,0,0,0,0,0,0,0,0,0,0,0,0,0,0,0,0,0,0,0,0,0, -- 00..1F
  0,0,0,0,0,0,0,0,0,0,0,0,0,0,0,0,0,0,0,0,0,0,0,0,0,0,0,0,0,0,0,0, -- 20..3F
  0,0,0,0,0,0,0,0,0,0,0,0,0,0,0,0,0,0,0,0,0,0,0,0,0,0,0,0,0,0,0,0, -- 40..5F
  0,0,0,0,0,0,0,0,0,0,0,0,0,0,0,0,0,0,0,0,0,0,0,0,0,0,0,0,0,0,0,0, -- 60..7F
  1,1,1,1,1,1,1,1,1,1,1,1,1,1,1,1,9,9,9,9,9,9,9,9,9,9,9,9,9,9,9,9, -- 80..9F
  7,7,7,7,7,7,7,7,7,7,7,7,7,7,7,7,7,7,7,7,7,7,7,7,7,7,7,7,7,7,7,7, -- A0..BF
  8,8,2,2,2,2,2,2,2,2,2,2,2,2,2,2,2,2,2,2,2,2,2,2,2,2,2,2,2,2,2,2, -- C0..DF
  10,3,3,3,3,3,3,3,3,3,3,3,3,4,3,3, -- E0..EF
  11,6,6,6,5,8,8,8,8,8,8,8,8,8,8,8 -- F0..FF
  ]

/-- The second part, by states and types. -/
def transitions : List ℕ := [
  0,1,2,3,5,8,7,1,1,1,4,6,1,1,1,1, -- s0
  1,1,1,1,1,1,1,1,1,1,1,1,1,1,1,1,1,0,1,1,1,1,1,0,1,0,1,1,1,1,1,1, -- s1..s2
  1,2,1,1,1,1,1,2,1,2,1,1,1,1,1,1,1,1,1,1,1,1,1,2,1,1,1,1,1,1,1,1, -- s3..s4
  1,2,1,1,1,1,1,1,1,2,1,1,1,1,1,1,1,1,1,1,1,1,1,3,1,3,1,1,1,1,1,1, -- s5..s6
  1,3,1,1,1,1,1,3,1,3,1,1,1,1,1,1,1,3,1,1,1,1,1,1,1,1,1,1,1,1,1,1 -- s7..s8
  ]

def utf8d : List ℕ := byteTypes ++ transitions

def nextState (state byte : ℕ) : ℕ := utf8d.getD (256+state*16+utf8d.getD byte 0) 0

def nextCodep (state codep byte : ℕ) : ℕ :=
  if state ≠ utf8Accept then (byte &&& 0x3f) ||| (codep <<< 6) % 2^32
  else (0xFF >>> utf8d.getD byte 0) &&& byte

def octet (c : Char) : ℕ := c.toNat%256

def unicodeEscape (n : ℕ) : Str :=
  "\\u".toList ++ [Nat.digitChar (n/4096%16),Nat.digitChar (n/256%16),Nat.digitChar (n/16%16),
    Nat.digitChar (n%16)]

/-- What is written when the character `c` completes a code point. -/
def escaped (codepoint : ℕ) (c : Char) : Str :=
  if codepoint = 0x08 then "\\b".toList
  else if codepoint = 0x09 then "\\t".toList
  else if codepoint = 0x0A then "\\n".toList
  else if codepoint = 0x0C then "\\f".toList
  else if codepoint = 0x0D then "\\r".toList
  else if codepoint = 0x22 then "\\\"".toList
  else if codepoint = 0x5C then "\\\\".toList
  else if codepoint ≤ 0x1F then unicodeEscape codepoint
  else [c]

def dumpEscaped (state codep : ℕ) : Str → Option Str
  | [] => if state = utf8Accept then some [] else none
  | c::s =>
    let state' := nextState state (octet c)
    let codep' := nextCodep state codep (octet c)
    if state' = utf8Reject then none
    else (dumpEscaped state' codep' s).map
      ((if state' = utf8Accept then escaped codep' c else [c]) ++ ·)

def dumpString (s : Str) : Option Str :=
  (dumpEscaped utf8Accept 0 s).map fun t => "\"".toList ++ t ++ "\"".toList

inductive Doc where
  | integer (n : ℤ)
  | string (s : Str)
  | object (members : List (Str × Doc))

mutual
def dump : Doc → Option Str
  | .integer n => some (stdToString n)
  | .string s => dumpString s
  | .object ms => do
    let ts ← dumpMembers ms
    some ("\x7b".toList ++ List.intercalate ",".toList ts ++ "\x7d".toList)
def dumpMembers : List (Str × Doc) → Option (List Str)
  | [] => some []
  | (k,v)::ms => do
    let key ← dumpString k
    let value ← dump v
    let ts ← dumpMembers ms
    some ((key ++ ":".toList ++ value)::ts)
end

mutual
/-- The names and strings in a document. -/
def texts : Doc → List Str
  | .integer _ => []
  | .string s => [s]
  | .object ms => memberTexts ms
def memberTexts : List (Str × Doc) → List Str
  | [] => []
  | (k,v)::ms => k::(texts v ++ memberTexts ms)
end

/-- The ranges of the bytes that follow a first byte. -/
def following (a : ℕ) : Option (List (ℕ × ℕ)) :=
  if a < 0x80 then some []
  else if a < 0xC2 then none
  else if a ≤ 0xDF then some [(0x80,0xBF)]
  else if a = 0xE0 then some [(0xA0,0xBF),(0x80,0xBF)]
  else if a = 0xED then some [(0x80,0x9F),(0x80,0xBF)]
  else if a ≤ 0xEF then some [(0x80,0xBF),(0x80,0xBF)]
  else if a = 0xF0 then some [(0x90,0xBF),(0x80,0xBF),(0x80,0xBF)]
  else if a ≤ 0xF3 then some [(0x80,0xBF),(0x80,0xBF),(0x80,0xBF)]
  else if a = 0xF4 then some [(0x80,0x8F),(0x80,0xBF),(0x80,0xBF)]
  else none

/-- UTF-8, after bytes that leave these ranges to come. -/
def utf8From : List (ℕ × ℕ) → Str → Bool
  | [], [] => true
  | _::_, [] => false
  | [], c::s =>
    match following (octet c) with
    | some rs => utf8From rs s
    | none => false
  | r::rs, c::s => r.1 ≤ octet c && octet c ≤ r.2 && utf8From rs s

def utf8 (s : Str) : Bool := utf8From [] s

/-- The ranges to come in a state of the table. -/
def pending : ℕ → List (ℕ × ℕ)
  | 2 => [(0x80,0xBF)]
  | 3 => [(0x80,0xBF),(0x80,0xBF)]
  | 4 => [(0xA0,0xBF),(0x80,0xBF)]
  | 5 => [(0x80,0x9F),(0x80,0xBF)]
  | 6 => [(0x90,0xBF),(0x80,0xBF),(0x80,0xBF)]
  | 7 => [(0x80,0xBF),(0x80,0xBF),(0x80,0xBF)]
  | 8 => [(0x80,0x8F),(0x80,0xBF),(0x80,0xBF)]
  | _ => []

def typeOf (b : ℕ) : ℕ :=
  if b < 0x80 then 0
  else if b < 0x90 then 1
  else if b < 0xA0 then 9
  else if b < 0xC0 then 7
  else if b < 0xC2 then 8
  else if b < 0xE0 then 2
  else if b = 0xE0 then 0xA
  else if b = 0xED then 4
  else if b < 0xF0 then 3
  else if b = 0xF0 then 0xB
  else if b < 0xF4 then 6
  else if b = 0xF4 then 5
  else 8

theorem byteTypes_eq : byteTypes = (List.range 256).map typeOf := by decide +kernel

theorem nextState_eq (state byte : ℕ) (h : byte < 256) :
    nextState state byte = transitions.getD (state*16+typeOf byte) 0 := by
  have hl : byteTypes.length = 256 := by simp [byteTypes_eq]
  have hb : utf8d.getD byte 0 = typeOf byte := by
    rw [utf8d, List.getD_eq_getElem?_getD, List.getElem?_append_left (by omega), byteTypes_eq]
    simp [List.getElem?_range h]
  have hi : 256+state*16+typeOf byte-byteTypes.length = state*16+typeOf byte := by omega
  rw [nextState, hb, utf8d, List.getD_eq_getElem?_getD, List.getElem?_append_right (by omega), hi,
    List.getD_eq_getElem?_getD]

theorem typeOf_lt : ∀ b < 256, typeOf b < 12 := by decide +kernel

/-- What may follow a first byte depends on its type. -/
def followingType : ℕ → Option (List (ℕ × ℕ))
  | 0 => some []
  | 2 => some [(0x80,0xBF)]
  | 3 => some [(0x80,0xBF),(0x80,0xBF)]
  | 4 => some [(0x80,0x9F),(0x80,0xBF)]
  | 5 => some [(0x80,0x8F),(0x80,0xBF),(0x80,0xBF)]
  | 6 => some [(0x80,0xBF),(0x80,0xBF),(0x80,0xBF)]
  | 10 => some [(0xA0,0xBF),(0x80,0xBF)]
  | 11 => some [(0x90,0xBF),(0x80,0xBF),(0x80,0xBF)]
  | _ => none

theorem following_eq : ∀ b < 256, following b = followingType (typeOf b) := by decide +kernel

theorem first_transitions : ∀ t < 12,
    if transitions.getD t 0 = utf8Reject then followingType t = none
    else transitions.getD t 0 < 9 ∧ followingType t = some (pending (transitions.getD t 0)) := by
  decide

theorem nextState_first (b : ℕ) (h : b < 256) :
    if nextState utf8Accept b = utf8Reject then following b = none
    else nextState utf8Accept b < 9 ∧ following b = some (pending (nextState utf8Accept b)) := by
  rw [nextState_eq _ _ h, following_eq b h, utf8Accept, zero_mul, zero_add]
  exact first_transitions _ (typeOf_lt b h)

def typesIn (r : ℕ × ℕ) : List ℕ :=
  (if r.1 ≤ 0x80 ∧ 0x8F ≤ r.2 then [1] else []) ++
  (if r.1 ≤ 0x90 ∧ 0x9F ≤ r.2 then [9] else []) ++
  (if r.1 ≤ 0xA0 ∧ 0xBF ≤ r.2 then [7] else [])

def ranges : List (ℕ × ℕ) := [(0x80,0xBF),(0xA0,0xBF),(0x80,0x9F),(0x90,0xBF),(0x80,0x8F)]

theorem mem_range_iff : ∀ r ∈ ranges, ∀ b < 256,
    (r.1 ≤ b ∧ b ≤ r.2) ↔ typeOf b ∈ typesIn r := by decide +kernel

/-- A byte in the range that comes next takes the table to a state with the ranges
that are left, and any other byte is rejected. -/
def advances (s t : ℕ) : Bool :=
  match pending s with
  | [] => true
  | r::rs => r ∈ ranges &&
    (let n := transitions.getD (s*16+t) 0
      if t ∈ typesIn r then n < 9 && n ≠ utf8Reject && pending n = rs else n = utf8Reject)

theorem next_transitions : ∀ s < 9, ∀ t < 12, advances s t := by decide +kernel

theorem nextState_next (s b : ℕ) (hs : s < 9) (h : b < 256) (r : ℕ × ℕ) (rs : List (ℕ × ℕ))
    (hp : pending s = r::rs) :
    if r.1 ≤ b ∧ b ≤ r.2 then nextState s b < 9 ∧ nextState s b ≠ utf8Reject ∧
      pending (nextState s b) = rs
    else nextState s b = utf8Reject := by
  have ha := next_transitions s hs _ (typeOf_lt b h)
  simp only [advances, hp, Bool.and_eq_true, decide_eq_true_eq] at ha
  have hm := mem_range_iff r ha.1 b h
  rw [nextState_eq s b h]
  split_ifs with hb
  · simpa [hm.mp hb, and_assoc] using ha.2
  · simpa [mt hm.mpr hb] using ha.2

theorem pending_eq_nil : ∀ s < 9, s ≠ utf8Reject → (pending s = [] ↔ s = utf8Accept) := by decide

theorem dumpEscaped_cons (state codep : ℕ) (c : Char) (s : Str) :
    (dumpEscaped state codep (c::s)).isSome =
      (nextState state (octet c) ≠ utf8Reject &&
        (dumpEscaped (nextState state (octet c)) (nextCodep state codep (octet c)) s).isSome) := by
  simp only [dumpEscaped]
  split_ifs with h <;> simp [h]

/-- The table accepts exactly what is left of UTF-8. -/
theorem dumpEscaped_isSome (state codep : ℕ) (s : Str) (hs : state < 9) (hr : state ≠ utf8Reject) :
    (dumpEscaped state codep s).isSome = utf8From (pending state) s := by
  induction s generalizing state codep with
  | nil =>
    have hp := pending_eq_nil state hs hr
    cases h : pending state with
    | nil => simp [dumpEscaped, utf8From, hp.mp h]
    | cons r rs =>
      rw [h] at hp
      simp [dumpEscaped, utf8From, show state ≠ utf8Accept by simpa using hp]
  | cons c s ih =>
    have hc : octet c < 256 := Nat.mod_lt _ (by decide)
    rw [dumpEscaped_cons]
    cases h : pending state with
    | nil =>
      obtain rfl := (pending_eq_nil state hs hr).mp h
      have hn := nextState_first (octet c) hc
      by_cases hrej : nextState utf8Accept (octet c) = utf8Reject
      · rw [if_pos hrej] at hn
        simp [hrej, utf8From, hn]
      · rw [if_neg hrej] at hn
        simp [hrej, utf8From, hn.2, ih _ _ hn.1 hrej]
    | cons r rs =>
      have hn := nextState_next state (octet c) hs hc r rs h
      by_cases hin : r.1 ≤ octet c ∧ octet c ≤ r.2
      · rw [if_pos hin] at hn
        simp [hn.2.1, utf8From, hin, ih _ _ hn.1 hn.2.1, hn.2.2]
      · rw [if_neg hin] at hn
        rw [not_and] at hin
        simp only [hn, utf8From]
        by_cases hlo : r.1 ≤ octet c
        · simp [hin hlo]
        · simp [hlo]

theorem dumpString_isSome (s : Str) : (dumpString s).isSome = utf8 s := by
  rw [dumpString, Option.isSome_map, dumpEscaped_isSome _ _ _ (by decide) (by decide)]
  rfl

theorem utf8_ascii (s : Str) (h : ∀ c ∈ s, c.toNat < 128) : utf8 s := by
  unfold utf8
  induction s with
  | nil => rfl
  | cons c s ih =>
    have hc : octet c < 128 := by
      have := h c (by simp)
      unfold octet
      omega
    have hf : following (octet c) = some [] := by
      rw [following, if_pos hc]
    simp only [utf8From, hf]
    exact ih fun d hd => h d (by simp [hd])

mutual
theorem dump_isSome : (d : Doc) → (dump d).isSome = (texts d).all utf8
  | .integer n => rfl
  | .string s => by simp [dump, texts, dumpString_isSome]
  | .object ms => by
    rw [texts, ← dumpMembers_isSome ms, dump]
    cases dumpMembers ms <;> rfl
theorem dumpMembers_isSome :
    (ms : List (Str × Doc)) → (dumpMembers ms).isSome = (memberTexts ms).all utf8
  | [] => rfl
  | (k,v)::ms => by
    rw [memberTexts, List.all_cons, List.all_append, ← dumpString_isSome, ← dump_isSome v,
      ← dumpMembers_isSome ms, dumpMembers]
    cases dumpString k <;> cases dump v <;> cases dumpMembers ms <;> rfl
end

end WdHttp.JsonDump
