import WdHttp.UserSignin

/-!
# Tokens

The text built by the constructor of `Token` in `day12/project/Token.h` has no
separators. Its parts have fixed widths, two digits for each byte of the digest and
two for each field of the local time, so that both are read back from it.
-/

set_option autoImplicit false

namespace WdHttp.UserToken
open WdHttp.CText WdHttp.Fips180 WdHttp.FileUtil WdHttp.UserSignin

/-- The fields of `struct tm` in a token, in order. -/
def fields (t : Clock) : List ℕ := [t.mday,t.hour,t.min,t.sec]

def digestOf (token : Str) : List UInt8 := unhex (token.take 32)
def fieldsOf (token : Str) : List ℕ := readPairs (token.drop 32)

theorem fields_lt (t : Clock) : ∀ n ∈ fields t, n < 100 := by
  intro n hn
  simp only [fields, List.mem_cons, List.not_mem_nil, or_false] at hn
  obtain ⟨mday,hour,min,sec⟩ := t
  rcases hn with rfl | rfl | rfl | rfl
  · exact lt_trans mday.isLt (by decide)
  · exact lt_trans hour.isLt (by decide)
  · exact lt_trans min.isLt (by decide)
  · exact lt_trans sec.isLt (by decide)

theorem timeStamp_eq (t : Clock) : timeStamp t = (fields t).flatMap pad02 := by
  simp [timeStamp, fields]

theorem token_eq (env : Env) (username : Str) (now : Clock) :
    token env username now = hex (env.md5 (username ++ salt)) ++ (fields now).flatMap pad02 := by
  rw [token, timeStamp_eq, hex, funext fmt02x_eq]

section Decoding

variable {env : Env} {username : Str} {now : Clock}

theorem token_take (hmd5 : (env.md5 (username ++ salt)).length = 16) :
    (token env username now).take 32 = hex (env.md5 (username ++ salt)) := by
  rw [token_eq]
  exact List.take_left' (by rw [hex_length, hmd5])

theorem token_drop (hmd5 : (env.md5 (username ++ salt)).length = 16) :
    (token env username now).drop 32 = (fields now).flatMap pad02 := by
  rw [token_eq]
  exact List.drop_left' (by rw [hex_length, hmd5])

theorem digestOf_token (hmd5 : (env.md5 (username ++ salt)).length = 16) :
    digestOf (token env username now) = env.md5 (username ++ salt) := by
  rw [digestOf, token_take hmd5, unhex_hex]

theorem fieldsOf_token (hmd5 : (env.md5 (username ++ salt)).length = 16) :
    fieldsOf (token env username now) = fields now := by
  rw [fieldsOf, token_drop hmd5, readPairs_pad02 _ (fields_lt now)]

theorem token_length (hmd5 : (env.md5 (username ++ salt)).length = 16) :
    (token env username now).length = 40 := by
  rw [token_eq, List.length_append, hex_length, hmd5, pad02_flatMap_length _ (fields_lt now)]
  rfl

end Decoding

/-- Forty characters, thirty-two digits of the digest and eight of the time, from
which both are read back. -/
structure Readable (env : Env) (username : Str) (now : Clock) : Prop where
  length : (token env username now).length = 40
  hexDigits : ∀ c ∈ (token env username now).take 32, lowerHex c
  digits : ∀ c ∈ (token env username now).drop 32, c.isDigit
  digest : digestOf (token env username now) = env.md5 (username ++ salt)
  time : fieldsOf (token env username now) = fields now

theorem token_readable (env : Env) (username : Str) (now : Clock)
    (hmd5 : (env.md5 (username ++ salt)).length = 16) : Readable env username now where
  length := token_length hmd5
  hexDigits := by
    rw [token_take hmd5]
    exact lowerHex_of_mem _
  digits := by
    rw [token_drop hmd5]
    intro c hc
    obtain ⟨n,-,hc⟩ := List.mem_flatMap.mp hc
    exact pad02_digits n c hc
  digest := digestOf_token hmd5
  time := fieldsOf_token hmd5

theorem fields_inj (t t' : Clock) :
    fields t = fields t' ↔
      t.mday = t'.mday ∧ t.hour = t'.hour ∧ t.min = t'.min ∧ t.sec = t'.sec := by
  simp [fields, Fin.ext_iff]

/-- A token stands for its user and the second of the login: where the digest tells
the two names apart, equal tokens have the same name and the same time. -/
theorem token_identifies (env : Env) (u₁ u₂ : Str) (t₁ t₂ : Clock)
    (hmd5 : ∀ s, (env.md5 s).length = 16)
    (hfree : env.md5 (u₁ ++ salt) = env.md5 (u₂ ++ salt) → u₁ ++ salt = u₂ ++ salt) :
    (token env u₁ t₁ = token env u₂ t₂ ↔
      u₁ = u₂ ∧ t₁.mday = t₂.mday ∧ t₁.hour = t₂.hour ∧ t₁.min = t₂.min ∧ t₁.sec = t₂.sec) ∧
    Readable env u₁ t₁ ∧ Readable env u₂ t₂ := by
  have h₁ := token_readable env u₁ t₁ (hmd5 _)
  have h₂ := token_readable env u₂ t₂ (hmd5 _)
  refine ⟨?_,h₁,h₂⟩
  rw [← fields_inj]
  constructor
  · intro h
    constructor
    · apply List.append_cancel_right
      apply hfree
      rw [← h₁.digest, ← h₂.digest, h]
    · rw [← h₁.time, ← h₂.time, h]
  · rintro ⟨rfl,ht⟩
    rw [token_eq, token_eq, ht]

def twoDigests : Env where
  crypt := fun _ _ => []
  md5 := fun s =>
    if s = "ann12345678".toList then
      [0x1a,0xb9,0xb4,0x19,0x0c,0x54,0x97,0x80,0x5d,0x38,0xe0,0x41,0x19,0x11,0x2f,0x5f]
    else [0x48,0x99,0xf2,0x4b,0xc9,0xc2,0xc9,0x49,0x30,0xb2,0x5b,0xdb,0x69,0x48,0x95,0x5e]
  name := some

theorem ann_and_bob_told_apart :
    token twoDigests "ann".toList ⟨⟨9,by decide⟩,⟨8,by decide⟩,⟨7,by decide⟩,⟨6,by decide⟩⟩ ≠
      token twoDigests "bob".toList ⟨⟨9,by decide⟩,⟨8,by decide⟩,⟨7,by decide⟩,⟨6,by decide⟩⟩ := by
  have hmd5 : ∀ s, (twoDigests.md5 s).length = 16 := by
    intro s
    simp only [twoDigests]
    split <;> rfl
  intro h
  have hi := (token_identifies twoDigests "ann".toList "bob".toList _ _ hmd5 (by decide +kernel)).1.mp h
  exact absurd hi.1 (by decide)

end WdHttp.UserToken
