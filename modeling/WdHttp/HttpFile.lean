import WdHttp.CText
import WdHttp.MultipartEncoder

/-!
# Files in a response

`HttpFile::send_file` of wfrest, by which the cloud disk answers with its pages. The range
is kept in two `int`s, and the size of the file is converted to one of them.
-/

set_option autoImplicit false

namespace WdHttp.HttpFile
open WdHttp.CText WdHttp.PosixFile WdHttp.StrUtil WdHttp.MultipartEncoder

inductive FileReply where
  | notFound
  | rangeInvalid
  | readError
  | sent (contentType : Bytes) (contentRange : Str) (body : Bytes)
  deriving DecidableEq

def contentTypeOf (path : Bytes) : Bytes :=
  if toStrBySuffix (suffix path) = [] then ascii "application/octet-stream"
  else toStrBySuffix (suffix path)

def rangeText (s e : ℤ) : Str :=
  "bytes ".toList ++ stdToString s ++ '-' :: stdToString e ++ '/' :: stdToString (e-s)

/-- `send_file` and the callback of its task. The file is `none` when the path does not lead to
a regular file. There is one `pread`; `nread` is the number of bytes it delivers, which may be
fewer than asked for, or `none` when it fails. A position before the file is refused by it. -/
def sendFile (file : Option Bytes) (path : Bytes) (fileStart fileEnd : ℕ) (nread : Option ℕ) :
    FileReply :=
  match file with
  | none => .notFound
  | some content =>
    let e := if toInt fileEnd = -1 then toInt content.length else toInt fileEnd
    let s := if toInt fileStart < 0 then toInt (content.length+toInt fileStart)
      else toInt fileStart
    if e ≤ s then .rangeInvalid
    else if s < 0 then .readError
    else
      match nread with
      | none => .readError
      | some n => .sent (contentTypeOf path) (rangeText s e)
          (((content.drop s.toNat).take (e-s).toNat).take n)

/-- `HttpResp::File` with the path alone: from `0` to `size_t` minus one. -/
def file (f : Option Bytes) (path : Bytes) (nread : Option ℕ) : FileReply :=
  sendFile f path 0 (2^64-1) nread

theorem toInt_length (n : ℕ) :
    toInt n = if n%2^32 < 2^31 then ((n%2^32 : ℕ) : ℤ) else (n%2^32 : ℕ)-2^32 := by
  rw [toInt, Int.bmod_def]
  push_cast
  split
  · rw [if_pos (by omega)]
  · rw [if_neg (by omega)]

theorem file_eq (content path : Bytes) (nread : Option ℕ) :
    file (some content) path nread =
      if toInt content.length ≤ 0 then .rangeInvalid
      else nread.elim .readError fun n =>
        .sent (contentTypeOf path) (rangeText 0 (toInt content.length))
          ((content.take (toInt content.length).toNat).take n) := by
  have hend : toInt 18446744073709551615 = -1 := by decide
  have hstart : toInt 0 = 0 := by decide
  cases nread <;> simp [file, sendFile, hend, hstart]

theorem file_truncated (content path : Bytes) (nread : Option ℕ) :
    file (some content) path nread =
      if content.length%2^32 = 0 ∨ 2^31 ≤ content.length%2^32 then .rangeInvalid
      else nread.elim .readError fun n =>
        .sent (contentTypeOf path) (rangeText 0 (content.length%2^32 : ℕ))
          ((content.take (content.length%2^32)).take n) := by
  rw [file_eq, toInt_length]
  by_cases hm : content.length%2^32 < 2^31
  · rw [if_pos hm, Int.toNat_natCast]
    by_cases h0 : content.length%2^32 = 0
    · rw [if_pos (by omega), if_pos (Or.inl h0)]
    · rw [if_neg (by omega), if_neg (by omega)]
  · have hlt := Nat.mod_lt content.length (show 0 < 2^32 by norm_num)
    rw [if_neg hm, if_pos (by omega), if_pos (Or.inr (by omega))]

theorem file_whole_iff (content path : Bytes) (nread : Option ℕ) :
    (∃ type range, file (some content) path nread = .sent type range content) ↔
      0 < content.length ∧ content.length < 2^31 ∧ ∃ n, nread = some n ∧ content.length ≤ n := by
  rw [file_truncated]
  constructor
  · rintro ⟨type,range,h⟩
    split at h
    next => cases h
    next hno =>
      cases nread with
      | none => cases h
      | some n =>
        have hbody := congrArg List.length (FileReply.sent.inj h).2.2
        rw [List.length_take, List.length_take] at hbody
        exact ⟨by omega,by omega,n,rfl,by omega⟩
  · rintro ⟨hpos,hlt,n,rfl,hn⟩
    have hmod : content.length%2^32 = content.length := Nat.mod_eq_of_lt (by omega)
    rw [hmod, if_neg (by omega), List.take_length]
    refine ⟨contentTypeOf path,rangeText 0 (content.length : ℕ),?_⟩
    rw [Option.elim_some, List.take_of_length_le hn]

/-- The answer for every file and every `pread`; and the whole of the file is sent exactly when
it has at least one byte and fewer than `2^31` and the `pread` delivers it at once. -/
theorem file_answer (content path : Bytes) (nread : Option ℕ) :
    file (some content) path nread =
      (if content.length%2^32 = 0 ∨ 2^31 ≤ content.length%2^32 then .rangeInvalid
      else nread.elim .readError fun n =>
        .sent (contentTypeOf path) (rangeText 0 (content.length%2^32 : ℕ))
          ((content.take (content.length%2^32)).take n)) ∧
    ((∃ type range, file (some content) path nread = .sent type range content) ↔
      0 < content.length ∧ content.length < 2^31 ∧
        ∃ n, nread = some n ∧ content.length ≤ n) :=
  ⟨file_truncated content path nread,file_whole_iff content path nread⟩

end WdHttp.HttpFile
