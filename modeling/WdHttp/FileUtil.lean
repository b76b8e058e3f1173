import WdHttp.CText
import WdHttp.PosixFile
import WdHttp.Fips180

/-!
# Hashing a file

`FileUtil::sha1File` reads a file piece by piece, feeds the pieces to the three
functions of the hashing library and prints the digest. The library is not part
of the source; what is assumed of it is that any way of cutting a message into
updates gives the standard digest of the message.
-/

set_option autoImplicit false

namespace WdHttp.FileUtil
open WdHttp.CText WdHttp.PosixFile WdHttp.Fips180

structure Openssl where
  Ctx : Type
  sha1Init : Ctx
  sha1Update : Ctx → Bytes → Ctx
  sha1Final : Ctx → Bytes

def Openssl.Standard (o : Openssl) : Prop :=
  ∀ pieces : List Bytes, pieces.flatten.length < 2^61 →
    o.sha1Final (pieces.foldl o.sha1Update o.sha1Init) = sha1 pieces.flatten

def fmt02x (b : UInt8) : Str :=
  if b.toNat < 16 then '0'::Nat.toDigits 16 b.toNat else Nat.toDigits 16 b.toNat

def bufSize : ℕ := 4096

/-- The reading loop over the results of `read`, in order. It ends at the first
empty result. A failed `read` passes its `-1` on as a length, which has no
defined outcome. -/
def updateLoop (o : Openssl) : o.Ctx → List (Option Bytes) → Option o.Ctx
  | _, [] => none
  | _, none::_ => none
  | ctx, some buf::rest =>
    if buf.length = 0 then some ctx else updateLoop o (o.sha1Update ctx buf) rest

def sha1File (o : Openssl) (reads : List (Option Bytes)) : Option Str :=
  (updateLoop o o.sha1Init reads).map fun ctx => (o.sha1Final ctx).flatMap fmt02x

/-- What `read` may return on a file with these bytes left: at least one of them
and at most the size of the buffer, and nothing at the end. -/
def Delivers : Bytes → List (Option Bytes) → Prop
  | _, [] => False
  | _, none::_ => False
  | left, some buf::rest =>
    if left = [] then buf = [] ∧ rest = []
    else buf ≠ [] ∧ buf.length ≤ bufSize ∧ ∃ left', left = buf++left' ∧ Delivers left' rest

theorem fmt02x_eq (b : UInt8) :
    fmt02x b = [Nat.digitChar (b.toNat/16),Nat.digitChar (b.toNat%16)] := by
  have hb := b.toNat_lt
  unfold fmt02x
  split
  · rename_i h
    rw [Nat.toDigits_of_lt_base h, Nat.div_eq_of_lt h, Nat.mod_eq_of_lt h]
    rfl
  · rename_i h
    rw [Nat.toDigits_of_base_le (by decide) (by omega),
      Nat.toDigits_of_lt_base (by omega : b.toNat/16 < 16)]
    rfl

theorem updateLoop_eq (o : Openssl) (reads : List (Option Bytes)) (left : Bytes) (ctx : o.Ctx)
    (h : Delivers left reads) :
    ∃ pieces : List Bytes, pieces.flatten = left ∧
      updateLoop o ctx reads = some (pieces.foldl o.sha1Update ctx) := by
  induction reads generalizing left ctx with
  | nil => exact h.elim
  | cons r rest ih =>
    cases r with
    | none => exact h.elim
    | some buf =>
      by_cases hl : left = []
      · simp only [Delivers, if_pos hl] at h
        exact ⟨[],hl.symm,by simp [updateLoop, h.1]⟩
      · simp only [Delivers, if_neg hl] at h
        obtain ⟨hne,-,left',rfl,hd⟩ := h
        obtain ⟨pieces,hp,hu⟩ := ih left' (o.sha1Update ctx buf) hd
        refine ⟨buf::pieces,by rw [List.flatten_cons, hp],?_⟩
        rw [updateLoop, if_neg (by simpa using hne), hu, List.foldl_cons]

/-- However the file is cut by `read`, the printed digest is that of its content. -/
theorem sha1File_eq (o : Openssl) (ho : o.Standard) (content : Bytes)
    (hl : content.length < 2^61) (reads : List (Option Bytes)) (hr : Delivers content reads) :
    sha1File o reads = some (hex (sha1 content)) := by
  obtain ⟨pieces,rfl,hu⟩ := updateLoop_eq o reads content o.sha1Init hr
  rw [sha1File, hu, Option.map_some, ho pieces hl, hex, funext fmt02x_eq]

theorem exists_delivers (content : Bytes) : ∃ reads, Delivers content reads := by
  induction content with
  | nil => exact ⟨[some []],by simp [Delivers]⟩
  | cons b left ih =>
    obtain ⟨reads,hr⟩ := ih
    refine ⟨some [b]::reads,?_⟩
    simp only [Delivers, if_neg (List.cons_ne_nil b left)]
    exact ⟨by simp,by simp [bufSize],left,rfl,hr⟩

end WdHttp.FileUtil
