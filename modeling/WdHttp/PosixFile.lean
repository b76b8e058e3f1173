import WdHttp.CText
import Mathlib.Logic.Function.Basic

/-!
# Paths and in-place file writes

Path resolution is lexical: `/` separates components, empty components and
`.` stand for the directory itself, `..` for its parent, and a leading `/`
starts from the root. A file opened with `O_RDWR|O_CREAT` keeps its old bytes;
a write at offset zero replaces the bytes it covers and leaves the rest.
Whether `open` and `write` succeed is decided by the environment.
-/

set_option autoImplicit false

namespace WdHttp.PosixFile
open WdHttp.CText

abbrev Bytes := List UInt8

/-- A resolved path, last component first. The root is the empty list. -/
abbrev Path := List Str

abbrev Files := Path → Option Bytes

def enter (dir : Path) (c : Str) : Path :=
  if c = [] ∨ c = ".".toList then dir
  else if c = "..".toList then dir.tail
  else c::dir

def resolve (cwd : Path) (s : Str) : Path :=
  ((cStr s).splitOn '/').foldl enter (if (cStr s).head? = some '/' then [] else cwd)

/-- A string that names one entry of a directory. -/
def Plain (c : Str) : Prop :=
  c ≠ [] ∧ c ≠ ".".toList ∧ c ≠ "..".toList ∧ '/' ∉ c ∧ '\x00' ∉ c

instance (c : Str) : Decidable (Plain c) := inferInstanceAs (Decidable (_ ∧ _))

theorem enter_plain (dir : Path) (c : Str) (h : Plain c) : enter dir c = c::dir := by
  obtain ⟨h1,h2,h3,-,-⟩ := h
  simp only [enter, h1, h2, h3, or_self, if_false]

theorem resolve_plain (cwd : Path) (c : Str) (h : Plain c) : resolve cwd c = c::cwd := by
  have hh : c.head? ≠ some '/' := fun he => h.2.2.2.1 (List.mem_of_mem_head? he)
  rw [resolve, cStr_of_no_nul c h.2.2.2.2, List.splitOn_eq_singleton h.2.2.2.1, if_neg hh,
    List.foldl_cons, List.foldl_nil, enter_plain _ c h]

theorem resolve_child (cwd : Path) (dir : Str) (hd : '\x00' ∉ dir) :
    ∃ base, ∀ c, Plain c → resolve cwd (dir ++ '/'::c) = c::base := by
  refine ⟨(dir.splitOn '/').foldl enter
    (if (dir ++ ['/']).head? = some '/' then [] else cwd),fun c hc => ?_⟩
  have hs : cStr (dir ++ '/'::c) = dir ++ '/'::c := by
    apply cStr_of_no_nul
    intro h
    rcases List.mem_append.mp h with h | h
    · exact hd h
    · rcases List.mem_cons.mp h with h | h
      · exact absurd h (by decide)
      · exact hc.2.2.2.2 h
  have hh : (dir ++ '/'::c).head? = (dir ++ ['/']).head? := by
    cases dir <;> rfl
  rw [resolve, hs, hh, List.splitOn_append_cons_self, List.foldl_append,
    List.splitOn_eq_singleton hc.2.2.2.1]
  exact enter_plain _ c hc

theorem resolve_child_injective (cwd : Path) (dir c c' : Str) (hd : '\x00' ∉ dir)
    (hc : Plain c) (hc' : Plain c')
    (h : resolve cwd (dir ++ '/'::c) = resolve cwd (dir ++ '/'::c')) : c = c' := by
  obtain ⟨base,hb⟩ := resolve_child cwd dir hd
  rw [hb c hc, hb c' hc'] at h
  exact (List.cons.inj h).1

/-- A relative path in normal form: steps up, then names down, last one first. -/
structure Relative where
  ups : ℕ
  names : List Str
  deriving DecidableEq

def Relative.enter (p : Relative) (c : Str) : Relative :=
  if c = [] ∨ c = ".".toList then p
  else if c = "..".toList then
    match p.names with
    | [] => ⟨p.ups+1,[]⟩
    | _::names => ⟨p.ups,names⟩
  else ⟨p.ups,c::p.names⟩

def relative (s : Str) : Relative := ((cStr s).splitOn '/').foldl Relative.enter ⟨0,[]⟩

def Relative.under (p : Relative) (dir : Path) : Path := p.names ++ dir.drop p.ups

theorem Relative.enter_under (p : Relative) (dir : Path) (c : Str) :
    PosixFile.enter (p.under dir) c = (p.enter c).under dir := by
  unfold PosixFile.enter Relative.enter
  split
  · rfl
  · split
    · unfold Relative.under
      cases hn : p.names with
      | nil => simp [List.tail_drop]
      | cons x names => simp
    · rfl

theorem Relative.foldl_under (cs : List Str) (p : Relative) (dir : Path) :
    cs.foldl PosixFile.enter (p.under dir) = (cs.foldl Relative.enter p).under dir := by
  induction cs generalizing p with
  | nil => rfl
  | cons c cs ih => rw [List.foldl_cons, Relative.enter_under, ih, List.foldl_cons]

theorem resolve_below (cwd : Path) (dir c : Str) (hn : dir ≠ []) (h0 : '\x00' ∉ dir) :
    resolve cwd (dir ++ '/'::c) = (relative c).under (resolve cwd dir) := by
  have hs : cStr (dir ++ '/'::c) = dir ++ '/'::cStr c := by
    rw [cStr, List.takeWhile_append_of_pos (by
      intro x hx
      have hne : x ≠ '\x00' := fun he => h0 (he ▸ hx)
      simpa using hne)]
    rfl
  have hh : (dir ++ '/'::cStr c).head? = dir.head? := by
    cases dir with
    | nil => exact absurd rfl hn
    | cons x dir => rfl
  rw [resolve, hs, hh, List.splitOn_append_cons_self, List.foldl_append, resolve,
    cStr_of_no_nul dir h0]
  exact Relative.foldl_under _ ⟨0,[]⟩ _

/-- The relative path is an entry of the directory it starts from: it comes down
again by the directories it went up, and then by one name. -/
def Relative.EntryOf (p : Relative) (dir : Path) (x : Str) : Prop := p.names = x::dir.take p.ups

theorem Relative.under_eq_cons_iff (p : Relative) (dir : Path) (x : Str) :
    p.under dir = x::dir ↔ p.EntryOf dir x := by
  unfold Relative.under Relative.EntryOf
  constructor
  · intro h
    have hd : x::dir = (x::dir.take p.ups) ++ dir.drop p.ups := by
      rw [List.cons_append, List.take_append_drop]
    exact List.append_cancel_right (h.trans hd)
  · intro h
    rw [h, List.cons_append, List.take_append_drop]

theorem relative_plain (c : Str) (h : Plain c) : relative c = ⟨0,[c]⟩ := by
  obtain ⟨h1,h2,h3,h4,h5⟩ := h
  rw [relative, cStr_of_no_nul c h5, List.splitOn_eq_singleton h4, List.foldl_cons, List.foldl_nil]
  simp only [Relative.enter, h1, h2, h3, or_self, if_false]

def overwrite (old data : Bytes) : Bytes := data ++ old.drop data.length

theorem overwrite_length (old data : Bytes) :
    (overwrite old data).length = max old.length data.length := by
  simp only [overwrite, List.length_append, List.length_drop]
  omega

/-- The new bytes alone remain exactly when they cover the old ones. -/
theorem overwrite_eq_iff (old data : Bytes) :
    overwrite old data = data ↔ old.length ≤ data.length := by
  constructor
  · intro h
    have hl := overwrite_length old data
    rw [h] at hl
    omega
  · intro h
    simp [overwrite, h]

theorem overwrite_old_iff (old data : Bytes) : overwrite old data = old ↔ data <+: old := by
  constructor
  · intro h
    exact ⟨_,h⟩
  · rintro ⟨rest,rfl⟩
    simp [overwrite]

/-- What the environment lets an `open`, `write`, `close` sequence do: `open`
fails, or `write` takes the first `n` bytes, none of them when it fails. -/
inductive Io where
  | openFailed
  | wrote (n : ℕ)
  deriving DecidableEq, Repr

def Io.Full (data : Bytes) : Io → Prop
  | .openFailed => False
  | .wrote n => data.length ≤ n

instance (data : Bytes) : (io : Io) → Decidable (io.Full data)
  | .openFailed => inferInstanceAs (Decidable False)
  | .wrote n => inferInstanceAs (Decidable (data.length ≤ n))

def content (fs : Files) (p : Path) : Bytes := (fs p).getD []

def openWrite (fs : Files) (p : Path) (data : Bytes) : Io → Files
  | .openFailed => fs
  | .wrote n => Function.update fs p (some (overwrite (content fs p) (data.take n)))

theorem openWrite_full (fs : Files) (p : Path) (data : Bytes) (io : Io) (h : io.Full data) :
    openWrite fs p data io = Function.update fs p (some (overwrite (content fs p) data)) := by
  cases io with
  | openFailed => exact absurd h id
  | wrote n => rw [openWrite, List.take_of_length_le h]

theorem openWrite_replace (fs : Files) (p : Path) (data : Bytes) (io : Io) (h : io.Full data)
    (hl : (content fs p).length ≤ data.length) :
    openWrite fs p data io = Function.update fs p (some data) := by
  rw [openWrite_full fs p data io h, (overwrite_eq_iff _ data).mpr hl]

theorem openWrite_other (fs : Files) (p q : Path) (data : Bytes) (io : Io) (h : q ≠ p) :
    openWrite fs p data io q = fs q := by
  cases io with
  | openFailed => rfl
  | wrote n => exact Function.update_of_ne h _ _

/-- The write goes to another file, cannot be opened, or writes what the file
begins with already. -/
def Leaves (fs : Files) (p q : Path) (data : Bytes) : Io → Prop
  | .openFailed => True
  | .wrote n => q = p → ∃ old ∈ fs q, data.take n <+: old

instance (fs : Files) (p q : Path) (data : Bytes) : (io : Io) → Decidable (Leaves fs p q data io)
  | .openFailed => inferInstanceAs (Decidable True)
  | .wrote n => inferInstanceAs (Decidable (q = p → ∃ old ∈ fs q, data.take n <+: old))

theorem openWrite_leaves_iff (fs : Files) (p q : Path) (data : Bytes) (io : Io) :
    openWrite fs p data io q = fs q ↔ Leaves fs p q data io := by
  cases io with
  | openFailed => exact ⟨fun _ => trivial,fun _ => rfl⟩
  | wrote n =>
    by_cases hq : q = p
    · subst hq
      cases hf : fs q with
      | none => simp [openWrite, Leaves, hf]
      | some old => simp [openWrite, Leaves, hf, content, overwrite_old_iff]
    · exact ⟨fun _ he => absurd he hq,fun _ => openWrite_other fs p q data (.wrote n) hq⟩

/-- One file after a write depends on that file before it alone. -/
theorem openWrite_local (fs fs' : Files) (p q : Path) (data : Bytes) (io : Io)
    (h : fs q = fs' q) : openWrite fs p data io q = openWrite fs' p data io q := by
  cases io with
  | openFailed => exact h
  | wrote n =>
    by_cases hq : q = p
    · subst hq
      simp [openWrite, content, h]
    · simpa [openWrite, hq] using h

end WdHttp.PosixFile
