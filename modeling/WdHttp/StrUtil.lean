import Mathlib.Data.List.DropRight
import WdHttp.PosixFile

/-!
# String pieces

`StrUtil` of wfrest on pieces of a text: splitting at a separator, trimming, and taking
off a pair of quotes. A piece of length one that is a quote is taken for a pair, and
its length is then `size_t` minus one: making a string of it throws.
-/

set_option autoImplicit false

namespace WdHttp.StrUtil
open WdHttp.PosixFile

def slash : UInt8 := 47
def equals : UInt8 := 61

def ascii (s : String) : Bytes := s.toList.map fun c => c.toNat.toUInt8

/-- The loop of `split_piece`; `cursor` holds the bytes since the last separator. -/
def splitFrom (sep : UInt8) : Bytes → Bytes → List Bytes
  | cursor, [] => [cursor]
  | cursor, b :: bs =>
    if b = sep then cursor :: splitFrom sep [] bs else splitFrom sep (cursor ++ [b]) bs

def splitPiece (sep : UInt8) (str : Bytes) : List Bytes :=
  if str = [] then [] else splitFrom sep [] str

def isspace (b : UInt8) : Bool := b = 32 || (9 ≤ b && b ≤ 13)

def ltrim (str : Bytes) : Bytes := str.dropWhile isspace

def rtrim (str : Bytes) : Bytes := str.rdropWhile isspace

def trim (str : Bytes) : Bytes := ltrim (rtrim str)

/-- `R"(""'')"`. -/
def quotes : List (UInt8 × UInt8) := [(34,34),(39,39)]

def trimPairs (str : Bytes) (pairs : List (UInt8 × UInt8)) : Option Bytes :=
  if pairs.any fun q => str.head? = some q.1 && str.getLast? = some q.2 then
    if 2 ≤ str.length then some ((str.drop 1).take (str.length-2)) else none
  else some str

/-- What `c_str` shows of a string. -/
def cText (s : Bytes) : Bytes := s.takeWhile (· ≠ 0)

def tolower (c : UInt8) : UInt8 := if 65 ≤ c ∧ c ≤ 90 then c+32 else c

def strcasecmp (s t : Bytes) : Bool := (cText s).map tolower = (cText t).map tolower

theorem cText_eq_self {s : Bytes} (h : 0 ∉ s) : cText s = s := by
  rw [cText, List.takeWhile_eq_self_iff]
  intro c hc
  exact decide_eq_true fun h0 => h (h0 ▸ hc)

section Split

variable {sep : UInt8}

theorem splitFrom_skip {a : Bytes} (ha : sep ∉ a) (cursor bs : Bytes) :
    splitFrom sep cursor (a ++ bs) = splitFrom sep (cursor ++ a) bs := by
  induction a generalizing cursor with
  | nil => rw [List.nil_append, List.append_nil]
  | cons b a ih =>
    obtain ⟨hb,ha⟩ := not_or.mp (List.mem_cons.not.mp ha)
    rw [List.cons_append, splitFrom, if_neg (Ne.symm hb), ih ha, List.append_assoc,
      List.singleton_append]

theorem splitFrom_sep {a : Bytes} (ha : sep ∉ a) (cursor bs : Bytes) :
    splitFrom sep cursor (a ++ sep :: bs) = (cursor ++ a) :: splitFrom sep [] bs := by
  rw [splitFrom_skip ha, splitFrom, if_pos rfl]

theorem splitFrom_end {a : Bytes} (ha : sep ∉ a) (cursor : Bytes) :
    splitFrom sep cursor a = [cursor ++ a] := by
  have h := splitFrom_skip ha cursor []
  rwa [List.append_nil, splitFrom] at h

theorem splitFrom_append (sep : UInt8) (a b cursor : Bytes) :
    splitFrom sep cursor (a ++ sep :: b) = splitFrom sep cursor a ++ splitFrom sep [] b := by
  induction a generalizing cursor with
  | nil => exact if_pos rfl
  | cons c a ih =>
    rw [List.cons_append, splitFrom, splitFrom]
    split
    · rw [ih, List.cons_append]
    · rw [ih]

theorem not_mem_takeWhile (c : UInt8) (s : Bytes) : c ∉ s.takeWhile (· ≠ c) := by
  intro h
  simpa using List.mem_takeWhile_imp h

theorem splitFrom_takeWhile (sep : UInt8) (s : Bytes) :
    splitFrom sep [] s = s.takeWhile (· ≠ sep) ::
      if s.dropWhile (· ≠ sep) = [] then []
      else splitFrom sep [] (s.dropWhile (· ≠ sep)).tail := by
  have hno := not_mem_takeWhile sep s
  have happ := List.takeWhile_append_dropWhile (p := fun b => decide (b ≠ sep)) (l := s)
  cases hd : s.dropWhile (· ≠ sep) with
  | nil =>
    rw [hd, List.append_nil] at happ
    rw [happ] at hno ⊢
    rw [splitFrom_end hno, if_pos rfl, List.nil_append]
  | cons b t =>
    have hb : b = sep := by
      have h := List.head?_dropWhile_not (fun b => decide (b ≠ sep)) s
      rw [hd] at h
      simpa using h
    rw [hd, hb] at happ
    conv_lhs => rw [← happ]
    rw [splitFrom_sep hno, if_neg (List.cons_ne_nil _ _)]
    rfl

theorem splitPiece_intercalate {es : List Bytes} (h : ∀ e ∈ es, sep ∉ e) (hne : es ≠ [[]]) :
    splitPiece sep ([sep].intercalate es) = es := by
  have hcons : ∀ (e : Bytes) (es : List Bytes), sep ∉ e → (∀ e ∈ es, sep ∉ e) →
      splitFrom sep [] ([sep].intercalate (e :: es)) = e :: es := by
    intro e es he hes
    induction es generalizing e with
    | nil =>
      rw [List.intercalate_singleton, splitFrom_end he]
      rfl
    | cons e' es ih =>
      rw [List.forall_mem_cons] at hes
      rw [List.intercalate_cons_cons, List.append_assoc, List.singleton_append, splitFrom_sep he,
        ih e' hes.1 hes.2]
      rfl
  cases es with
  | nil => rfl
  | cons e es =>
    rw [List.forall_mem_cons] at h
    rw [splitPiece, if_neg, hcons e es h.1 h.2]
    cases es with
    | nil =>
      rw [List.intercalate_singleton]
      exact fun he => hne (by rw [he])
    | cons e' es =>
      rw [List.intercalate_cons_cons]
      simp

theorem splitPiece_sep {a : Bytes} (ha : sep ∉ a) (bs : Bytes) :
    splitPiece sep (a ++ sep :: bs) = a :: splitFrom sep [] bs := by
  rw [splitPiece, if_neg (by simp), splitFrom_sep ha, List.nil_append]

theorem splitPiece_pair {a b : Bytes} (ha : sep ∉ a) (hb : sep ∉ b) :
    splitPiece sep (a ++ sep :: b) = [a,b] := by
  rw [splitPiece_sep ha, splitFrom_end hb, List.nil_append]

end Split

theorem trim_blank {str : Bytes} {a z : UInt8} (hfirst : str.head? = some a)
    (hlast : str.getLast? = some z) (ha : isspace a = false) (hz : isspace z = false) :
    trim (32 :: str) = str := by
  obtain ⟨s,rfl⟩ : ∃ s, str = a :: s := by
    cases str with
    | nil => cases hfirst
    | cons b s => exact ⟨s,by rw [Option.some.inj hfirst]⟩
  have hright : rtrim (32 :: a :: s) = 32 :: a :: s := by
    rw [rtrim, List.rdropWhile_eq_self_iff]
    intro hne
    have hget : (32 :: a :: s).getLast hne = z := by
      rw [List.getLast?_eq_some_getLast (List.cons_ne_nil _ _)] at hlast
      rw [List.getLast_cons (List.cons_ne_nil _ _)]
      exact Option.some.inj hlast
    rw [hget, hz]
    decide
  rw [trim, hright, ltrim, List.dropWhile_cons_of_pos (by decide),
    List.dropWhile_cons_of_neg (by rw [ha]; decide)]

theorem trimPairs_quoted (q : UInt8) (hq : (q,q) ∈ quotes) (bs : Bytes) :
    trimPairs (q :: (bs ++ [q])) quotes = some bs := by
  have hlast : (q :: (bs ++ [q])).getLast? = some q := by
    rw [← List.cons_append, List.getLast?_concat]
  rw [trimPairs, if_pos, if_pos]
  · simp
  · simp
  · rw [List.any_eq_true]
    exact ⟨(q,q),hq,by rw [hlast]; simp⟩

end WdHttp.StrUtil
