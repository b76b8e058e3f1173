import WdHttp.CText

/-!
# Tokens of SQL text

Outside of literals, words and numbers are maximal runs of word characters,
blanks separate, and every other character is a token. A literal stands between
single quotes; in it a doubled quote stands for one quote, and a backslash for
an escape. A value written between quotes as it is comes back as the same value
exactly when it is inert: without a quote, and with a backslash only where the
escape stands for itself.
-/

set_option autoImplicit false

namespace WdHttp.SqlText
open WdHttp.CText

def quote : Char := Char.ofNat 39
def backslash : Char := Char.ofNat 92

inductive Token where
  | word (s : Str)
  | number (s : Str)
  | symbol (c : Char)
  | str (s : Str)
  | unterminated
  deriving DecidableEq, Repr

/-- Where the lexer is: in a word, in a literal, after a backslash in a literal, or
after a quote that may close it. -/
inductive Mode where
  | text (w : Str)
  | literal (s : Str)
  | escape (s : Str)
  | closing (s : Str)
  deriving DecidableEq, Repr

def isWord (c : Char) : Bool := c.isAlphanum || c = '_' || c = '$' || 128 ≤ c.toNat

def flush (w : Str) : List Token :=
  if w = [] then [] else if w.all Char.isDigit then [.number w] else [.word w]

/-- What a backslash and this character stand for. -/
def unescape (c : Char) : Str :=
  if c = '0' then ['\x00']
  else if c = 'b' then ['\x08']
  else if c = 'n' then ['\n']
  else if c = 'r' then ['\r']
  else if c = 't' then ['\t']
  else if c = 'Z' then ['\x1a']
  else if c = '%' ∨ c = '_' then [backslash,c]
  else [c]

def lex : Mode → Str → List Token
  | .text w, [] => flush w
  | .literal _, [] => [.unterminated]
  | .escape _, [] => [.unterminated]
  | .closing s, [] => [.str s]
  | .text w, c::cs =>
    if c = quote then flush w ++ lex (.literal []) cs
    else if isWord c then lex (.text (w++[c])) cs
    else if isSpace c then flush w ++ lex (.text []) cs
    else flush w ++ .symbol c :: lex (.text []) cs
  | .literal s, c::cs =>
    if c = backslash then lex (.escape s) cs
    else if c = quote then lex (.closing s) cs
    else lex (.literal (s++[c])) cs
  | .escape s, c::cs => lex (.literal (s ++ unescape c)) cs
  | .closing s, c::cs =>
    if c = quote then lex (.literal (s++[quote])) cs
    else if isWord c then .str s :: lex (.text [c]) cs
    else if isSpace c then .str s :: lex (.text []) cs
    else .str s :: .symbol c :: lex (.text []) cs

/-- Between quotes, the value stands for itself. -/
def inert : Str → Bool
  | [] => true
  | c::cs =>
    if c = quote then false
    else if c = backslash then
      match cs with
      | [] => false
      | d::ds => (d = '%' || d = '_') && inert ds
    else inert cs

/-- The inside of a literal and its value. -/
inductive Reads : Str → Str → Prop where
  | nil : Reads [] []
  | plain (c : Char) (x y : Str) (hq : c ≠ quote) (hb : c ≠ backslash) (h : Reads x y) :
      Reads (c::x) (c::y)
  | escape (d : Char) (x y : Str) (h : Reads x y) : Reads (backslash::d::x) (unescape d ++ y)
  | quotes (x y : Str) (h : Reads x y) : Reads (quote::quote::x) (quote::y)

theorem quote_ne_backslash : quote ≠ backslash := by decide

theorem lex_closing (s : Str) (c : Char) (cs : Str) (h : c ≠ quote) :
    lex (.closing s) (c::cs) = .str s :: lex (.text []) (c::cs) := by
  simp only [lex, if_neg h]
  split_ifs <;> simp [flush]

theorem unescape_length (c : Char) : (unescape c).length ≤ 2 := by
  unfold unescape
  split_ifs <;> simp

theorem reads_length (x y : Str) (h : Reads x y) : y.length ≤ x.length := by
  induction h with
  | nil => simp
  | plain c x y hq hb h ih => simpa using ih
  | escape d x y h ih =>
    have := unescape_length d
    simp only [List.length_append, List.length_cons]
    omega
  | quotes x y h ih =>
    simp only [List.length_cons]
    omega

/-- How the lexing of a literal ends: at a quote that no other follows, after an
inside that was read. -/
def Ends (s cs : Str) : Prop :=
  ∃ x y r, cs = x ++ quote::r ∧ Reads x y ∧ r.head? ≠ some quote ∧
    lex (.literal s) cs = .str (s++y) :: lex (.text []) r

theorem ends_plain (s cs : Str) (c : Char) (hq : c ≠ quote) (hb : c ≠ backslash)
    (h : Ends (s++[c]) cs) : Ends s (c::cs) := by
  obtain ⟨x,y,r,rfl,hr,hh,hl⟩ := h
  refine ⟨c::x,c::y,r,rfl,.plain c x y hq hb hr,hh,?_⟩
  rw [lex, if_neg hb, if_neg hq, hl, List.append_assoc]
  rfl

theorem ends_escape (s cs : Str) (d : Char) (h : Ends (s ++ unescape d) cs) :
    Ends s (backslash::d::cs) := by
  obtain ⟨x,y,r,rfl,hr,hh,hl⟩ := h
  refine ⟨backslash::d::x,unescape d ++ y,r,rfl,.escape d x y hr,hh,?_⟩
  rw [lex, if_pos rfl, lex, hl, List.append_assoc]

theorem ends_quotes (s cs : Str) (h : Ends (s++[quote]) cs) : Ends s (quote::quote::cs) := by
  obtain ⟨x,y,r,rfl,hr,hh,hl⟩ := h
  refine ⟨quote::quote::x,quote::y,r,rfl,.quotes x y hr,hh,?_⟩
  rw [lex, if_neg quote_ne_backslash, if_pos rfl, lex, if_pos rfl, hl, List.append_assoc]
  rfl

theorem ends_closing (s cs : Str) (h : cs.head? ≠ some quote) : Ends s (quote::cs) := by
  refine ⟨[],[],cs,rfl,.nil,h,?_⟩
  rw [lex, if_neg quote_ne_backslash, if_pos rfl, List.append_nil]
  cases cs with
  | nil => rfl
  | cons c cs =>
    apply lex_closing
    intro he
    exact h (by rw [he, List.head?_cons])

theorem lex_literal (n : ℕ) (s cs : Str) (hn : cs.length ≤ n) :
    lex (.literal s) cs = [.unterminated] ∨ Ends s cs := by
  induction n generalizing s cs with
  | zero =>
    rw [List.length_eq_zero_iff.mp (by omega : cs.length = 0)]
    exact Or.inl rfl
  | succ n ih =>
    cases cs with
    | nil => exact Or.inl rfl
    | cons c cs =>
      rw [List.length_cons] at hn
      by_cases hb : c = backslash
      · subst hb
        cases cs with
        | nil => exact Or.inl rfl
        | cons d ds =>
          rw [List.length_cons] at hn
          rcases ih (s ++ unescape d) ds (by omega) with hl | hE
          · exact Or.inl (by rw [lex, if_pos rfl, lex, hl])
          · exact Or.inr (ends_escape s ds d hE)
      · by_cases hq : c = quote
        · subst hq
          by_cases hh : cs.head? = some quote
          · obtain ⟨ds,rfl⟩ := List.head?_eq_some_iff.mp hh
            rw [List.length_cons] at hn
            rcases ih (s++[quote]) ds (by omega) with hl | hE
            · exact Or.inl (by rw [lex, if_neg hb, if_pos rfl, lex, if_pos rfl, hl])
            · exact Or.inr (ends_quotes s ds hE)
          · exact Or.inr (ends_closing s cs hh)
        · rcases ih (s++[c]) cs (by omega) with hl | hE
          · exact Or.inl (by rw [lex, if_neg hb, if_neg hq, hl])
          · exact Or.inr (ends_plain s cs c hq hb hE)

theorem reads_ordinary (f : Char) (hq : f ≠ quote) (hb : f ≠ backslash) (p y : Str)
    (h : Reads (f::p) y) : ∃ z, y = f::z := by
  cases h with
  | plain _ _ z => exact ⟨z,rfl⟩
  | escape => exact absurd rfl hb
  | quotes => exact absurd rfl hq

theorem reads_swallowed (f : Char) (hq : f ≠ quote) (hb : f ≠ backslash) (x y a p : Str)
    (h : Reads x y) (hx : x = a ++ quote::f::p) :
    ∃ a' e y' z, a = a'++[e] ∧ (e = quote ∨ e = backslash) ∧ Reads a' y' ∧
      y = y' ++ quote::f::z := by
  induction h generalizing a with
  | nil => cases a <;> cases hx
  | plain c x y hc hc' h ih =>
    cases a with
    | nil => exact absurd (List.cons.inj hx).1 hc
    | cons c' a =>
      obtain ⟨hc1,hx'⟩ := List.cons.inj hx
      subst hc1
      obtain ⟨a',e,y',z,rfl,he,hr,rfl⟩ := ih a hx'
      exact ⟨c::a',e,c::y',z,rfl,he,.plain c a' y' hc hc' hr,rfl⟩
  | escape d x y h ih =>
    cases a with
    | nil => exact absurd (List.cons.inj hx).1.symm quote_ne_backslash
    | cons c' a =>
      obtain ⟨hc1,hx'⟩ := List.cons.inj hx
      rw [← hc1]
      cases a with
      | nil =>
        obtain ⟨hd,hx2⟩ := List.cons.inj hx'
        subst hd hx2
        obtain ⟨z,rfl⟩ := reads_ordinary f hq hb p y h
        exact ⟨[],backslash,[],z,rfl,Or.inr rfl,.nil,rfl⟩
      | cons d' a =>
        obtain ⟨hd,hx2⟩ := List.cons.inj hx'
        subst hd
        obtain ⟨a',e,y',z,rfl,he,hr,rfl⟩ := ih a hx2
        exact ⟨backslash::d::a',e,unescape d ++ y',z,rfl,he,.escape d a' y' hr,by simp⟩
  | quotes x y h ih =>
    cases a with
    | nil =>
      obtain ⟨hc,hx'⟩ := List.cons.inj hx
      exact absurd (List.cons.inj hx').1.symm hq
    | cons c' a =>
      obtain ⟨hc1,hx'⟩ := List.cons.inj hx
      rw [← hc1]
      cases a with
      | nil =>
        obtain ⟨-,hx2⟩ := List.cons.inj hx'
        subst hx2
        obtain ⟨z,rfl⟩ := reads_ordinary f hq hb p y h
        exact ⟨[],quote,[],z,rfl,Or.inl rfl,.nil,rfl⟩
      | cons d' a =>
        obtain ⟨hd,hx2⟩ := List.cons.inj hx'
        rw [← hd]
        obtain ⟨a',e,y',z,rfl,he,hr,rfl⟩ := ih a hx2
        exact ⟨quote::quote::a',e,quote::y',z,rfl,he,.quotes a' y' hr,rfl⟩

theorem before_last (a y z : Str) (q f e : Char) (hef : f ≠ e) (h : a++[e] = y ++ q::f::z) :
    ∃ t, a = y ++ q::f::t := by
  rcases List.append_eq_append_iff.mp h with ⟨u,-,hu⟩ | ⟨u,hu,hz⟩
  · have := congrArg List.length hu
    simp only [List.length_append, List.length_cons, List.length_nil] at this
    omega
  · match u, hz with
    | [], hz => simp at hz
    | [_], hz => exact absurd (List.cons.inj (List.cons.inj hz).2).1 hef
    | c::d::t, hz =>
      obtain ⟨hc,hz⟩ := List.cons.inj hz
      obtain ⟨hd,-⟩ := List.cons.inj hz
      exact ⟨t,by rw [hu, ← hc, ← hd]⟩

theorem not_reads_beyond (f : Char) (hq : f ≠ quote) (hb : f ≠ backslash) (n : ℕ) (v p : Str)
    (hn : v.length ≤ n) : ¬ Reads (v ++ quote::f::p) v := by
  induction n generalizing v p with
  | zero =>
    intro h
    obtain ⟨a',e,y',z,hv,-,-,-⟩ := reads_swallowed f hq hb _ _ v p h rfl
    rw [hv] at hn
    simp at hn
  | succ n ih =>
    intro h
    obtain ⟨a',e,y',z,hv,he,hr,hy⟩ := reads_swallowed f hq hb _ _ v p h rfl
    have hef : f ≠ e := by
      rcases he with rfl | rfl
      · exact hq
      · exact hb
    -- `v` ends in the escape, so what was read before the quote is a shorter such value
    obtain ⟨t,rfl⟩ := before_last a' y' z quote f e hef (by rw [← hv, ← hy])
    refine ih y' t ?_ hr
    rw [hy, List.length_append, List.length_cons] at hn
    omega

theorem inert_cons (c : Char) (v : Str) (hq : c ≠ quote) (hb : c ≠ backslash) :
    inert (c::v) = inert v := by
  rw [inert.eq_def]
  simp only [if_neg hq, if_neg hb]

theorem inert_of_plain (v : Str) (h : ∀ c ∈ v, c ≠ quote ∧ c ≠ backslash) : inert v := by
  induction v with
  | nil => rfl
  | cons c v ih =>
    obtain ⟨hq,hb⟩ := h c (by simp)
    rw [inert_cons c v hq hb]
    exact ih fun d hd => h d (by simp [hd])

theorem reads_inert (x y : Str) (h : Reads x y) (hl : x.length = y.length) : inert x := by
  induction h with
  | nil => rfl
  | plain c x y hq hb h ih =>
    rw [inert_cons c x hq hb]
    exact ih (by simpa using hl)
  | escape d x y h ih =>
    have hy := reads_length x y h
    simp only [List.length_cons, List.length_append] at hl
    have hd : d = '%' ∨ d = '_' := by
      by_contra hd
      have : (unescape d).length = 1 := by
        simp only [unescape, hd, if_false]
        split_ifs <;> rfl
      omega
    have hu := unescape_length d
    simp only [inert, if_neg quote_ne_backslash.symm, if_true, Bool.and_eq_true, Bool.or_eq_true,
      decide_eq_true_eq]
    exact ⟨hd,ih (by omega)⟩
  | quotes x y h ih =>
    have := reads_length x y h
    simp only [List.length_cons] at hl
    omega

theorem lex_inert (s v rest : Str) (h : inert v) :
    lex (.literal s) (v ++ quote::rest) = lex (.closing (s++v)) rest := by
  fun_induction inert v generalizing s with
  | case1 => simp [lex, quote_ne_backslash]
  | case2 => cases h
  | case3 => cases h
  | case4 d ds hq ih =>
    simp only [Bool.and_eq_true, Bool.or_eq_true, decide_eq_true_eq] at h
    have hu : unescape d = [backslash,d] := by
      rcases h.1 with rfl | rfl <;> rfl
    simp only [List.cons_append, lex, if_true, ih _ h.2, hu, List.append_assoc, List.nil_append]
  | case5 c cs hq hb ih =>
    simp only [List.cons_append, lex, if_neg hq, if_neg hb, ih _ h, List.append_assoc,
      List.nil_append]

theorem inert_of_lex (v : Str) (f : Char) (rest : Str) (hq : f ≠ quote) (hb : f ≠ backslash)
    (ts : List Token) (h : lex (.literal []) (v ++ quote::f::rest) = .str v :: ts) : inert v := by
  rcases lex_literal _ [] (v ++ quote::f::rest) le_rfl with hl | ⟨x,y,r,hx,hr,-,hl⟩
  · rw [hl] at h
    cases h
  · rw [hl] at h
    obtain rfl : y = v := by simpa using (List.cons.inj h).1
    have hlen := reads_length x y hr
    rcases List.append_eq_append_iff.mp hx with ⟨u,rfl,hu⟩ | ⟨u,rfl,hu⟩
    · match u, hu with
      | [], hu =>
        rw [List.append_nil] at hr
        exact reads_inert y y hr rfl
      | [c], hu =>
        obtain ⟨-,hu⟩ := List.cons.inj hu
        exact absurd (List.cons.inj hu).1 hq
      | c::d::p, hu =>
        obtain ⟨hc,hu⟩ := List.cons.inj hu
        obtain ⟨hd,-⟩ := List.cons.inj hu
        rw [← hc, ← hd] at hr
        exact absurd hr (not_reads_beyond f hq hb _ y p le_rfl)
    · rw [List.length_append] at hlen
      obtain rfl : u = [] := List.length_eq_zero_iff.mp (by omega)
      rw [List.append_nil] at hr ⊢
      exact reads_inert x x (by simpa using hr) rfl

theorem lex_text (w s rest : Str) (hs : quote ∉ s) :
    lex (.text w) (s ++ quote::rest) = lex (.text w) s ++ lex (.literal []) rest := by
  induction s generalizing w with
  | nil => simp [lex]
  | cons c s ih =>
    rw [List.mem_cons, not_or] at hs
    have ih := fun w => ih w hs.2
    simp only [List.cons_append, lex, if_neg (Ne.symm hs.1), ih]
    split_ifs <;> simp

theorem lex_separator (w s rest : Str) (f : Char) (hs : quote ∉ s) (hf : f ≠ quote)
    (hw : isWord f = false) :
    lex (.text w) (s ++ f::rest) = lex (.text w) s ++ lex (.text []) (f::rest) := by
  induction s generalizing w with
  | nil =>
    simp only [List.nil_append, lex, if_neg hf, hw, Bool.false_eq_true, if_false]
    split_ifs <;> simp [flush]
  | cons c s ih =>
    rw [List.mem_cons, not_or] at hs
    have ih := fun w => ih w hs.2
    simp only [List.cons_append, lex, if_neg (Ne.symm hs.1), ih]
    split_ifs <;> simp

def digits (s : Str) : Str := (s.dropWhile isSpace).takeWhile Char.isDigit
def afterDigits (s : Str) : Str := (s.dropWhile isSpace).dropWhile Char.isDigit

/-- One unsigned number, with blanks around it or not. -/
def numeral (s : Str) : Bool := digits s ≠ [] && (afterDigits s).all isSpace

theorem isSpace_not_word (c : Char) (h : isSpace c) : c ≠ quote ∧ isWord c = false := by
  simp only [isSpace, Bool.or_eq_true, decide_eq_true_eq] at h
  rcases h with ((((rfl | rfl) | rfl) | rfl) | rfl) | rfl <;> decide

theorem isDigit_word (c : Char) (h : c.isDigit) : c ≠ quote ∧ isWord c := by
  constructor
  · rintro rfl
    revert h
    decide
  · simp [isWord, Char.isAlphanum, h]

theorem lex_space (w s : Str) (c : Char) (h : isSpace c) :
    lex (.text w) (c::s) = flush w ++ lex (.text []) s := by
  obtain ⟨hq,hw⟩ := isSpace_not_word c h
  simp only [lex, if_neg hq, hw, Bool.false_eq_true, if_false, h, if_true]

theorem lex_spaces (w s : Str) (h : s.all isSpace) : lex (.text w) s = flush w := by
  induction s generalizing w with
  | nil => rfl
  | cons c s ih =>
    rw [List.all_cons, Bool.and_eq_true] at h
    rw [lex_space w s c h.1, ih [] h.2]
    simp [flush]

theorem lex_dropWhile (s : Str) : lex (.text []) s = lex (.text []) (s.dropWhile isSpace) := by
  induction s with
  | nil => rfl
  | cons c s ih =>
    by_cases h : isSpace c
    · rw [lex_space [] s c h, ih, List.dropWhile_cons_of_pos h]
      rfl
    · rw [List.dropWhile_cons_of_neg h]

theorem lex_digits (w ds rest : Str) (h : ∀ c ∈ ds, c.isDigit) :
    lex (.text w) (ds ++ rest) = lex (.text (w++ds)) rest := by
  induction ds generalizing w with
  | nil => simp
  | cons c ds ih =>
    obtain ⟨hq,hw⟩ := isDigit_word c (h c (by simp))
    rw [List.cons_append, lex, if_neg hq, if_pos hw, ih _ fun d hd => h d (by simp [hd]),
      List.append_assoc]
    rfl

theorem flush_digits (ds : Str) (h : ∀ c ∈ ds, c.isDigit) (hne : ds ≠ []) :
    flush ds = [.number ds] := by
  rw [flush, if_neg hne, if_pos (List.all_eq_true.mpr h)]

theorem flush_word (w : Str) (c : Char) (hc : c ∈ w) (hd : c.isDigit = false) :
    flush w = [.word w] := by
  rw [flush, if_neg (List.ne_nil_of_mem hc), if_neg]
  intro h
  rw [List.all_eq_true.mp h c hc] at hd
  cases hd

theorem lex_word (w s : Str) (c : Char) (hc : c ∈ w) (hd : c.isDigit = false) :
    ∃ x ts, lex (.text w) s = .word x :: ts := by
  induction s generalizing w with
  | nil => exact ⟨w,[],flush_word w c hc hd⟩
  | cons d s ih =>
    simp only [lex, flush_word w c hc hd]
    split_ifs
    · exact ⟨w,_,rfl⟩
    · exact ih (w++[d]) (by simp [hc])
    · exact ⟨w,_,rfl⟩
    · exact ⟨w,_,rfl⟩

theorem flush_eq_nil (w : Str) (h : flush w = []) : w = [] := by
  unfold flush at h
  split_ifs at h with hw
  exact hw

theorem lex_eq_nil (w s : Str) (hs : quote ∉ s) (h : lex (.text w) s = []) :
    w = [] ∧ s.all isSpace := by
  induction s generalizing w with
  | nil => exact ⟨flush_eq_nil w h,rfl⟩
  | cons c s ih =>
    rw [List.mem_cons, not_or] at hs
    simp only [lex, if_neg (Ne.symm hs.1)] at h
    split_ifs at h with hw hsp
    · exact absurd (ih _ hs.2 h).1 (by simp)
    · obtain ⟨hf,hl⟩ := List.append_eq_nil_iff.mp h
      rw [List.all_cons, hsp, (ih [] hs.2 hl).2]
      exact ⟨flush_eq_nil w hf,rfl⟩
    · simp at h

theorem mem_digits (s : Str) (c : Char) (h : c ∈ digits s) : c.isDigit := List.mem_takeWhile_imp h

theorem lex_afterDigits (s : Str) :
    lex (.text []) s = lex (.text (digits s)) (afterDigits s) := by
  have hs : s.dropWhile isSpace = digits s ++ afterDigits s := List.takeWhile_append_dropWhile.symm
  rw [lex_dropWhile, hs, lex_digits [] _ _ (mem_digits s), List.nil_append]

theorem numeral_lex (s : Str) (h : numeral s) : lex (.text []) s = [.number (digits s)] := by
  simp only [numeral, Bool.and_eq_true, decide_eq_true_eq, ne_eq] at h
  rw [lex_afterDigits, lex_spaces _ _ h.2, flush_digits _ (mem_digits s) h.1]

theorem afterDigits_head (s : Str) (c : Char) (rs : Str) (h : afterDigits s = c::rs) :
    c.isDigit = false ∧ (digits s = [] → isSpace c = false) := by
  constructor
  · have := List.head?_dropWhile_not Char.isDigit (s.dropWhile isSpace)
    rw [show (s.dropWhile isSpace).dropWhile Char.isDigit = c::rs from h] at this
    exact this
  · intro hd
    have hs : s.dropWhile isSpace = digits s ++ afterDigits s :=
      List.takeWhile_append_dropWhile.symm
    have := List.head?_dropWhile_not isSpace s
    rw [hs, hd, h] at this
    exact this

theorem numeral_of_lex (s d : Str) (hs : quote ∉ s) (h : lex (.text []) s = [.number d]) :
    numeral s := by
  have hr : quote ∉ afterDigits s := fun hm =>
    hs ((List.dropWhile_sublist _).subset ((List.dropWhile_sublist _).subset hm))
  rw [lex_afterDigits] at h
  simp only [numeral, Bool.and_eq_true, decide_eq_true_eq, ne_eq]
  cases hrest : afterDigits s with
  | nil =>
    rw [hrest] at h
    refine ⟨?_,rfl⟩
    intro hnil
    rw [hnil] at h
    cases h
  | cons c rs =>
    obtain ⟨hc,hsp⟩ := afterDigits_head s c rs hrest
    rw [hrest] at h hr
    rw [List.mem_cons, not_or] at hr
    simp only [lex, if_neg (Ne.symm hr.1)] at h
    split_ifs at h with hw hspace
    · obtain ⟨x,ts,hl⟩ := lex_word (digits s ++ [c]) rs c (by simp) hc
      rw [hl] at h
      cases h
    · have hne : digits s ≠ [] := by
        intro hnil
        rw [hsp hnil] at hspace
        cases hspace
      rw [flush_digits _ (mem_digits s) hne] at h
      refine ⟨hne,?_⟩
      rw [List.all_cons, hspace, (lex_eq_nil [] rs hr.2 (List.cons.inj h).2).2]
      rfl
    · by_cases hnil : digits s = []
      · rw [hnil] at h
        cases h
      · rw [flush_digits _ (mem_digits s) hnil] at h
        cases h

theorem lex_quote (v rest : Str) (hq : quote ∈ v) :
    ∃ t ∈ lex (.text []) (v++rest), t = .unterminated ∨ ∃ s, t = .str s := by
  obtain ⟨a,b,rfl,ha⟩ := List.eq_append_cons_of_mem hq
  rw [List.append_assoc, List.cons_append, lex_text [] a _ ha]
  rcases lex_literal _ [] (b++rest) le_rfl with hl | ⟨x,y,r,-,-,-,hl⟩
  · exact ⟨.unterminated,by simp [hl],Or.inl rfl⟩
  · exact ⟨.str ([]++y),by rw [hl]; simp,Or.inr ⟨_,rfl⟩⟩

theorem numeral_no_quote (v : Str) (h : numeral v) : quote ∉ v := by
  intro hq
  obtain ⟨t,ht,hs⟩ := lex_quote v [] hq
  rw [List.append_nil, numeral_lex v h] at ht
  rcases hs with rfl | ⟨s,rfl⟩ <;> simp at ht

theorem numeral_iff (v : Str) :
    (∃ d, lex (.text []) (v++[';']) = [.number d,.symbol ';']) ↔ numeral v := by
  have hsplit : quote ∉ v → lex (.text []) (v++[';']) = lex (.text []) v ++ [.symbol ';'] :=
    fun hq => lex_separator [] v [] ';' hq (by decide) (by decide)
  constructor
  · rintro ⟨d,h⟩
    have hq : quote ∉ v := by
      intro hq
      obtain ⟨t,ht,hs⟩ := lex_quote v [';'] hq
      rw [h] at ht
      rcases hs with rfl | ⟨s,rfl⟩ <;> simp at ht
    rw [hsplit hq] at h
    exact numeral_of_lex v d hq (List.append_cancel_right (show _ = [Token.number d] ++ _ from h))
  · intro hn
    exact ⟨digits v,by rw [hsplit (numeral_no_quote v hn), numeral_lex v hn]; rfl⟩

/-- Text in which values stand between quotes, and that may end in an operand. -/
inductive Template where
  | done (s : Str)
  | operand (s v : Str)
  | quoted (s v : Str) (t : Template)

def Template.render : Template → Str
  | .done s => s
  | .operand s v => s ++ v ++ [';']
  | .quoted s v t => s ++ quote::(v ++ quote::t.render)

/-- The tokens are those of the texts, one literal for each value, and a number for
the operand. -/
def Template.Carries : Template → List Token → Prop
  | .done s, ts => ts = lex (.text []) s
  | .operand s _, ts => ∃ d, ts = lex (.text []) s ++ [.number d,.symbol ';']
  | .quoted s v t, ts => ∃ r, ts = lex (.text []) s ++ .str v :: r ∧ t.Carries r

def Template.opening : Template → Str
  | .done s => s
  | .operand s _ => s
  | .quoted s _ _ => s

/-- No text has a quote, and none begins where it could continue a literal or ends
where it could begin a number. -/
def Template.Shaped : Template → Prop
  | .done s => quote ∉ s
  | .operand s _ => quote ∉ s ∧ s.getLast? = some ' '
  | .quoted s _ t => quote ∉ s ∧ t.Shaped ∧ t.opening ≠ [] ∧ t.opening.head? ≠ some backslash

def Template.Plain : Template → Prop
  | .done _ => True
  | .operand _ v => numeral v
  | .quoted _ v t => inert v ∧ t.Plain

theorem shaped_opening (t : Template) (h : t.Shaped) : quote ∉ t.opening := by
  cases t with
  | done s => exact h
  | operand s v => exact h.1
  | quoted s v t => exact h.1

theorem render_opening (t : Template) : ∃ r, t.render = t.opening ++ r := by
  cases t with
  | done s => exact ⟨[],by simp [Template.render, Template.opening]⟩
  | operand s v => exact ⟨v++[';'],by simp [Template.render, Template.opening]⟩
  | quoted s v t => exact ⟨_,rfl⟩

theorem render_head (t : Template) (h : t.Shaped) (hne : t.opening ≠ [])
    (hb : t.opening.head? ≠ some backslash) :
    ∃ f r, t.render = f::r ∧ f ≠ quote ∧ f ≠ backslash := by
  obtain ⟨r,hr⟩ := render_opening t
  have hq := shaped_opening t h
  cases ho : t.opening with
  | nil => exact absurd ho hne
  | cons f s =>
    rw [ho] at hr hq hb
    refine ⟨f,s++r,hr,?_,?_⟩
    · rintro rfl
      exact hq (by simp)
    · rintro rfl
      exact hb rfl

/-- A template carries its values exactly when they are plain. -/
theorem carries_iff (t : Template) (h : t.Shaped) :
    t.Carries (lex (.text []) t.render) ↔ t.Plain := by
  induction t with
  | done s => simp [Template.Carries, Template.render, Template.Plain]
  | operand s v =>
    obtain ⟨hs,hl⟩ := h
    obtain ⟨s',rfl⟩ := List.getLast?_eq_some_iff.mp hl
    have hs' : quote ∉ s' := fun hm => hs (by simp [hm])
    have hsp : ∀ r, lex (.text []) (' ' :: r) = lex (.text []) r := fun r => lex_space [] r ' ' rfl
    have hsplit : ∀ r, lex (.text []) (s' ++ ' ' :: r) = lex (.text []) s' ++ lex (.text []) r := by
      intro r
      rw [lex_separator [] s' r ' ' hs' (by decide) (by decide), hsp]
    simp only [Template.Carries, Template.render, Template.Plain, List.append_assoc,
      List.cons_append, List.nil_append, hsplit]
    rw [← numeral_iff]
    simp [lex, flush]
  | quoted s v t ih =>
    obtain ⟨hs,ht,hne,hb⟩ := h
    obtain ⟨f,r,hr,hq,hb⟩ := render_head t ht hne hb
    have hcl : ∀ ts, lex (.closing v) (f::r) = .str v :: ts ↔ ts = lex (.text []) (f::r) := by
      intro ts
      rw [lex_closing v f r hq]
      simp [eq_comm]
    simp only [Template.Carries, Template.render, Template.Plain, lex_text [] s _ hs,
      List.append_cancel_left_eq, ← ih ht, hr]
    constructor
    · rintro ⟨ts,hts,hc⟩
      have hin := inert_of_lex v f r hq hb ts hts
      rw [lex_inert [] v _ hin, List.nil_append, hcl] at hts
      exact ⟨hin,hts ▸ hc⟩
    · rintro ⟨hin,hc⟩
      refine ⟨_,?_,hc⟩
      rw [lex_inert [] v _ hin, List.nil_append, hcl]

end WdHttp.SqlText
