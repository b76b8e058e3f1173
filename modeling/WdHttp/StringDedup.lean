import WdHttp.CText
import Mathlib.Data.List.Induction
import Mathlib.Data.List.Nodup

/-!
# Removing repeated characters in place

The function `hander` of `code/test.c`. Two nested loops read and write one array:
the characters kept so far are at its front, and everything behind them is as it
was. An access outside the array has no result.
-/

set_option autoImplicit false

namespace WdHttp.StringDedup
open WdHttp.CText

section FirstOccurrences

variable {α : Type*} [DecidableEq α]

/-- The elements at the positions where they occur for the first time. -/
def firsts (s : List α) : List α := (s.zipIdx.filter fun x => x.1 ∉ s.take x.2).map Prod.fst

theorem firsts_snoc (s : List α) (c : α) :
    firsts (s++[c]) = if c ∈ s then firsts s else firsts s ++ [c] := by
  have hfront : (s.zipIdx.filter fun x => x.1 ∉ (s++[c]).take x.2) =
      s.zipIdx.filter fun x => x.1 ∉ s.take x.2 := by
    apply List.filter_congr
    intro x hx
    have hlt : x.2 < s.length := by
      obtain ⟨-,h,-⟩ := List.mem_zipIdx hx
      omega
    rw [List.take_append_of_le_length hlt.le]
  have hlast : (s++[c]).take s.length = s := List.take_left
  rw [firsts, List.zipIdx_append, List.filter_append, List.map_append, hfront]
  by_cases hc : c ∈ s
  · simp [hc, firsts]
  · simp [hc, firsts]

theorem mem_firsts (s : List α) (c : α) : c ∈ firsts s ↔ c ∈ s := by
  induction s using List.reverseRecOn with
  | nil => rfl
  | append_singleton s d ih =>
    rw [firsts_snoc, List.mem_append, List.mem_singleton]
    split
    · rename_i hd
      rw [ih]
      constructor
      · exact Or.inl
      · rintro (h | rfl)
        · exact h
        · exact hd
    · rw [List.mem_append, List.mem_singleton, ih]

theorem nodup_firsts (s : List α) : (firsts s).Nodup := by
  induction s using List.reverseRecOn with
  | nil => exact List.nodup_nil
  | append_singleton s d ih =>
    rw [firsts_snoc]
    split
    · exact ih
    · rename_i hd
      apply List.Nodup.append ih (List.nodup_singleton d)
      rw [List.disjoint_singleton, mem_firsts]
      exact hd

theorem firsts_sublist (s : List α) : (firsts s).Sublist s := by
  have h : (firsts s).Sublist (s.zipIdx.map Prod.fst) := List.Sublist.map _ List.filter_sublist
  rwa [List.zipIdx_map_fst] at h

end FirstOccurrences

/-- The loops' accesses to the array, in order. -/
inductive Access where
  | read (i : ℕ)
  | write (i : ℕ)
  deriving DecidableEq, Repr

structure Memory where
  str : Str
  accesses : List Access
  deriving DecidableEq, Repr

def Memory.read (m : Memory) (i : ℕ) : Option (Char × Memory) :=
  m.str[i]?.map fun c => (c,{ m with accesses := m.accesses ++ [.read i] })

def Memory.write (m : Memory) (i : ℕ) (c : Char) : Option Memory :=
  if i < m.str.length then some ⟨m.str.set i c,m.accesses ++ [.write i]⟩ else none

/-- The inner loop at `j`, with `n` turns before it reaches the tail. -/
def search (i : ℕ) : ℕ → ℕ → Memory → Option (ℕ × Memory)
  | 0, j, m => some (j,m)
  | n+1, j, m => do
    let (a,m) ← m.read i
    let (b,m) ← m.read j
    if a = b then some (j,m) else search i n (j+1) m

structure Loop where
  tail : ℕ
  memory : Memory
  deriving DecidableEq, Repr

/-- One turn of the outer loop. -/
def turn (i : ℕ) (l : Loop) : Option Loop := do
  let (j,m) ← search i l.tail 0 l.memory
  if j = l.tail then
    let (c,m) ← m.read i
    let m ← m.write l.tail c
    some ⟨l.tail+1,m⟩
  else some ⟨l.tail,m⟩

def turns : ℕ → ℕ → Loop → Option Loop
  | 0, _, l => some l
  | n+1, i, l => (turn i l).bind (turns n (i+1))

def strlen (str : Str) : Option ℕ := str.findIdx? fun c => c = '\x00'

/-- The array after the call, or nothing where the result is a null pointer. -/
def hander (str : Str) : Option (Option Memory) := do
  let n ← strlen str
  let len := toInt n
  if len < 1 then some none
  else
    let l ← turns (len-1).toNat 1 ⟨1,⟨str,[]⟩⟩
    let m ← l.memory.write l.tail '\x00'
    some (some m)

/-- Every position that is overwritten was read before by the loops, but for the terminator. -/
def ReadFirst (len : ℕ) (log : List Access) : Prop :=
  ∀ log₁ p, log₁ ++ [.write p] <+: log → .read p ∈ log₁ ∨ p = len

theorem readFirst_read (len : ℕ) (log : List Access) (i : ℕ) (h : ReadFirst len log) :
    ReadFirst len (log ++ [.read i]) := by
  intro log₁ p hp
  rcases List.prefix_concat_iff.mp hp with he | hp
  · cases (List.append_singleton_inj.mp he).2
  · exact h log₁ p hp

theorem readFirst_write (len : ℕ) (log : List Access) (i : ℕ) (h : ReadFirst len log)
    (hi : .read i ∈ log ∨ i = len) : ReadFirst len (log ++ [.write i]) := by
  intro log₁ p hp
  rcases List.prefix_concat_iff.mp hp with he | hp
  · obtain ⟨rfl,hw⟩ := List.append_singleton_inj.mp he
    cases hw
    exact hi
  · exact h log₁ p hp

theorem readFirst_reads (len : ℕ) (log : List Access) (reads : List ℕ) (h : ReadFirst len log) :
    ReadFirst len (log ++ reads.map .read) := by
  induction reads using List.reverseRecOn with
  | nil => simpa using h
  | append_singleton reads i ih =>
    rw [List.map_append, ← List.append_assoc]
    exact readFirst_read len _ i ih

theorem search_eq (i : ℕ) (c : Char) (n j : ℕ) (m : Memory) (hi : m.str[i]? = some c)
    (hn : j+n ≤ m.str.length) :
    ∃ (j' : ℕ) (reads : List ℕ), search i n j m = some (j',⟨m.str,m.accesses ++ reads.map .read⟩) ∧
      (1 ≤ n → i ∈ reads) ∧ (j' = j+n ↔ c ∉ (m.str.drop j).take n) := by
  induction n generalizing j m with
  | zero => exact ⟨j,[],by simp [search],by simp,by simp⟩
  | succ n ih =>
    have hj : j < m.str.length := by omega
    obtain ⟨b,hb⟩ : ∃ b, m.str[j]? = some b := ⟨_,List.getElem?_eq_getElem hj⟩
    have hdrop : (m.str.drop j).take (n+1) = b::(m.str.drop (j+1)).take n := by
      rw [List.drop_eq_getElem_cons hj, List.take_succ_cons]
      rw [List.getElem?_eq_getElem hj] at hb
      rw [Option.some.inj hb]
    by_cases hcb : c = b
    · subst hcb
      refine ⟨j,[i,j],?_,by simp,?_⟩
      · simp [search, Memory.read, hi, hb]
      · rw [hdrop]
        simp
    · obtain ⟨j',reads,hs,-,hend⟩ := ih (j+1)
        ⟨m.str,m.accesses ++ [.read i] ++ [.read j]⟩ hi (by dsimp only; omega)
      refine ⟨j',i::j::reads,?_,by simp,?_⟩
      · simp only [search, Memory.read, hi, hb, Option.map_some, bind, Option.bind_some, if_neg hcb]
        rw [hs]
        simp
      · rw [hdrop, List.mem_cons, not_or, and_iff_right hcb, ← hend]
        omega

/-- The front of the array holds the first occurrences among the characters that
were looked at, and what is behind it is as it was. -/
structure Kept (s rest : Str) (i : ℕ) (l : Loop) : Prop where
  tail : l.tail = (firsts (s.take i)).length
  str : l.memory.str = firsts (s.take i) ++ (s ++ '\x00'::rest).drop l.tail
  read : ∀ p, 1 ≤ p → p < i → .read p ∈ l.memory.accesses
  order : ReadFirst s.length l.memory.accesses

section Turns

variable {s rest : Str} {i : ℕ} {l : Loop}

theorem kept_tail_le (hK : Kept s rest i l) : l.tail ≤ i := by
  have hle := (firsts_sublist (s.take i)).length_le
  have hlen := List.length_take_le i s
  rw [hK.tail]
  omega

theorem kept_tail_pos (hK : Kept s rest i l) (hi : 1 ≤ i) (hs : i ≤ s.length) : 1 ≤ l.tail := by
  have h0 : 0 < (s.take i).length := by
    rw [List.length_take]
    omega
  obtain ⟨c,hc⟩ := List.exists_mem_of_length_pos h0
  rw [hK.tail]
  exact List.length_pos_of_mem ((mem_firsts _ c).mpr hc)

theorem kept_length (hK : Kept s rest i l) (hs : i ≤ s.length) :
    l.memory.str.length = (s ++ '\x00'::rest).length := by
  have hle := kept_tail_le hK
  rw [hK.str, List.length_append, List.length_drop, ← hK.tail, List.length_append]
  omega

theorem kept_get (hK : Kept s rest i l) (hi : i < s.length) :
    l.memory.str[i]? = some (s.get ⟨i,hi⟩) := by
  have hle := kept_tail_le hK
  rw [hK.str, List.getElem?_append_right (by rw [← hK.tail]; exact hle), ← hK.tail,
    List.getElem?_drop, Nat.add_sub_cancel' hle, List.getElem?_append_left hi,
    List.getElem?_eq_getElem hi]
  rfl

theorem kept_front (hK : Kept s rest i l) :
    (l.memory.str.drop 0).take l.tail = firsts (s.take i) := by
  rw [List.drop_zero, hK.str]
  exact List.take_left' hK.tail.symm

theorem take_succ_eq (hi : i < s.length) : s.take (i+1) = s.take i ++ [s.get ⟨i,hi⟩] :=
  (List.take_append_getElem hi).symm

theorem set_tail (front back : Str) (c : Char) (n : ℕ) (hn : n = front.length)
    (hb : n < back.length) :
    (front ++ back.drop n).set n c = front ++ [c] ++ back.drop (n+1) := by
  rw [List.set_append_right _ _ (by omega), hn, Nat.sub_self, List.drop_eq_getElem_cons (by omega),
    List.set_cons_zero, List.append_assoc]
  rfl

theorem kept_turn (hK : Kept s rest i l) (hi : 1 ≤ i) (hs : i < s.length) :
    ∃ l', turn i l = some l' ∧ Kept s rest (i+1) l' := by
  have hle := kept_tail_le hK
  have hlen := kept_length hK hs.le
  rw [List.length_append] at hlen
  have hget := kept_get hK hs
  obtain ⟨j,reads,hsearch,hread,hend⟩ := search_eq i _ l.tail 0 l.memory hget (by omega)
  have hread := hread (kept_tail_pos hK hi hs.le)
  rw [kept_front hK, mem_firsts, zero_add] at hend
  have horder := readFirst_reads s.length _ reads hK.order
  have hreads : ∀ p, 1 ≤ p → p < i+1 → .read p ∈ l.memory.accesses ++ reads.map .read := by
    intro p h1 h2
    rw [List.mem_append]
    by_cases hp : p = i
    · exact Or.inr (List.mem_map.mpr ⟨i,hread,by rw [hp]⟩)
    · exact Or.inl (hK.read p h1 (by omega))
  by_cases hc : s.get ⟨i,hs⟩ ∈ s.take i
  · have hj : j ≠ l.tail := fun he => hend.mp he hc
    have hf : firsts (s.take (i+1)) = firsts (s.take i) := by
      rw [take_succ_eq hs, firsts_snoc, if_pos hc]
    refine ⟨⟨l.tail,⟨l.memory.str,l.memory.accesses ++ reads.map .read⟩⟩,?_,?_⟩
    · simp [turn, hsearch, hj]
    · exact ⟨by rw [hf, hK.tail],by rw [hf, hK.str],hreads,horder⟩
  · have hj : j = l.tail := hend.mpr hc
    have hf : firsts (s.take (i+1)) = firsts (s.take i) ++ [s.get ⟨i,hs⟩] := by
      rw [take_succ_eq hs, firsts_snoc, if_neg hc]
    have hset : l.memory.str.set l.tail (s.get ⟨i,hs⟩) =
        firsts (s.take (i+1)) ++ (s ++ '\x00'::rest).drop (l.tail+1) := by
      rw [hK.str, hf]
      exact set_tail _ _ _ _ hK.tail (by rw [List.length_append]; omega)
    refine ⟨⟨l.tail+1,⟨l.memory.str.set l.tail (s.get ⟨i,hs⟩),
      l.memory.accesses ++ reads.map .read ++ [.read i] ++ [.write l.tail]⟩⟩,?_,?_⟩
    · have hlt : l.tail < l.memory.str.length := by omega
      simp [turn, hsearch, hj, Memory.read, Memory.write, hget, hlt]
    · refine ⟨?_,hset,?_,?_⟩
      · rw [hf, List.length_append, hK.tail]
        rfl
      · intro p h1 h2
        simp only [List.mem_append]
        exact Or.inl (Or.inl (List.mem_append.mp (hreads p h1 h2)))
      · apply readFirst_write _ _ _ (readFirst_read _ _ i horder)
        have hpos := kept_tail_pos hK hi hs.le
        exact Or.inl (List.mem_append_left _ (hreads l.tail hpos (by omega)))

theorem kept_turns (n : ℕ) (hK : Kept s rest i l) (hi : 1 ≤ i) (hn : i+n = s.length) :
    ∃ l', turns n i l = some l' ∧ Kept s rest s.length l' := by
  induction n generalizing i l with
  | zero => exact ⟨l,rfl,hn ▸ hK⟩
  | succ n ih =>
    obtain ⟨l₁,h₁,hK₁⟩ := kept_turn hK hi (by omega)
    obtain ⟨l',h',hK'⟩ := ih hK₁ (by omega) (by omega)
    exact ⟨l',by rw [turns, h₁, Option.bind_some, h'],hK'⟩

theorem kept_start (hs : s ≠ []) : Kept s rest 1 ⟨1,⟨s ++ '\x00'::rest,[]⟩⟩ := by
  obtain ⟨c,t,rfl⟩ := List.exists_cons_of_ne_nil hs
  have hf : firsts ((c::t).take 1) = [c] := by simp [firsts]
  refine ⟨by rw [hf]; rfl,by rw [hf]; rfl,fun p h1 h2 => ?_,fun log₁ p hp => ?_⟩
  · omega
  · exact absurd (List.prefix_nil.mp hp) (by simp)

end Turns

theorem strlen_append (s rest : Str) (h0 : '\x00' ∉ s) :
    strlen (s ++ '\x00'::rest) = some s.length := findIdx?_append_cons s rest _ h0

theorem cStr_append_nul (s rest : Str) (h0 : '\x00' ∉ s) : cStr (s ++ '\x00'::rest) = s := by
  rw [cStr, List.takeWhile_append_of_pos, List.takeWhile_cons_of_neg (by decide), List.append_nil]
  intro c hc
  rw [decide_eq_true_eq]
  rintro rfl
  exact h0 hc

theorem hander_eq (str : Str) (n : ℕ) (l : Loop) (m : Memory) (hn : strlen str = some n)
    (hone : ¬ toInt n < 1) (hl : turns (toInt n-1).toNat 1 ⟨1,⟨str,[]⟩⟩ = some l)
    (hm : l.memory.write l.tail '\x00' = some m) : hander str = some (some m) := by
  have hbind : hander str = (strlen str).bind fun n =>
      if toInt n < 1 then some none
      else (turns (toInt n-1).toNat 1 ⟨1,⟨str,[]⟩⟩).bind fun l =>
        (l.memory.write l.tail '\x00').bind fun m => some (some m) := rfl
  rw [hbind, hn, Option.bind_some, if_neg hone, hl, Option.bind_some, hm, Option.bind_some]

def strlenReads (n : ℕ) : List Access := (List.range (n+1)).map .read

theorem call_readFirst (len : ℕ) (log log₁ : List Access) (p : ℕ) (h : ReadFirst len log)
    (hp : log₁ ++ [.write p] <+: strlenReads len ++ log) : .read p ∈ log₁ := by
  have hnone : .write p ∉ strlenReads len := by simp [strlenReads]
  have hlast : .read len ∈ strlenReads len := by simp [strlenReads]
  obtain ⟨u,hu⟩ := hp
  rcases List.append_eq_append_iff.mp hu with ⟨a,ha,-⟩ | ⟨c,hc,hlog⟩
  · exact absurd (by simp [ha]) hnone
  · rcases List.eq_nil_or_concat c with rfl | ⟨d,e,rfl⟩
    · rw [List.append_nil] at hc
      exact absurd (by simp [← hc]) hnone
    · rw [List.concat_eq_append, ← List.append_assoc] at hc
      obtain ⟨rfl,rfl⟩ := List.append_singleton_inj.mp hc
      rw [List.concat_eq_append] at hlog
      rcases h d p ⟨u,hlog.symm⟩ with hr | rfl
      · exact List.mem_append_right _ hr
      · exact List.mem_append_left _ hlast

/-- The array holds the first occurrences of the characters of the text, in their
order, a terminator, and behind it what it held before. -/
structure Deduplicated (s rest : Str) (m : Memory) : Prop where
  array : m.str = firsts s ++ '\x00'::(s ++ '\x00'::rest).drop ((firsts s).length+1)
  text : cStr m.str = firsts s
  nodup : (cStr m.str).Nodup
  same : ∀ c, c ∈ cStr m.str ↔ c ∈ s
  subsequence : (cStr m.str).Sublist s
  order : ReadFirst s.length m.accesses
  call : ∀ log₁ p, log₁ ++ [.write p] <+: strlenReads s.length ++ m.accesses → .read p ∈ log₁

/-- The call on a text that is not empty keeps the first occurrence of each of its
characters, and overwrites no position that it has not read. -/
theorem hander_deduplicates (s rest : Str) (hs : s ≠ []) (h0 : '\x00' ∉ s)
    (hl : s.length < 2^31) :
    ∃ m, hander (s ++ '\x00'::rest) = some (some m) ∧ Deduplicated s rest m := by
  have hpos : 1 ≤ s.length := List.length_pos_iff.mpr hs
  have hlen : toInt (s.length : ℤ) = s.length := toInt_of_isInt _ ⟨by omega,by omega⟩
  have hstart : Kept s rest 1 ⟨1,⟨s ++ '\x00'::rest,[]⟩⟩ := kept_start hs
  obtain ⟨l,hturns,hK⟩ := kept_turns (s.length-1) hstart le_rfl (by omega)
  have hle := kept_tail_le hK
  have hstr := hK.str
  have htail := hK.tail
  rw [List.take_length] at hstr htail
  have hlt : l.tail < l.memory.str.length := by
    rw [kept_length hK le_rfl, List.length_append, List.length_cons]
    omega
  refine ⟨⟨l.memory.str.set l.tail '\x00',l.memory.accesses ++ [.write l.tail]⟩,?_,?_⟩
  · apply hander_eq _ s.length l _ (strlen_append s rest h0)
    · rw [hlen]
      omega
    · rw [hlen, show ((s.length : ℤ)-1).toNat = s.length-1 by omega, hturns]
    · rw [Memory.write, if_pos hlt]
  · have harray : l.memory.str.set l.tail '\x00' =
        firsts s ++ '\x00'::(s ++ '\x00'::rest).drop ((firsts s).length+1) := by
      rw [hstr, set_tail _ _ _ _ htail (by rw [List.length_append, List.length_cons]; omega),
        htail, List.append_assoc]
      rfl
    have htext : cStr (l.memory.str.set l.tail '\x00') = firsts s := by
      rw [harray]
      exact cStr_append_nul _ _ fun h => h0 ((mem_firsts s _).mp h)
    have horder : ReadFirst s.length (l.memory.accesses ++ [.write l.tail]) := by
      apply readFirst_write _ _ _ hK.order
      by_cases he : l.tail = s.length
      · exact Or.inr he
      · exact Or.inl (hK.read l.tail (kept_tail_pos hK hpos le_rfl) (by omega))
    refine ⟨harray,htext,?_,?_,?_,horder,fun log₁ p => call_readFirst _ _ log₁ p horder⟩
    · rw [htext]
      exact nodup_firsts s
    · rw [htext]
      exact mem_firsts s
    · rw [htext]
      exact firsts_sublist s

def mainText : Str := "aaabbbbcccabcd".toList

theorem mainText_deduplicated :
    ∃ m, hander (mainText ++ '\x00'::List.replicate 85 '\x00') = some (some m) ∧
      cStr m.str = "abcd".toList ∧ Deduplicated mainText (List.replicate 85 '\x00') m := by
  obtain ⟨m,hm,hD⟩ := hander_deduplicates mainText (List.replicate 85 '\x00') (by decide +kernel)
    (by decide +kernel) (by decide +kernel)
  refine ⟨m,hm,?_,hD⟩
  rw [hD.text]
  decide +kernel

end WdHttp.StringDedup
