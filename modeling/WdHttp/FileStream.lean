import WdHttp.PageSha1
import Mathlib.Data.List.SplitLengths

/-!
# The reading loop of `sha1File`

The loop of `FileUtil::sha1File` with its buffer. Every turn clears the buffer,
lets `read` fill its front, and ends the loop when the result is zero. Any other
result, a failure too, is converted to an unsigned length and given to the hashing
library. The results of `read` are those of the environment, one for each turn.
-/

set_option autoImplicit false

namespace WdHttp.FileStream
open WdHttp.CText WdHttp.PosixFile WdHttp.Fips180 WdHttp.FileUtil
open WdHttp.PageSha1 (buffering foldl_append_flatten)

def toSize (ret : ℤ) : ℕ := (ret%2^64).toNat

/-- The bytes before the descriptor, the buffer, the context, which is lost when an
update reads past the buffer, and the lengths of the updates. -/
structure Loop (o : Openssl) where
  left : Bytes
  buf : Bytes
  ctx : Option o.Ctx
  updates : List ℕ

def zeros : Bytes := List.replicate bufSize 0

def begin (o : Openssl) (content : Bytes) : Loop o := ⟨content,zeros,some o.sha1Init,[]⟩

/-- One turn whose `read` returned `ret`. -/
def turn (o : Openssl) (l : Loop o) (ret : ℤ) : Loop o :=
  let buf := overwrite zeros (l.left.take ret.toNat)
  { left := l.left.drop ret.toNat
    buf := buf
    ctx := if toSize ret ≤ bufSize
      then l.ctx.map fun ctx => o.sha1Update ctx (buf.take (toSize ret)) else none
    updates := l.updates ++ [toSize ret] }

def readLoop (o : Openssl) : Loop o → List ℤ → Bool × Loop o
  | l, [] => (false,l)
  | l, ret::rets => if ret = 0 then (true,l) else readLoop o (turn o l ret) rets

def sha1Text (o : Openssl) (ctx : o.Ctx) : Str := (o.sha1Final ctx).flatMap fmt02x

/-- What is returned for a file of this content, once the loop has ended. -/
def sha1Result (o : Openssl) (content : Bytes) (rets : List ℤ) : Option Str :=
  let end' := readLoop o (begin o content) rets
  if end'.1 then end'.2.ctx.map (sha1Text o) else none

/-- The library hashes what its updates were given, in order. -/
def Streams (o : Openssl) : Prop :=
  ∀ pieces : List Bytes,
    o.sha1Final (pieces.foldl o.sha1Update o.sha1Init) = sha1 pieces.flatten

/-- The results of `read` that cut a file into pieces of these lengths. -/
def results (counts : List ℕ) : List ℤ := (counts.map fun n : ℕ => (n : ℤ)) ++ [0]

theorem toSize_natCast (n : ℕ) (h : n ≤ bufSize) : toSize n = n := by
  have : (n : ℤ) < 2^64 := by
    have : bufSize = 4096 := rfl
    omega
  rw [toSize, Int.emod_eq_of_lt (by omega) this, Int.toNat_natCast]

theorem turn_ctx (o : Openssl) (l : Loop o) (n : ℕ) (h : n ≤ bufSize) (hl : n ≤ l.left.length) :
    (turn o l n).ctx = l.ctx.map fun ctx => o.sha1Update ctx (l.left.take n) := by
  have hlen : (l.left.take n).length = n := List.length_take_of_le hl
  simp only [turn, toSize_natCast n h, Int.toNat_natCast, if_pos h]
  rw [overwrite, List.take_left' hlen]

theorem readLoop_pieces (o : Openssl) (counts : List ℕ) (l : Loop o) (ctx : o.Ctx)
    (hctx : l.ctx = some ctx) (hc : ∀ n ∈ counts, 1 ≤ n ∧ n ≤ bufSize)
    (hs : counts.sum ≤ l.left.length) :
    (readLoop o l (results counts)).1 = true ∧
      (readLoop o l (results counts)).2.ctx =
        updateLoop o ctx ((counts.splitLengths l.left).map some ++ [some []]) := by
  induction counts generalizing l ctx with
  | nil => simp [results, readLoop, updateLoop, hctx]
  | cons n counts ih =>
    obtain ⟨h1,h2⟩ := hc n (by simp)
    rw [List.sum_cons] at hs
    have hn : n ≤ l.left.length := by omega
    have hturn := turn_ctx o l n h2 hn
    rw [hctx, Option.map_some] at hturn
    have hleft : (turn o l n).left = l.left.drop n := by simp [turn]
    have hne : (l.left.take n).length ≠ 0 := by
      rw [List.length_take_of_le hn]
      omega
    have hih := ih (turn o l n) _ hturn (fun m hm => hc m (by simp [hm]))
      (by rw [hleft, List.length_drop]; omega)
    have hstep : readLoop o l (results (n::counts)) = readLoop o (turn o l n) (results counts) := by
      simp only [results, List.map_cons, List.cons_append, readLoop]
      rw [if_neg (by omega)]
    rw [hstep, List.splitLengths_cons, List.map_cons, List.cons_append, updateLoop, if_neg hne,
      ← hleft]
    exact hih

theorem delivers_pieces (counts : List ℕ) (content : Bytes)
    (hc : ∀ n ∈ counts, 1 ≤ n ∧ n ≤ bufSize) (hs : counts.sum = content.length) :
    Delivers content ((counts.splitLengths content).map some ++ [some []]) := by
  induction counts generalizing content with
  | nil =>
    have : content = [] := List.length_eq_zero_iff.mp (by simpa using hs.symm)
    simp [Delivers, this]
  | cons n counts ih =>
    obtain ⟨h1,h2⟩ := hc n (by simp)
    rw [List.sum_cons] at hs
    have hlen : (content.take n).length = n := List.length_take_of_le (by omega)
    have hne : content ≠ [] := by
      rintro rfl
      simp at hs
      omega
    rw [List.splitLengths_cons, List.map_cons, List.cons_append, Delivers, if_neg hne]
    refine ⟨?_,by omega,content.drop n,(List.take_append_drop n content).symm,
      ih _ (fun m hm => hc m (by simp [hm])) (by rw [List.length_drop]; omega)⟩
    rw [← List.length_pos_iff]
    omega

/-- However a file is cut, the result is one lower-case text of the digest of its
content, from which the digest is read back. -/
theorem stream_is_digest (o : Openssl) (ho : Streams o) (content : Bytes) :
    ∃ text : Str, text.length = 40 ∧ (∀ c ∈ text, lowerHex c) ∧ unhex text = sha1 content ∧
      ∀ counts : List ℕ, (∀ n ∈ counts, 1 ≤ n ∧ n ≤ bufSize) → counts.sum = content.length →
        sha1Result o content (results counts) = some text := by
  refine ⟨hex (sha1 content),?_,lowerHex_of_mem _,unhex_hex _,?_⟩
  · rw [hex_length]
    rfl
  · intro counts hc hs
    obtain ⟨hend,hctx⟩ := readLoop_pieces o counts (begin o content) _ rfl hc hs.le
    obtain ⟨pieces,hp,hu⟩ :=
      updateLoop_eq o _ content o.sha1Init (delivers_pieces counts content hc hs)
    simp only [sha1Result, hend, if_true, hctx]
    rw [show (begin o content).left = content from rfl, hu, Option.map_some, sha1Text, ho pieces,
      hp, hex, funext fmt02x_eq]

theorem buffering_streams : Streams buffering :=
  fun pieces => congrArg sha1 (foldl_append_flatten pieces [])

theorem abc_stream :
    ∃ text : Str, text.length = 40 ∧ unhex text = sha1 [0x61,0x62,0x63] ∧
      sha1Result buffering [0x61,0x62,0x63] (results [1,2]) = some text ∧
      sha1Result buffering [0x61,0x62,0x63] (results [3]) = some text := by
  obtain ⟨text,hl,-,hu,hall⟩ := stream_is_digest buffering buffering_streams [0x61,0x62,0x63]
  exact ⟨text,hl,hu,hall [1,2] (by decide) rfl,hall [3] (by decide) rfl⟩

section Outcomes

variable {rets : ℕ → ℤ}

def turns (rets : ℕ → ℤ) (n : ℕ) : List ℤ := (List.range n).map rets

def position (rets : ℕ → ℤ) (n : ℕ) : ℕ := ((turns rets n).map Int.toNat).sum

/-- What `open` and `read` can return for a file of this size: without a descriptor
every `read` fails, and otherwise it may fail, or return some of what is left, or
nothing at the end. -/
def Possible (size : ℕ) (opened : Bool) (rets : ℕ → ℤ) : Prop :=
  ∀ i, (opened = false → rets i = -1) ∧
    (rets i = -1 ∨ (rets i = 0 ∧ position rets i = size) ∨
      (1 ≤ rets i ∧ rets i ≤ bufSize ∧ position rets i + (rets i).toNat ≤ size))

def Exits (o : Openssl) (content : Bytes) (rets : ℕ → ℤ) : Prop :=
  ∃ n, (readLoop o (begin o content) (turns rets n)).1 = true

def Bounded (o : Openssl) (content : Bytes) (rets : ℕ → ℤ) : Prop :=
  ∀ n, ∀ len ∈ (readLoop o (begin o content) (turns rets n)).2.updates, len ≤ bufSize

theorem readLoop_ended (o : Openssl) (l : Loop o) (rs : List ℤ) :
    (readLoop o l rs).1 = true ↔ 0 ∈ rs := by
  induction rs generalizing l with
  | nil => simp [readLoop]
  | cons ret rs ih =>
    by_cases h : ret = 0
    · simp [readLoop, h]
    · simp [readLoop, h, ih, Ne.symm h]

theorem readLoop_updates (o : Openssl) (l : Loop o) (rs : List ℤ) :
    (readLoop o l rs).2.updates = l.updates ++ (rs.takeWhile (· ≠ 0)).map toSize := by
  induction rs generalizing l with
  | nil => simp [readLoop]
  | cons ret rs ih =>
    by_cases h : ret = 0
    · simp [readLoop, h]
    · simp [readLoop, h, ih, turn]

theorem exits_iff (o : Openssl) (content : Bytes) : Exits o content rets ↔ ∃ i, rets i = 0 := by
  simp only [Exits, readLoop_ended, turns, List.mem_map, List.mem_range]
  constructor
  · rintro ⟨n,i,-,hi⟩
    exact ⟨i,hi⟩
  · rintro ⟨i,hi⟩
    exact ⟨i+1,i,by omega,hi⟩

theorem turns_succ (rets : ℕ → ℤ) (n : ℕ) :
    turns rets (n+1) = rets 0 :: turns (fun i => rets (i+1)) n := by
  simp [turns, List.range_succ_eq_map, Function.comp_def]

theorem mem_taken_iff (rets : ℕ → ℤ) (n : ℕ) (x : ℤ) :
    x ∈ (turns rets n).takeWhile (· ≠ 0) ↔ ∃ i < n, x = rets i ∧ ∀ j ≤ i, rets j ≠ 0 := by
  induction n generalizing rets with
  | zero => simp [turns]
  | succ n ih =>
    rw [turns_succ]
    by_cases h0 : rets 0 = 0
    · rw [List.takeWhile_cons_of_neg (by simp [h0])]
      refine iff_of_false (by simp) ?_
      rintro ⟨i,-,-,hi⟩
      exact hi 0 (Nat.zero_le i) h0
    · rw [List.takeWhile_cons_of_pos (by simp [h0]), List.mem_cons, ih]
      constructor
      · rintro (rfl | ⟨i,hi,rfl,hj⟩)
        · refine ⟨0,by omega,rfl,fun j hj => ?_⟩
          rwa [Nat.le_zero.mp hj]
        · refine ⟨i+1,by omega,rfl,fun j hj' => ?_⟩
          cases j with
          | zero => exact h0
          | succ j => exact hj j (by omega)
      · rintro ⟨i,hi,rfl,hj⟩
        cases i with
        | zero => exact Or.inl rfl
        | succ i => exact Or.inr ⟨i,by omega,rfl,fun j hj' => hj (j+1) (by omega)⟩

theorem bounded_iff (o : Openssl) (content : Bytes) :
    Bounded o content rets ↔ ∀ i, (∀ j ≤ i, rets j ≠ 0) → toSize (rets i) ≤ bufSize := by
  simp only [Bounded, readLoop_updates, begin, List.nil_append, List.mem_map, mem_taken_iff]
  constructor
  · intro h i hi
    exact h (i+1) _ ⟨rets i,⟨i,by omega,rfl,hi⟩,rfl⟩
  · rintro h n len ⟨x,⟨i,-,rfl,hi⟩,rfl⟩
    exact h i hi

def Unfailing (rets : ℕ → ℤ) : Prop := ∀ i, (∀ j < i, rets j ≠ 0) → rets i ≠ -1

theorem failure_unbounded : bufSize < toSize (-1) := by decide

theorem position_succ (rets : ℕ → ℤ) (n : ℕ) :
    position rets (n+1) = position rets n + (rets n).toNat := by
  simp [position, turns, List.range_succ]

theorem le_position (n : ℕ) (h : ∀ i < n, 1 ≤ rets i) : n ≤ position rets n := by
  induction n with
  | zero => exact Nat.zero_le _
  | succ n ih =>
    have hn := h n (by omega)
    have := ih fun i hi => h i (by omega)
    rw [position_succ]
    omega

theorem unfailing_exits (size : ℕ) (opened : Bool) (hp : Possible size opened rets)
    (hu : Unfailing rets) : ∃ i, rets i = 0 := by
  by_contra hne
  rw [not_exists] at hne
  have hpos : ∀ i, 1 ≤ rets i ∧ position rets i + (rets i).toNat ≤ size := by
    intro i
    rcases (hp i).2 with h | ⟨h,-⟩ | ⟨h1,-,h2⟩
    · exact absurd h (hu i fun j _ => hne j)
    · exact absurd h (hne i)
    · exact ⟨h1,h2⟩
  have hle := le_position size fun i _ => (hpos i).1
  obtain ⟨h1,h2⟩ := hpos size
  omega

theorem unfailing_bounded (size : ℕ) (opened : Bool) (hp : Possible size opened rets)
    (hu : Unfailing rets) (i : ℕ) (hi : ∀ j ≤ i, rets j ≠ 0) : toSize (rets i) ≤ bufSize := by
  rcases (hp i).2 with h | ⟨h,-⟩ | ⟨h1,h2,-⟩
  · exact absurd h (hu i fun j hj => hi j (by omega))
  · exact absurd h (hi i le_rfl)
  · obtain ⟨n,hn⟩ := Int.eq_ofNat_of_zero_le (by omega : 0 ≤ rets i)
    have hb : n ≤ bufSize := by omega
    rw [hn, toSize_natCast n hb]
    exact hb

/-- For a finite file the loop ends, and gives no update more than the buffer,
exactly when the file was opened and no `read` fails before its end. -/
theorem loop_terminates_iff (o : Openssl) (content : Bytes) (opened : Bool) (rets : ℕ → ℤ)
    (hp : Possible content.length opened rets) :
    Exits o content rets ∧ Bounded o content rets ↔ opened = true ∧ Unfailing rets := by
  rw [exits_iff, bounded_iff]
  constructor
  · rintro ⟨-,hb⟩
    have hu : Unfailing rets := by
      intro i hi he
      have hne : ∀ j ≤ i, rets j ≠ 0 := by
        intro j hj
        rcases Nat.lt_or_eq_of_le hj with hlt | rfl
        · exact hi j hlt
        · rw [he]
          decide
      have := hb i hne
      rw [he] at this
      exact absurd failure_unbounded (by omega)
    refine ⟨?_,hu⟩
    cases opened with
    | true => rfl
    | false => exact absurd ((hp 0).1 rfl) (hu 0 fun j hj => absurd hj (by omega))
  · rintro ⟨-,hu⟩
    exact ⟨unfailing_exits _ opened hp hu,unfailing_bounded _ opened hp hu⟩

def twoReads : ℕ → ℤ
  | 0 => 1
  | 1 => 2
  | _ => 0

theorem position_twoReads (i : ℕ) : position twoReads (i+2) = 3 := by
  induction i with
  | zero => rfl
  | succ i ih => rw [show i+1+2 = (i+2)+1 by omega, position_succ, ih]; rfl

theorem twoReads_possible : Possible 3 true twoReads := by
  intro i
  match i with
  | 0 => exact ⟨by simp,Or.inr (Or.inr ⟨by decide,by decide,by decide⟩)⟩
  | 1 => exact ⟨by simp,Or.inr (Or.inr ⟨by decide,by decide,by decide⟩)⟩
  | i+2 => exact ⟨by simp,Or.inr (Or.inl ⟨rfl,position_twoReads i⟩)⟩

theorem twoReads_terminate :
    Exits buffering [0x61,0x62,0x63] twoReads ∧ Bounded buffering [0x61,0x62,0x63] twoReads := by
  apply (loop_terminates_iff buffering [0x61,0x62,0x63] true twoReads twoReads_possible).mpr
  refine ⟨rfl,fun i _ => ?_⟩
  match i with
  | 0 => decide
  | 1 => decide
  | i+2 =>
    change (0 : ℤ) ≠ -1
    decide

theorem unopened_never_ends :
    Possible 0 false (fun _ => -1) ∧ ¬ Exits buffering [] (fun _ => -1) ∧
      ¬ Bounded buffering [] (fun _ => -1) := by
  refine ⟨fun i => ⟨fun _ => rfl,Or.inl rfl⟩,?_,?_⟩
  · rw [exits_iff]
    simp
  · rw [bounded_iff]
    intro h
    exact absurd (h 0 (by simp)) (by decide)

end Outcomes

end WdHttp.FileStream
