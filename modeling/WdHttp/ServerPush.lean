import WdHttp.PartialRun
import WdHttp.CodeUtil

/-!
# Server push

`HttpResp::Push` of wfrest: what a callback hands over is pushed as chunks of one response.
A push may write a part only; the rest is then tried again by a timer that stands in front of
the next chunk. The number of bytes written is kept in a `size_t`, so that the answer `-1` of a
push that failed is taken for a number, and the branch for errors is never reached.
-/

set_option autoImplicit false

namespace WdHttp.ServerPush
open WdHttp.PartialRun WdHttp.PosixFile WdHttp.CodeUtil

def crlf : Bytes := [13,10]

/-- `std::hex` on a number. -/
def hexText (n : ℕ) : Bytes := (Nat.toDigits 16 n).map fun c => c.toNat.toUInt8

/-- `PushTaskCtx::body`: one chunk, or the last one when there is no data. -/
def body (data : Bytes) : Bytes :=
  if data ≠ [] then hexText data.length ++ crlf ++ data ++ crlf else [48] ++ crlf ++ crlf

structure PushChunkData where
  data : Bytes
  nleft : ℕ
  deriving DecidableEq

/-- What the connection has taken, what a timer will try again, whether the response goes on,
and whether memory outside a chunk was read. -/
structure State where
  wire : Bytes
  pending : Option PushChunkData
  ended : Bool
  fault : Bool
  deriving DecidableEq

/-- `HttpResp::Push` does not look at what the push of the header has written. -/
def start (header : Bytes) (nwritten : Option ℕ) : State :=
  ⟨header.take (nwritten.getD 0),none,false,false⟩

/-- A push that fails is an event with `none`. -/
inductive Event where
  | push (data : Bytes) (nwritten : Option ℕ)
  | retry (nwritten : Option ℕ)
  | close
  deriving DecidableEq

def sub64 (a b : ℕ) : ℕ := (a+2^64-b)%2^64

/-- The answer of `push` as a `size_t`. -/
def toSize (nwritten : Option ℕ) : ℕ := nwritten.getD (2^64-1)

/-- What is handed to a timer, if anything is left. -/
def keep (data : Bytes) (nleft : ℕ) : Option PushChunkData :=
  if 0 < nleft then some ⟨data,nleft⟩ else none

/-- A push of the last `nleft` bytes of the data, and what is left of them to be tried again. -/
def send (s : State) (c : PushChunkData) (nwritten : Option ℕ) : State :=
  let pos := sub64 c.data.length c.nleft
  if c.data.length < pos+c.nleft then { s with fault := true }
  else
    { s with
      wire := s.wire ++ (c.data.drop pos).take (nwritten.getD 0)
      pending := keep c.data (sub64 c.nleft (toSize nwritten)) }

/-- A string has fewer than `2^63` bytes, and a push writes no more than it is given. -/
def Possible (c : PushChunkData) (nwritten : Option ℕ) : Prop :=
  c.data.length < 2^63 ∧ ∀ n ∈ nwritten, n ≤ c.nleft

instance (c : PushChunkData) (nwritten : Option ℕ) : Decidable (Possible c nwritten) :=
  inferInstanceAs (Decidable (_ ∧ _))

def pushFunc (s : State) (data : Bytes) (nwritten : Option ℕ) : Option State :=
  let c : PushChunkData := ⟨body data,(body data).length⟩
  if s.pending = none ∧ Possible c nwritten then some (send s c nwritten) else none

def pushRetryCallback (s : State) (nwritten : Option ℕ) : Option State :=
  s.pending.bind fun c => if Possible c nwritten then some (send s c nwritten) else none

def step (s : State) (e : Event) : Option State :=
  if s.fault = true ∨ s.ended = true then none
  else
    match e with
    | .push data nwritten => pushFunc s data nwritten
    | .retry nwritten => pushRetryCallback s nwritten
    | .close => if s.pending = none then some { s with ended := true } else none

def Event.chunk : Event → Bytes
  | .push data _ => body data
  | _ => []

def Event.failed : Event → Bool
  | .push _ nwritten => nwritten.isNone
  | .retry nwritten => nwritten.isNone
  | .close => false

/-- Everything that was to be sent. -/
def expected (header : Bytes) (es : List Event) : Bytes := header ++ es.flatMap Event.chunk

def rest (pending : Option PushChunkData) : Bytes :=
  pending.elim [] fun c => c.data.drop (c.data.length-c.nleft)

/-- The bytes taken and the rest to be tried again are what was to be sent, and the rest lies
in its chunk. -/
structure Intact (header : Bytes) (es : List Event) (s : State) : Prop where
  fault : s.fault = false
  inside : ∀ c ∈ s.pending, c.nleft ≤ c.data.length
  stream : s.wire ++ rest s.pending = expected header es

section Steps

theorem sub64_le {a b : ℕ} (h : b ≤ a) (ha : a < 2^64) : sub64 a b = a-b := by
  rw [sub64]
  omega

theorem sub64_failed {a : ℕ} (ha : a+1 < 2^64) : sub64 a (toSize none) = a+1 := by
  rw [sub64, toSize, Option.getD_none]
  omega

theorem mem_keep {data : Bytes} {n : ℕ} {c : PushChunkData} (h : c ∈ keep data n) :
    c = ⟨data,n⟩ := by
  rw [keep] at h
  split at h
  · exact (Option.some.inj h).symm
  · cases h

theorem rest_keep (data : Bytes) (n : ℕ) : rest (keep data n) = data.drop (data.length-n) := by
  rw [keep]
  split
  next => rfl
  next hn =>
    have hzero : n = 0 := by omega
    rw [hzero, Nat.sub_zero, List.drop_length]
    rfl

variable {s t : State} {c : PushChunkData} {nwritten : Option ℕ}

theorem send_some {n : ℕ} (hl : c.data.length < 2^63) (hc : c.nleft ≤ c.data.length)
    (hn : n ≤ c.nleft) :
    send s c (some n) =
      { s with
        wire := s.wire ++ (c.data.drop (c.data.length-c.nleft)).take n
        pending := keep c.data (c.nleft-n) } := by
  have hpos := sub64_le hc (by omega)
  have hleft := sub64_le hn (by omega)
  rw [send, hpos, if_neg (by omega), toSize, Option.getD_some, Option.getD_some, hleft]

theorem send_none (hl : c.data.length < 2^63) (hc : c.nleft ≤ c.data.length) :
    send s c none = { s with pending := some ⟨c.data,c.nleft+1⟩ } := by
  have hpos := sub64_le hc (by omega)
  have hkeep : keep c.data (c.nleft+1) = some ⟨c.data,c.nleft+1⟩ := if_pos (by omega)
  rw [send, hpos, if_neg (by omega), sub64_failed (by omega), hkeep, Option.getD_none,
    List.take_zero, List.append_nil]

theorem send_outside (hc : c.nleft = c.data.length+1) :
    send s c nwritten = { s with fault := true } := by
  have hpos : sub64 c.data.length c.nleft = 2^64-1 := by
    rw [sub64, hc]
    omega
  rw [send, hpos, if_pos (by omega)]

theorem step_cases {e : Event} (h : step s e = some t) :
    s.fault = false ∧ s.ended = false ∧
    ((∃ data nwritten, e = .push data nwritten ∧ s.pending = none ∧
        Possible ⟨body data,(body data).length⟩ nwritten ∧
        t = send s ⟨body data,(body data).length⟩ nwritten) ∨
      (∃ c nwritten, e = .retry nwritten ∧ s.pending = some c ∧ Possible c nwritten ∧
        t = send s c nwritten) ∨
      (e = .close ∧ s.pending = none ∧ t = { s with ended := true })) := by
  rw [step.eq_def] at h
  split at h
  next => cases h
  next hlive =>
    rw [not_or, Bool.not_eq_true, Bool.not_eq_true] at hlive
    refine ⟨hlive.1,hlive.2,?_⟩
    cases e with
    | push data nwritten =>
      dsimp only [pushFunc] at h
      split at h
      next hp => exact Or.inl ⟨data,nwritten,rfl,hp.1,hp.2,(Option.some.inj h).symm⟩
      next => cases h
    | retry nwritten =>
      obtain ⟨c,hc,hsend⟩ := Option.bind_eq_some_iff.mp h
      split at hsend
      next hp =>
        exact Or.inr (Or.inl ⟨c,nwritten,rfl,hc,hp,(Option.some.inj hsend).symm⟩)
      next => cases hsend
    | close =>
      dsimp only at h
      split at h
      next hp => exact Or.inr (Or.inr ⟨rfl,hp,(Option.some.inj h).symm⟩)
      next => cases h

end Steps

section Runs

variable {header : Bytes} {es : List Event} {s : State}

theorem expected_snoc (header : Bytes) (es : List Event) (e : Event) :
    expected header (es ++ [e]) = expected header es ++ e.chunk := by
  rw [expected, expected, List.flatMap_append, List.flatMap_singleton, List.append_assoc]

theorem rest_split (data : Bytes) (m n : ℕ) (h : n ≤ m) (hm : m ≤ data.length) :
    (data.drop (data.length-m)).take n ++ data.drop (data.length-(m-n)) =
      data.drop (data.length-m) := by
  have hdrop : data.drop (data.length-(m-n)) = (data.drop (data.length-m)).drop n := by
    rw [List.drop_drop]
    congr 1
    omega
  rw [hdrop, List.take_append_drop]

/-- While no push fails the stream is intact. -/
structure Sound (header : Bytes) (es : List Event) (s : State) : Prop extends
    Intact header es s where
  sized : ∀ c ∈ s.pending, c.data.length < 2^63

theorem sound_send {c : PushChunkData} {n : ℕ} (hf : s.fault = false)
    (hl : c.data.length < 2^63) (hc : c.nleft ≤ c.data.length) (hn : n ≤ c.nleft)
    (hstream : s.wire ++ c.data.drop (c.data.length-c.nleft) = expected header es) :
    Sound header es (send s c (some n)) := by
  rw [send_some hl hc hn]
  refine ⟨⟨hf,?_,?_⟩,?_⟩
  · intro c' hc'
    obtain rfl := mem_keep hc'
    dsimp only
    omega
  · rw [rest_keep, List.append_assoc, rest_split c.data c.nleft n hn hc, hstream]
  · intro c' hc'
    obtain rfl := mem_keep hc'
    exact hl

theorem sound_step {e : Event} {t : State} (h : Sound header es s) (he : e.failed = false)
    (hstep : step s e = some t) : Sound header (es ++ [e]) t := by
  have hstream := h.stream
  obtain ⟨hf,-,⟨data,nwritten,rfl,hp,hposs,rfl⟩ | ⟨c,nwritten,rfl,hp,hposs,rfl⟩ | ⟨rfl,hp,rfl⟩⟩ :=
    step_cases hstep
  · cases nwritten with
    | none => cases he
    | some n =>
      rw [hp] at hstream
      apply sound_send hf hposs.1 le_rfl (hposs.2 n rfl)
      rw [expected_snoc, ← hstream, Nat.sub_self, List.drop_zero]
      exact congrArg (· ++ _) (List.append_nil _).symm
  · cases nwritten with
    | none => cases he
    | some n =>
      rw [hp] at hstream
      apply sound_send hf hposs.1 (h.inside c hp) (hposs.2 n rfl)
      rw [expected_snoc, ← hstream]
      exact (List.append_nil _).symm
  · refine ⟨⟨hf,h.inside,?_⟩,h.sized⟩
    rw [expected_snoc, ← hstream]
    exact (List.append_nil _).symm

def left (pending : Option PushChunkData) : ℕ := pending.elim 0 PushChunkData.nleft

theorem left_keep (data : Bytes) (n : ℕ) : left (keep data n) = n := by
  rw [keep]
  split
  next => rfl
  next hn =>
    show 0 = n
    omega

/-- Every failed push makes the stream one byte longer than what was to be sent. -/
structure Counted (n : ℕ) (s : State) : Prop where
  count : s.fault = false → s.wire.length+left s.pending = n
  bound : ∀ c ∈ s.pending, c.nleft ≤ c.data.length+1

theorem counted_send {c : PushChunkData} {nwritten : Option ℕ} {n : ℕ}
    (hposs : Possible c nwritten) (hc : c.nleft ≤ c.data.length+1)
    (hbound : ∀ c ∈ s.pending, c.nleft ≤ c.data.length+1) (hcount : s.wire.length+c.nleft = n) :
    Counted (n+if nwritten = none then 1 else 0) (send s c nwritten) := by
  by_cases hin : c.nleft ≤ c.data.length
  · cases nwritten with
    | none =>
      rw [send_none hposs.1 hin]
      refine ⟨fun _ => ?_,fun c' hc' => ?_⟩
      · show s.wire.length+(c.nleft+1) = n+1
        omega
      · obtain rfl := Option.some.inj hc'
        dsimp only
        omega
    | some k =>
      have hk := hposs.2 k rfl
      rw [send_some hposs.1 hin hk]
      refine ⟨fun _ => ?_,fun c' hc' => ?_⟩
      · rw [left_keep, List.length_append, List.length_take, List.length_drop,
          if_neg (Option.some_ne_none _)]
        omega
      · obtain rfl := mem_keep hc'
        dsimp only
        omega
  · rw [send_outside (by omega)]
    exact ⟨fun hf => absurd hf (by simp),hbound⟩

theorem counted_step {e : Event} {t : State}
    (h : Counted ((expected header es).length+es.countP Event.failed) s)
    (hstep : step s e = some t) :
    Counted ((expected header (es ++ [e])).length+(es ++ [e]).countP Event.failed) t := by
  have hlen : (expected header (es ++ [e])).length =
      (expected header es).length+e.chunk.length := by
    rw [expected_snoc, List.length_append]
  have hfail : (es ++ [e]).countP Event.failed =
      es.countP Event.failed+if e.failed = true then 1 else 0 := by
    rw [List.countP_append, List.countP_singleton]
  obtain ⟨hf,-,⟨data,nwritten,rfl,hp,hposs,rfl⟩ | ⟨c,nwritten,rfl,hp,hposs,rfl⟩ | ⟨rfl,hp,rfl⟩⟩ :=
    step_cases hstep
  · have hcount := h.count hf
    have hnone : (Event.push data nwritten).failed = true ↔ nwritten = none :=
      Option.isNone_iff_eq_none
    rw [hp] at hcount
    have hsent := counted_send hposs (Nat.le_succ _) h.bound
      (congrArg (· + (body data).length) hcount)
    have hchunk : (Event.push data nwritten).chunk.length = (body data).length := rfl
    simp only [hlen, hfail, hnone, hchunk]
    convert hsent using 1
    omega
  · have hcount := h.count hf
    have hnone : (Event.retry nwritten).failed = true ↔ nwritten = none :=
      Option.isNone_iff_eq_none
    rw [hp] at hcount
    have hsent := counted_send hposs (h.bound c hp) h.bound hcount
    have hchunk : (Event.retry nwritten).chunk.length = 0 := rfl
    simp only [hlen, hfail, hnone, hchunk]
    convert hsent using 1
    omega
  · have hclose : Event.close.failed = false := rfl
    rw [hlen, hfail, hclose]
    exact ⟨h.count,h.bound⟩

theorem run_counted (hrun : run step ⟨header,none,false,false⟩ es = some s) :
    Counted ((expected header es).length+es.countP Event.failed) s := by
  refine history_invariant (G := fun _ _ => True)
    (fun hist s => Counted ((expected header hist).length+hist.countP Event.failed) s)
    (fun hist s e t h _ hstep => counted_step h hstep) _ _ _ ?_ (along_true _ _) hrun
  refine ⟨fun _ => ?_,fun c hc => absurd hc (Option.not_mem_none _)⟩
  simp [expected, left]

theorem run_sound (hrun : run step ⟨header,none,false,false⟩ es = some s)
    (h : ∀ e ∈ es, e.failed = false) : Sound header es s := by
  refine history_invariant (G := fun _ e => e.failed = false) (Sound header)
    (fun hist s e t hs he hstep => sound_step hs he hstep) _ _ _ ?_
    (along_of_forall _ _ fun e he _ => h e he) hrun
  refine ⟨⟨rfl,fun c hc => absurd hc (Option.not_mem_none _),?_⟩,
    fun c hc => absurd hc (Option.not_mem_none _)⟩
  simp [expected, rest]

theorem intact_iff (hrun : run step ⟨header,none,false,false⟩ es = some s) :
    Intact header es s ↔ ∀ e ∈ es, e.failed = false := by
  constructor
  · intro h
    have hcount := (run_counted hrun).count h.fault
    have hlen := congrArg List.length h.stream
    have hrest : (rest s.pending).length = left s.pending := by
      cases hp : s.pending with
      | none => rfl
      | some c =>
        have hin := h.inside c hp
        show (c.data.drop (c.data.length-c.nleft)).length = c.nleft
        rw [List.length_drop]
        omega
    rw [List.length_append, hrest] at hlen
    have hzero : es.countP Event.failed = 0 := by omega
    intro e he
    exact Bool.eq_false_iff.mpr (List.countP_eq_zero.mp hzero e he)
  · intro h
    exact (run_sound hrun h).toIntact

variable {nheader : Option ℕ}

theorem start_whole (h : header.length ≤ nheader.getD 0) :
    start header nheader = ⟨header,none,false,false⟩ := by
  rw [start, List.take_of_length_le h]

/-- What reaches the connection over a whole run, however the pushes are cut. When the header was
written whole, the response is the header and the chunks in order, without a gap and with nothing
twice, exactly as long as no push has failed; and when none has failed, exactly when the header
was written whole. -/
theorem stream_intact_iff (hrun : run step (start header nheader) es = some s) :
    (header.length ≤ nheader.getD 0 → (Intact header es s ↔ ∀ e ∈ es, e.failed = false)) ∧
    ((∀ e ∈ es, e.failed = false) → (Intact header es s ↔ header.length ≤ nheader.getD 0)) := by
  have hwhole : header.length ≤ nheader.getD 0 →
      (Intact header es s ↔ ∀ e ∈ es, e.failed = false) := by
    intro h
    rw [start_whole h] at hrun
    exact intact_iff hrun
  refine ⟨hwhole,fun hok => ⟨fun h => ?_,fun h => (hwhole h).mpr hok⟩⟩
  have hstream := (run_sound hrun hok).stream
  rw [h.stream, expected, expected] at hstream
  have hlen := congrArg List.length (List.append_cancel_right hstream)
  rw [List.length_take] at hlen
  omega

def cutRun : List Event := [.push [97,98] (some 3),.retry (some 4),.push [] (some 5)]

theorem stream_intact_cut :
    run step (start [72] (some 1)) cutRun = some ⟨expected [72] cutRun,none,false,false⟩ ∧
    Intact [72] cutRun ⟨expected [72] cutRun,none,false,false⟩ := by
  have hrun : run step (start [72] (some 1)) cutRun =
      some ⟨expected [72] cutRun,none,false,false⟩ := by
    decide
  exact ⟨hrun,((stream_intact_iff hrun).1 (by decide)).mpr (by decide)⟩

-- The connection has taken nothing of the header, and the chunk is pushed behind it.
example : run step (start [72] (some 0)) [.push [97] (some 6)] =
    some ⟨body [97],none,false,false⟩ := by
  decide

end Runs

section Client

def isHex (c : UInt8) : Bool := (hexValue c).isSome

/-- A chunk as a client reads it: its data and what stands behind it. -/
def readChunk (s : Bytes) : Option (Bytes × Bytes) :=
  let t := s.dropWhile isHex
  let d := t.drop 2
  let n := hexDigits s 0
  if t.take 2 = crlf ∧ (d.drop n).take 2 = crlf then some (d.take n,d.drop (n+2)) else none

/-- The chunks up to an empty one, or as far as the bytes go. -/
def client : ℕ → Bytes → Option (List Bytes)
  | 0, _ => none
  | fuel+1, s =>
    if s = [] then some []
    else (readChunk s).bind fun dr =>
      if dr.1 = [] then some [] else (client fuel dr.2).map (dr.1 :: ·)

theorem hexValue_digitChar : ∀ d < 16, hexValue (Nat.digitChar d).toNat.toUInt8 = some d := by
  decide

theorem hexDigits_append {xs : Bytes} (h : ∀ c ∈ xs, isHex c = true) (r : Bytes) (acc : ℕ) :
    hexDigits (xs ++ r) acc = hexDigits r (hexDigits xs acc) := by
  induction xs generalizing acc with
  | nil => rfl
  | cons c xs ih =>
    rw [List.forall_mem_cons] at h
    obtain ⟨d,hd⟩ := Option.isSome_iff_exists.mp h.1
    rw [List.cons_append, hexDigits, hexDigits, hd]
    exact ih h.2 _

theorem hexText_spec (n : ℕ) :
    (∀ c ∈ hexText n, isHex c = true) ∧ hexDigits (hexText n) 0 = n := by
  induction n using Nat.strongRecOn with
  | _ n ih =>
    have hdigit : ∀ d < 16, isHex (Nat.digitChar d).toNat.toUInt8 = true := by
      intro d hd
      rw [isHex, hexValue_digitChar d hd]
      rfl
    by_cases hn : n < 16
    · have htext : hexText n = [(Nat.digitChar n).toNat.toUInt8] := by
        rw [hexText, Nat.toDigits_of_lt_base hn]
        rfl
      rw [htext]
      refine ⟨List.forall_mem_singleton.mpr (hdigit n hn),?_⟩
      rw [hexDigits, hexValue_digitChar n hn]
      simp [hexDigits]
    · have htext : hexText n = hexText (n/16) ++ [(Nat.digitChar (n%16)).toNat.toUInt8] := by
        rw [hexText, hexText, Nat.toDigits_of_base_le (by decide) (by omega), List.map_append]
        rfl
      obtain ⟨hall,hval⟩ := ih (n/16) (by omega)
      have hmod : n%16 < 16 := Nat.mod_lt _ (by decide)
      rw [htext]
      refine ⟨?_,?_⟩
      · rw [List.forall_mem_append]
        exact ⟨hall,List.forall_mem_singleton.mpr (hdigit _ hmod)⟩
      · rw [hexDigits_append hall, hval, hexDigits, hexValue_digitChar _ hmod]
        simp only [hexDigits]
        omega

theorem body_eq (data : Bytes) : body data = hexText data.length ++ crlf ++ data ++ crlf := by
  rw [body]
  split
  next => rfl
  next h =>
    rw [not_not] at h
    rw [h]
    decide

theorem readChunk_body (data r : Bytes) : readChunk (body data ++ r) = some (data,r) := by
  obtain ⟨hall,hval⟩ := hexText_spec data.length
  have hcr : isHex 13 = false := by decide
  have hsplit : body data ++ r = hexText data.length ++ 13 :: 10 :: (data ++ (crlf ++ r)) := by
    rw [body_eq]
    simp [crlf]
  have hdrop : (body data ++ r).dropWhile isHex = 13 :: 10 :: (data ++ (crlf ++ r)) := by
    rw [hsplit, List.dropWhile_append_of_pos hall, List.dropWhile_cons_of_neg (by simp [hcr])]
  have hnum : hexDigits (body data ++ r) 0 = data.length := by
    rw [hsplit, hexDigits_append hall, hval, hexDigits]
    have hnone : hexValue 13 = none := by decide
    rw [hnone]
  rw [readChunk, hdrop, hnum]
  simp [crlf]

theorem body_ne_nil (data : Bytes) : body data ≠ [] := by
  rw [body_eq]
  simp [crlf]

theorem client_bodies (datas : List Bytes) (fuel : ℕ) (h : datas.length < fuel) :
    client fuel (datas.flatMap body) = some (datas.takeWhile (· ≠ [])) := by
  induction datas generalizing fuel with
  | nil =>
    cases fuel with
    | zero => cases h
    | succ fuel => rfl
  | cons data datas ih =>
    cases fuel with
    | zero => cases h
    | succ fuel =>
      rw [List.flatMap_cons, client, if_neg (by simp [body_ne_nil]), readChunk_body,
        Option.bind_some]
      by_cases hd : data = []
      · rw [if_pos hd, List.takeWhile_cons_of_neg (by simpa using hd)]
      · rw [if_neg hd, List.takeWhile_cons_of_pos (by simpa using hd),
          ih fuel (by simpa using h)]
        rfl

def pushed (es : List Event) : List Bytes :=
  es.filterMap fun e =>
    match e with
    | .push data _ => some data
    | _ => none

theorem flatMap_chunk (es : List Event) : es.flatMap Event.chunk = (pushed es).flatMap body := by
  induction es with
  | nil => rfl
  | cons e es ih =>
    rw [List.flatMap_cons, ih]
    cases e <;> rfl

/-- A client that reads the chunks behind a header that was written whole gets what was handed
over, in order, up to the first time there was nothing; no cut of the pushes shows. -/
theorem client_reads_pushed {header : Bytes} {nheader : Option ℕ} {es : List Event} {s : State}
    (hrun : run step (start header nheader) es = some s)
    (hheader : header.length ≤ nheader.getD 0) (hok : ∀ e ∈ es, e.failed = false)
    (hdone : s.pending = none) :
    client (es.length+1) (s.wire.drop header.length) = some ((pushed es).takeWhile (· ≠ [])) := by
  rw [start_whole hheader] at hrun
  have hstream := (run_sound hrun hok).stream
  rw [hdone, expected, flatMap_chunk] at hstream
  have hwire : s.wire = header ++ (pushed es).flatMap body := (List.append_nil _).symm.trans hstream
  have hlen : (pushed es).length < es.length+1 := Nat.lt_succ_of_le (List.length_filterMap_le _ _)
  rw [hwire, List.drop_left, client_bodies _ _ hlen]

theorem client_reads_cut :
    client (cutRun.length+1) ((expected [72] cutRun).drop 1) = some [[97,98]] :=
  @client_reads_pushed [72] (some 1) cutRun ⟨expected [72] cutRun,none,false,false⟩ (by decide)
    (by decide) (by decide) rfl

end Client

end WdHttp.ServerPush
