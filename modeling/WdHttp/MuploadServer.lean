import WdHttp.PartialRun
import WdHttp.PosixFile
import WdHttp.RedisHash
import Mathlib.Data.Fintype.Pi

/-!
# The chunked-upload servers

One definition covers `my_day08/mupload.cc` and `day08/mupload.cc`; they differ
in the user name, the chunk size and the Redis key of an upload. A request
enters `process` with its parsed parts. An init request starts three `HSET`
tasks of its own; an uppart request runs `HGET`, the callback that stores the
chunk, and `HSET` in series and is answered after them; a complete request
runs `HGETALL`. Every task may be tried three times. Results of Redis tasks,
of `open` and of `write` are not looked at, as in the source, and are chosen
by the label. `mkdir` only decides whether `open` succeeds, so it is part of
that choice.
-/

set_option autoImplicit false

namespace WdHttp.MuploadServer
open WdHttp.CText WdHttp.PosixFile WdHttp.RedisHash

inductive Server where
  | myDay08
  | day08
  deriving DecidableEq, Repr

def Server.user : Server → Str
  | .myDay08 => "xie".toList
  | .day08 => "liao".toList

def Server.chunksize : Server → ℤ
  | .myDay08 => 2*1024*1024
  | .day08 => 5*1024*1024

/-- The fields of `struct tm` that enter an upload id. -/
structure Clock where
  hour : Fin 24
  min : Fin 60
  deriving DecidableEq, Repr

def timeStamp (t : Clock) : Str := pad02 t.hour ++ ':'::pad02 t.min

def uploadID (v : Server) (t : Clock) : Str := v.user ++ timeStamp t

/-- The key under which init stores an upload. -/
def redisKey : Server → Str → Str
  | .myDay08, u => u
  | .day08, u => "MP_".toList ++ u

/-- The JSON object of an init request and the local time it is handled at. -/
structure InitRequest where
  filename : Str
  filehash : Str
  filesize : ℤ
  time : Clock
  deriving DecidableEq, Repr

def filesize (r : InitRequest) : ℤ := toInt r.filesize

def chunkcount (v : Server) (r : InitRequest) : ℤ :=
  (filesize r).tdiv v.chunksize + if (filesize r).tmod v.chunksize ≠ 0 then 1 else 0

structure InitReply where
  status : Str
  uploadID : Str
  chunkcount : ℤ
  filesize : ℤ
  chunksize : Option ℤ
  filehash : Str
  deriving DecidableEq, Repr

def uppartInfo (v : Server) (r : InitRequest) : InitReply where
  status := "OK".toList
  uploadID := uploadID v r.time
  chunkcount := chunkcount v r
  filesize := filesize r
  chunksize := match v with
    | .myDay08 => none
    | .day08 => some v.chunksize
  filehash := r.filehash

structure HSet where
  key : Str
  field : Str
  value : Str
  deriving DecidableEq, Repr

def chunkcountField : Str := "chunkcount".toList
def filehashField : Str := "filehash".toList
def filesizeField : Str := "filesize".toList
def chkidxText : Str := "chkidx_".toList

/-- The key of an init request's three commands. -/
def initKey (v : Server) (r : InitRequest) : Str := redisKey v (uploadID v r.time)

def argsVec (v : Server) (r : InitRequest) : Fin 3 → HSet
  | 0 => ⟨initKey v r,chunkcountField,stdToString (chunkcount v r)⟩
  | 1 => ⟨initKey v r,filehashField,r.filehash⟩
  | 2 => ⟨initKey v r,filesizeField,stdToString (filesize r)⟩

def progressField (c : Str) : Str := chkidxText ++ c

def uppartHset (u c : Str) : HSet := ⟨u,progressField c,"1".toList⟩

/-- `RedisValue::string_value`, empty for a nil reply. -/
def stringValue (value : Option Str) : Str := value.getD []

def filepath (filehash c : Str) : Str := filehash ++ '/'::c

structure Progress where
  chunkcount : ℤ
  chunknow : ℤ
  deriving DecidableEq, Repr

inductive Answer where
  | success
  | fail
  deriving DecidableEq, Repr

def Progress.answer (p : Progress) : Answer :=
  if p.chunknow = p.chunkcount then .success else .fail

/-- The loop over the reply array of `HGETALL`. It ends without a result where
`std::stoi` throws. The counters are integers: the `int` of the source holds
them for every array of fewer than `2^31` elements. -/
def scan : List Str → Progress → Option Progress
  | key::val::rest, p =>
    if key = chunkcountField then
      (stoi val).bind fun n => scan rest { p with chunkcount := n }
    else if key.take 7 = chkidxText then
      scan rest { p with chunknow := p.chunknow+1 }
    else scan rest p
  | _, p => some p

inductive UppartPhase where
  | hget
  | callback (filehash : Str)
  | hset (tries : ℕ)
  | done (tries : ℕ)
  deriving DecidableEq, Repr

inductive CompletePhase where
  | hgetall
  | answered (p : Progress)
  | threw
  deriving DecidableEq, Repr

inductive Flight where
  | init (r : InitRequest) (tries : Fin 3 → ℕ)
  | uppart (u c : Str) (body : Bytes) (phase : UppartPhase)
  | complete (u : Str) (phase : CompletePhase)
  deriving DecidableEq

structure State where
  redis : Store
  disk : Files
  flights : ℕ → Option Flight

structure Host where
  server : Server
  cwd : Path

def Host.file (h : Host) (filehash c : Str) : Path := resolve h.cwd (filepath filehash c)

inductive Event where
  | init (id : ℕ) (r : InitRequest)
  | initHset (id : ℕ) (j : Fin 3)
  | uppart (id : ℕ) (u c : Str) (body : Bytes)
  | hget (id : ℕ) (ok : Bool)
  | callback (id : ℕ) (io : Io)
  | hset (id : ℕ)
  | reply (id : ℕ)
  | complete (id : ℕ) (u : Str)
  | hgetall (id : ℕ) (listing : Option (List Entry)) (junk : ℤ)
  deriving DecidableEq

/-- A condition on events, by their kinds; `others` where none is stated. -/
structure Demands where
  others : Prop := True
  init : ℕ → InitRequest → Prop := fun _ _ => others
  uppart : ℕ → Str → Str → Bytes → Prop := fun _ _ _ _ => others
  callback : ℕ → Io → Prop := fun _ _ => others
  complete : ℕ → Str → Prop := fun _ _ => others
  hgetall : ℕ → Option (List Entry) → ℤ → Prop := fun _ _ _ => others

def Demands.On (d : Demands) : Event → Prop
  | .init id r => d.init id r
  | .uppart id u c body => d.uppart id u c body
  | .callback id io => d.callback id io
  | .complete id u => d.complete id u
  | .hgetall id listing junk => d.hgetall id listing junk
  | .initHset _ _ => d.others
  | .hget _ _ => d.others
  | .hset _ => d.others
  | .reply _ => d.others

instance {others init uppart callback complete hgetall} [Decidable others]
    [∀ id r, Decidable (init id r)] [∀ id u c body, Decidable (uppart id u c body)]
    [∀ id io, Decidable (callback id io)] [∀ id u, Decidable (complete id u)]
    [∀ id listing junk, Decidable (hgetall id listing junk)] :
    DecidablePred (Demands.On ⟨others,init,uppart,callback,complete,hgetall⟩)
  | .init id r => inferInstanceAs (Decidable (init id r))
  | .uppart id u c body => inferInstanceAs (Decidable (uppart id u c body))
  | .callback id io => inferInstanceAs (Decidable (callback id io))
  | .complete id u => inferInstanceAs (Decidable (complete id u))
  | .hgetall id listing junk => inferInstanceAs (Decidable (hgetall id listing junk))
  | .initHset _ _ => inferInstanceAs (Decidable others)
  | .hget _ _ => inferInstanceAs (Decidable others)
  | .hset _ => inferInstanceAs (Decidable others)
  | .reply _ => inferInstanceAs (Decidable others)

def State.put (s : State) (id : ℕ) (f : Flight) : State :=
  { s with flights := Function.update s.flights id (some f) }

def State.hset (s : State) (c : HSet) : State :=
  { s with redis := RedisHash.hset s.redis c.key c.field c.value }

def State.write (s : State) (p : Path) (data : Bytes) (io : Io) : State :=
  { s with disk := openWrite s.disk p data io }

def completePhase (junk : ℤ) (reply : List Str) : CompletePhase :=
  match scan reply ⟨junk,0⟩ with
  | some p => .answered p
  | none => .threw

def retryMax : ℕ := 2

def arrive (s : State) (id : ℕ) (f : Flight) : Option State :=
  match s.flights id with
  | none => some (s.put id f)
  | some _ => none

def step (h : Host) (s : State) : Event → Option State
  | .init id r => arrive s id (.init r fun _ => 0)
  | .initHset id j =>
    match s.flights id with
    | some (.init r tries) =>
      if tries j ≤ retryMax then
        some ((s.hset (argsVec h.server r j)).put id
          (.init r (Function.update tries j (tries j+1))))
      else none
    | _ => none
  | .uppart id u c body => arrive s id (.uppart u c body .hget)
  | .hget id ok =>
    match s.flights id with
    | some (.uppart u c body .hget) =>
      some (s.put id (.uppart u c body (.callback
        (stringValue (if ok then hget s.redis u filehashField else none)))))
    | _ => none
  | .callback id io =>
    match s.flights id with
    | some (.uppart u c body (.callback filehash)) =>
      some ((s.write (h.file filehash c) body io).put id (.uppart u c body (.hset 0)))
    | _ => none
  | .hset id =>
    match s.flights id with
    | some (.uppart u c body (.hset n)) =>
      if n ≤ retryMax then
        some ((s.hset (uppartHset u c)).put id (.uppart u c body (.hset (n+1))))
      else none
    | _ => none
  | .reply id =>
    match s.flights id with
    | some (.uppart u c body (.hset n)) => some (s.put id (.uppart u c body (.done n)))
    | _ => none
  | .complete id u => arrive s id (.complete u .hgetall)
  | .hgetall id listing junk =>
    match s.flights id, listing with
    | some (.complete u .hgetall), none =>
      some (s.put id (.complete u (completePhase junk [])))
    | some (.complete u .hgetall), some l =>
      if Listing (s.redis u) l then
        some (s.put id (.complete u (completePhase junk (RedisHash.hgetall l))))
      else none
    | _, _ => none

/-- No upload recorded, no request in flight, any files. -/
def start (disk : Files) : State where
  redis := fun _ => ∅
  disk := disk
  flights := fun _ => none

abbrev runs (h : Host) := PartialRun.run (step h)

@[simp] theorem put_redis (s : State) (id : ℕ) (f : Flight) : (s.put id f).redis = s.redis := rfl

@[simp] theorem put_disk (s : State) (id : ℕ) (f : Flight) : (s.put id f).disk = s.disk := rfl

@[simp] theorem put_self (s : State) (id : ℕ) (f : Flight) :
    (s.put id f).flights id = some f := Function.update_self _ _ _

theorem put_other (s : State) (id id' : ℕ) (f : Flight) (h : id' ≠ id) :
    (s.put id f).flights id' = s.flights id' := Function.update_of_ne h _ _

@[simp] theorem hset_disk (s : State) (c : HSet) : (s.hset c).disk = s.disk := rfl

@[simp] theorem hset_flights (s : State) (c : HSet) : (s.hset c).flights = s.flights := rfl

@[simp] theorem hset_redis (s : State) (c : HSet) :
    (s.hset c).redis = RedisHash.hset s.redis c.key c.field c.value := rfl

@[simp] theorem write_redis (s : State) (p : Path) (data : Bytes) (io : Io) :
    (s.write p data io).redis = s.redis := rfl

@[simp] theorem write_flights (s : State) (p : Path) (data : Bytes) (io : Io) :
    (s.write p data io).flights = s.flights := rfl

@[simp] theorem write_disk (s : State) (p : Path) (data : Bytes) (io : Io) :
    (s.write p data io).disk = openWrite s.disk p data io := rfl

section Inversion

variable {h : Host} {s t : State} {id : ℕ}

theorem arrive_inv {f : Flight} (hs : arrive s id f = some t) :
    s.flights id = none ∧ t = s.put id f := by
  unfold arrive at hs
  split at hs
  · rename_i hn
    exact ⟨hn,(Option.some.inj hs).symm⟩
  · cases hs

theorem initHset_inv {j : Fin 3} (hs : step h s (.initHset id j) = some t) :
    ∃ r tries, s.flights id = some (.init r tries) ∧ tries j ≤ retryMax ∧
      t = (s.hset (argsVec h.server r j)).put id
        (.init r (Function.update tries j (tries j+1))) := by
  simp only [step] at hs
  split at hs
  · rename_i r tries hf
    split at hs
    · rename_i ht
      exact ⟨r,tries,hf,ht,(Option.some.inj hs).symm⟩
    · cases hs
  · cases hs

theorem hget_inv {ok : Bool} (hs : step h s (.hget id ok) = some t) :
    ∃ u c body, s.flights id = some (.uppart u c body .hget) ∧
      t = s.put id (.uppart u c body (.callback
        (stringValue (if ok then hget s.redis u filehashField else none)))) := by
  simp only [step] at hs
  split at hs
  · rename_i u c body hf
    exact ⟨u,c,body,hf,(Option.some.inj hs).symm⟩
  · cases hs

theorem callback_inv {io : Io} (hs : step h s (.callback id io) = some t) :
    ∃ u c body filehash, s.flights id = some (.uppart u c body (.callback filehash)) ∧
      t = (s.write (h.file filehash c) body io).put id (.uppart u c body (.hset 0)) := by
  simp only [step] at hs
  split at hs
  · rename_i u c body filehash hf
    exact ⟨u,c,body,filehash,hf,(Option.some.inj hs).symm⟩
  · cases hs

theorem hset_inv (hs : step h s (.hset id) = some t) :
    ∃ u c body n, s.flights id = some (.uppart u c body (.hset n)) ∧ n ≤ retryMax ∧
      t = (s.hset (uppartHset u c)).put id (.uppart u c body (.hset (n+1))) := by
  simp only [step] at hs
  split at hs
  · rename_i u c body n hf
    split at hs
    · rename_i hn
      exact ⟨u,c,body,n,hf,hn,(Option.some.inj hs).symm⟩
    · cases hs
  · cases hs

theorem reply_inv (hs : step h s (.reply id) = some t) :
    ∃ u c body n, s.flights id = some (.uppart u c body (.hset n)) ∧
      t = s.put id (.uppart u c body (.done n)) := by
  simp only [step] at hs
  split at hs
  · rename_i u c body n hf
    exact ⟨u,c,body,n,hf,(Option.some.inj hs).symm⟩
  · cases hs

/-- A failed `HGETALL` is answered from an empty array. -/
def replyArray (listing : Option (List Entry)) : List Str :=
  (listing.map RedisHash.hgetall).getD []

theorem hgetall_inv {listing : Option (List Entry)} {junk : ℤ}
    (hs : step h s (.hgetall id listing junk) = some t) :
    ∃ u, s.flights id = some (.complete u .hgetall) ∧
      (∀ l, listing = some l → Listing (s.redis u) l) ∧
      t = s.put id (.complete u (completePhase junk (replyArray listing))) := by
  simp only [step] at hs
  split at hs
  · rename_i u hf
    exact ⟨u,hf,by simp,(Option.some.inj hs).symm⟩
  · rename_i u l hf
    split at hs
    · rename_i hl
      refine ⟨u,hf,?_,(Option.some.inj hs).symm⟩
      intro l' he
      cases he
      exact hl
    · cases hs
  · cases hs

theorem hgetall_step {u : Str} {l : List Entry} (junk : ℤ)
    (hf : s.flights id = some (.complete u .hgetall)) (hl : Listing (s.redis u) l) :
    step h s (.hgetall id (some l) junk) =
      some (s.put id (.complete u (completePhase junk (RedisHash.hgetall l)))) := by
  simp only [step, hf, if_pos hl]

end Inversion

end WdHttp.MuploadServer
