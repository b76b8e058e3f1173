import WdHttp.PartialRun
import WdHttp.FileUtil

/-!
# Uploads to the cloud disk

The handler of `POST /file/upload` in `day12/project/main.cc`, as a sequence of
steps that other uploads may interleave: the file is stored under the client's
name, hashed again from disk for every value that needs its hash, handed to the
object store or to the message queue, and recorded in two tables by a task that
runs after the handler. The consumer takes messages in any order. The hash of a
file is the one that `sha1File` prints.
-/

set_option autoImplicit false

namespace WdHttp.CloudUpload
open WdHttp.CText WdHttp.PosixFile WdHttp.Fips180

inductive StoreType where
  | fs
  | oss
  deriving DecidableEq, Repr

structure Config where
  storeType : StoreType := .oss
  isAsyncTransferEnable : Bool := true

structure Host where
  config : Config
  cwd : Path

structure UploadRequest where
  username : Str
  filename : Str
  body : Bytes
  deriving DecidableEq

def tmpText : Str := "tmp/".toList
def diskText : Str := "disk/".toList

def filepath (filename : Str) : Str := tmpText ++ filename

def Host.file (h : Host) (filename : Str) : Path := resolve h.cwd (filepath filename)

def sha1Of (content : Bytes) : Str := hex (sha1 content)

theorem sha1Of_eq (o : FileUtil.Openssl) (ho : o.Standard) (content : Bytes)
    (hl : content.length < 2^61) (reads : List (Option Bytes))
    (hr : FileUtil.Delivers content reads) :
    FileUtil.sha1File o reads = some (sha1Of content) :=
  FileUtil.sha1File_eq o ho content hl reads hr

structure FileRow where
  file_sha1 : Str
  file_name : Str
  file_size : ℕ
  file_addr : Str
  status : ℕ
  deriving DecidableEq

structure UserFileRow where
  user_name : Str
  file_sha1 : Str
  file_name : Str
  file_size : ℕ
  deriving DecidableEq

structure Message where
  filehash : Str
  filepath : Str
  osspath : Str
  deriving DecidableEq

def fileRow (r : UploadRequest) (hash : Str) : FileRow where
  file_sha1 := hash
  file_name := r.filename
  file_size := r.body.length
  file_addr := filepath r.filename
  status := 0

def userFileRow (r : UploadRequest) (hash : Str) : UserFileRow where
  user_name := r.username
  file_sha1 := hash
  file_name := r.filename
  file_size := r.body.length

def osspath (hash : Str) : Str := diskText ++ hash

def transInfo (r : UploadRequest) (hash osspath : Str) : Message where
  filehash := hash
  filepath := filepath r.filename
  osspath := osspath

/-- What the handler did with the object. -/
inductive Transfer where
  | none
  | object (osspath : Str)
  | message (m : Message)
  deriving DecidableEq

inductive Phase where
  | arrived
  | failed
  | stored
  | hashed (row : FileRow)
  | composed (row : FileRow) (urow : UserFileRow)
  | addressed (row : FileRow) (urow : UserFileRow) (osspath : Str)
  | messaged (row : FileRow) (urow : UserFileRow) (m : Message)
  | handled (row : FileRow) (urow : UserFileRow) (transfer : Transfer)
  | inserted (row : FileRow) (urow : UserFileRow) (transfer : Transfer)
  deriving DecidableEq

structure Flight where
  request : UploadRequest
  phase : Phase
  deriving DecidableEq

structure State where
  disk : Files
  tblFile : List FileRow
  tblUserFile : List UserFileRow
  bucket : Str → Option Bytes
  queue : List Message
  flights : ℕ → Option Flight

/-- The two statements of an insert take effect in order; `n` of them do. -/
inductive Event where
  | arrive (id : ℕ) (r : UploadRequest)
  | store (id : ℕ) (io : Io)
  | hash (id : ℕ)
  | putObject (id : ℕ) (ok : Bool)
  | publish (id : ℕ)
  | insert (id : ℕ) (n : ℕ)
  | take (k : ℕ)
  deriving DecidableEq

/-- A condition on what is stored; other events meet it. -/
def OnStore (P : ℕ → Io → Prop) : Event → Prop
  | .store id io => P id io
  | _ => True

instance (P : ℕ → Io → Prop) [∀ id io, Decidable (P id io)] : (e : Event) → Decidable (OnStore P e)
  | .store id io => inferInstanceAs (Decidable (P id io))
  | .arrive _ _ => inferInstanceAs (Decidable True)
  | .hash _ => inferInstanceAs (Decidable True)
  | .putObject _ _ => inferInstanceAs (Decidable True)
  | .publish _ => inferInstanceAs (Decidable True)
  | .insert _ _ => inferInstanceAs (Decidable True)
  | .take _ => inferInstanceAs (Decidable True)

def State.put (s : State) (id : ℕ) (f : Flight) : State :=
  { s with flights := Function.update s.flights id (some f) }

def State.write (s : State) (p : Path) (data : Bytes) (io : Io) : State :=
  { s with disk := openWrite s.disk p data io }

/-- The next value that the handler builds from a hash of the file. -/
def onHash (c : Config) (r : UploadRequest) (hash : Str) : Phase → Option Phase
  | .stored => some (.hashed (fileRow r hash))
  | .hashed row => some (.composed row (userFileRow r hash))
  | .composed row urow =>
    if c.storeType = .oss then some (.addressed row urow (osspath hash)) else none
  | .addressed row urow path =>
    if c.isAsyncTransferEnable then some (.messaged row urow (transInfo r hash path)) else none
  | _ => none

/-- The values of a request whose handler has returned. -/
def returned (c : Config) : Phase → Option (FileRow × UserFileRow × Transfer)
  | .composed row urow => if c.storeType = .fs then some (row,urow,.none) else none
  | .handled row urow transfer => some (row,urow,transfer)
  | _ => none

def stored : Io → Phase
  | .openFailed => .failed
  | .wrote _ => .stored

def step (h : Host) (s : State) : Event → Option State
  | .arrive id r =>
    match s.flights id with
    | none => some (s.put id ⟨r,.arrived⟩)
    | some _ => none
  | .store id io =>
    match s.flights id with
    | some ⟨r,.arrived⟩ =>
      some ((s.write (h.file r.filename) r.body io).put id ⟨r,stored io⟩)
    | _ => none
  | .hash id =>
    (s.flights id).bind fun f =>
      (s.disk (h.file f.request.filename)).bind fun content =>
        (onHash h.config f.request (sha1Of content) f.phase).map fun phase =>
          s.put id ⟨f.request,phase⟩
  | .putObject id ok =>
    match s.flights id with
    | some ⟨r,.addressed row urow path⟩ =>
      if h.config.isAsyncTransferEnable then none
      else some (State.put
        { s with bucket := if ok then Function.update s.bucket path (s.disk (h.file r.filename))
                           else s.bucket } id ⟨r,.handled row urow (.object path)⟩)
    | _ => none
  | .publish id =>
    match s.flights id with
    | some ⟨r,.messaged row urow m⟩ =>
      some (State.put { s with queue := s.queue ++ [m] } id ⟨r,.handled row urow (.message m)⟩)
    | _ => none
  | .insert id n =>
    (s.flights id).bind fun f =>
      (returned h.config f.phase).map fun v =>
        State.put { s with tblFile := if 1 ≤ n then s.tblFile ++ [v.1] else s.tblFile
                           tblUserFile :=
                             if 2 ≤ n then s.tblUserFile ++ [v.2.1] else s.tblUserFile }
          id ⟨f.request,.inserted v.1 v.2.1 v.2.2⟩
  | .take k =>
    match s.queue[k]? with
    | some _ => some { s with queue := s.queue.eraseIdx k }
    | none => none

/-- Empty tables, nothing queued, any files. -/
def start (disk : Files) : State where
  disk := disk
  tblFile := []
  tblUserFile := []
  bucket := fun _ => none
  queue := []
  flights := fun _ => none

abbrev runs (h : Host) := PartialRun.run (step h)

@[simp] theorem put_disk (s : State) (id : ℕ) (f : Flight) : (s.put id f).disk = s.disk := rfl

@[simp] theorem put_self (s : State) (id : ℕ) (f : Flight) :
    (s.put id f).flights id = some f := Function.update_self _ _ _

theorem put_other (s : State) (id id' : ℕ) (f : Flight) (h : id' ≠ id) :
    (s.put id f).flights id' = s.flights id' := Function.update_of_ne h _ _

@[simp] theorem write_disk (s : State) (p : Path) (data : Bytes) (io : Io) :
    (s.write p data io).disk = openWrite s.disk p data io := rfl

@[simp] theorem write_flights (s : State) (p : Path) (data : Bytes) (io : Io) :
    (s.write p data io).flights = s.flights := rfl

section Inversion

variable {h : Host} {s t : State} {id : ℕ}

theorem arrive_inv {r : UploadRequest} (hs : step h s (.arrive id r) = some t) :
    s.flights id = none ∧ t = s.put id ⟨r,.arrived⟩ := by
  simp only [step] at hs
  split at hs
  · rename_i hn
    exact ⟨hn,(Option.some.inj hs).symm⟩
  · cases hs

theorem store_inv {io : Io} (hs : step h s (.store id io) = some t) :
    ∃ r, s.flights id = some ⟨r,.arrived⟩ ∧
      t = (s.write (h.file r.filename) r.body io).put id ⟨r,stored io⟩ := by
  simp only [step] at hs
  split at hs
  · rename_i r hf
    exact ⟨r,hf,(Option.some.inj hs).symm⟩
  · cases hs

theorem hash_inv (hs : step h s (.hash id) = some t) :
    ∃ r phase content phase', s.flights id = some ⟨r,phase⟩ ∧
      s.disk (h.file r.filename) = some content ∧
      onHash h.config r (sha1Of content) phase = some phase' ∧ t = s.put id ⟨r,phase'⟩ := by
  simp only [step, Option.bind_eq_some_iff, Option.map_eq_some_iff] at hs
  obtain ⟨f,hf,content,hc,phase',hp,rfl⟩ := hs
  exact ⟨f.request,f.phase,content,phase',hf,hc,hp,rfl⟩

theorem putObject_inv {ok : Bool} (hs : step h s (.putObject id ok) = some t) :
    ∃ r row urow path, s.flights id = some ⟨r,.addressed row urow path⟩ ∧
      t.disk = s.disk ∧ t.queue = s.queue ∧ t.tblFile = s.tblFile ∧
      t.flights = Function.update s.flights id (some ⟨r,.handled row urow (.object path)⟩) := by
  simp only [step] at hs
  split at hs
  · rename_i r row urow path hf
    split at hs
    · cases hs
    · cases hs
      exact ⟨r,row,urow,path,hf,rfl,rfl,rfl,rfl⟩
  · cases hs

theorem publish_inv (hs : step h s (.publish id) = some t) :
    ∃ r row urow m, s.flights id = some ⟨r,.messaged row urow m⟩ ∧
      t.disk = s.disk ∧ t.queue = s.queue ++ [m] ∧ t.tblFile = s.tblFile ∧
      t.flights = Function.update s.flights id (some ⟨r,.handled row urow (.message m)⟩) := by
  simp only [step] at hs
  split at hs
  · rename_i r row urow m hf
    cases hs
    exact ⟨r,row,urow,m,hf,rfl,rfl,rfl,rfl⟩
  · cases hs

theorem insert_inv {n : ℕ} (hs : step h s (.insert id n) = some t) :
    ∃ r phase row urow transfer, s.flights id = some ⟨r,phase⟩ ∧
      returned h.config phase = some (row,urow,transfer) ∧
      t.disk = s.disk ∧ t.queue = s.queue ∧
      t.tblFile = (if 1 ≤ n then s.tblFile ++ [row] else s.tblFile) ∧
      t.flights = Function.update s.flights id (some ⟨r,.inserted row urow transfer⟩) := by
  simp only [step, Option.bind_eq_some_iff, Option.map_eq_some_iff] at hs
  obtain ⟨f,hf,⟨row,urow,transfer⟩,hv,rfl⟩ := hs
  exact ⟨f.request,f.phase,row,urow,transfer,hf,hv,rfl,rfl,rfl,rfl⟩

theorem take_inv {k : ℕ} (hs : step h s (.take k) = some t) :
    ∃ m, s.queue[k]? = some m ∧ t = { s with queue := s.queue.eraseIdx k } := by
  simp only [step] at hs
  split at hs
  · rename_i m hm
    exact ⟨m,hm,(Option.some.inj hs).symm⟩
  · cases hs

end Inversion

/-- What a hash of the file is taken for. -/
inductive Hashes (c : Config) (r : UploadRequest) (hash : Str) : Phase → Phase → Prop where
  | row : Hashes c r hash .stored (.hashed (fileRow r hash))
  | userRow (row : FileRow) : Hashes c r hash (.hashed row) (.composed row (userFileRow r hash))
  | path (row : FileRow) (urow : UserFileRow) (hc : c.storeType = .oss) :
      Hashes c r hash (.composed row urow) (.addressed row urow (osspath hash))
  | message (row : FileRow) (urow : UserFileRow) (path : Str)
      (hc : c.isAsyncTransferEnable = true) :
      Hashes c r hash (.addressed row urow path) (.messaged row urow (transInfo r hash path))

theorem onHash_hashes (c : Config) (r : UploadRequest) (hash : Str) (p q : Phase)
    (hp : onHash c r hash p = some q) : Hashes c r hash p q := by
  cases p with
  | stored =>
    cases hp
    exact .row
  | hashed row =>
    cases hp
    exact .userRow row
  | composed row urow =>
    simp only [onHash] at hp
    split at hp
    · rename_i hc
      cases hp
      exact .path row urow hc
    · cases hp
  | addressed row urow path =>
    simp only [onHash] at hp
    split at hp
    · rename_i hc
      cases hp
      exact .message row urow path hc
    · cases hp
  | arrived => cases hp
  | failed => cases hp
  | messaged row urow m => cases hp
  | handled row urow transfer => cases hp
  | inserted row urow transfer => cases hp

/-- The phase a request can reach from another in one step. -/
inductive Moves (h : Host) (s : State) (r : UploadRequest) : Event → ℕ → Phase → Phase → Prop where
  | store (id : ℕ) (io : Io) : Moves h s r (.store id io) id .arrived (stored io)
  | hash (id : ℕ) (content : Bytes) (p q : Phase)
      (hc : s.disk (h.file r.filename) = some content)
      (hp : Hashes h.config r (sha1Of content) p q) : Moves h s r (.hash id) id p q
  | putObject (id : ℕ) (ok : Bool) (row : FileRow) (urow : UserFileRow) (path : Str) :
      Moves h s r (.putObject id ok) id (.addressed row urow path)
        (.handled row urow (.object path))
  | publish (id : ℕ) (row : FileRow) (urow : UserFileRow) (m : Message) :
      Moves h s r (.publish id) id (.messaged row urow m) (.handled row urow (.message m))
  | insert (id n : ℕ) (p : Phase) (row : FileRow) (urow : UserFileRow) (transfer : Transfer)
      (hp : returned h.config p = some (row,urow,transfer)) :
      Moves h s r (.insert id n) id p (.inserted row urow transfer)

theorem step_flight (h : Host) (s t : State) (e : Event) (hs : step h s e = some t) (id : ℕ)
    (r : UploadRequest) (q : Phase) (hf : t.flights id = some ⟨r,q⟩) :
    s.flights id = some ⟨r,q⟩ ∨ (s.flights id = none ∧ e = .arrive id r ∧ q = .arrived) ∨
      ∃ p, s.flights id = some ⟨r,p⟩ ∧ Moves h s r e id p q := by
  have hput : ∀ (i : ℕ) (f : Flight), t.flights = Function.update s.flights i (some f) →
      s.flights id = some ⟨r,q⟩ ∨ id = i ∧ f = ⟨r,q⟩ := by
    intro i f ht
    rw [ht] at hf
    by_cases hi : id = i
    · subst hi
      rw [Function.update_self] at hf
      exact Or.inr ⟨rfl,Option.some.inj hf⟩
    · rw [Function.update_of_ne hi] at hf
      exact Or.inl hf
  cases e with
  | arrive i r' =>
    obtain ⟨hn,rfl⟩ := arrive_inv hs
    rcases hput i _ rfl with hold | ⟨rfl,he⟩
    · exact Or.inl hold
    · cases he
      exact Or.inr (Or.inl ⟨hn,rfl,rfl⟩)
  | store i io =>
    obtain ⟨r',hi,rfl⟩ := store_inv hs
    rcases hput i _ rfl with hold | ⟨rfl,he⟩
    · exact Or.inl hold
    · cases he
      exact Or.inr (Or.inr ⟨_,hi,.store id io⟩)
  | hash i =>
    obtain ⟨r',p,content,p',hi,hc,hp,rfl⟩ := hash_inv hs
    rcases hput i _ rfl with hold | ⟨rfl,he⟩
    · exact Or.inl hold
    · cases he
      exact Or.inr (Or.inr ⟨_,hi,.hash id content p _ hc (onHash_hashes _ _ _ _ _ hp)⟩)
  | putObject i ok =>
    obtain ⟨r',row,urow,path,hi,-,-,-,ht⟩ := putObject_inv hs
    rcases hput i _ ht with hold | ⟨rfl,he⟩
    · exact Or.inl hold
    · cases he
      exact Or.inr (Or.inr ⟨_,hi,.putObject id ok row urow path⟩)
  | publish i =>
    obtain ⟨r',row,urow,m,hi,-,-,-,ht⟩ := publish_inv hs
    rcases hput i _ ht with hold | ⟨rfl,he⟩
    · exact Or.inl hold
    · cases he
      exact Or.inr (Or.inr ⟨_,hi,.publish id row urow m⟩)
  | insert i n =>
    obtain ⟨r',p,row,urow,transfer,hi,hp,-,-,-,ht⟩ := insert_inv hs
    rcases hput i _ ht with hold | ⟨rfl,he⟩
    · exact Or.inl hold
    · cases he
      exact Or.inr (Or.inr ⟨_,hi,.insert id n p row urow transfer hp⟩)
  | take k =>
    obtain ⟨m,-,rfl⟩ := take_inv hs
    exact Or.inl hf

theorem step_disk (h : Host) (s t : State) (e : Event) (hs : step h s e = some t) :
    t.disk = s.disk ∨ ∃ id io r, e = .store id io ∧ s.flights id = some ⟨r,.arrived⟩ ∧
      t.disk = openWrite s.disk (h.file r.filename) r.body io := by
  cases e with
  | arrive i r =>
    obtain ⟨-,rfl⟩ := arrive_inv hs
    exact Or.inl rfl
  | store i io =>
    obtain ⟨r,hi,rfl⟩ := store_inv hs
    exact Or.inr ⟨i,io,r,rfl,hi,rfl⟩
  | hash i =>
    obtain ⟨r,p,content,p',-,-,-,rfl⟩ := hash_inv hs
    exact Or.inl rfl
  | putObject i ok =>
    obtain ⟨r,row,urow,path,-,hd,-⟩ := putObject_inv hs
    exact Or.inl hd
  | publish i =>
    obtain ⟨r,row,urow,m,-,hd,-⟩ := publish_inv hs
    exact Or.inl hd
  | insert i n =>
    obtain ⟨r,p,row,urow,transfer,-,-,hd,-⟩ := insert_inv hs
    exact Or.inl hd
  | take k =>
    obtain ⟨m,-,rfl⟩ := take_inv hs
    exact Or.inl rfl

theorem step_queue (h : Host) (s t : State) (e : Event) (hs : step h s e = some t) (m : Message)
    (hm : m ∈ t.queue) : m ∈ s.queue ∨ ∃ id r row urow, e = .publish id ∧
      s.flights id = some ⟨r,.messaged row urow m⟩ := by
  cases e with
  | arrive i r =>
    obtain ⟨-,rfl⟩ := arrive_inv hs
    exact Or.inl hm
  | store i io =>
    obtain ⟨r,hi,rfl⟩ := store_inv hs
    exact Or.inl hm
  | hash i =>
    obtain ⟨r,p,content,p',-,-,-,rfl⟩ := hash_inv hs
    exact Or.inl hm
  | putObject i ok =>
    obtain ⟨r,row,urow,path,-,-,hq,-⟩ := putObject_inv hs
    exact Or.inl (hq ▸ hm)
  | publish i =>
    obtain ⟨r,row,urow,m',hi,-,hq,-⟩ := publish_inv hs
    rw [hq, List.mem_append, List.mem_singleton] at hm
    rcases hm with hm | rfl
    · exact Or.inl hm
    · exact Or.inr ⟨i,r,row,urow,rfl,hi⟩
  | insert i n =>
    obtain ⟨r,p,row,urow,transfer,-,-,-,hq,-⟩ := insert_inv hs
    exact Or.inl (hq ▸ hm)
  | take k =>
    obtain ⟨m',-,rfl⟩ := take_inv hs
    exact Or.inl (List.mem_of_mem_eraseIdx hm)

section Alone

variable {h : Host}

theorem put_put (s : State) (id : ℕ) (f g : Flight) : (s.put id f).put id g = s.put id g := by
  simp [State.put]

theorem hash_put (s : State) (id : ℕ) (r : UploadRequest) (p q : Phase) (c : Bytes)
    (hc : s.disk (h.file r.filename) = some c) (hp : onHash h.config r (sha1Of c) p = some q) :
    step h (s.put id ⟨r,p⟩) (.hash id) = some (s.put id ⟨r,q⟩) := by
  simp [step, hc, hp, put_put]

theorem insert_put (s : State) (id : ℕ) (r : UploadRequest) (p : Phase) (row : FileRow)
    (urow : UserFileRow) (moved : Transfer) (n : ℕ)
    (hp : returned h.config p = some (row,urow,moved)) :
    step h (s.put id ⟨r,p⟩) (.insert id n) =
      some (State.put { s with
        tblFile := if 1 ≤ n then s.tblFile ++ [row] else s.tblFile
        tblUserFile := if 2 ≤ n then s.tblUserFile ++ [urow] else s.tblUserFile }
        id ⟨r,.inserted row urow moved⟩) := by
  simp [step, State.put, hp]

theorem run_stored (s : State) (id : ℕ) (r : UploadRequest) (io : Io) (c : Bytes)
    (hf : s.flights id = none) (hio : stored io = .stored)
    (hc : openWrite s.disk (h.file r.filename) r.body io (h.file r.filename) = some c) :
    runs h s [.arrive id r,.store id io,.hash id,.hash id] =
      some ((s.write (h.file r.filename) r.body io).put id
        ⟨r,.composed (fileRow r (sha1Of c)) (userFileRow r (sha1Of c))⟩) := by
  let s' := s.write (h.file r.filename) r.body io
  have h1 : step h s (.arrive id r) = some (s.put id ⟨r,.arrived⟩) := by simp [step, hf]
  have h2 : step h (s.put id ⟨r,.arrived⟩) (.store id io) = some (s'.put id ⟨r,.stored⟩) := by
    simp only [step, put_self, hio]
    rw [← put_put s' id ⟨r,.arrived⟩]
    rfl
  have h3 := hash_put s' id r .stored _ c hc rfl
  have h4 := hash_put s' id r (.hashed (fileRow r (sha1Of c))) _ c hc rfl
  simp only [runs, PartialRun.run, h1, h2, h3, h4, Option.bind_some, s']

variable (s : State) (id : ℕ) (r : UploadRequest) (row : FileRow) (urow : UserFileRow) (c : Bytes)

theorem run_published (hst : h.config.storeType = .oss)
    (ha : h.config.isAsyncTransferEnable = true) (hc : s.disk (h.file r.filename) = some c) :
    runs h (s.put id ⟨r,.composed row urow⟩) [.hash id,.hash id,.publish id] =
      some (State.put
        { s with queue := s.queue ++ [transInfo r (sha1Of c) (osspath (sha1Of c))] } id
        ⟨r,.handled row urow (.message (transInfo r (sha1Of c) (osspath (sha1Of c))))⟩) := by
  let m := transInfo r (sha1Of c) (osspath (sha1Of c))
  have h1 := hash_put s id r (.composed row urow) (.addressed row urow (osspath (sha1Of c))) c hc
    (by simp [onHash, hst])
  have h2 := hash_put s id r (.addressed row urow (osspath (sha1Of c))) (.messaged row urow m) c hc
    (by simp [onHash, ha, m])
  have h3 : step h (s.put id ⟨r,.messaged row urow m⟩) (.publish id) =
      some (State.put { s with queue := s.queue ++ [m] } id ⟨r,.handled row urow (.message m)⟩) := by
    simp [step, State.put]
  simp only [runs, PartialRun.run, h1, h2, h3, Option.bind_some, m]

theorem run_objectPut (ok : Bool) (hst : h.config.storeType = .oss)
    (ha : h.config.isAsyncTransferEnable = false) (hc : s.disk (h.file r.filename) = some c) :
    runs h (s.put id ⟨r,.composed row urow⟩) [.hash id,.putObject id ok] =
      some (State.put
        { s with bucket := if ok then Function.update s.bucket (osspath (sha1Of c)) (some c)
                           else s.bucket } id
        ⟨r,.handled row urow (.object (osspath (sha1Of c)))⟩) := by
  have h1 := hash_put s id r (.composed row urow) (.addressed row urow (osspath (sha1Of c))) c hc
    (by simp [onHash, hst])
  have h2 : step h (s.put id ⟨r,.addressed row urow (osspath (sha1Of c))⟩) (.putObject id ok) =
      some (State.put
        { s with bucket := if ok then Function.update s.bucket (osspath (sha1Of c)) (some c)
                           else s.bucket } id
        ⟨r,.handled row urow (.object (osspath (sha1Of c)))⟩) := by
    simp [step, State.put, ha, hc]
  simp only [runs, PartialRun.run, h1, h2, Option.bind_some]

end Alone

def sampleHost : Host := ⟨{},["srv".toList]⟩

def sampleRequest : UploadRequest := ⟨"ann".toList,"a.txt".toList,[1,2,3]⟩

def shorterRequest : UploadRequest := ⟨"bob".toList,"a.txt".toList,[9]⟩

def otherRequest : UploadRequest := ⟨"bob".toList,"b.txt".toList,[9]⟩

theorem sha1_differs : sha1Of [9,2,3] ≠ sha1Of [9] ∧ sha1Of [9,2,3] ≠ sha1Of [1,2,3] := by
  decide +kernel

end WdHttp.CloudUpload
