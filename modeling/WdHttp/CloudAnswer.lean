import WdHttp.CloudUpload
import WdHttp.JsonDump

/-!
# The answer to an upload

The handler of `POST /file/upload` in `day11/project/main.cc` and
`day12/project/main.cc` from the request to the reply. Each of its effects may
fail on its own: the file may not open or be written in part, the second statement
is not executed when the first is rejected, the object may not be stored, and in
`day12` the queue may not be reached. Only a file that does not open, and an
exception on the way to the queue, keep the handler from its redirection. What
the database answers is logged.
-/

set_option autoImplicit false

namespace WdHttp.CloudAnswer
open WdHttp.CText WdHttp.PosixFile WdHttp.PartialRun WdHttp.CloudUpload WdHttp.JsonDump

inductive Version where
  | day11
  | day12
  deriving DecidableEq, Repr

/-- What the environment does with one upload: its file, the object, the queue, and
how many of the two statements take effect. -/
structure Outcomes where
  io : Io
  put : Bool
  queue : Bool
  inserted : ℕ

inductive Answer where
  | found
  | serverError
  | lost
  deriving DecidableEq, Repr

/-- The message is written as JSON and published, or the handler does not return. -/
def publishes (r : UploadRequest) (o : Outcomes) : Bool := o.queue && utf8 (filepath r.filename)

def putObject (s : State) (path : Str) (content : Option Bytes) (ok : Bool) : State :=
  if ok then { s with bucket := Function.update s.bucket path content } else s

/-- The object store and the queue. Where the flag asks for a transfer through the
queue, `day11` stores the object itself, and without the flag it does nothing. -/
def transfer (v : Version) (h : Host) (s : State) (r : UploadRequest) (hash : Str)
    (o : Outcomes) : Option State :=
  let put := putObject s (osspath hash) (s.disk (h.file r.filename)) o.put
  match h.config.storeType, v, h.config.isAsyncTransferEnable with
  | .fs, _, _ => some s
  | .oss, .day11, true => some put
  | .oss, .day11, false => some s
  | .oss, .day12, false => some put
  | .oss, .day12, true =>
    if publishes r o then some { s with queue := s.queue ++ [transInfo r hash (osspath hash)] }
    else none

def insertRows (s : State) (r : UploadRequest) (hash : Str) (n : ℕ) : State :=
  { s with tblFile := if 1 ≤ n then s.tblFile ++ [fileRow r hash] else s.tblFile
           tblUserFile := if 2 ≤ n then s.tblUserFile ++ [userFileRow r hash] else s.tblUserFile }

def handle (v : Version) (h : Host) (s : State) (r : UploadRequest) (o : Outcomes) :
    Answer × State :=
  match o.io with
  | .openFailed => (.serverError,s)
  | .wrote _ =>
    let s' := s.write (h.file r.filename) r.body o.io
    let hash := sha1Of (content s'.disk (h.file r.filename))
    match transfer v h s' r hash o with
    | none => (.lost,s')
    | some t => (.found,insertRows t r hash o.inserted)

def dies (v : Version) (c : Config) (r : UploadRequest) (o : Outcomes) : Bool :=
  v = .day12 && c.storeType = .oss && c.isAsyncTransferEnable && !publishes r o

/-- What was not written was in the file already, and a statement that had no
effect would have added a row that is there. -/
def Kept (h : Host) (s : State) (r : UploadRequest) (o : Outcomes) (k : ℕ) : Prop :=
  (content s.disk (h.file r.filename)).drop (r.body.take k).length = r.body.drop k ∧
  (1 ≤ o.inserted ∨
    ∃ row ∈ s.tblFile, row.file_sha1 = sha1Of r.body ∧ row.file_size = r.body.length) ∧
  (2 ≤ o.inserted ∨ userFileRow r (sha1Of r.body) ∈ s.tblUserFile)

theorem transfer_none_iff (v : Version) (h : Host) (s : State) (r : UploadRequest) (hash : Str)
    (o : Outcomes) : transfer v h s r hash o = none ↔ dies v h.config r o := by
  cases hs : h.config.storeType <;> cases v <;> cases ha : h.config.isAsyncTransferEnable
  all_goals simp [transfer, dies, hs, ha]

theorem putObject_eq (s : State) (path : Str) (content : Option Bytes) (ok : Bool) :
    putObject s path content ok =
      { s with bucket := if ok then Function.update s.bucket path content else s.bucket } := by
  cases ok <;> rfl

theorem handle_eq (v : Version) (h : Host) (s : State) (r : UploadRequest) (o : Outcomes)
    (k : ℕ) (hio : o.io = .wrote k) (hd : ¬ dies v h.config r o) :
    ∃ c t, c = overwrite (content s.disk (h.file r.filename)) (r.body.take k) ∧
      (s.write (h.file r.filename) r.body (.wrote k)).disk (h.file r.filename) = some c ∧
      transfer v h (s.write (h.file r.filename) r.body (.wrote k)) r (sha1Of c) o = some t ∧
      handle v h s r o = (.found,insertRows t r (sha1Of c) o.inserted) := by
  let c := overwrite (content s.disk (h.file r.filename)) (r.body.take k)
  let s' := s.write (h.file r.filename) r.body (.wrote k)
  have hdisk : s'.disk (h.file r.filename) = some c := by simp [s', c, openWrite]
  have hcontent : content s'.disk (h.file r.filename) = c := by
    rw [content, hdisk]
    rfl
  obtain ⟨t,ht⟩ : ∃ t, transfer v h s' r (sha1Of c) o = some t := by
    apply Option.ne_none_iff_exists'.mp
    rw [Ne, transfer_none_iff]
    exact hd
  refine ⟨c,t,rfl,hdisk,ht,?_⟩
  simp only [handle, hio]
  rw [hcontent, ht]

def transferring (c : Config) (id : ℕ) (o : Outcomes) : List Event :=
  match c.storeType, c.isAsyncTransferEnable with
  | .fs, _ => []
  | .oss, true => [.hash id,.hash id,.publish id]
  | .oss, false => [.hash id,.putObject id o.put]

def uploading (c : Config) (id : ℕ) (r : UploadRequest) (o : Outcomes) : List Event :=
  [.arrive id r,.store id o.io,.hash id,.hash id] ++ (transferring c id o ++ [.insert id o.inserted])

section Run

variable {h : Host}

theorem run_transfer (s t : State) (id : ℕ) (r : UploadRequest) (o : Outcomes) (c : Bytes)
    (row : FileRow) (urow : UserFileRow) (hc : s.disk (h.file r.filename) = some c)
    (ht : transfer .day12 h s r (sha1Of c) o = some t) :
    ∃ p moved, runs h (s.put id ⟨r,.composed row urow⟩) (transferring h.config id o) =
        some (t.put id ⟨r,p⟩) ∧ returned h.config p = some (row,urow,moved) := by
  cases hs : h.config.storeType with
  | fs =>
    simp only [transfer, hs, Option.some_inj] at ht
    refine ⟨.composed row urow,.none,?_,by simp [returned, hs]⟩
    simp [transferring, hs, ht]
  | oss =>
    cases ha : h.config.isAsyncTransferEnable with
    | true =>
      have hrun := run_published s id r row urow c hs ha hc
      simp only [transfer, hs, ha] at ht
      split at ht
      · cases ht
        simp only [transferring, hs, ha]
        exact ⟨_,_,hrun,rfl⟩
      · cases ht
    | false =>
      have hrun := run_objectPut s id r row urow c o.put hs ha hc
      simp only [transfer, hs, ha, Option.some_inj] at ht
      simp only [transferring, hs, ha]
      rw [← ht, hc, putObject_eq]
      exact ⟨_,_,hrun,rfl⟩

/-- The handler of `day12` is the run of its steps with no other step between them. -/
theorem handle_run (s : State) (id : ℕ) (r : UploadRequest) (o : Outcomes) (k : ℕ)
    (hf : s.flights id = none) (hio : o.io = .wrote k) (hd : ¬ dies .day12 h.config r o) :
    ∃ f, runs h s (uploading h.config id r o) = some ((handle .day12 h s r o).2.put id f) := by
  obtain ⟨c,t,-,hc,ht,hhandle⟩ := handle_eq .day12 h s r o k hio hd
  have h1 := run_stored s id r (.wrote k) c hf rfl hc
  obtain ⟨p,moved,h2,hp⟩ := run_transfer _ t id r o c (fileRow r (sha1Of c))
    (userFileRow r (sha1Of c)) hc ht
  have h3 := insert_put t id r p _ _ moved o.inserted hp
  rw [hhandle, uploading, hio]
  exact ⟨_,(run_append_iff _ _ _ _).mpr ⟨_,h1,(run_snoc_iff _ _ _ _).mpr ⟨_,h2,h3⟩⟩⟩

end Run

def known : State := { start (fun _ => none) with
  tblFile := [fileRow sampleRequest (sha1Of sampleRequest.body)] }

end WdHttp.CloudAnswer
