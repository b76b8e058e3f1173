import WdHttp.CloudUpload

/-!
# Messages waiting for their transfer

A queued message names a file by its path and its content by a hash. It stays
valid as long as no upload changes a file that a queued message names, or that
an upload has hashed for its object path without having published its message.
-/

set_option autoImplicit false

namespace WdHttp.CloudQueue
open WdHttp.CText WdHttp.PosixFile WdHttp.Fips180 WdHttp.PartialRun WdHttp.CloudUpload

/-- The same server with the transfer done by the handler itself. -/
def sync (h : Host) : Host := { h with config := { h.config with isAsyncTransferEnable := false } }

/-- At some point of the run the handler had hashed the file for its object path,
and the synchronous branch would have stored this content there. -/
def Traced (h : Host) (disk : Files) (es : List Event) (r : UploadRequest) (path : Str)
    (c : Bytes) : Prop :=
  ∃ id before after s t, es = before ++ .hash id :: after ∧
    runs h (start disk) (before ++ [.hash id]) = some s ∧
    (∃ row urow, s.flights id = some ⟨r,.addressed row urow path⟩) ∧
    step (sync h) s (.putObject id true) = some t ∧ t.bucket path = some c

/-- The file at the message's path has the message's hash, its object path is that
hash under `disk/`, and a transfer stores what the synchronous branch would have
stored for the upload. -/
def Valid (h : Host) (disk : Files) (es : List Event) (s : State) (m : Message) : Prop :=
  ∃ r c, m.filepath = filepath r.filename ∧ s.disk (h.file r.filename) = some c ∧
    m.filehash = sha1Of c ∧ m.osspath = osspath (sha1Of c) ∧ Traced h disk es r m.osspath c

def pending : Phase → Bool
  | .addressed _ _ _ => true
  | .messaged _ _ _ => true
  | _ => false

/-- Storing a file leaves alone what a queued message or a pending upload names. -/
def Keeps (h : Host) (ids : List ℕ) (s : State) : Event → Prop :=
  OnStore fun j io => ∀ g ∈ s.flights j,
    (∀ m ∈ s.queue, Leaves s.disk (h.file g.request.filename) (resolve h.cwd m.filepath)
      g.request.body io) ∧
    ∀ id ∈ ids, ∀ f ∈ s.flights id, pending f.phase = true →
      Leaves s.disk (h.file g.request.filename) (h.file f.request.filename) g.request.body io

instance (h : Host) (ids : List ℕ) (s : State) : DecidablePred (Keeps h ids s) :=
  inferInstanceAs (DecidablePred (OnStore _))

def arrivals (es : List Event) : List ℕ :=
  es.filterMap fun
    | .arrive id _ => some id
    | _ => none

/-- What a pending upload has built from the content. -/
def Built (r : UploadRequest) (c : Bytes) : Phase → Prop
  | .addressed _ _ path => path = osspath (sha1Of c)
  | .messaged _ _ m => m = transInfo r (sha1Of c) (osspath (sha1Of c))
  | _ => False

structure Sound (h : Host) (disk : Files) (ids : List ℕ) (hist : List Event) (s : State) :
    Prop where
  reached : runs h (start disk) hist = some s
  known : ∀ id f, s.flights id = some f → id ∈ ids
  building : ∀ id r p, s.flights id = some ⟨r,p⟩ → pending p = true →
    ∃ c, Built r c p ∧ s.disk (h.file r.filename) = some c ∧
      Traced h disk hist r (osspath (sha1Of c)) c
  queued : ∀ m ∈ s.queue, Valid h disk hist s m

section Steps

variable {h : Host} {disk : Files} {ids : List ℕ} {hist : List Event} {s t : State}

theorem traced_snoc {r : UploadRequest} {path : Str} {c : Bytes} (e : Event)
    (hT : Traced h disk hist r path c) : Traced h disk (hist++[e]) r path c := by
  obtain ⟨id,before,after,s,t,rfl,hrest⟩ := hT
  exact ⟨id,before,after++[e],s,t,by simp,hrest⟩

theorem sync_putObject (s : State) (id : ℕ) (r : UploadRequest) (row : FileRow)
    (urow : UserFileRow) (path : Str) (hf : s.flights id = some ⟨r,.addressed row urow path⟩) :
    ∃ t, step (sync h) s (.putObject id true) = some t ∧
      t.bucket path = s.disk (h.file r.filename) := by
  simp only [step, hf, sync]
  exact ⟨_,rfl,Function.update_self _ _ _⟩

theorem queued_disk (e : Event) (hs : step h s e = some t) (hg : Keeps h ids s e) (m : Message)
    (hm : m ∈ s.queue) :
    t.disk (resolve h.cwd m.filepath) = s.disk (resolve h.cwd m.filepath) := by
  rcases step_disk h s t e hs with hd | ⟨j,io,r',rfl,hj,hd⟩
  · rw [hd]
  · rw [hd]
    exact (openWrite_leaves_iff _ _ _ _ _).mpr ((hg _ hj).1 m hm)

theorem building_disk (e : Event) (hs : step h s e = some t) (hg : Keeps h ids s e) (id : ℕ)
    (hid : id ∈ ids) (f : Flight) (hf : s.flights id = some f) (hp : pending f.phase = true) :
    t.disk (h.file f.request.filename) = s.disk (h.file f.request.filename) := by
  rcases step_disk h s t e hs with hd | ⟨j,io,r',rfl,hj,hd⟩
  · rw [hd]
  · rw [hd]
    exact (openWrite_leaves_iff _ _ _ _ _).mpr ((hg _ hj).2 id hid f hf hp)

theorem valid_snoc (e : Event) (m : Message)
    (hd : t.disk (resolve h.cwd m.filepath) = s.disk (resolve h.cwd m.filepath))
    (hV : Valid h disk hist s m) : Valid h disk (hist++[e]) t m := by
  obtain ⟨r,c,hp,hc,hh,ho,hT⟩ := hV
  refine ⟨r,c,hp,?_,hh,ho,traced_snoc e hT⟩
  rw [hp] at hd
  exact hd.trans hc

theorem queued_step (e : Event) (hS : Sound h disk ids hist s) (hg : Keeps h ids s e)
    (hs : step h s e = some t) : ∀ m ∈ t.queue, Valid h disk (hist++[e]) t m := by
  intro m hm
  rcases step_queue h s t e hs m hm with hold | ⟨id,r,row,urow,rfl,hf⟩
  · exact valid_snoc e m (queued_disk e hs hg m hold) (hS.queued m hold)
  · obtain ⟨c,hb,hc,hT⟩ := hS.building id r _ hf rfl
    have hm' : m = transInfo r (sha1Of c) (osspath (sha1Of c)) := hb
    subst hm'
    refine ⟨r,c,rfl,?_,rfl,rfl,traced_snoc _ hT⟩
    rw [building_disk _ hs hg id (hS.known id _ hf) _ hf rfl]
    exact hc

theorem building_hash (id : ℕ) (r : UploadRequest) (p q : Phase) (content : Bytes)
    (hS : Sound h disk ids hist s) (hs : step h s (.hash id) = some t)
    (hf : s.flights id = some ⟨r,p⟩) (hf' : t.flights id = some ⟨r,q⟩)
    (hc : s.disk (h.file r.filename) = some content) (hd : t.disk = s.disk)
    (hp : Hashes h.config r (sha1Of content) p q) (hq : pending q = true) :
    ∃ c, Built r c q ∧ t.disk (h.file r.filename) = some c ∧
      Traced h disk (hist++[.hash id]) r (osspath (sha1Of c)) c := by
  rw [hd]
  cases hp with
  | row => cases hq
  | userRow row => cases hq
  | path row urow hoss =>
    obtain ⟨t',ht',hb⟩ := sync_putObject (h := h) t id r _ _ _ hf'
    refine ⟨content,rfl,hc,id,hist,[],t,t',rfl,?_,⟨_,_,hf'⟩,ht',?_⟩
    · exact (run_snoc_iff _ _ _ _).mpr ⟨s,hS.reached,hs⟩
    · rw [hb, hd, hc]
  | message row urow path hasync =>
    obtain ⟨c,hb,hc',hT⟩ := hS.building id r _ hf rfl
    rw [hc] at hc'
    cases hc'
    have hpath : path = osspath (sha1Of content) := hb
    subst hpath
    exact ⟨content,rfl,hc,traced_snoc _ hT⟩

theorem building_step (e : Event) (hS : Sound h disk ids hist s) (hg : Keeps h ids s e)
    (hs : step h s e = some t) (id : ℕ) (r : UploadRequest) (q : Phase)
    (hf : t.flights id = some ⟨r,q⟩) (hq : pending q = true) :
    ∃ c, Built r c q ∧ t.disk (h.file r.filename) = some c ∧
      Traced h disk (hist++[e]) r (osspath (sha1Of c)) c := by
  rcases step_flight h s t e hs id r q hf with hold | ⟨-,-,rfl⟩ | ⟨p,hp,hmove⟩
  · obtain ⟨c,hb,hc,hT⟩ := hS.building id r q hold hq
    refine ⟨c,hb,?_,traced_snoc e hT⟩
    rw [building_disk e hs hg id (hS.known id _ hold) _ hold hq]
    exact hc
  · cases hq
  · cases hmove with
    | store _ io => cases io <;> cases hq
    | hash _ content _ _ hc ho =>
      obtain ⟨_,_,_,_,-,-,-,ht⟩ := hash_inv hs
      exact building_hash id r p q content hS hs hp hf hc (by rw [ht, put_disk]) ho hq
    | putObject _ ok row urow path => cases hq
    | publish _ row urow m => cases hq
    | insert _ n _ row urow transfer hv => cases hq

theorem sound_step (e : Event) (hS : Sound h disk ids hist s)
    (hg : Keeps h ids s e ∧ ∀ id r, e = .arrive id r → id ∈ ids) (hs : step h s e = some t) :
    Sound h disk ids (hist++[e]) t where
  reached := (run_snoc_iff _ _ _ _).mpr ⟨s,hS.reached,hs⟩
  known := by
    rintro id ⟨r,q⟩ hf
    rcases step_flight h s t e hs id r q hf with hold | ⟨-,he,-⟩ | ⟨p,hp,-⟩
    · exact hS.known id _ hold
    · exact hg.2 id r he
    · exact hS.known id _ hp
  building := building_step e hS hg.1 hs
  queued := queued_step e hS hg.1 hs

end Steps

theorem sound_start (h : Host) (disk : Files) (ids : List ℕ) :
    Sound h disk ids [] (start disk) where
  reached := rfl
  known := fun _ _ hf => by cases hf
  building := fun _ _ _ hf => by cases hf
  queued := fun _ hm => by cases hm

/-- Any number of uploads and of earlier takes, in any order. -/
theorem taken_message_valid (h : Host) (disk : Files) (es : List Event) (s t : State) (k : ℕ)
    (hr : runs h (start disk) es = some s)
    (hg : Along (step h) (Keeps h (arrivals es)) (start disk) es)
    (ht : step h s (.take k) = some t) : ∃ m, s.queue[k]? = some m ∧ Valid h disk es s m := by
  have hids : Along (step h) (fun _ e => ∀ id r, e = .arrive id r → id ∈ arrivals es)
      (start disk) es := by
    apply along_of_forall
    rintro e he _ id r rfl
    exact List.mem_filterMap.mpr ⟨_,he,rfl⟩
  have hS := history_invariant (Sound h disk (arrivals es))
    (fun hist s e t hS hG hs => sound_step e hS hG hs) _ s es (sound_start h disk _)
    (along_and _ es hg hids) hr
  obtain ⟨m,hm,-⟩ := take_inv ht
  exact ⟨m,hm,hS.queued m (List.mem_of_getElem? hm)⟩

def twoTransfers : List Event :=
  [.arrive 0 sampleRequest, .store 0 (.wrote 3), .hash 0, .hash 0, .hash 0, .arrive 1 otherRequest,
   .store 1 (.wrote 1), .hash 1, .hash 0, .publish 0, .hash 1, .hash 1, .hash 1, .publish 1]

theorem twoTransfers_valid :
    ∃ s m, runs sampleHost (start fun _ => none) twoTransfers = some s ∧
      s.queue[0]? = some m ∧ Valid sampleHost (fun _ => none) twoTransfers s m := by
  obtain ⟨m,hm,hV⟩ := taken_message_valid sampleHost (fun _ => none) twoTransfers _ _ 0 rfl
    (by decide) rfl
  exact ⟨_,m,rfl,hm,hV⟩

def overtaken : List Event :=
  [.arrive 0 sampleRequest, .store 0 (.wrote 3), .hash 0, .hash 0, .hash 0, .hash 0, .publish 0,
   .insert 0 2, .arrive 1 shorterRequest, .store 1 (.wrote 1)]

def overtakenMessage : Message :=
  transInfo sampleRequest (sha1Of [1,2,3]) (osspath (sha1Of [1,2,3]))

theorem overtaken_message_invalid :
    ∃ s t, runs sampleHost (start fun _ => none) overtaken = some s ∧
      step sampleHost s (.take 0) = some t ∧ s.queue[0]? = some overtakenMessage ∧
      ¬ Valid sampleHost (fun _ => none) overtaken s overtakenMessage := by
  refine ⟨_,_,rfl,rfl,rfl,?_⟩
  rintro ⟨r,c,hp,hc,hh,-,-⟩
  have hname : sampleHost.file sampleRequest.filename = sampleHost.file r.filename :=
    congrArg (resolve sampleHost.cwd) hp
  rw [← hname] at hc
  cases (show some ([9,2,3] : Bytes) = some c from hc)
  exact sha1_differs.2 hh.symm

end WdHttp.CloudQueue
