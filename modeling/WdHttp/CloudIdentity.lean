import WdHttp.CloudUpload

/-!
# The hashes of one upload

The handler hashes the file on disk up to four times and takes the size from the
request. All of these describe the request's body as long as the file does: it
must have replaced what was there, and no other upload may change it before the
last hash.
-/

set_option autoImplicit false

namespace WdHttp.CloudIdentity
open WdHttp.CText WdHttp.PosixFile WdHttp.Fips180 WdHttp.PartialRun WdHttp.CloudUpload

def Sends (r : UploadRequest) (hash : Str) : Transfer → Prop
  | .none => True
  | .object path => path = osspath hash
  | .message m => m = transInfo r hash (osspath hash)

/-- Every value the handler has built so far carries the hash of the body, and
every size is its length. -/
def Identified (r : UploadRequest) : Phase → Prop
  | .arrived => True
  | .failed => True
  | .stored => True
  | .hashed row => row = fileRow r (sha1Of r.body)
  | .composed row urow =>
    row = fileRow r (sha1Of r.body) ∧ urow = userFileRow r (sha1Of r.body)
  | .addressed row urow path =>
    row = fileRow r (sha1Of r.body) ∧ urow = userFileRow r (sha1Of r.body) ∧
      path = osspath (sha1Of r.body)
  | .messaged row urow m =>
    row = fileRow r (sha1Of r.body) ∧ urow = userFileRow r (sha1Of r.body) ∧
      m = transInfo r (sha1Of r.body) (osspath (sha1Of r.body))
  | .handled row urow transfer =>
    row = fileRow r (sha1Of r.body) ∧ urow = userFileRow r (sha1Of r.body) ∧
      Sends r (sha1Of r.body) transfer
  | .inserted row urow transfer =>
    row = fileRow r (sha1Of r.body) ∧ urow = userFileRow r (sha1Of r.body) ∧
      Sends r (sha1Of r.body) transfer

def awaits (c : Config) : Phase → Bool
  | .stored => true
  | .hashed _ => true
  | .composed _ _ => c.storeType = .oss
  | .addressed _ _ _ => c.isAsyncTransferEnable
  | _ => false

/-- The upload's own write succeeds over no longer content, and a write of another
upload leaves its file as it is until the last hash was taken. -/
def Undisturbed (h : Host) (id : ℕ) (s : State) : Event → Prop :=
  OnStore fun j io => ∀ f ∈ s.flights id,
    (j = id → io.Full f.request.body ∧
      (content s.disk (h.file f.request.filename)).length ≤ f.request.body.length) ∧
    (j ≠ id → awaits h.config f.phase = true → ∀ g ∈ s.flights j,
      Leaves s.disk (h.file g.request.filename) (h.file f.request.filename) g.request.body io)

instance (h : Host) (id : ℕ) (s : State) : DecidablePred (Undisturbed h id s) :=
  inferInstanceAs (DecidablePred (OnStore _))

/-- While hashes are still to come, the file is the body. -/
def Faithful (h : Host) (id : ℕ) (s : State) : Prop :=
  ∀ r p, s.flights id = some ⟨r,p⟩ → Identified r p ∧
    (awaits h.config p = true → s.disk (h.file r.filename) = some r.body)

variable {h : Host} {id : ℕ} {s t : State}

theorem hash_awaits (c : Config) (r : UploadRequest) (hash : Str) (p q : Phase)
    (hp : Hashes c r hash p q) : awaits c p = true := by
  cases hp with
  | row => rfl
  | userRow row => rfl
  | path row urow hc => simpa [awaits] using hc
  | message row urow path hc => exact hc

theorem hash_identified (c : Config) (r : UploadRequest) (p q : Phase) (hI : Identified r p)
    (hp : Hashes c r (sha1Of r.body) p q) : Identified r q := by
  cases hp with
  | row => rfl
  | userRow row => exact ⟨hI,rfl⟩
  | path row urow hc => exact ⟨hI.1,hI.2,rfl⟩
  | message row urow path hc =>
    refine ⟨hI.1,hI.2.1,?_⟩
    rw [hI.2.2]

theorem returned_identified (c : Config) (r : UploadRequest) (p : Phase) (row : FileRow)
    (urow : UserFileRow) (transfer : Transfer) (hI : Identified r p)
    (hp : returned c p = some (row,urow,transfer)) : Identified r (.inserted row urow transfer) := by
  cases p with
  | composed row' urow' =>
    simp only [returned] at hp
    split at hp
    · cases hp
      exact ⟨hI.1,hI.2,trivial⟩
    · cases hp
  | handled row' urow' transfer' =>
    cases hp
    exact hI
  | arrived => cases hp
  | failed => cases hp
  | stored => cases hp
  | hashed row' => cases hp
  | addressed row' urow' path => cases hp
  | messaged row' urow' m => cases hp
  | inserted row' urow' transfer' => cases hp

theorem disk_kept (e : Event) (hs : step h s e = some t) (hg : Undisturbed h id s e)
    (r : UploadRequest) (p : Phase) (hf : s.flights id = some ⟨r,p⟩)
    (ha : awaits h.config p = true) :
    t.disk (h.file r.filename) = s.disk (h.file r.filename) := by
  rcases step_disk h s t e hs with hd | ⟨j,io,r',rfl,hj,hd⟩
  · rw [hd]
  · by_cases hi : j = id
    · subst hi
      rw [hf] at hj
      cases hj
      cases ha
    · rw [hd]
      exact (openWrite_leaves_iff _ _ _ _ _).mpr ((hg _ hf).2 hi ha _ hj)

theorem faithful_step (e : Event) (hF : Faithful h id s) (hg : Undisturbed h id s e)
    (hs : step h s e = some t) : Faithful h id t := by
  intro r q hf
  rcases step_flight h s t e hs id r q hf with hold | ⟨-,-,rfl⟩ | ⟨p,hp,hmove⟩
  · obtain ⟨hI,hd⟩ := hF r q hold
    refine ⟨hI,fun ha => ?_⟩
    rw [disk_kept e hs hg r q hold ha, hd ha]
  · exact ⟨trivial,fun ha => by cases ha⟩
  · obtain ⟨hI,hd⟩ := hF r p hp
    cases hmove with
    | store _ io =>
      obtain ⟨hfull,hlen⟩ := (hg _ hp).1 rfl
      obtain ⟨r',hr',rfl⟩ := store_inv hs
      rw [hp] at hr'
      cases hr'
      cases io with
      | openFailed => exact hfull.elim
      | wrote n =>
        refine ⟨trivial,fun _ => ?_⟩
        rw [put_disk, write_disk, openWrite_replace _ _ _ _ hfull hlen, Function.update_self]
    | hash _ content _ _ hc ho =>
      have ha := hash_awaits _ _ _ _ _ ho
      have hbody := hd ha
      rw [hc] at hbody
      cases hbody
      refine ⟨hash_identified _ r p q hI ho,fun _ => ?_⟩
      rw [disk_kept _ hs hg r p hp ha, hc]
    | putObject _ ok row urow path => exact ⟨⟨hI.1,hI.2.1,hI.2.2⟩,fun ha => by cases ha⟩
    | publish _ row urow m => exact ⟨⟨hI.1,hI.2.1,hI.2.2⟩,fun ha => by cases ha⟩
    | insert _ n _ row urow transfer hv =>
      exact ⟨returned_identified _ r p row urow transfer hI hv,fun ha => by cases ha⟩

/-- Any earlier files, any number of other uploads, any interleaving. -/
theorem one_upload_one_identity (h : Host) (disk : Files) (es : List Event) (s : State) (id : ℕ)
    (r : UploadRequest) (p : Phase) (hr : runs h (start disk) es = some s)
    (hg : Along (step h) (Undisturbed h id) (start disk) es)
    (hf : s.flights id = some ⟨r,p⟩) : Identified r p :=
  (along_invariant (Faithful h id) (fun s e t hF hG => faithful_step e hF hG) _ s es
    (fun r p hf => by cases hf) hg hr r p hf).1

def twoNames : List Event :=
  [.arrive 0 sampleRequest, .arrive 1 otherRequest, .store 0 (.wrote 3), .hash 0,
   .store 1 (.wrote 1), .hash 1, .hash 0, .hash 0, .hash 0, .publish 0, .hash 1, .insert 0 2]

theorem twoNames_identity :
    ∃ s p, runs sampleHost (start fun _ => none) twoNames = some s ∧
      s.flights 0 = some ⟨sampleRequest,p⟩ ∧ s.queue.length = 1 ∧ Identified sampleRequest p := by
  refine ⟨_,_,rfl,rfl,rfl,?_⟩
  exact one_upload_one_identity sampleHost (fun _ => none) twoNames _ 0 sampleRequest _ rfl
    (by decide) rfl

def sameName : List Event :=
  [.arrive 0 sampleRequest, .store 0 (.wrote 3), .arrive 1 shorterRequest, .store 1 (.wrote 1),
   .hash 1]

theorem leftover_changes_identity :
    ∃ s p, runs sampleHost (start fun _ => none) sameName = some s ∧
      s.flights 1 = some ⟨shorterRequest,p⟩ ∧ ¬ Identified shorterRequest p := by
  refine ⟨_,_,rfl,rfl,fun hI => ?_⟩
  have hrow : fileRow shorterRequest (sha1Of [9,2,3]) = fileRow shorterRequest (sha1Of [9]) := hI
  exact sha1_differs.1 (congrArg FileRow.file_sha1 hrow)

end WdHttp.CloudIdentity
