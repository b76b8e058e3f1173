import WdHttp.MuploadSoundness

/-!
# A client that follows the protocol

The client sends init, then one request for each of the returned number of
chunks under the returned id, waits for all replies, and sends complete. Its
success depends on what the server does not order: the three `HSET` tasks of
init run outside the request's series, and day08 stores an upload under a key
that it does not return.
-/

set_option autoImplicit false

namespace WdHttp.MuploadClient
open WdHttp.CText WdHttp.PosixFile WdHttp.RedisHash WdHttp.MuploadServer WdHttp.PartialRun
open WdHttp.MuploadHistory WdHttp.MuploadProgress WdHttp.MuploadSoundness

structure Part where
  id : ℕ
  index : Str
  body : Bytes
  deriving DecidableEq

structure Session where
  initId : ℕ
  init : InitRequest
  parts : List Part
  completeId : ℕ

def Session.uploadID (c : Session) (v : Server) : Str := (uppartInfo v c.init).uploadID

def numeric (index : Str) : Prop := index ≠ [] ∧ index.all Char.isDigit = true

instance (index : Str) : Decidable (numeric index) := inferInstanceAs (Decidable (_ ∧ _))

/-- The client's part of the run: init is sent first, the chunks after its
reply, and complete after every chunk was answered OK, its progress recorded
without a failure. No other init returned the client's id. -/
structure WellBehaved (h : Host) (c : Session) (disk : Files) (es : List Event) : Prop where
  size : 0 ≤ c.init.filesize ∧ c.init.filesize < 2^31
  count : (c.parts.length : ℤ) = (uppartInfo h.server c.init).chunkcount
  indices : ∀ p ∈ c.parts, numeric p.index
  distinct : (c.parts.map Part.index).Nodup
  order : ∃ before chunks rest m, es = before ++ .init c.initId c.init :: chunks ++
      .complete c.completeId (c.uploadID h.server) :: rest ∧
    runs h (start disk) (before ++ .init c.initId c.init :: chunks) = some m ∧
    ∀ p ∈ c.parts, .uppart p.id (c.uploadID h.server) p.index p.body ∈ chunks ∧
      ∃ n, m.flights p.id =
        some (.uppart (c.uploadID h.server) p.index p.body (.done (n+1)))
  sole : ∀ i r, .init i r ∈ es → (uppartInfo h.server r).uploadID = c.uploadID h.server →
    i = c.initId

/-- Whatever the order of the listing and the initial value of the local
variable, complete answers SUCCESS, with every body in its file. -/
def Succeeds (h : Host) (c : Session) (s : State) : Prop :=
  ∀ l junk, Listing (s.redis (c.uploadID h.server)) l →
    ∃ t p, step h s (.hgetall c.completeId (some l) junk) = some t ∧
      t.flights c.completeId = some (.complete (c.uploadID h.server) (.answered p)) ∧
      p.answer = .success ∧
      ∀ part ∈ c.parts, t.disk (h.file c.init.filehash part.index) = some part.body

/-- A chunk of the client is stored after the hash of the upload, completely and
over no longer content, and nobody else writes to its file. -/
def Session.Timely (c : Session) (h : Host) (s : State) : Event → Prop := Demands.On {
  callback := fun id io => ∀ w ∈ pending s id,
    w.Lands (c.uploadID h.server) c.init.filehash
      (c.parts.map fun p => h.file c.init.filehash p.index) h s io }

instance (c : Session) (h : Host) (s : State) : DecidablePred (c.Timely h s) :=
  inferInstanceAs (DecidablePred (Demands.On _))

def Private (v : Server) (c : Session) (es : List Event) : Prop :=
  ∀ i index body, .uppart i (c.uploadID v) index body ∈ es → ⟨i,index,body⟩ ∈ c.parts

theorem numeric_plain (index : Str) (h : numeric index) : Plain index := by
  obtain ⟨hne,hall⟩ := h
  have hd : ∀ d ∈ index, d.isDigit = true := List.all_eq_true.mp hall
  refine ⟨hne,?_,?_,?_,?_⟩
  · rintro rfl
    exact absurd (hd '.' (by decide)) (by decide)
  · rintro rfl
    exact absurd (hd '.' (by decide)) (by decide)
  · intro hm
    exact absurd (hd '/' hm) (by decide)
  · intro hm
    exact absurd (hd '\x00' hm) (by decide)

section Session

variable {h : Host} {c : Session} {disk : Files} {es : List Event} {s t : State}

/-- The upload of the client: different numeric indices name different files. -/
def upload (hw : WellBehaved h c disk es) (hn : '\x00' ∉ c.init.filehash) : Upload h where
  key := c.uploadID h.server
  filehash := c.init.filehash
  chunkcount := chunkcount h.server c.init
  indices := c.parts.map Part.index
  distinct := by
    apply List.Nodup.map_on _ hw.distinct
    intro i hi j hj he
    obtain ⟨p,hp,rfl⟩ := List.mem_map.mp hi
    obtain ⟨q,hq,rfl⟩ := List.mem_map.mp hj
    exact resolve_child_injective h.cwd c.init.filehash _ _ hn
      (numeric_plain _ (hw.indices p hp)) (numeric_plain _ (hw.indices q hq)) he

theorem done_run (s t : State) (es : List Event) (id : ℕ) (u i : Str) (body : Bytes) (n : ℕ)
    (hr : runs h s es = some t) (hf : s.flights id = some (.uppart u i body (.done n))) :
    t.flights id = some (.uppart u i body (.done n)) := by
  apply run_invariant (fun s => s.flights id = some (.uppart u i body (.done n))) _ s t es hf hr
  intro s e t hf hs
  apply settled_keep hs id _ _ hf
  intro j g hm
  cases hm

theorem parts_done (hw : WellBehaved h c disk es) (hr : runs h (start disk) es = some s) :
    ∀ p ∈ c.parts, ∃ n,
      s.flights p.id = some (.uppart (c.uploadID h.server) p.index p.body (.done (n+1))) := by
  obtain ⟨before,chunks,rest,m,rfl,hm,hp⟩ := hw.order
  intro p hmem
  obtain ⟨-,n,hn⟩ := hp p hmem
  obtain ⟨m',hm',hrest⟩ := (run_append_iff _ s _ _).mp hr
  cases hm.symm.trans hm'
  exact ⟨n,done_run m s _ p.id _ _ _ _ hrest hn⟩

theorem indices_eq_parts (hw : WellBehaved h c disk es) (hr : runs h (start disk) es = some s)
    (hp : Private h.server c es) :
    indices (s.redis (c.uploadID h.server)) = (c.parts.map Part.index).toFinset := by
  have hF := run_faithful h (c.uploadID h.server) _ s es (start_idle disk) rfl hr
  have hR := run_records h _ s es (start_idle disk) hr
  ext i
  rw [faithful_indices h.server _ s hF, List.mem_toFinset, List.mem_map]
  constructor
  · rintro ⟨id,body,phase,hf,-⟩
    exact ⟨⟨id,i,body⟩,hp id i body ((uppart_sent hR id _ i body).mpr ⟨phase,hf⟩),rfl⟩
  · rintro ⟨p,hmem,rfl⟩
    obtain ⟨n,hn⟩ := parts_done hw hr p hmem
    exact ⟨p.id,p.body,_,hn,Nat.le_add_left 1 n⟩

theorem initKey_eq_uploadID (v : Server) (r : InitRequest) (r' : InitRequest)
    (hk : initKey v r = uploadID v r'.time) : uploadID v r.time = uploadID v r'.time := by
  cases v with
  | myDay08 => exact hk
  | day08 => exact absurd hk (initKey_ne_uploadID r r')

theorem timely_stores (hw : WellBehaved h c disk es) (hn : '\x00' ∉ c.init.filehash)
    (hr : runs h (start disk) es = some s) (hp : Private h.server c es)
    (ht : Along (step h) (c.Timely h) (start disk) es) :
    Along (step h) (upload hw hn).Stores (start disk) es := by
  have hR := run_records h _ s es (start_idle disk) hr
  obtain ⟨n,hc⟩ : ∃ n, s.flights c.initId = some (.init c.init n) := by
    obtain ⟨before,chunks,rest,m,he,-,-⟩ := hw.order
    exact (init_sent hR _ _).mp (by simp [he])
  have hl : Along (step h) (fun _ e => e ∈ es) (start disk) es :=
    along_of_forall _ es (fun e he _ => he)
  refine along_mono ?_ _ es (along_and _ es ht hl)
  rintro m e ⟨hte,he⟩
  cases e with
  | init i r =>
    intro hk
    have hi := hw.sole i r he (initKey_eq_uploadID h.server r c.init hk)
    subst hi
    obtain ⟨n',hc'⟩ := (init_sent hR _ r).mp he
    rw [hc] at hc'
    cases hc'
    exact ⟨rfl,rfl⟩
  | uppart i u index body =>
    rintro rfl
    exact List.mem_map.mpr ⟨_,hp i index body he,rfl⟩
  | callback id io =>
    intro w hpw
    obtain ⟨h1,h2⟩ := hte w hpw
    refine ⟨h1,fun hne => ?_⟩
    have h3 := h2 hne
    rwa [show (upload hw hn).indices.map (upload hw hn).file =
      c.parts.map (fun p => h.file c.init.filehash p.index) from List.map_map]
  | initHset i j => trivial
  | hget i ok => trivial
  | hset i => trivial
  | reply i => trivial
  | complete i u => trivial
  | hgetall i listing junk => trivial

theorem parts_card (hw : WellBehaved h c disk es) :
    ((c.parts.map Part.index).toFinset.card : ℤ) = chunkcount h.server c.init := by
  rw [List.toFinset_card_of_nodup hw.distinct, List.length_map]
  exact hw.count

theorem parts_stored (hw : WellBehaved h c disk es) (hn : '\x00' ∉ c.init.filehash)
    (hr : runs h (start disk) es = some s) (hp : Private h.server c es)
    (hK : Kept (upload hw hn) s) :
    ∀ part ∈ c.parts, s.disk (h.file c.init.filehash part.index) = some part.body := by
  have hR := run_records h _ s es (start_idle disk) hr
  intro part hmem
  obtain ⟨n,hf⟩ := parts_done hw hr part hmem
  obtain ⟨id,body,phase,hid,hd⟩ := hK.written part.id part.index part.body _ hf trivial
  have hq := hp id part.index body ((uppart_sent hR id _ _ body).mpr ⟨phase,hid⟩)
  have he : (⟨id,part.index,body⟩ : Part) = part :=
    List.inj_on_of_nodup_map hw.distinct hq hmem rfl
  rw [← he]
  exact hd

/-- Without a stored chunk count the answer depends on the initial value of the
local variable. -/
theorem no_chunkcount_fails
    (hq : s.flights c.completeId = some (.complete (c.uploadID h.server) .hgetall))
    (hm : chunkcountField ∉ s.redis (c.uploadID h.server)) : ¬ Succeeds h c s := by
  intro hsucc
  obtain ⟨l,hl⟩ := exists_listing (s.redis (c.uploadID h.server))
  let now : ℤ := (indices (s.redis (c.uploadID h.server))).card
  obtain ⟨t,p,ht,hp,hans,-⟩ := hsucc l (now+1) hl
  rw [hgetall_step (now+1) hq hl] at ht
  cases ht
  rw [put_self, completePhase_listing _ l hl (now+1) 0 (fun x hx =>
    absurd (Finmap.mem_of_lookup_eq_some hx) hm), if_neg hm] at hp
  cases hp
  simp [Progress.answer, now] at hans

end Session

/-- On a server that keeps the id, with nobody else using the id or the files,
the outcome hangs on one order only: complete must read the hash after the
chunk count was stored, as the chunks had to be stored after the hash. On
day08, which stores under another key than it returns, the client never
succeeds. -/
theorem well_behaved_client (h : Host) (c : Session) (disk : Files) (es : List Event) (s : State)
    (hw : WellBehaved h c disk es) (hr : runs h (start disk) es = some s)
    (hq : s.flights c.completeId = some (.complete (c.uploadID h.server) .hgetall)) :
    ('\x00' ∉ c.init.filehash → Private h.server c es →
      Along (step h) (c.Timely h) (start disk) es →
      (Succeeds h c s ↔ chunkcountField ∈ s.redis (c.uploadID h.server))) ∧
    (h.server = .day08 → ¬ Succeeds h c s) := by
  constructor
  · intro hn hp ht
    constructor
    · intro hsucc
      by_contra hm
      exact no_chunkcount_fails hq hm hsucc
    · intro hm l junk hl
      have hK := run_kept (upload hw hn) disk es s hr (timely_stores hw hn hr hp ht)
      have hans := (hgetall_answer (upload hw hn) s hK l junk hl hm).2
      have hstored := parts_stored hw hn hr hp hK
      refine ⟨_,⟨chunkcount h.server c.init,(indices (s.redis (c.uploadID h.server))).card⟩,
        hgetall_step junk hq hl,?_,?_,hstored⟩
      · rw [put_self, hans]
        rfl
      · have hcard := parts_card hw
        rw [← indices_eq_parts hw hr hp] at hcard
        exact if_pos hcard
  · intro hv
    apply no_chunkcount_fails hq
    intro hm
    obtain ⟨x,hx⟩ := Finmap.mem_iff.mp hm
    have hF := run_faithful h (c.uploadID h.server) _ s es (start_idle disk) rfl hr
    obtain ⟨i,r,n,-,hk,-⟩ := faithful_chunkcount h.server _ x s hF hx
    rw [Session.uploadID, hv] at hk
    exact initKey_ne_uploadID r c.init hk

def sampleClient : Session where
  initId := 0
  init := sampleInit
  parts := [⟨1,"1".toList,[1,2,3]⟩,⟨2,"2".toList,[4]⟩]
  completeId := 3

theorem sampleClient_wellBehaved :
    WellBehaved sampleHost sampleClient (fun _ => none) sampleUpload where
  size := by simp [sampleClient, sampleInit]
  count := by decide
  indices := by decide
  distinct := by decide
  order := by
    refine ⟨[],(sampleUpload.drop 1).dropLast,[],_,rfl,rfl,?_⟩
    intro p hp
    simp only [sampleClient, List.mem_cons, List.not_mem_nil, or_false] at hp
    rcases hp with rfl | rfl
    · exact ⟨by decide,1,rfl⟩
    · exact ⟨by decide,0,rfl⟩
  sole := by
    intro i r hm _
    simp only [sampleUpload, List.mem_cons, Event.init.injEq, reduceCtorEq, List.not_mem_nil,
      or_false] at hm
    exact hm.1

theorem sampleClient_private : Private sampleHost.server sampleClient sampleUpload := by
  intro i index body hm
  simp only [sampleUpload, List.mem_cons, Event.uppart.injEq, reduceCtorEq, List.not_mem_nil,
    or_false, false_or] at hm
  rcases hm with ⟨rfl,-,rfl,rfl⟩ | ⟨rfl,-,rfl,rfl⟩ <;> decide

theorem sampleClient_succeeds :
    ∃ s, runs sampleHost (start fun _ => none) sampleUpload = some s ∧
      chunkcountField ∈ s.redis sampleKey ∧ Succeeds sampleHost sampleClient s := by
  refine ⟨_,rfl,by decide,?_⟩
  exact ((well_behaved_client sampleHost sampleClient (fun _ => none) sampleUpload _
    sampleClient_wellBehaved rfl rfl).1 (by decide) sampleClient_private (by decide)).mpr
    (by decide)

def hastyClient : Session where
  initId := 0
  init := smallInit
  parts := [⟨1,"1".toList,[1,2,3]⟩]
  completeId := 2

def hastyUpload : List Event :=
  [.init 0 smallInit, .uppart 1 sampleKey "1".toList [1,2,3], .hget 1 true,
   .callback 1 (.wrote 3), .hset 1, .reply 1, .complete 2 sampleKey]

theorem hasty_client_fails :
    ∃ s, WellBehaved sampleHost hastyClient (fun _ => none) hastyUpload ∧
      runs sampleHost (start fun _ => none) hastyUpload = some s ∧
      s.flights 2 = some (.complete sampleKey .hgetall) ∧
      Private sampleHost.server hastyClient hastyUpload ∧ ¬ Succeeds sampleHost hastyClient s := by
  refine ⟨_,⟨by simp [hastyClient, smallInit],by decide,by decide,by decide,?_,?_⟩,rfl,rfl,?_,
    no_chunkcount_fails rfl (by decide)⟩
  · refine ⟨[],(hastyUpload.drop 1).dropLast,[],_,rfl,rfl,?_⟩
    intro p hp
    simp only [hastyClient, List.mem_cons, List.not_mem_nil, or_false] at hp
    subst hp
    exact ⟨by decide,0,rfl⟩
  · intro i r hm _
    simp only [hastyUpload, List.mem_cons, Event.init.injEq, reduceCtorEq, List.not_mem_nil,
      or_false] at hm
    exact hm.1
  · intro i index body hm
    simp only [hastyUpload, List.mem_cons, Event.uppart.injEq, reduceCtorEq, List.not_mem_nil,
      or_false, false_or] at hm
    obtain ⟨rfl,-,rfl,rfl⟩ := hm
    decide

end WdHttp.MuploadClient
