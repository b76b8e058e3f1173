import WdHttp.MuploadProgress

/-!
# When SUCCESS means that the chunks are stored

The source records a chunk as transferred without looking at the result of
`HGET`, `open` or `write`, overwrites an existing file in place and shares its
key and its files with every other request. The conditions below are on the
requests of a run and on the state before a step. Under them the progress
fields of an upload, the files on disk and the chunk count agree in every
state reached; without them a progress field proves nothing about a file.
-/

set_option autoImplicit false

namespace WdHttp.MuploadSoundness
open WdHttp.CText WdHttp.PosixFile WdHttp.RedisHash WdHttp.MuploadServer WdHttp.PartialRun
open WdHttp.MuploadHistory WdHttp.MuploadProgress

/-- Whenever complete has answered SUCCESS for the key, at least as many distinct
chunks as an init for that key computed are stored with the body of a request
that was sent for them. -/
def SoundAt (h : Host) (es : List Event) (s : State) (u : Str) : Prop :=
  ∀ id p, s.flights id = some (.complete u (.answered p)) → p.answer = .success →
    ∃ i r, .init i r ∈ es ∧ initKey h.server r = u ∧
      ∃ cs : Finset Str, chunkcount h.server r ≤ cs.card ∧
        ∀ c ∈ cs, ∃ j body, .uppart j u c body ∈ es ∧ s.disk (h.file r.filehash c) = some body

/-- One upload: its key, the file its inits submit, and the indices its clients
send, which name different files. -/
structure Upload (h : Host) where
  key : Str
  filehash : Str
  chunkcount : ℤ
  indices : List Str
  distinct : (indices.map (h.file filehash)).Nodup

structure Pending where
  u : Str
  c : Str
  body : Bytes
  filehash : Str

/-- The chunk that the callback of a request is about to store. -/
def pending (s : State) (id : ℕ) : Option Pending :=
  match s.flights id with
  | some (.uppart u c body (.callback filehash)) => some ⟨u,c,body,filehash⟩
  | _ => none

/-- The key that a complete request is about to read. -/
def asked (s : State) (id : ℕ) : Option Str :=
  match s.flights id with
  | some (.complete u .hgetall) => some u
  | _ => none

variable {h : Host}

def Upload.file (up : Upload h) (c : Str) : Path := h.file up.filehash c

/-- A chunk of the upload of a file under a key is stored after its hash was
read, completely, over no longer content; one of another upload goes elsewhere. -/
def Pending.Lands (w : Pending) (key filehash : Str) (files : List Path) (h : Host) (s : State)
    (io : Io) : Prop :=
  (w.u = key → w.filehash = filehash ∧ io.Full w.body ∧
    (content s.disk (h.file filehash w.c)).length ≤ w.body.length) ∧
  (w.u ≠ key → h.file w.filehash w.c ∉ files)

instance (w : Pending) (key filehash : Str) (files : List Path) (h : Host) (s : State) (io : Io) :
    Decidable (w.Lands key filehash files h s io) :=
  inferInstanceAs (Decidable ((_ → _ ∧ _ ∧ _) ∧ (_ → _)))

/-- All inits for the key submit the same file, and every chunk lands in its place. -/
def Upload.Stores (up : Upload h) (s : State) : Event → Prop := Demands.On {
  init := fun _ r => initKey h.server r = up.key →
    r.filehash = up.filehash ∧ MuploadServer.chunkcount h.server r = up.chunkcount
  uppart := fun _ u c _ => u = up.key → c ∈ up.indices
  callback := fun id io => ∀ w ∈ pending s id,
    w.Lands up.key up.filehash (up.indices.map up.file) h s io }

/-- Complete reads the hash of the upload after its chunk count was stored. -/
def Upload.Reads (up : Upload h) (s : State) : Event → Prop := Demands.On {
  hgetall := fun id listing _ => ∀ u ∈ asked s id, u = up.key →
    listing.isSome ∧ chunkcountField ∈ s.redis up.key }

def Upload.Careful (up : Upload h) (s : State) (e : Event) : Prop := up.Stores s e ∧ up.Reads s e

instance (up : Upload h) (s : State) : DecidablePred (up.Stores s) :=
  inferInstanceAs (DecidablePred (Demands.On _))

instance (up : Upload h) (s : State) : DecidablePred (up.Reads s) :=
  inferInstanceAs (DecidablePred (Demands.On _))

instance (up : Upload h) (s : State) (e : Event) : Decidable (up.Careful s e) :=
  inferInstanceAs (Decidable (_ ∧ _))

def Holds (up : Upload h) (s : State) (c : Str) : Prop :=
  ∃ id body phase, s.flights id = some (.uppart up.key c body phase) ∧
    s.disk (up.file c) = some body

def Written : UppartPhase → Prop
  | .hset _ => True
  | .done _ => True
  | _ => False

/-- What is stored for the upload: its fields, its inits and its files. -/
structure Kept (up : Upload h) (s : State) : Prop where
  faithful : Faithful h.server up.key s
  inits : ∀ id r n, s.flights id = some (.init r n) → initKey h.server r = up.key →
    r.filehash = up.filehash ∧ chunkcount h.server r = up.chunkcount
  known : ∀ id c body phase, s.flights id = some (.uppart up.key c body phase) → c ∈ up.indices
  written : ∀ id c body phase, s.flights id = some (.uppart up.key c body phase) →
    Written phase → Holds up s c

/-- Every answer given for the upload counted stored chunks. -/
structure Sound (up : Upload h) (s : State) : Prop extends Kept up s where
  answers : ∀ id p, s.flights id = some (.complete up.key (.answered p)) →
    (∃ i r n, s.flights i = some (.init r n) ∧ initKey h.server r = up.key) ∧
      p.chunkcount = up.chunkcount ∧
      ∃ cs : Finset Str, p.chunknow = cs.card ∧ ∀ c ∈ cs, Holds up s c ∧ c ∈ up.indices

theorem file_injective (up : Upload h) (c c' : Str) (hc : c ∈ up.indices) (hc' : c' ∈ up.indices)
    (he : up.file c = up.file c') : c = c' :=
  List.inj_on_of_nodup_map up.distinct hc hc' he

theorem flight_persists (s t : State) (e : Event) (id : ℕ) (f : Flight)
    (hs : step h s e = some t) (hf : s.flights id = some f) :
    ∃ f', t.flights id = some f' ∧ arrival id f' = arrival id f := by
  obtain ⟨i,g,ht,hcase⟩ := step_flights h s t e hs
  by_cases hi : id = i
  · subst hi
    rw [ht id, if_pos rfl]
    rcases hcase with ⟨hn,-⟩ | ⟨f',hf',ha,-⟩
    · rw [hn] at hf
      cases hf
    · rw [hf] at hf'
      cases hf'
      exact ⟨g,rfl,ha.symm⟩
  · exact ⟨f,by rw [ht id, if_neg hi, hf],rfl⟩

theorem uppart_persists (s t : State) (e : Event) (id : ℕ) (u c : Str) (body : Bytes)
    (phase : UppartPhase) (hs : step h s e = some t)
    (hf : s.flights id = some (.uppart u c body phase)) :
    ∃ phase', t.flights id = some (.uppart u c body phase') := by
  obtain ⟨f',hf',ha⟩ := flight_persists s t e id _ hs hf
  cases f' <;> simp [arrival] at ha
  obtain ⟨rfl,rfl,rfl⟩ := ha
  exact ⟨_,hf'⟩

theorem init_persists (s t : State) (e : Event) (id : ℕ) (r : InitRequest) (n : Fin 3 → ℕ)
    (hs : step h s e = some t) (hf : s.flights id = some (.init r n)) :
    ∃ n', t.flights id = some (.init r n') := by
  obtain ⟨f',hf',ha⟩ := flight_persists s t e id _ hs hf
  cases f' <;> simp [arrival] at ha
  exact ⟨_,by rw [hf', ha]⟩

theorem step_disk (s t : State) (e : Event) (hs : step h s e = some t)
    (he : ∀ id io, e ≠ .callback id io) : t.disk = s.disk := by
  cases e with
  | init id r => obtain ⟨-,rfl⟩ := arrive_inv hs; rfl
  | uppart id u c body => obtain ⟨-,rfl⟩ := arrive_inv hs; rfl
  | complete id u => obtain ⟨-,rfl⟩ := arrive_inv hs; rfl
  | initHset id j => obtain ⟨r,n,-,-,rfl⟩ := initHset_inv hs; rfl
  | hget id ok => obtain ⟨u,c,body,-,rfl⟩ := hget_inv hs; rfl
  | callback id io => exact absurd rfl (he id io)
  | hset id => obtain ⟨u,c,body,n,-,-,rfl⟩ := hset_inv hs; rfl
  | reply id => obtain ⟨u,c,body,n,-,rfl⟩ := reply_inv hs; rfl
  | hgetall id listing junk => obtain ⟨u,-,-,rfl⟩ := hgetall_inv hs; rfl

theorem callback_disk (up : Upload h) (s t : State) (id : ℕ) (io : Io)
    (hg : up.Stores s (.callback id io)) (hs : step h s (.callback id io) = some t)
    (hk : ∀ id c body phase, s.flights id = some (.uppart up.key c body phase) → c ∈ up.indices)
    (c : Str) (hc : c ∈ up.indices) :
    (∃ body, t.flights id = some (.uppart up.key c body (.hset 0)) ∧
      t.disk (up.file c) = some body) ∨ t.disk (up.file c) = s.disk (up.file c) := by
  obtain ⟨u,c',body,fh,hf,rfl⟩ := callback_inv hs
  have hw : pending s id = some ⟨u,c',body,fh⟩ := by simp [pending, hf]
  obtain ⟨hown,hother⟩ := hg _ hw
  by_cases hu : u = up.key
  · subst hu
    obtain ⟨rfl,hfull,hlen⟩ := hown rfl
    have hd := openWrite_replace s.disk (up.file c') body io hfull hlen
    by_cases hcc : c = c'
    · subst hcc
      refine Or.inl ⟨body,put_self _ id _,?_⟩
      exact (congrFun hd _).trans (Function.update_self _ _ _)
    · have hne : up.file c ≠ up.file c' := fun he =>
        hcc (file_injective up c c' hc (hk id c' body _ hf) he)
      exact Or.inr (openWrite_other s.disk _ _ body io hne)
  · have hne : up.file c ≠ h.file fh c' := fun he =>
      hother hu (he ▸ List.mem_map_of_mem hc)
    exact Or.inr (openWrite_other s.disk _ _ body io hne)

theorem holds_step (up : Upload h) (s t : State) (e : Event) (hS : Kept up s)
    (hg : up.Stores s e) (hs : step h s e = some t) (c : Str) (hc : c ∈ up.indices)
    (hh : Holds up s c) : Holds up t c := by
  obtain ⟨id,body,phase,hf,hd⟩ := hh
  obtain ⟨phase',hf'⟩ := uppart_persists s t e id _ c body phase hs hf
  by_cases he : ∃ i io, e = .callback i io
  · obtain ⟨i,io,rfl⟩ := he
    rcases callback_disk up s t i io hg hs hS.known c hc with ⟨body',hf'',hd'⟩ | hsame
    · exact ⟨i,body',_,hf'',hd'⟩
    · exact ⟨id,body,phase',hf',hsame.trans hd⟩
  · rw [← step_disk s t e hs (fun i io h => he ⟨i,io,h⟩)] at hd
    exact ⟨id,body,phase',hf',hd⟩

theorem counted_holds (up : Upload h) (s : State) (hS : Kept up s) (c : Str)
    (hc : c ∈ indices (s.redis up.key)) : Holds up s c ∧ c ∈ up.indices := by
  obtain ⟨id,body,phase,hf,hn⟩ := (faithful_indices h.server up.key s hS.faithful c).mp hc
  refine ⟨hS.written id c body phase hf ?_,hS.known id c body phase hf⟩
  cases phase with
  | hget => exact absurd hn (by simp [tries])
  | callback fh => exact absurd hn (by simp [tries])
  | hset n => trivial
  | done n => trivial

theorem hgetall_answer (up : Upload h) (s : State) (hS : Kept up s) (l : List Entry) (junk : ℤ)
    (hl : Listing (s.redis up.key) l) (hm : chunkcountField ∈ s.redis up.key) :
    (∃ i r n, s.flights i = some (.init r n) ∧ initKey h.server r = up.key) ∧
      completePhase junk (RedisHash.hgetall l) =
        .answered ⟨up.chunkcount,(indices (s.redis up.key)).card⟩ := by
  have hread : ∀ x, (s.redis up.key).lookup chunkcountField = some x →
      (∃ i r n, s.flights i = some (.init r n) ∧ initKey h.server r = up.key) ∧
        stoi x = some up.chunkcount := by
    intro x hx
    obtain ⟨i,r,n,hf,hk,hx'⟩ := faithful_chunkcount h.server up.key x s hS.faithful hx
    rw [(hS.inits i r n hf hk).2] at hx'
    exact ⟨⟨i,r,n,hf,hk⟩,hx'⟩
  obtain ⟨x,hx⟩ := Finmap.mem_iff.mp hm
  refine ⟨(hread x hx).1,?_⟩
  rw [completePhase_listing _ l hl junk up.chunkcount (fun x hx => (hread x hx).2), if_pos hm]

theorem flights_step (s t : State) (e : Event) (hs : step h s e = some t) (id : ℕ) (f : Flight)
    (hf : t.flights id = some f) :
    e = arrival id f ∨ ∃ f', s.flights id = some f' ∧ arrival id f' = arrival id f := by
  rcases flight_cases hs id f hf with hold | ⟨o,ho,hm⟩
  · exact Or.inr ⟨f,hold,rfl⟩
  · rcases moves_arrival s e id o f hm with ⟨-,he⟩ | ⟨f',rfl,ha,-⟩
    · exact Or.inl he
    · exact Or.inr ⟨f',ho,ha⟩

theorem kept_inits (up : Upload h) (s t : State) (e : Event) (hS : Kept up s)
    (hg : up.Stores s e) (hs : step h s e = some t) (id : ℕ) (r : InitRequest) (n : Fin 3 → ℕ)
    (hf : t.flights id = some (.init r n)) (hk : initKey h.server r = up.key) :
    r.filehash = up.filehash ∧ chunkcount h.server r = up.chunkcount := by
  rcases flights_step s t e hs id _ hf with rfl | ⟨f',hf',ha⟩
  · exact hg hk
  · cases f' <;> simp [arrival] at ha
    subst ha
    exact hS.inits id _ _ hf' hk

theorem kept_known (up : Upload h) (s t : State) (e : Event) (hS : Kept up s)
    (hg : up.Stores s e) (hs : step h s e = some t) (id : ℕ) (c : Str) (body : Bytes)
    (phase : UppartPhase) (hf : t.flights id = some (.uppart up.key c body phase)) :
    c ∈ up.indices := by
  rcases flights_step s t e hs id _ hf with rfl | ⟨f',hf',ha⟩
  · exact hg rfl
  · cases f' <;> simp [arrival] at ha
    obtain ⟨rfl,rfl,rfl⟩ := ha
    exact hS.known id _ _ _ hf'

theorem written_step (s t : State) (e : Event) (hs : step h s e = some t) (id : ℕ) (u c : Str)
    (body : Bytes) (phase : UppartPhase) (hf : t.flights id = some (.uppart u c body phase))
    (hw : Written phase) :
    (∃ io fh, e = .callback id io ∧ s.flights id = some (.uppart u c body (.callback fh))) ∨
      ∃ phase', s.flights id = some (.uppart u c body phase') ∧ Written phase' := by
  rcases flight_cases hs id _ hf with hold | ⟨o,ho,hm⟩
  · exact Or.inr ⟨phase,hold,hw⟩
  · cases hm with
    | uppart => exact hw.elim
    | hget => exact hw.elim
    | callback _ io _ _ _ fh => exact Or.inl ⟨io,fh,rfl,ho⟩
    | hset => exact Or.inr ⟨_,ho,trivial⟩
    | reply => exact Or.inr ⟨_,ho,trivial⟩

theorem answered_step (s t : State) (e : Event) (hs : step h s e = some t) (id : ℕ) (u : Str)
    (p : Progress) (hf : t.flights id = some (.complete u (.answered p))) :
    s.flights id = some (.complete u (.answered p)) ∨
      ∃ listing junk, e = .hgetall id listing junk ∧
        s.flights id = some (.complete u .hgetall) ∧
        (∀ l, listing = some l → Listing (s.redis u) l) ∧
        completePhase junk (replyArray listing) = .answered p := by
  rcases flight_cases hs id _ hf with hold | ⟨o,ho,hm⟩
  · exact Or.inl hold
  · generalize hphase : CompletePhase.answered p = phase at hm
    cases hm with
    | complete => cases hphase
    | hgetall _ listing junk _ hl => exact Or.inr ⟨listing,junk,rfl,ho,hl,rfl⟩

theorem kept_written (up : Upload h) (s t : State) (e : Event) (hS : Kept up s)
    (hg : up.Stores s e) (hs : step h s e = some t) (id : ℕ) (c : Str) (body : Bytes)
    (phase : UppartPhase) (hf : t.flights id = some (.uppart up.key c body phase))
    (hw : Written phase) : Holds up t c := by
  rcases written_step s t e hs id _ c body phase hf hw with ⟨io,fh,rfl,hc⟩ | ⟨phase',hf',hw'⟩
  · have hw' : pending s id = some ⟨up.key,c,body,fh⟩ := by simp [pending, hc]
    obtain ⟨rfl,hfull,hlen⟩ := (hg _ hw').1 rfl
    obtain ⟨u',c',body',fh',hc',rfl⟩ := callback_inv hs
    rw [hc] at hc'
    cases hc'
    refine ⟨id,body,_,put_self _ id _,?_⟩
    change openWrite s.disk (up.file c) body io (up.file c) = some body
    rw [openWrite_replace s.disk (up.file c) body io hfull hlen]
    exact Function.update_self _ _ _
  · exact holds_step up s t e hS hg hs c (hS.known id c body phase' hf')
      (hS.written id c body phase' hf' hw')

theorem sound_answers (up : Upload h) (s t : State) (e : Event) (hS : Sound up s)
    (hg : up.Careful s e) (hs : step h s e = some t) (id : ℕ) (p : Progress)
    (hf : t.flights id = some (.complete up.key (.answered p))) :
    (∃ i r n, t.flights i = some (.init r n) ∧ initKey h.server r = up.key) ∧
      p.chunkcount = up.chunkcount ∧
      ∃ cs : Finset Str, p.chunknow = cs.card ∧ ∀ c ∈ cs, Holds up t c ∧ c ∈ up.indices := by
  have hkeep : s.flights id = some (.complete up.key (.answered p)) →
      (∃ i r n, t.flights i = some (.init r n) ∧ initKey h.server r = up.key) ∧
        p.chunkcount = up.chunkcount ∧
        ∃ cs : Finset Str, p.chunknow = cs.card ∧ ∀ c ∈ cs, Holds up t c ∧ c ∈ up.indices := by
    intro hf'
    obtain ⟨⟨i,r,n,hi,hk⟩,hp,cs,hcs,hh⟩ := hS.answers id p hf'
    obtain ⟨n',hi'⟩ := init_persists s t e i r n hs hi
    refine ⟨⟨i,r,n',hi',hk⟩,hp,cs,hcs,fun c hc => ?_⟩
    exact ⟨holds_step up s t e hS.toKept hg.1 hs c (hh c hc).2 (hh c hc).1,(hh c hc).2⟩
  rcases answered_step s t e hs id up.key p hf with hf' | ⟨listing,junk,rfl,hc,hl,hp⟩
  · exact hkeep hf'
  · have hw : asked s id = some up.key := by simp [asked, hc]
    obtain ⟨hsome,hm⟩ := hg.2 _ hw rfl
    obtain ⟨l,rfl⟩ := Option.isSome_iff_exists.mp hsome
    obtain ⟨⟨i,r,n,hi,hk⟩,hans⟩ := hgetall_answer up s hS.toKept l junk (hl l rfl) hm
    obtain ⟨n',hi'⟩ := init_persists s t _ i r n hs hi
    have hp' : p = ⟨up.chunkcount,(indices (s.redis up.key)).card⟩ :=
      CompletePhase.answered.inj (hp.symm.trans hans)
    subst hp'
    refine ⟨⟨i,r,n',hi',hk⟩,rfl,indices (s.redis up.key),rfl,fun c hcc => ?_⟩
    obtain ⟨hh,hm'⟩ := counted_holds up s hS.toKept c hcc
    exact ⟨holds_step up s t _ hS.toKept hg.1 hs c hm' hh,hm'⟩

theorem kept_step (up : Upload h) (s t : State) (e : Event) (hS : Kept up s)
    (hg : up.Stores s e) (hs : step h s e = some t) : Kept up t where
  faithful := faithful_step h up.key s t e hS.faithful hs
  inits := kept_inits up s t e hS hg hs
  known := kept_known up s t e hS hg hs
  written := kept_written up s t e hS hg hs

theorem sound_step (up : Upload h) (s t : State) (e : Event) (hS : Sound up s)
    (hg : up.Careful s e) (hs : step h s e = some t) : Sound up t where
  toKept := kept_step up s t e hS.toKept hg.1 hs
  answers := sound_answers up s t e hS hg hs

theorem kept_start (up : Upload h) (disk : Files) : Kept up (start disk) where
  faithful := faithful_idle h.server up.key _ (start_idle disk) rfl
  inits := fun _ _ _ hf => by cases hf
  known := fun _ _ _ _ hf => by cases hf
  written := fun _ _ _ _ hf => by cases hf

theorem run_kept (up : Upload h) (disk : Files) (es : List Event) (s : State)
    (hr : runs h (start disk) es = some s) (hg : Along (step h) up.Stores (start disk) es) :
    Kept up s :=
  along_invariant (Kept up) (fun s e t => kept_step up s t e) _ s es (kept_start up disk) hg hr

theorem run_sound (up : Upload h) (disk : Files) (es : List Event) (s : State)
    (hr : runs h (start disk) es = some s) (hg : Along (step h) up.Careful (start disk) es) :
    Sound up s :=
  along_invariant (Sound up) (fun s e t => sound_step up s t e) _ s es
    ⟨kept_start up disk,fun _ _ hf => by cases hf⟩ hg hr

/-- Any number of clients, any interleaving, any failure of other requests. -/
theorem complete_success_sound (h : Host) (up : Upload h) (disk : Files) (es : List Event)
    (s : State) (hr : runs h (start disk) es = some s)
    (hg : Along (step h) up.Careful (start disk) es) : SoundAt h es s up.key := by
  have hS := run_sound up disk es s hr hg
  have hR := run_records h _ s es (start_idle disk) hr
  intro id p hf hp
  obtain ⟨⟨i,r,n,hi,hk⟩,hcount,cs,hcs,hh⟩ := hS.answers id p hf
  obtain ⟨hfh,hn⟩ := hS.inits i r n hi hk
  refine ⟨i,r,(init_sent hR i r).mpr ⟨n,hi⟩,hk,cs,?_,fun c hc => ?_⟩
  · have hnow : p.chunknow = p.chunkcount := by
      by_contra hne
      simp [Progress.answer, hne] at hp
    rw [hn, ← hcount, ← hnow, hcs]
  · obtain ⟨⟨j,body,phase,hj,hd⟩,-⟩ := hh c hc
    rw [hfh]
    exact ⟨j,body,(uppart_sent hR j up.key c body).mpr ⟨phase,hj⟩,hd⟩

def sampleSession : Upload sampleHost where
  key := sampleKey
  filehash := "ab12".toList
  chunkcount := 2
  indices := ["1".toList,"2".toList]
  distinct := by decide

theorem complete_success_sound_sample :
    ∃ s, runs sampleHost (start fun _ => none)
        (sampleUpload ++ [.hgetall 3 (some sampleListing) 77]) = some s ∧
      s.flights 3 = some (.complete sampleKey (.answered ⟨2,2⟩)) ∧
      SoundAt sampleHost (sampleUpload ++ [.hgetall 3 (some sampleListing) 77]) s sampleKey := by
  refine ⟨_,rfl,rfl,?_⟩
  exact complete_success_sound sampleHost sampleSession (fun _ => none) _ _ rfl (by decide)

def smallInit : InitRequest := { sampleInit with filesize := 3 }

def lostChunk : List Event :=
  .init 0 smallInit :: initHsets 0 ++
  [.uppart 1 sampleKey "1".toList [1,2,3], .hget 1 true, .callback 1 .openFailed, .hset 1,
   .reply 1, .complete 2 sampleKey,
   .hgetall 2 (some [⟨chunkcountField,"1".toList⟩, ⟨filehashField,"ab12".toList⟩,
     ⟨filesizeField,"3".toList⟩, ⟨progressField "1".toList,"1".toList⟩]) 0]

theorem lost_chunk_reported_complete :
    ∃ s, runs sampleHost (start fun _ => none) lostChunk = some s ∧
      ¬ SoundAt sampleHost lostChunk s sampleKey := by
  refine ⟨_,rfl,fun hsound => ?_⟩
  obtain ⟨i,r,hi,-,cs,hcs,hstored⟩ := hsound 2 ⟨1,1⟩ rfl (by decide)
  have hr : r = smallInit := by
    simp only [lostChunk, initHsets, List.cons_append, List.nil_append, List.mem_cons,
      Event.init.injEq, reduceCtorEq, List.not_mem_nil, or_false] at hi
    exact hi.2
  subst hr
  have hone : chunkcount sampleHost.server smallInit = 1 := by decide
  rw [hone] at hcs
  obtain ⟨c,hc⟩ := Finset.card_pos.mp (by omega : 0 < cs.card)
  obtain ⟨j,body,-,hd⟩ := hstored c hc
  cases (show (none : Option Bytes) = some body from hd)

end WdHttp.MuploadSoundness