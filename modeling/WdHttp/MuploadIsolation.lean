import WdHttp.MuploadSoundness

/-!
# Two uploads side by side

Deleting an init request and every request that carries its id from a run must
not be visible to another upload. The id of an upload is the hour and minute of
its init, its key is never cleared, and the path of a chunk is built from
unchecked strings. The two uploads are apart when none of these meet; the
reduced run then exists and agrees with the full one on everything that belongs
to the other upload.
-/

set_option autoImplicit false

namespace WdHttp.MuploadIsolation
open WdHttp.CText WdHttp.PosixFile WdHttp.RedisHash WdHttp.MuploadServer WdHttp.PartialRun
open WdHttp.MuploadHistory WdHttp.MuploadProgress WdHttp.MuploadSoundness

/-- The request names the upload of `r`, by the id returned for it or by the key
it is stored under. -/
def Names (v : Server) (r : InitRequest) (u : Str) : Prop :=
  u = (uppartInfo v r).uploadID ∨ u = initKey v r

instance (v : Server) (r : InitRequest) (u : Str) : Decidable (Names v r u) :=
  inferInstanceAs (Decidable (_ ∨ _))

/-- The init request itself and the requests that carry its id. -/
def Belongs (v : Server) (i : ℕ) (r : InitRequest) : Event → Prop := Demands.On {
  init := fun id r' => id = i ∧ r' = r
  uppart := fun _ u _ _ => Names v r u
  complete := fun _ u => Names v r u
  others := False }

instance (v : Server) (i : ℕ) (r : InitRequest) : DecidablePred (Belongs v i r) :=
  inferInstanceAs (DecidablePred (Demands.On _))

def request : Event → ℕ
  | .init id _ => id
  | .initHset id _ => id
  | .uppart id _ _ _ => id
  | .hget id _ => id
  | .callback id _ => id
  | .hset id => id
  | .reply id => id
  | .complete id _ => id
  | .hgetall id _ _ => id

def deleted (v : Server) (i : ℕ) (r : InitRequest) (es : List Event) (id : ℕ) : Bool :=
  es.any fun e => decide (Belongs v i r e) && request e == id

/-- The run with every step of the deleted requests taken out. -/
def without (v : Server) (i : ℕ) (r : InitRequest) (es : List Event) : List Event :=
  es.filter fun e => !deleted v i r es (request e)

def chunkFiles (h : Host) (r : InitRequest) (es : List Event) : List Path :=
  es.filterMap fun
    | .uppart _ u c _ => if Names h.server r u then some (h.file r.filehash c) else none
    | _ => none

/-- The upload of `r₁` does not notice the one of `r₂`. -/
structure Isolated (h : Host) (disk : Files) (es : List Event) (i₁ i₂ : ℕ)
    (r₁ r₂ : InitRequest) : Prop where
  ids : (uppartInfo h.server r₁).uploadID ≠ (uppartInfo h.server r₂).uploadID
  fresh : ∀ before after i r m, es = before ++ .init i r :: after → i = i₁ ∨ i = i₂ →
    runs h (start disk) before = some m → indices (m.redis (initKey h.server r)) = ∅
  unchanged : ∀ t, runs h (start disk) es = some t →
    ∃ t', runs h (start disk) (without h.server i₂ r₂ es) = some t' ∧
      (∀ id u phase, Names h.server r₁ u →
        (t'.flights id = some (.complete u phase) ↔ t.flights id = some (.complete u phase))) ∧
      ∀ p ∈ chunkFiles h r₁ es, t'.disk p = t.disk p

/-- A deleted request does not store its chunk in one of the files. -/
def Avoids (h : Host) (gone : ℕ → Bool) (files : List Path) (s : State) : Event → Prop :=
  Demands.On {
    callback := fun id _ => gone id = true → ∀ w ∈ pending s id, h.file w.filehash w.c ∉ files }

set_option synthInstance.maxSize 256 in
instance (h : Host) (gone : ℕ → Bool) (files : List Path) (s : State) :
    DecidablePred (Avoids h gone files s) :=
  inferInstanceAs (DecidablePred (Demands.On _))

/-- No command of an earlier chunk request was applied to the key of the init. -/
def Unused (v : Server) (es : List Event) (i : ℕ) : Prop :=
  ∀ before after r c, es = before ++ .init i r :: after →
    ¬ Uploaded before (initKey v r) c

theorem timeStamp_injective : Function.Injective timeStamp := by
  intro a b h
  have hl : (pad02 a.hour).length = (pad02 b.hour).length := by
    rw [pad02_length _ (by omega), pad02_length _ (by omega)]
  obtain ⟨hh,hm⟩ := List.append_inj h hl
  have hm' := List.cons.inj hm
  have h1 : a.hour = b.hour := Fin.val_injective (pad02_injective hh)
  have h2 : a.min = b.min := Fin.val_injective (pad02_injective hm'.2)
  cases a
  cases b
  simp_all

theorem uploadID_injective (v : Server) : Function.Injective (uploadID v) :=
  fun _ _ h => timeStamp_injective (List.append_cancel_left h)

theorem names_disjoint (v : Server) (r₁ r₂ : InitRequest) (ht : r₁.time ≠ r₂.time) (u : Str)
    (h1 : Names v r₁ u) : ¬ Names v r₂ u := by
  have hu : uploadID v r₁.time ≠ uploadID v r₂.time := fun h => ht (uploadID_injective v h)
  cases v with
  | myDay08 =>
    rintro (h2 | h2) <;> rcases h1 with h1 | h1 <;> exact hu (h1.symm.trans h2)
  | day08 =>
    rintro (h2 | h2) <;> rcases h1 with h1 | h1
    · exact hu (h1.symm.trans h2)
    · exact initKey_ne_uploadID r₁ r₂ (h1.symm.trans h2)
    · exact initKey_ne_uploadID r₂ r₁ (h2.symm.trans h1)
    · exact hu (List.append_cancel_left (h1.symm.trans h2))

theorem request_arrival (id : ℕ) (f : Flight) : request (arrival id f) = id := by
  cases f <;> rfl

theorem belongs_arrival (v : Server) (i : ℕ) (r : InitRequest) (e : Event)
    (h : Belongs v i r e) : ∃ f, arrival (request e) f = e := by
  cases e with
  | init id r' => exact ⟨.init r' fun _ => 0,rfl⟩
  | uppart id u c body => exact ⟨.uppart u c body .hget,rfl⟩
  | complete id u => exact ⟨.complete u .hgetall,rfl⟩
  | initHset id j => exact h.elim
  | hget id ok => exact h.elim
  | callback id io => exact h.elim
  | hset id => exact h.elim
  | reply id => exact h.elim
  | hgetall id l junk => exact h.elim

theorem deleted_iff (v : Server) (i : ℕ) (r : InitRequest) (es : List Event) (t : State)
    (hR : Records es t) (id : ℕ) (f : Flight) (hm : arrival id f ∈ es) :
    deleted v i r es id = true ↔ Belongs v i r (arrival id f) := by
  simp only [deleted, List.any_eq_true, Bool.and_eq_true, decide_eq_true_eq, beq_iff_eq]
  constructor
  · rintro ⟨e,he,hb,rfl⟩
    obtain ⟨g,hg⟩ := belongs_arrival v i r e hb
    obtain ⟨f1,h1,ha1⟩ := (hR (request e) e).mpr ⟨he,g,hg⟩
    obtain ⟨f2,h2,ha2⟩ := (hR (request e) _).mpr ⟨hm,f,rfl⟩
    rw [h1] at h2
    cases h2
    rwa [← ha2, ha1]
  · intro hb
    exact ⟨_,hm,hb,request_arrival id f⟩

section Agreement

variable {hidden : Str → Prop} {gone : ℕ → Bool} {files : List Path} {s s' : State}

/-- Two states agree on the kept requests, on the keys that are not hidden and
on the protected files. -/
structure Agree (hidden : Str → Prop) (gone : ℕ → Bool) (files : List Path)
    (s s' : State) : Prop where
  flights : ∀ id, gone id = false → s'.flights id = s.flights id
  redis : ∀ k, ¬ hidden k → s'.redis k = s.redis k
  disk : ∀ p ∈ files, s'.disk p = s.disk p

theorem Agree.put (hA : Agree hidden gone files s s') (id : ℕ) (f : Flight) :
    Agree hidden gone files (s.put id f) (s'.put id f) where
  flights := by
    intro j hj
    by_cases hi : j = id
    · subst hi
      rw [put_self, put_self]
    · rw [put_other _ _ _ _ hi, put_other _ _ _ _ hi, hA.flights j hj]
  redis := hA.redis
  disk := hA.disk

theorem Agree.hset (hA : Agree hidden gone files s s') (cmd : HSet) :
    Agree hidden gone files (s.hset cmd) (s'.hset cmd) where
  flights := hA.flights
  redis := by
    intro k hk
    simp only [hset_redis]
    by_cases he : k = cmd.key
    · subst he
      simp [RedisHash.hset, hA.redis _ hk]
    · rw [hset_other _ _ _ _ _ he, hset_other _ _ _ _ _ he, hA.redis k hk]
  disk := hA.disk

theorem Agree.write (hA : Agree hidden gone files s s') (p : Path) (data : Bytes) (io : Io) :
    Agree hidden gone files (s.write p data io) (s'.write p data io) where
  flights := hA.flights
  redis := hA.redis
  disk := fun q hq => openWrite_local _ _ p q data io (hA.disk q hq)

theorem Agree.put_gone (hA : Agree hidden gone files s s') (id : ℕ) (f : Flight)
    (hd : gone id = true) : Agree hidden gone files (s.put id f) s' where
  flights := by
    intro j hj
    have hne : j ≠ id := by
      rintro rfl
      rw [hd] at hj
      cases hj
    rw [put_other s id j f hne, hA.flights j hj]
  redis := hA.redis
  disk := hA.disk

theorem Agree.hset_hidden (hA : Agree hidden gone files s s') (cmd : HSet)
    (hc : hidden cmd.key) : Agree hidden gone files (s.hset cmd) s' where
  flights := hA.flights
  redis := by
    intro k hk
    have hne : k ≠ cmd.key := by
      rintro rfl
      exact hk hc
    rw [hset_redis, hset_other _ _ _ _ _ hne, hA.redis k hk]
  disk := hA.disk

theorem Agree.write_elsewhere (hA : Agree hidden gone files s s') (p : Path) (data : Bytes)
    (io : Io) (hp : p ∉ files) : Agree hidden gone files (s.write p data io) s' where
  flights := hA.flights
  redis := hA.redis
  disk := by
    intro q hq
    have hne : q ≠ p := by
      rintro rfl
      exact hp hq
    rw [write_disk, openWrite_other _ _ _ _ _ hne, hA.disk q hq]

end Agreement

section Simulation

variable {h : Host} {i : ℕ} {r : InitRequest} {gone : ℕ → Bool} {files : List Path}

/-- Every request in flight is deleted exactly when it belongs to the upload. -/
def Labelled (h : Host) (i : ℕ) (r : InitRequest) (gone : ℕ → Bool) (s : State) : Prop :=
  ∀ id f, s.flights id = some f → (gone id = true ↔ Belongs h.server i r (arrival id f))

/-- The same of a request that arrives. -/
def Sorted (h : Host) (i : ℕ) (r : InitRequest) (gone : ℕ → Bool) (e : Event) : Prop :=
  ∀ id f, e = arrival id f → (gone id = true ↔ Belongs h.server i r e)

theorem labelled_step (s t : State) (e : Event) (hs : step h s e = some t)
    (hl : Labelled h i r gone s) (hg : Sorted h i r gone e) : Labelled h i r gone t := by
  intro id f hf
  obtain ⟨j,g,ht,hcase⟩ := step_flights h s t e hs
  rw [ht id] at hf
  split at hf
  · rename_i hij
    subst hij
    cases hf
    rcases hcase with ⟨-,he⟩ | ⟨g',hg',ha,-⟩
    · rw [hg id f he, he]
    · rw [hl id g' hg', ha]
  · exact hl id f hf

theorem agree_kept (s t s' : State) (e : Event) (hk : gone (request e) = false)
    (hl : Labelled h i r gone s) (hA : Agree (Names h.server r) gone files s s')
    (hs : step h s e = some t) :
    ∃ t', step h s' e = some t' ∧ Agree (Names h.server r) gone files t t' := by
  have hsame : ∀ id o, request e = id → s.flights id = o → s'.flights id = o := by
    rintro id o rfl rfl
    exact hA.flights _ hk
  have hread : ∀ f, s.flights (request e) = some f →
      ¬ Belongs h.server i r (arrival (request e) f) := by
    intro f hf hb
    have hd := (hl _ f hf).mpr hb
    rw [hk] at hd
    cases hd
  cases e with
  | init id r' =>
    obtain ⟨hn,rfl⟩ := arrive_inv hs
    simp only [step, arrive, hsame id _ rfl hn]
    exact ⟨_,rfl,hA.put id _⟩
  | uppart id u c body =>
    obtain ⟨hn,rfl⟩ := arrive_inv hs
    simp only [step, arrive, hsame id _ rfl hn]
    exact ⟨_,rfl,hA.put id _⟩
  | complete id u =>
    obtain ⟨hn,rfl⟩ := arrive_inv hs
    simp only [step, arrive, hsame id _ rfl hn]
    exact ⟨_,rfl,hA.put id _⟩
  | initHset id j =>
    obtain ⟨r',n,hf,hn,rfl⟩ := initHset_inv hs
    simp only [step, hsame id _ rfl hf, if_pos hn]
    exact ⟨_,rfl,(hA.hset _).put id _⟩
  | hget id ok =>
    obtain ⟨u,c,body,hf,rfl⟩ := hget_inv hs
    have hu : s'.redis u = s.redis u := hA.redis u (hread _ hf)
    simp only [step, hsame id _ rfl hf, hget, hu]
    exact ⟨_,rfl,hA.put id _⟩
  | callback id io =>
    obtain ⟨u,c,body,fh,hf,rfl⟩ := callback_inv hs
    simp only [step, hsame id _ rfl hf]
    exact ⟨_,rfl,(hA.write _ body io).put id _⟩
  | hset id =>
    obtain ⟨u,c,body,n,hf,hn,rfl⟩ := hset_inv hs
    simp only [step, hsame id _ rfl hf, if_pos hn]
    exact ⟨_,rfl,(hA.hset _).put id _⟩
  | reply id =>
    obtain ⟨u,c,body,n,hf,rfl⟩ := reply_inv hs
    simp only [step, hsame id _ rfl hf]
    exact ⟨_,rfl,hA.put id _⟩
  | hgetall id listing junk =>
    obtain ⟨u,hf,hlist,rfl⟩ := hgetall_inv hs
    have hu : s'.redis u = s.redis u := hA.redis u (hread _ hf)
    cases listing with
    | none =>
      simp only [step, hsame id _ rfl hf]
      exact ⟨_,rfl,hA.put id _⟩
    | some l =>
      simp only [step, hsame id _ rfl hf, hu, if_pos (hlist l rfl)]
      exact ⟨_,rfl,hA.put id _⟩

theorem agree_deleted (s t s' : State) (e : Event) (hd : gone (request e) = true)
    (hl : Labelled h i r gone s) (hv : Avoids h gone files s e)
    (hA : Agree (Names h.server r) gone files s s') (hs : step h s e = some t) :
    Agree (Names h.server r) gone files t s' := by
  cases e with
  | init id r' =>
    obtain ⟨-,rfl⟩ := arrive_inv hs
    exact hA.put_gone id _ hd
  | uppart id u c body =>
    obtain ⟨-,rfl⟩ := arrive_inv hs
    exact hA.put_gone id _ hd
  | complete id u =>
    obtain ⟨-,rfl⟩ := arrive_inv hs
    exact hA.put_gone id _ hd
  | initHset id j =>
    obtain ⟨r',n,hf,-,rfl⟩ := initHset_inv hs
    obtain ⟨-,rfl⟩ := (hl id _ hf).mp hd
    apply Agree.put_gone _ id _ hd
    exact hA.hset_hidden _ (Or.inr (argsVec_key h.server r' j))
  | hget id ok =>
    obtain ⟨u,c,body,hf,rfl⟩ := hget_inv hs
    exact hA.put_gone id _ hd
  | callback id io =>
    obtain ⟨u,c,body,fh,hf,rfl⟩ := callback_inv hs
    apply Agree.put_gone _ id _ hd
    exact hA.write_elsewhere _ body io (hv hd ⟨u,c,body,fh⟩ (by simp [pending, hf]))
  | hset id =>
    obtain ⟨u,c,body,n,hf,-,rfl⟩ := hset_inv hs
    apply Agree.put_gone _ id _ hd
    exact hA.hset_hidden (uppartHset u c) ((hl id _ hf).mp hd)
  | reply id =>
    obtain ⟨u,c,body,n,hf,rfl⟩ := reply_inv hs
    exact hA.put_gone id _ hd
  | hgetall id listing junk =>
    obtain ⟨u,hf,-,rfl⟩ := hgetall_inv hs
    exact hA.put_gone id _ hd

theorem run_agree (s s' t : State) (es : List Event) (hl : Labelled h i r gone s)
    (hg : ∀ e ∈ es, Sorted h i r gone e) (hv : Along (step h) (Avoids h gone files) s es)
    (hA : Agree (Names h.server r) gone files s s') (hr : runs h s es = some t) :
    ∃ t', runs h s' (es.filter fun e => !gone (request e)) = some t' ∧
      Agree (Names h.server r) gone files t t' := by
  have hsort : Along (step h) (fun _ e => Sorted h i r gone e) s es :=
    along_of_forall s es (fun e he _ => hg e he)
  have hG := along_and s es hsort hv
  obtain ⟨t',ht',-,hA'⟩ := erase_simulation (fun e => !gone (request e))
    (fun s s' => Labelled h i r gone s ∧ Agree (Names h.server r) gone files s s')
    (fun s e t s' hk hG hR hs => by
      obtain ⟨t',ht',hA'⟩ := agree_kept s t s' e (by simpa using hk) hR.1 hR.2 hs
      exact ⟨t',ht',labelled_step s t e hs hR.1 hG.1,hA'⟩)
    (fun s e t s' hk hG hR hs => ⟨labelled_step s t e hs hR.1 hG.1,
      agree_deleted s t s' e (by simpa using hk) hR.1 hG.2 hR.2 hs⟩)
    s t s' es ⟨hl,hA⟩ hG hr
  exact ⟨t',ht',hA'⟩

end Simulation

/-- Any interleaving of any number of requests. Nothing is assumed of the two
inits but that they were handled in different minutes, and of the other
requests only that those deleted do not store into the protected files. -/
theorem uploads_isolated (h : Host) (disk : Files) (es : List Event) (i₁ i₂ : ℕ)
    (r₁ r₂ : InitRequest) (ht : r₁.time ≠ r₂.time)
    (h1 : Unused h.server es i₁) (h2 : Unused h.server es i₂)
    (hv : Along (step h) (Avoids h (deleted h.server i₂ r₂ es) (chunkFiles h r₁ es))
      (start disk) es) :
    Isolated h disk es i₁ i₂ r₁ r₂ where
  ids := fun he => ht (uploadID_injective h.server he)
  fresh := by
    intro before after i r m he hi hm
    have hF := run_faithful h (initKey h.server r) _ m before (start_idle disk) rfl hm
    ext c
    rw [faithful_indices h.server _ m hF, ← uploaded_iff h _ m before (start_idle disk) hm]
    rcases hi with rfl | rfl
    · simpa using h1 before after r c he
    · simpa using h2 before after r c he
  unchanged := by
    intro t hr
    have hR := run_records h _ t es (start_idle disk) hr
    have hsort : ∀ e ∈ es, Sorted h i₂ r₂ (deleted h.server i₂ r₂ es) e := by
      rintro e he id f rfl
      exact deleted_iff h.server i₂ r₂ es t hR id f he
    have hlab : Labelled h i₂ r₂ (deleted h.server i₂ r₂ es) (start disk) :=
      fun id f hf => by cases hf
    obtain ⟨t',ht',hA⟩ := run_agree (start disk) (start disk) t es hlab hsort hv
      ⟨fun _ _ => rfl,fun _ _ => rfl,fun _ _ => rfl⟩ hr
    refine ⟨t',ht',fun id u phase hu => ?_,hA.disk⟩
    by_cases hd : deleted h.server i₂ r₂ es id = true
    · constructor
      · intro hf
        have hR' := run_records h _ t' _ (start_idle disk) ht'
        have hm := ((hR' id _).mp ⟨_,hf,rfl⟩).1
        simp [arrival, request, hd] at hm
      · intro hf
        have hm := ((hR id _).mp ⟨_,hf,rfl⟩).1
        have hb : Names h.server r₂ u := (deleted_iff h.server i₂ r₂ es t hR id _ hm).mp hd
        exact absurd hb (names_disjoint h.server r₁ r₂ ht u hu)
    · rw [hA.flights id (by simpa using hd)]

def laterInit : InitRequest :=
  { smallInit with filehash := "cd34".toList, time := ⟨⟨15,by decide⟩,⟨3,by decide⟩⟩ }

def laterKey : Str := "xie15:03".toList

def twoUploads : List Event :=
  .init 0 smallInit :: .init 1 laterInit :: initHsets 1 ++ initHsets 0 ++
  [.uppart 2 sampleKey "1".toList [1,2,3], .uppart 3 laterKey "1".toList [9],
   .hget 3 true, .hget 2 true, .callback 2 (.wrote 3), .callback 3 (.wrote 1), .hset 3, .hset 2,
   .complete 4 sampleKey,
   .hgetall 4 (some [⟨chunkcountField,"1".toList⟩, ⟨progressField "1".toList,"1".toList⟩,
     ⟨filehashField,"ab12".toList⟩, ⟨filesizeField,"3".toList⟩]) 0]

theorem init_first (v : Server) (before after : List Event) (i : ℕ) (r : InitRequest)
    (hb : ∀ e ∈ before, ∃ id r', e = .init id r' ∧ id ≠ i)
    (ha : ∀ e ∈ after, ∀ r', e ≠ .init i r') : Unused v (before ++ .init i r :: after) i := by
  intro before' after' r' c he
  have h1 : Event.init i r' ∉ before := by
    intro hm
    obtain ⟨id,r'',hi,hne⟩ := hb _ hm
    exact hne (Event.init.inj hi).1.symm
  have h2 : Event.init i r' ∉ after := fun hm => ha _ hm r' rfl
  obtain ⟨rfl,-,-⟩ := (List.append_cons_inj_of_notMem h1 h2).mp he
  rintro ⟨id,body,hu,-⟩
  obtain ⟨_,_,hi,-⟩ := hb _ hu
  cases hi

theorem twoUploads_isolated :
    (runs sampleHost (start fun _ => none) twoUploads).isSome = true ∧
      Isolated sampleHost (fun _ => none) twoUploads 0 1 smallInit laterInit := by
  refine ⟨rfl,uploads_isolated sampleHost _ twoUploads 0 1 smallInit laterInit (by decide)
    (init_first .myDay08 [] twoUploads.tail 0 smallInit (by simp) (by simp [twoUploads, initHsets]))
    (init_first .myDay08 [.init 0 smallInit] (twoUploads.drop 2) 1 laterInit (by simp)
      (by simp [twoUploads, initHsets])) (by decide)⟩

def sameMinute : InitRequest := { laterInit with time := smallInit.time }

def sharedKey : List Event :=
  .init 0 smallInit :: initHsets 0 ++
  [.uppart 1 sampleKey "1".toList [1,2,3], .hget 1 true, .callback 1 (.wrote 3), .hset 1, .reply 1,
   .init 2 sameMinute, .uppart 3 sampleKey "2".toList [9], .hget 3 true, .callback 3 (.wrote 1),
   .hset 3, .complete 4 sampleKey,
   .hgetall 4 (some [⟨chunkcountField,"1".toList⟩, ⟨progressField "1".toList,"1".toList⟩,
     ⟨filehashField,"ab12".toList⟩, ⟨filesizeField,"3".toList⟩,
     ⟨progressField "2".toList,"1".toList⟩]) 0]

theorem same_minute_not_isolated :
    smallInit.filehash ≠ sameMinute.filehash ∧
    (∃ t, runs sampleHost (start fun _ => none) sharedKey = some t ∧
      t.flights 4 = some (.complete sampleKey (.answered ⟨1,2⟩))) ∧
    ¬ Isolated sampleHost (fun _ => none) sharedKey 0 2 smallInit sameMinute :=
  ⟨by decide,⟨_,rfl,rfl⟩,fun hI => hI.ids rfl⟩

end WdHttp.MuploadIsolation
