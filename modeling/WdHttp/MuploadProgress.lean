import WdHttp.MuploadHistory
import WdHttp.MuploadPlan

/-!
# The count made by complete

The reply of `HGETALL` mixes metadata and progress fields in any order. The
loop over it depends only on the set of fields, and the progress fields under
a key are those of the indices whose `HSET` was applied, however often and in
whatever order.
-/

set_option autoImplicit false

namespace WdHttp.MuploadProgress
open WdHttp.CText WdHttp.PosixFile WdHttp.RedisHash WdHttp.MuploadServer WdHttp.PartialRun
open WdHttp.MuploadHistory WdHttp.MuploadPlan

theorem hgetall_cons (e : Entry) (l : List Entry) : hgetall (e::l) = e.1::e.2::hgetall l := rfl

def isProgress (f : Str) : Bool := f.take 7 = chkidxText

theorem isProgress_chunkcount : isProgress chunkcountField = false := by decide

/-- The loop, where every chunk count it meets reads as the same number. -/
theorem scan_listing (l : List Entry) (p : Progress) (n : ℤ)
    (h : ∀ e ∈ l, e.1 = chunkcountField → stoi e.2 = some n) :
    scan (hgetall l) p =
      some ⟨if chunkcountField ∈ l.map Sigma.fst then n else p.chunkcount,
        p.chunknow+(l.countP fun e => isProgress e.1)⟩ := by
  induction l generalizing p with
  | nil => simp [hgetall, scan]
  | cons e l ih =>
    have hl : ∀ e' ∈ l, e'.1 = chunkcountField → stoi e'.2 = some n :=
      fun e' he => h e' (by simp [he])
    rw [hgetall_cons, scan]
    by_cases hc : e.1 = chunkcountField
    · rw [if_pos hc, h e (by simp) hc, Option.bind_some, ih _ hl]
      simp [hc, isProgress_chunkcount]
    · rw [if_neg hc]
      have hm : chunkcountField ∈ (e::l).map Sigma.fst ↔ chunkcountField ∈ l.map Sigma.fst := by
        simp [Ne.symm hc]
      by_cases hp : e.1.take 7 = chkidxText
      · have hb : isProgress e.1 = true := by simpa [isProgress] using hp
        rw [if_pos hp, ih _ hl, List.countP_cons_of_pos (p := fun e : Entry => isProgress e.1) hb]
        simp only [hm, Nat.cast_add, Nat.cast_one, Option.some.injEq, Progress.mk.injEq, true_and]
        omega
      · have hb : ¬ isProgress e.1 = true := by simpa [isProgress] using hp
        rw [if_neg hp, ih _ hl, List.countP_cons_of_neg (p := fun e : Entry => isProgress e.1) hb]
        simp only [hm]

/-- The indices whose progress field is set under a key. -/
def indices (hash : Hash) : Finset Str :=
  (hash.keys.filter fun f => isProgress f = true).image fun f => f.drop 7

theorem mem_indices (hash : Hash) (c : Str) : c ∈ indices hash ↔ progressField c ∈ hash := by
  simp only [indices, Finset.mem_image, Finset.mem_filter, Finmap.mem_keys]
  constructor
  · rintro ⟨f,⟨hf,hp⟩,rfl⟩
    rwa [← take_progressField f (by simpa [isProgress] using hp)]
  · intro hc
    refine ⟨progressField c,⟨hc,by simp [isProgress, progressField_take]⟩,?_⟩
    rw [progressField]
    exact List.drop_left' (by decide)

theorem indices_card (hash : Hash) :
    (indices hash).card = (hash.keys.filter fun f => isProgress f = true).card := by
  apply Finset.card_image_of_injOn
  intro f hf g hg h
  simp only [Finset.coe_filter, Set.mem_ofPred_eq, isProgress, decide_eq_true_eq] at hf hg
  rw [take_progressField f hf.2, take_progressField g hg.2]
  exact congrArg progressField h

theorem mem_keys_listing (hash : Hash) (l : List Entry) (hl : Listing hash l) (f : Str) :
    f ∈ l.map Sigma.fst ↔ f ∈ hash := by
  rw [← Multiset.mem_coe, listing_keys hash l hl]
  exact Finmap.mem_keys

/-- The callback of complete, for a hash whose chunk count is readable or absent:
its answer depends on the hash and, without a chunk count, on the value that
the local variable happened to hold. -/
theorem completePhase_listing (hash : Hash) (l : List Entry) (hl : Listing hash l) (junk n : ℤ)
    (h : ∀ x, hash.lookup chunkcountField = some x → stoi x = some n) :
    completePhase junk (hgetall l) =
      .answered ⟨if chunkcountField ∈ hash then n else junk,(indices hash).card⟩ := by
  have hs := scan_listing l ⟨junk,0⟩ n (fun e he hc =>
    h e.2 ((listing_mem hash l hl chunkcountField e.2).mp (by rw [← hc]; exact he)))
  rw [completePhase, hs, listing_count hash l hl isProgress, indices_card]
  simp only [mem_keys_listing hash l hl, zero_add]

theorem faithful_indices (v : Server) (k : Str) (s : State) (hF : Faithful v k s) (c : Str) :
    c ∈ indices (s.redis k) ↔
      ∃ id body phase, s.flights id = some (.uppart k c body phase) ∧ 1 ≤ tries phase := by
  rw [mem_indices, Finmap.mem_iff]
  constructor
  · rintro ⟨x,hx⟩
    exact landed_progress v s k c x (hF.sound _ x hx)
  · rintro ⟨id,body,phase,hf,hn⟩
    exact hF.stored _ "1".toList ⟨id,_,hf,rfl,hn⟩

theorem faithful_chunkcount (v : Server) (k x : Str) (s : State) (hF : Faithful v k s)
    (hx : (s.redis k).lookup chunkcountField = some x) :
    ∃ id r n, s.flights id = some (.init r n) ∧ initKey v r = k ∧
      stoi x = some (chunkcount v r) := by
  obtain ⟨id,r,n,hf,hk,rfl,-⟩ := landed_meta v s k x 0 (hF.sound _ x hx)
  exact ⟨id,r,n,hf,hk,stoi_stdToString _ (chunkcount_isInt v r)⟩

/-- The answer given from a hash is a function of the hash, and is FAIL where no
chunk count is stored. -/
def Determined (hash : Hash) : Prop :=
  ∃ a : Answer, (chunkcountField ∉ hash → a = .fail) ∧
    ∀ l junk, Listing hash l → ∃ p, completePhase junk (hgetall l) = .answered p ∧ p.answer = a

theorem determined_of_chunkcount (hash : Hash) (n : ℤ)
    (h : ∀ x, hash.lookup chunkcountField = some x → stoi x = some n)
    (hm : chunkcountField ∈ hash) : Determined hash := by
  refine ⟨(⟨n,(indices hash).card⟩ : Progress).answer,fun hn => absurd hm hn,?_⟩
  intro l junk hl
  refine ⟨⟨n,(indices hash).card⟩,?_,rfl⟩
  rw [completePhase_listing hash l hl junk n h, if_pos hm]

theorem undetermined_of_missing (hash : Hash) (hm : chunkcountField ∉ hash) :
    ¬ Determined hash := by
  rintro ⟨a,hfail,hall⟩
  obtain ⟨l,hl⟩ := exists_listing hash
  obtain ⟨p,hp,hans⟩ := hall l (indices hash).card hl
  rw [completePhase_listing hash l hl _ 0 (fun x hx =>
    absurd (Finmap.mem_of_lookup_eq_some hx) hm), if_neg hm] at hp
  cases hp
  rw [hfail hm, Progress.answer, if_pos rfl] at hans
  cases hans

/-- In every reachable state and for every id, the answer is determined by the
stored hash exactly when its chunk count is stored. -/
theorem answer_determined_iff (h : Host) (disk : Files) (es : List Event) (s : State) (u : Str)
    (hr : runs h (start disk) es = some s) :
    Determined (s.redis u) ↔ chunkcountField ∈ s.redis u := by
  constructor
  · intro hD
    by_contra hm
    exact undetermined_of_missing _ hm hD
  · intro hm
    have hF := run_faithful h u _ s es (start_idle disk) rfl hr
    obtain ⟨x,hx⟩ := Finmap.mem_iff.mp hm
    obtain ⟨id,r,n,-,-,hread⟩ := faithful_chunkcount h.server u x s hF hx
    apply determined_of_chunkcount _ (chunkcount h.server r) _ hm
    intro y hy
    rw [hx] at hy
    cases hy
    exact hread

/-- An index of the key counts once its command has been applied in the run. -/
def Uploaded (es : List Event) (k c : Str) : Prop :=
  ∃ id body, .uppart id k c body ∈ es ∧ .hset id ∈ es

theorem uploaded_iff (h : Host) (s t : State) (es : List Event) (hi : Idle s)
    (hr : runs h s es = some t) (k c : Str) :
    Uploaded es k c ↔
      ∃ id body phase, t.flights id = some (.uppart k c body phase) ∧ 1 ≤ tries phase := by
  have hR := run_records h s t es hi hr
  constructor
  · rintro ⟨id,body,hu,hh⟩
    obtain ⟨phase,hf⟩ := (uppart_sent hR id k c body).mp hu
    exact ⟨id,body,phase,hf,(hset_tried hi hr id k c body phase hf).mp hh⟩
  · rintro ⟨id,body,phase,hf,hn⟩
    exact ⟨id,body,(uppart_sent hR id k c body).mpr ⟨phase,hf⟩,
      (hset_tried hi hr id k c body phase hf).mpr hn⟩

/-- The answer of complete is a function of the set of indices applied to an
upload with a single init: not of their order, of repetitions or retries, of
requests on other keys, of the order of the listing or of the initial value
of the local variable. -/
theorem complete_counts_distinct_indices (h : Host) (s s' t : State) (es : List Event) (i id : ℕ)
    (r : InitRequest) (listing : List Entry) (junk : ℤ)
    (hi : Idle s) (hk : s.redis (initKey h.server r) = ∅) (hr : runs h s es = some s')
    (hinit : .init i r ∈ es)
    (hone : ∀ j r', .init j r' ∈ es → initKey h.server r' = initKey h.server r → j = i)
    (hland : ∀ j, .initHset i j ∈ es)
    (hc : s'.flights id = some (.complete (initKey h.server r) .hgetall))
    (hs : step h s' (.hgetall id (some listing) junk) = some t) :
    ∃ applied : Finset Str, (∀ c, c ∈ applied ↔ Uploaded es (initKey h.server r) c) ∧
      t.flights id = some (.complete (initKey h.server r)
        (.answered ⟨chunkcount h.server r,applied.card⟩)) ∧
      ((⟨chunkcount h.server r,applied.card⟩ : Progress).answer = .success ↔
        (applied.card : ℤ) = chunkcount h.server r) := by
  have hF := run_faithful h _ s s' es hi hk hr
  have hR := run_records h s s' es hi hr
  obtain ⟨n,hf⟩ := (init_sent hR i r).mp hinit
  have hread : ∀ x, (s'.redis (initKey h.server r)).lookup chunkcountField = some x →
      stoi x = some (chunkcount h.server r) := by
    intro x hx
    obtain ⟨j,r',n',hf',hk',hx'⟩ := faithful_chunkcount h.server _ x s' hF hx
    have hj := hone j r' ((init_sent hR j r').mpr ⟨n',hf'⟩) hk'
    subst hj
    rw [hf] at hf'
    cases hf'
    exact hx'
  have hmem : chunkcountField ∈ s'.redis (initKey h.server r) := by
    rw [Finmap.mem_iff]
    exact hF.stored _ (stdToString (chunkcount h.server r))
      ⟨i,_,hf,0,rfl,(initHset_tried hi hr i 0 r n hf).mp (hland 0)⟩
  obtain ⟨u,hu,hl,rfl⟩ := hgetall_inv hs
  rw [hc] at hu
  cases hu
  refine ⟨indices (s'.redis (initKey h.server r)),fun c => ?_,?_,?_⟩
  · rw [faithful_indices h.server _ s' hF, uploaded_iff h s s' es hi hr]
  · rw [put_self, show replyArray (some listing) = hgetall listing from rfl,
      completePhase_listing _ listing (hl listing rfl) junk _ hread, if_pos hmem]
  · simp [Progress.answer]

def sampleHost : Host := ⟨.myDay08,["srv".toList]⟩

def sampleInit : InitRequest where
  filename := "a.bin".toList
  filehash := "ab12".toList
  filesize := 3000000
  time := ⟨15,2⟩

def sampleKey : Str := "xie15:02".toList

def initHsets (id : ℕ) : List Event := [.initHset id 0, .initHset id 1, .initHset id 2]

/-- Two chunks of one upload, with one retried command. -/
def sampleUpload : List Event :=
  [.init 0 sampleInit, .initHset 0 2, .initHset 0 0, .initHset 0 1,
   .uppart 1 sampleKey "1".toList [1,2,3], .uppart 2 sampleKey "2".toList [4], .hget 2 true,
   .callback 2 (.wrote 1), .hset 2, .hget 1 true, .callback 1 (.wrote 3), .hset 1, .hset 1,
   .reply 1, .reply 2, .complete 3 sampleKey]

def sampleListing : List Entry :=
  [⟨progressField "2".toList,"1".toList⟩, ⟨filehashField,"ab12".toList⟩,
   ⟨chunkcountField,"2".toList⟩, ⟨progressField "1".toList,"1".toList⟩,
   ⟨filesizeField,"3000000".toList⟩]

theorem sample_counts : ∃ s t, runs sampleHost (start fun _ => none) sampleUpload = some s ∧
    step sampleHost s (.hgetall 3 (some sampleListing) 77) = some t ∧
    ∃ applied : Finset Str, (∀ c, c ∈ applied ↔ Uploaded sampleUpload sampleKey c) ∧
      t.flights 3 = some (.complete sampleKey (.answered ⟨2,applied.card⟩)) ∧
      ((⟨2,applied.card⟩ : Progress).answer = .success ↔ (applied.card : ℤ) = 2) := by
  refine ⟨_,_,rfl,hgetall_step 77 rfl (by decide),?_⟩
  exact complete_counts_distinct_indices sampleHost (start fun _ => none) _ _ sampleUpload 0 3
    sampleInit sampleListing 77 (start_idle _) rfl rfl (by simp [sampleUpload])
    (fun j r' hm _ => by simp only [sampleUpload, List.mem_cons, Event.init.injEq,
      reduceCtorEq, List.not_mem_nil, or_false] at hm; exact hm.1)
    (by decide) rfl (hgetall_step 77 rfl (by decide))

theorem sample_determined :
    ∃ s, runs sampleHost (start fun _ => none) sampleUpload = some s ∧
      chunkcountField ∈ s.redis sampleKey ∧ Determined (s.redis sampleKey) := by
  refine ⟨_,rfl,by decide,?_⟩
  exact (answer_determined_iff sampleHost (fun _ => none) sampleUpload _ sampleKey rfl).mpr
    (by decide)

def unknownUpload : List Event := [.complete 0 sampleKey, .hgetall 0 (some []) 0]

theorem unknown_upload_reported_complete :
    ∃ s, runs sampleHost (start fun _ => none) unknownUpload = some s ∧
      s.flights 0 = some (.complete sampleKey (.answered ⟨0,0⟩)) ∧
      (⟨0,0⟩ : Progress).answer = .success ∧ ¬ Determined (s.redis sampleKey) :=
  ⟨_,rfl,rfl,rfl,undetermined_of_missing _ (by decide)⟩

end WdHttp.MuploadProgress
