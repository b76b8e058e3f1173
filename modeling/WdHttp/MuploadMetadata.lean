import WdHttp.MuploadRequest

/-!
# The metadata of an upload

Init stores three fields under the key of its upload, and uppart stores progress
fields under keys that its client chooses. A metadata field always holds what the
last applied command of an init for that key wrote, so that the number of chunks
read by complete is the number some init computed.
-/

set_option autoImplicit false

namespace WdHttp.MuploadMetadata
open WdHttp.CText WdHttp.PosixFile WdHttp.RedisHash WdHttp.MuploadServer WdHttp.MuploadHistory
open WdHttp.MuploadPlan WdHttp.MuploadProgress WdHttp.MuploadRequest WdHttp.PartialRun

def InitHset (v : Server) (es : List Event) (k : Str) (j : Fin 3) (r : InitRequest)
    (e : Event) : Prop :=
  ∃ id, e = .initHset id j ∧ .init id r ∈ es ∧ initKey v r = k

/-- The last command applied to this field of this key is that of the request. -/
def LastInit (v : Server) (es : List Event) (k : Str) (j : Fin 3) (r : InitRequest) : Prop :=
  ∃ e, InitHset v es k j r e ∧ IsLast (fun e => ∃ r', InitHset v es k j r' e) es e

section Steps

variable {h : Host} {s t : State} {e : Event}

theorem step_meta (hs : step h s e = some t) :
    (∃ id j r n, e = .initHset id j ∧ s.flights id = some (.init r n) ∧
      ∀ k i, hget t.redis k (metaField i) =
        if k = initKey h.server r ∧ i = j then some (argsVec h.server r j).value
        else hget s.redis k (metaField i)) ∨
    (∀ id j, e ≠ .initHset id j) ∧
      ∀ k i, hget t.redis k (metaField i) = hget s.redis k (metaField i) := by
  by_cases hc : IsCommand e
  · cases e with
    | initHset id j =>
      obtain ⟨r,n,hf,-,rfl⟩ := initHset_inv hs
      refine Or.inl ⟨id,j,r,n,rfl,hf,fun k i => ?_⟩
      rw [put_redis, hset_redis, hget_hset, argsVec_key, argsVec_field]
      simp only [metaField_injective.eq_iff]
    | hset id =>
      obtain ⟨u,c,body,n,-,-,rfl⟩ := hset_inv hs
      refine Or.inr ⟨fun _ _ => Event.noConfusion,fun k i => ?_⟩
      rw [put_redis, hset_redis, hget_hset, if_neg]
      rintro ⟨-,hf⟩
      exact metaField_take i (hf ▸ progressField_take c)
    | _ => exact hc.elim
  · refine Or.inr ⟨?_,fun k i => by rw [redis_kept h s t e hs hc]⟩
    rintro id j rfl
    exact hc trivial

end Steps

section History

variable {h : Host} {s₀ s t : State} {es : List Event} {e : Event}

theorem init_unique (hi : Idle s₀) (hr : runs h s₀ es = some s) (id : ℕ) (r r' : InitRequest)
    (hm : .init id r ∈ es) (hm' : .init id r' ∈ es) : r = r' := by
  have hR := run_records h s₀ s es hi hr
  obtain ⟨n,hf⟩ := (init_sent hR id r).mp hm
  obtain ⟨n',hf'⟩ := (init_sent hR id r').mp hm'
  rw [hf] at hf'
  cases hf'
  rfl

theorem initHset_snoc (v : Server) (hi : Idle s₀) (hr : runs h s₀ es = some s)
    (hs : step h s e = some t) (k : Str) (j : Fin 3) (r : InitRequest) (e' : Event)
    (he' : e' ∈ es) : InitHset v (es++[e]) k j r e' ↔ InitHset v es k j r e' := by
  constructor
  · rintro ⟨id,rfl,hm,hk⟩
    refine ⟨id,rfl,?_,hk⟩
    rcases List.mem_append.mp hm with hm | hm
    · exact hm
    · obtain rfl := List.mem_singleton.mp hm
      obtain ⟨hn,-⟩ := arrive_inv hs
      obtain ⟨r',n,hf,-⟩ := (initHset_mem_iff hi hr id j).mp he'
      rw [hn] at hf
      cases hf
  · rintro ⟨id,rfl,hm,hk⟩
    exact ⟨id,rfl,List.mem_append_left _ hm,hk⟩

theorem lastInit_snoc_other (v : Server) (hi : Idle s₀) (hr : runs h s₀ es = some s)
    (hs : step h s e = some t) (k : Str) (j : Fin 3) (r : InitRequest)
    (hno : ¬ ∃ r', InitHset v (es++[e]) k j r' e) :
    LastInit v (es++[e]) k j r ↔ LastInit v es k j r := by
  have hsnoc := initHset_snoc v hi hr hs k j
  have hlast : ∀ e', IsLast (fun e' => ∃ r', InitHset v (es++[e]) k j r' e') (es++[e]) e' ↔
      IsLast (fun e' => ∃ r', InitHset v es k j r' e') es e' := by
    intro e'
    rw [isLast_snoc_other es e' e hno]
    exact isLast_congr (fun d hd => exists_congr fun r' => hsnoc r' d hd) e'
  constructor
  · rintro ⟨e',hI,hl⟩
    have hl' := (hlast e').mp hl
    exact ⟨e',(hsnoc r e' hl'.mem).mp hI,hl'⟩
  · rintro ⟨e',hI,hl⟩
    exact ⟨e',(hsnoc r e' hl.mem).mpr hI,(hlast e').mpr hl⟩

theorem lastInit_snoc_self (v : Server) (k : Str) (j : Fin 3) (r : InitRequest)
    (he : ∃ r', InitHset v (es++[e]) k j r' e) :
    LastInit v (es++[e]) k j r ↔ InitHset v (es++[e]) k j r e := by
  constructor
  · rintro ⟨e',hI,hl⟩
    rwa [(isLast_snoc_self es e' e he).mp hl] at hI
  · intro hI
    exact ⟨e,hI,(isLast_snoc_self es e e he).mpr rfl⟩

theorem run_lastInit (hi : Idle s₀) (h0 : ∀ k, s₀.redis k = ∅) (hr : runs h s₀ es = some s)
    (k x : Str) (j : Fin 3) :
    hget s.redis k (metaField j) = some x ↔
      ∃ r, LastInit h.server es k j r ∧ x = (argsVec h.server r j).value := by
  induction es using List.reverseRecOn generalizing s with
  | nil =>
    cases hr
    constructor
    · intro hx
      simp [hget, h0 k] at hx
    · rintro ⟨r,⟨e,-,hl⟩,-⟩
      exact absurd hl.mem (by simp)
  | append_singleton es e ih =>
    have hr' := hr
    obtain ⟨m,hm,hs⟩ := (run_snoc_iff s₀ s es e).mp hr
    have ih := ih hm
    rcases step_meta hs with ⟨id,j',r,n,rfl,hf,hget⟩ | ⟨hne,hget⟩
    · have hinit : .init id r ∈ es := (init_sent (run_records h s₀ m es hi hm) id r).mpr ⟨n,hf⟩
      have hinit' : .init id r ∈ es++[.initHset id j'] := List.mem_append_left _ hinit
      rw [hget k j]
      split
      · rename_i hkj
        obtain ⟨rfl,rfl⟩ := hkj
        have hself : InitHset h.server (es++[.initHset id j]) (initKey h.server r) j r
            (.initHset id j) := ⟨id,rfl,hinit',rfl⟩
        simp only [lastInit_snoc_self h.server _ j _ ⟨r,hself⟩]
        constructor
        · intro hx
          exact ⟨r,hself,(Option.some.inj hx).symm⟩
        · rintro ⟨r',⟨id',he,hm',-⟩,rfl⟩
          cases he
          rw [init_unique hi hr' id r r' hinit' hm']
      · rename_i hkj
        have hno : ¬ ∃ r', InitHset h.server (es++[.initHset id j']) k j r' (.initHset id j') := by
          rintro ⟨r',id',he,hm',hk⟩
          cases he
          obtain rfl := init_unique hi hr' id r r' hinit' hm'
          exact hkj ⟨hk.symm,rfl⟩
        simp only [lastInit_snoc_other h.server hi hm hs k j _ hno]
        exact ih
    · have hno : ¬ ∃ r', InitHset h.server (es++[e]) k j r' e := by
        rintro ⟨r',id',he,-,-⟩
        exact hne id' j he
      simp only [lastInit_snoc_other h.server hi hm hs k j _ hno]
      rw [hget k j]
      exact ih

end History

/-- The labels of a run of requests and tasks. -/
def trace (v : Server) (parse : Parse) : List Input → List Event
  | [] => []
  | .request id q::es =>
    ((process v parse q).issued.map (arrival id)).toList ++ trace v parse es
  | .task e::es => e::trace v parse es

theorem run_trace (h : Host) (parse : Parse) (w w' : Web) (es : List Input)
    (hr : run (webStep h parse) w es = some w') :
    runs h w.state (trace h.server parse es) = some w'.state := by
  induction es generalizing w with
  | nil =>
    cases hr
    rfl
  | cons i es ih =>
    obtain ⟨m,hm,hr⟩ := (run_cons_iff w w' i es).mp hr
    have ih := ih m hr
    cases i with
    | request id q =>
      obtain ⟨-,-,hstate⟩ := request_inv hm
      rcases hstate with ⟨hst,hn⟩ | ⟨f,hf,hst⟩
      · rw [trace, hn, ← hst]
        exact ih
      · rw [trace, hf]
        exact (run_cons_iff _ _ _ _).mpr ⟨m.state,hst,ih⟩
    | task e =>
      obtain ⟨-,hst,-⟩ := task_inv hm
      exact (run_cons_iff _ _ _ _).mpr ⟨m.state,hst,ih⟩

def initCommand : Input → Bool
  | .task (.initHset _ _) => true
  | _ => false

/-- The metadata in a state is that of the last init commands, every number of
chunks is read as it was computed, and only a command of an init changes a field. -/
structure MetadataKept (h : Host) (parse : Parse) (es : List Input) (w : Web) : Prop where
  last : ∀ k j x, hget w.state.redis k (metaField j) = some x ↔
    ∃ r, LastInit h.server (trace h.server parse es) k j r ∧ x = (argsVec h.server r j).value
  canonical : ∀ k x, hget w.state.redis k chunkcountField = some x →
    ∃ r, LastInit h.server (trace h.server parse es) k 0 r ∧ IsInt (chunkcount h.server r) ∧
      x = stdToString (chunkcount h.server r) ∧ stoi x = some (chunkcount h.server r)
  untouched : ∀ i w', webStep h parse w i = some w' → initCommand i = false →
    ∀ k j, hget w'.state.redis k (metaField j) = hget w.state.redis k (metaField j)
  read : ∀ u l junk, Listing (w.state.redis u) l →
    ∃ p, completePhase junk (hgetall l) = .answered p ∧
    ∀ r, LastInit h.server (trace h.server parse es) u 0 r → p.chunkcount = chunkcount h.server r

theorem step_untouched (h : Host) (parse : Parse) (w w' : Web) (i : Input)
    (hs : webStep h parse w i = some w') (hi : initCommand i = false) (k : Str) (j : Fin 3) :
    hget w'.state.redis k (metaField j) = hget w.state.redis k (metaField j) := by
  cases i with
  | request id q =>
    obtain ⟨-,-,⟨hst,-⟩ | ⟨f,-,hst⟩⟩ := request_inv hs
    · rw [hst]
    · rcases step_meta hst with ⟨id',j',r,n,he,-⟩ | ⟨-,hget⟩
      · cases f <;> cases he
      · exact hget k j
  | task e =>
    obtain ⟨-,hst,-⟩ := task_inv hs
    rcases step_meta hst with ⟨id',j',r,n,rfl,-⟩ | ⟨-,hget⟩
    · cases hi
    · exact hget k j

/-- In every run of requests with any targets and any bodies, the metadata survives
the way through the store. -/
theorem metadata_kept (h : Host) (parse : Parse) (disk : Files) (es : List Input) (w : Web)
    (hr : run (webStep h parse) (webStart disk) es = some w) : MetadataKept h parse es w := by
  have hrun : runs h (start disk) (trace h.server parse es) = some w.state :=
    run_trace h parse (webStart disk) w es hr
  have hlast := run_lastInit (start_idle disk) (fun _ => rfl) hrun
  have hcount : ∀ k x, hget w.state.redis k chunkcountField = some x →
      ∃ r, LastInit h.server (trace h.server parse es) k 0 r ∧ IsInt (chunkcount h.server r) ∧
        x = stdToString (chunkcount h.server r) ∧ stoi x = some (chunkcount h.server r) := by
    intro k x hx
    obtain ⟨r,hl,rfl⟩ := (hlast k x 0).mp hx
    have hint := chunkcount_isInt h.server r
    exact ⟨r,hl,hint,rfl,stoi_stdToString _ hint⟩
  refine ⟨fun k j x => hlast k x j,hcount,fun i w' hs hi => step_untouched h parse w w' i hs hi,?_⟩
  intro u l junk hl
  have hF := run_faithful h u _ w.state _ (start_idle disk) rfl hrun
  obtain ⟨p,hp⟩ := faithful_answers h.server u w.state hF l hl junk
  refine ⟨p,hp,fun r hr' => ?_⟩
  have hx : (w.state.redis u).lookup chunkcountField = some (stdToString (chunkcount h.server r)) :=
    (hlast u _ 0).mpr ⟨r,hr',rfl⟩
  have hread := completePhase_listing _ l hl junk (chunkcount h.server r) (fun y hy => by
    rw [hx] at hy
    cases hy
    exact stoi_stdToString _ (chunkcount_isInt h.server r))
  rw [hp, if_pos (Finmap.mem_of_lookup_eq_some hx)] at hread
  cases hread
  rfl

def largeBody : Bytes :=
  bytesOf "\x7b\"filename\":\"a\",\"filehash\":\"b\",\"filesize\":3000000000\x7d".toList

def largeParse : Parse := fun body =>
  if body = largeBody then some (.object (members (.numberUnsigned 3000000000))) else none

def lateKey : Str := "xie23:59".toList

def countChunk : Request :=
  ⟨postText,uppartPath ++ "?uploadID=xie23:59&chkidx=count".toList,[1],⟨Fin.last 23,Fin.last 59⟩⟩

def largeUpload : List Input :=
  .request 0 (initWith largeBody) :: (List.finRange 3).map (fun j => .task (.initHset 0 j)) ++
    [.request 1 countChunk,.task (.hget 1 true),.task (.callback 1 (.wrote 1)),.task (.hset 1)]

theorem largeUpload_kept :
    ∃ w, run (webStep sampleHost largeParse) (webStart fun _ => none) largeUpload = some w ∧
      hget w.state.redis lateKey chunkcountField = some "-616".toList ∧
      MetadataKept sampleHost largeParse largeUpload w := by
  refine ⟨_,rfl,?_,metadata_kept sampleHost largeParse (fun _ => none) largeUpload _ rfl⟩
  decide +kernel

end WdHttp.MuploadMetadata
